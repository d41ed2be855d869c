import Mathlib.Data.List.Basic
import Mathlib.Tactic.Common
import RelayLadder.Json.Printer
import RelayLadder.Json.Reader

/-!
# Reading what was written

Strings, and arrays of what can be read back, are read back from their written form.

**Reading as a fold.**  `Leads s p p'` says that reading the text `s` leads from the
progress `p` to `p'`.  Written parts are followed one by one, whatever is still open
around them: `Wants nesting outer` says that a value is wanted next, and that it will be
delivered to the open arrays and objects `outer`.

**Layouts.**  Between parts a layout may write spaces only; the compact and the pretty
layout do.

**Results.**
* `leads_escape`, `leads_quoted`: a written character and a written string are read back.
* `parse?_write`: a value of strings and arrays is read back, with spaces behind it.
-/

namespace RelayLadder
namespace Json

section Defs

/-- Reading a text leads from one progress to another. -/
def Leads (s : List Char) (p p' : Progress) : Prop :=
  s.foldlM Progress.feed p = some p'

/-- A value is wanted next, to be delivered to `outer`. -/
inductive Wants : Nesting → List Frame → Prop
  | value (outer : List Frame) : Wants (.value outer) outer
  | firstItem (outer : List Frame) : Wants (.firstItem outer) (.arr [] :: outer)

/-- The value is made of strings and arrays. -/
inductive Textual : Json → Prop
  | str (s : String) : Textual (.str s)
  | arr {items : List Json} : (∀ j ∈ items, Textual j) → Textual (.arr items)

/-- The layout writes nothing but spaces before items and closing brackets. -/
def Layout.Spaced (l : Layout) : Prop :=
  ∀ depth, ∀ c ∈ l.lineBreak depth, Lexeme.isSpace c = true

end Defs

section Steps

variable {s t : List Char} {p p' p'' : Progress} {c : Char} {nesting : Nesting}
  {outer : List Frame}

theorem Leads.append
    (h : Leads s p p') (h' : Leads t p' p'') :
    Leads (s ++ t) p p'' := by
  rw [Leads, List.foldlM_append, show s.foldlM Progress.feed p = some p' from h]
  exact h'

theorem leads_singleton
    (h : p.feed c = some p') :
    Leads [c] p p' := by
  rw [Leads, List.foldlM_cons, h]
  rfl

theorem leads_spaces
    (h : ∀ c ∈ s, Lexeme.isSpace c = true) (nesting : Nesting) :
    Leads s ⟨.between, nesting⟩ ⟨.between, nesting⟩ := by
  induction s with
  | nil => rfl
  | cons c s ih =>
      obtain ⟨hc, hs⟩ := List.forall_mem_cons.mp h
      have hfeed : Progress.feed ⟨.between, nesting⟩ c = some ⟨.between, nesting⟩ := by
        simp [Progress.feed, Lexeme.step, Lexeme.start, hc]
      exact (leads_singleton hfeed).append (ih hs)

/-- A bracket or a comma is a token of its own. -/
theorem leads_punctuation
    {token : Token} {nesting' : Nesting}
    (hstart : Lexeme.start c = some ([token], .between))
    (h : nesting.accept token = some nesting') :
    Leads [c] ⟨.between, nesting⟩ ⟨.between, nesting'⟩ := by
  refine leads_singleton ?_
  simp [Progress.feed, Lexeme.step, hstart, h]

theorem Wants.accept_text
    (h : Wants nesting outer) (s : String) :
    nesting.accept (.text s) = some (.deliver (.str s) outer) := by
  cases h <;> rfl

theorem Wants.accept_openArr
    (h : Wants nesting outer) :
    nesting.accept .openArr = some (.firstItem outer) := by
  cases h <;> rfl

end Steps

section Strings

variable {nesting : Nesting} {outer : List Frame}

theorem hexValue?_hexDigit :
    ∀ n < 16, Lexeme.hexValue? (hexDigit n) = some n := by
  decide

/-- A control without a short form is read back from its code. -/
theorem leads_code
    {c : Char} (h : c.toNat < 0x20) (read : List Char) (nesting : Nesting) :
    Leads ['\\', 'u', '0', '0', hexDigit (c.toNat / 16), hexDigit (c.toNat % 16)]
      ⟨.string read, nesting⟩ ⟨.string (c :: read), nesting⟩ := by
  have hzeros : Leads ['\\', 'u', '0', '0'] ⟨.string read, nesting⟩
      ⟨.code read none 0 2, nesting⟩ := rfl
  have hhigh : Leads [hexDigit (c.toNat / 16)] ⟨.code read none 0 2, nesting⟩
      ⟨.code read none (c.toNat / 16) 1, nesting⟩ := by
    refine leads_singleton ?_
    simp [Progress.feed, Lexeme.step, hexValue?_hexDigit (c.toNat / 16) (by omega)]
  have hlow : Leads [hexDigit (c.toNat % 16)] ⟨.code read none (c.toNat / 16) 1, nesting⟩
      ⟨.string (c :: read), nesting⟩ := by
    have hvalue : 16 * (c.toNat / 16) + c.toNat % 16 = c.toNat := Nat.div_add_mod _ _
    have hcode : Lexeme.afterCode read none c.toNat = some (.string (c :: read)) := by
      have hhigh : ¬ 0xD800 ≤ c.toNat := by omega
      have hlow : ¬ 0xDC00 ≤ c.toNat := by omega
      simp [Lexeme.afterCode, hhigh, hlow, Char.ofNat_toNat]
    refine leads_singleton ?_
    simp [Progress.feed, Lexeme.step, hexValue?_hexDigit (c.toNat % 16) (by omega), hvalue, hcode]
  exact (hzeros.append hhigh).append hlow

/-- **A written character is read back inside a string.** -/
theorem leads_escape
    (c : Char) (read : List Char) (nesting : Nesting) :
    Leads (escape c) ⟨.string read, nesting⟩ ⟨.string (c :: read), nesting⟩ := by
  unfold escape
  split_ifs with hquote hslash hb ht hn hf hr hcontrol
  · subst hquote
    rfl
  · subst hslash
    rfl
  · subst hb
    rfl
  · subst ht
    rfl
  · subst hn
    rfl
  · subst hf
    rfl
  · subst hr
    rfl
  · exact leads_code hcontrol read nesting
  · refine leads_singleton ?_
    simp [Progress.feed, Lexeme.step, hquote, hslash, hcontrol]

theorem leads_flatMap_escape
    (s read : List Char) (nesting : Nesting) :
    Leads (s.flatMap escape) ⟨.string read, nesting⟩ ⟨.string (s.reverse ++ read), nesting⟩ := by
  induction s generalizing read with
  | nil => rfl
  | cons c s ih =>
      have hrest := (leads_escape c read nesting).append (ih (c :: read))
      rwa [List.flatMap_cons, List.reverse_cons, List.append_assoc]

/-- **A written string is read back where a value is wanted.** -/
theorem leads_quoted
    (s : String) (h : Wants nesting outer) :
    Leads (quoted s) ⟨.between, nesting⟩ ⟨.between, .deliver (.str s) outer⟩ := by
  have hopen : Leads ['"'] ⟨.between, nesting⟩ ⟨.string [], nesting⟩ := rfl
  have hinner := leads_flatMap_escape s.toList [] nesting
  have hclose : Leads ['"'] ⟨.string (s.toList.reverse ++ []), nesting⟩
      ⟨.between, .deliver (.str s) outer⟩ := by
    refine leads_singleton ?_
    simp [Progress.feed, Lexeme.step, h.accept_text]
  exact (hopen.append hinner).append hclose

end Strings

section Arrays

variable {l : Layout} {nesting : Nesting} {outer : List Frame}

/-- The value is read back, at every depth, where a value is wanted. -/
def ReadsBack (l : Layout) (j : Json) : Prop :=
  ∀ depth nesting outer, Wants nesting outer →
    Leads (write l depth j) ⟨.between, nesting⟩ ⟨.between, .deliver j outer⟩

/-- Items after the first wanted one are read up to the last, which is still inside the array. -/
theorem leads_items
    (hl : l.Spaced) {item : Json} {items done : List Json}
    (hitem : ReadsBack l item) (hitems : ∀ j ∈ items, ReadsBack l j)
    (h : Wants nesting (.arr done :: outer)) (depth : Nat) :
    Leads (Text.joinWith [',']
        ((writeItems l depth (item :: items)).map (l.lineBreak depth ++ ·)))
      ⟨.between, nesting⟩ ⟨.between, .afterItem ((item :: items).reverse ++ done) outer⟩ := by
  have hfirst : Leads (l.lineBreak depth ++ write l depth item) ⟨.between, nesting⟩
      ⟨.between, .afterItem (item :: done) outer⟩ :=
    (leads_spaces (hl depth) nesting).append (hitem depth nesting _ h)
  induction items generalizing item done nesting with
  | nil => exact hfirst
  | cons next items ih =>
      obtain ⟨hnext, hrest⟩ := List.forall_mem_cons.mp hitems
      have hcomma : Leads [','] ⟨.between, .afterItem (item :: done) outer⟩
          ⟨.between, .value (.arr (item :: done) :: outer)⟩ := leads_punctuation rfl rfl
      have hwants : Wants (.value (.arr (item :: done) :: outer)) (.arr (item :: done) :: outer) :=
        .value _
      have hothers := ih hnext hrest hwants
        ((leads_spaces (hl depth) _).append (hnext depth _ _ hwants))
      have hall := (hfirst.append hcomma).append hothers
      rw [List.reverse_cons, List.append_assoc]
      exact hall

/-- An array is read back if its items are. -/
theorem readsBack_arr
    (hl : l.Spaced) {items : List Json} (h : ∀ j ∈ items, ReadsBack l j) :
    ReadsBack l (.arr items) := by
  intro depth nesting outer hwants
  have hopen : Leads ['['] ⟨.between, nesting⟩ ⟨.between, .firstItem outer⟩ :=
    leads_punctuation rfl hwants.accept_openArr
  cases items with
  | nil =>
      have hclose : Leads [']'] ⟨.between, .firstItem outer⟩
          ⟨.between, .deliver (.arr []) outer⟩ := leads_punctuation rfl rfl
      exact hopen.append hclose
  | cons item items =>
      obtain ⟨hitem, hitems⟩ := List.forall_mem_cons.mp h
      have hbody := leads_items hl hitem hitems (.firstItem outer) (depth + 1)
      have hclose : Leads [']'] ⟨.between, .afterItem ((item :: items).reverse ++ []) outer⟩
          ⟨.between, .deliver (.arr (item :: items)) outer⟩ := by
        refine leads_punctuation rfl ?_
        rw [List.append_nil, Nesting.accept, List.reverse_reverse]
      exact ((hopen.append hbody).append (leads_spaces (hl depth) _)).append hclose

/-- **Values of strings and arrays are read back**, in every layout that writes spaces only. -/
theorem Textual.readsBack
    (hl : l.Spaced) {j : Json} (h : Textual j) :
    ReadsBack l j := by
  induction h with
  | str s => exact fun _ _ _ hwants => leads_quoted s hwants
  | arr _ ih => exact readsBack_arr hl ih

end Arrays

section Texts

theorem spaced_compact :
    Layout.Spaced .compact := by
  intro depth c hc
  cases hc

theorem spaced_pretty :
    Layout.Spaced .pretty := by
  intro depth c hc
  rcases List.mem_cons.mp hc with rfl | hc
  · rfl
  · rw [List.eq_of_mem_replicate hc]
    rfl

/-- A written value of strings and arrays denotes that value, with spaces behind it. -/
theorem parse?_write
    {l : Layout} {j : Json} {spaces : List Char}
    (hl : l.Spaced) (hj : Textual j) (hspaces : ∀ c ∈ spaces, Lexeme.isSpace c = true) :
    parse? (String.ofList (write l 0 j ++ spaces)) = some j := by
  have hvalue := hj.readsBack hl 0 _ _ (.value [])
  have hread : (write l 0 j ++ spaces).foldlM Progress.feed .start =
      some ⟨.between, .complete j⟩ :=
    hvalue.append (leads_spaces hspaces _)
  rw [parse?, String.toList_ofList, hread]
  rfl

end Texts

end Json
end RelayLadder
