import RelayLadder.Proofs.Schematic.Partition
import RelayLadder.Proofs.Schematic.Place

/-!
# Commentary and line ends

**Commentary.**  A line that is not bordered gives no row.  A bordered line behind
blanks gives a row only where the blanks in front of the whole text are removed with
it; such lines are left out here.

**Places.**  Lines that are put in or taken out, and other line ends, move the rows
behind them.  Offsets are used for the places of faults only, so two texts whose rows
have the same cells are compiled to the same program or refused for the same flaw.

**Results.**
* `cells_rowsOf_joined`: the rows of joined lines are those of the lines.
* `agree_of_cells`: texts whose rows have the same cells are read alike.
* `compile_recommented`: commentary and line ends do not matter.
-/

namespace RelayLadder

section Defs

/-- The same program, or flaws of the same kind with the same remainder, wherever they stand. -/
inductive Agree : Except Fault Program → Except Fault Program → Prop
  | program (p : Program) : Agree (.ok p) (.ok p)
  | flaw (flaw : Flaw) (remainder : String) (span span' : Span) :
    Agree (.error (.malformed flaw remainder span)) (.error (.malformed flaw remainder span'))

/-- The fault without its place. -/
def Fault.unplaced : Fault → Fault
  | malformed flaw remainder _ => malformed flaw remainder ⟨0, 0⟩
  | cause => cause

/-- The row without its place. -/
def Row.unplaced (row : Row) : Row :=
  ⟨row.cells, 0⟩

namespace Rung

/-- The line is bordered, up to the blanks at its end. -/
def HasRow (line : String) : Prop :=
  IsBordered (Text.trimEnd line.toList)

/-- The line starts with a blank, and without the blanks at its ends it is bordered. -/
def IsIndented (line : List Char) : Prop :=
  line.head?.any Text.isBlank = true ∧ IsBordered (Text.trim line)

/-- A single line that is not a bordered one behind blanks. -/
def IsPlain (line : String) : Prop :=
  '\n' ∉ line.toList ∧ ¬ IsIndented line.toList

instance : DecidablePred HasRow :=
  fun line => inferInstanceAs (Decidable (IsBordered (Text.trimEnd line.toList)))

instance : DecidablePred IsIndented :=
  fun line => inferInstanceAs
    (Decidable (line.head?.any Text.isBlank = true ∧ IsBordered (Text.trim line)))

instance : DecidablePred IsPlain :=
  fun line => inferInstanceAs (Decidable ('\n' ∉ line.toList ∧ ¬ IsIndented line.toList))

/-- The second list of lines is made of the first one by putting in and taking out lines without a
row. -/
inductive Recommented (ls : List String) : List String → Prop
  | refl : Recommented ls ls
  | insert (front back : List String) (line : String) (hline : ¬ HasRow line)
      (h : Recommented ls (front ++ back)) : Recommented ls (front ++ line :: back)
  | delete (front back : List String) (line : String) (hline : ¬ HasRow line)
      (h : Recommented ls (front ++ line :: back)) : Recommented ls (front ++ back)

end Rung

end Defs

section Places

theorem relocates_unplaced :
    Wire.Relocates Row.unplaced Fault.unplaced Fault.unplaced :=
  ⟨fun _ => rfl, fun _ _ _ => rfl⟩

theorem exists_malformed_of_compile
    {text : String} {cause : Fault}
    (h : compile text = .error cause) :
    ∃ flaw remainder span, cause = .malformed flaw remainder span := by
  obtain ⟨rung, -, hprogram⟩ := exists_rung_of_compile_error h
  exact Rung.exists_malformed_of_program hprogram

variable {s t : String}

/-- Texts whose rows have the same cells are read alike. -/
theorem agree_of_cells
    (h : (Rung.rowsOf s.toList).map Row.cells = (Rung.rowsOf t.toList).map Row.cells) :
    Agree (compile s) (compile t) := by
  have hunplaced : ∀ text : String, (compile text).mapError Fault.unplaced =
      (Program.ofRungs (Rung.group
        (((Rung.rowsOf text.toList).map Row.cells).map (Row.mk · 0)))).mapError Fault.unplaced := by
    intro text
    rw [List.map_map, compile, Rung.split, ← Program.ofRungs_relocated relocates_unplaced,
      ← Rung.group_map (f := Row.unplaced) fun _ => rfl]
    rfl
  have hst : (compile s).mapError Fault.unplaced = (compile t).mapError Fault.unplaced := by
    rw [hunplaced, hunplaced, h]
  rcases cases_of_mapError_eq hst with ⟨p, hs, ht⟩ | ⟨cause, cause', hs, ht, hcause⟩
  · rw [hs, ht]
    exact .program p
  · obtain ⟨flaw, remainder, span, rfl⟩ := exists_malformed_of_compile hs
    obtain ⟨flaw', remainder', span', rfl⟩ := exists_malformed_of_compile ht
    cases hcause
    rw [hs, ht]
    exact .flaw flaw remainder span span'

end Places

namespace Rung

section Lines

variable {line piece : List Char} {ch : Char}

/-- A line with content starts with a border. -/
theorem head?_of_content?
    {cells : List Char}
    (h : content? (Text.trimEnd line) = some cells) :
    line.head? = some '|' := by
  obtain ⟨blanks, hline, -⟩ := Text.exists_trimEnd_append line
  rw [← hline, content?_eq_some_iff.mp h]
  rfl

theorem content?_of_blank
    (hch : Text.isBlank ch = true) :
    content? (Text.trimEnd (ch :: piece)) = none := by
  cases hcontent : content? (Text.trimEnd (ch :: piece)) with
  | none => rfl
  | some cells =>
      cases head?_of_content? hcontent
      cases hch

theorem trim_cons_of_blank
    (hch : Text.isBlank ch = true) :
    Text.trim (ch :: piece) = Text.trim piece := by
  rw [Text.trim, Text.trimStart, List.dropWhile_cons_of_pos hch]
  rfl

/-- A line has no content if it is not even bordered behind a blank. -/
theorem content?_of_not_isIndented
    (hch : Text.isBlank ch = true) (h : ¬ IsIndented (ch :: piece)) :
    content? (Text.trimEnd piece) = none := by
  cases hcontent : content? (Text.trimEnd piece) with
  | none => rfl
  | some cells =>
      refine absurd ⟨hch, ?_⟩ h
      have hhead : ∀ a ∈ piece.head?, Text.isBlank a = false := by
        intro a ha
        rw [head?_of_content? hcontent] at ha
        cases ha
        decide
      rw [trim_cons_of_blank hch, Text.trim, Text.trimStart_of_head hhead,
        content?_eq_some_iff.mp hcontent]
      exact isBordered_bordered cells

theorem not_isIndented_of_cons
    (hch : Text.isBlank ch = true) (h : ¬ IsIndented (ch :: piece)) :
    ¬ IsIndented piece := by
  rintro ⟨-, hbordered⟩
  refine h ⟨hch, ?_⟩
  rwa [trim_cons_of_blank hch]

/-- The blanks in front of a text need not be removed to find the contents of its lines. -/
theorem contents_lines_trimStart
    {text : List Char}
    (h : ∀ line ∈ Text.lines text, ¬ IsIndented line) :
    ((Text.lines (Text.trimStart text)).filterMap fun line => content? (Text.trimEnd line)) =
      (Text.lines text).filterMap fun line => content? (Text.trimEnd line) := by
  induction text with
  | nil => rfl
  | cons ch text ih =>
      cases hch : Text.isBlank ch with
      | false =>
          have hhead : ∀ a ∈ (ch :: text).head?, Text.isBlank a = false := by
            rintro a ⟨⟩
            exact hch
          rw [Text.trimStart_of_head hhead]
      | true =>
          have hstart : Text.trimStart (ch :: text) = Text.trimStart text :=
            List.dropWhile_cons_of_pos hch
          rw [hstart]
          by_cases hfeed : ch = '\n'
          · subst hfeed
            have hlines : Text.lines ('\n' :: text) = [] :: Text.lines text := rfl
            rw [hlines] at h ⊢
            exact ih fun line hline => h line (List.mem_cons_of_mem _ hline)
          · -- The blank belongs to the first line, which has no content with it or without it.
            obtain ⟨first, rest, hfirst⟩ := List.exists_cons_of_ne_nil (Text.pieces_ne_nil
              (· == '\n') text)
            have hlines : Text.lines (ch :: text) = (ch :: first) :: rest :=
              Text.pieces_cons_of_not (beq_false_of_ne hfeed) hfirst
            have htext : Text.lines text = first :: rest := hfirst
            rw [hlines] at h ⊢
            have hplain := h (ch :: first) List.mem_cons_self
            rw [ih, htext, List.filterMap_cons, List.filterMap_cons, content?_of_blank hch,
              content?_of_not_isIndented hch hplain]
            intro line hline
            rw [htext] at hline
            rcases List.mem_cons.mp hline with rfl | hline
            · exact not_isIndented_of_cons hch hplain
            · exact h line (List.mem_cons_of_mem _ hline)

end Lines

section Joined

/-- The second line is the first one, with or without a carriage return at its end. -/
def SameLine (line line' : List Char) : Prop :=
  line' = line ∨ line' = line ++ ['\r']

variable {line line' : List Char}

theorem SameLine.content?_eq
    (h : SameLine line line') :
    content? (Text.trimEnd line') = content? (Text.trimEnd line) := by
  rcases h with rfl | rfl
  · rfl
  · rw [Text.trimEnd_append_blank line (by decide)]

theorem SameLine.not_isIndented
    (h : SameLine line line') (hline : ¬ IsIndented line) :
    ¬ IsIndented line' := by
  rcases h with rfl | rfl
  · exact hline
  · rintro ⟨hhead, hbordered⟩
    rw [Text.trim_append_blank line (by decide)] at hbordered
    cases line with
    | nil => exact absurd hbordered (by decide)
    | cons ch rest => exact hline ⟨hhead, hbordered⟩

/-- Joined lines are taken apart again. -/
theorem forall₂_lines_intercalate
    {sep : String} {ls : List (List Char)}
    (hsep : sep = "\n" ∨ sep = "\r\n") (hls : ls ≠ []) (hclean : ∀ line ∈ ls, '\n' ∉ line) :
    List.Forall₂ SameLine ls (Text.lines (sep.toList.intercalate ls)) := by
  have hfree : ∀ line : List Char, '\n' ∉ line → ∀ ch ∈ line, (ch == '\n') = false := by
    intro line hline ch hch
    exact beq_false_of_ne fun heq => hline (heq ▸ hch)
  induction ls with
  | nil => exact absurd rfl hls
  | cons line ls ih =>
      have hline := hclean line List.mem_cons_self
      cases ls with
      | nil =>
          have hlines : Text.lines line = [line] := Text.pieces_of_forall (hfree line hline)
          rw [List.intercalate_singleton, hlines]
          exact .cons (Or.inl rfl) .nil
      | cons next ls =>
          have hrest := ih (List.cons_ne_nil _ _) fun l hl => hclean l (List.mem_cons_of_mem _ hl)
          obtain ⟨line', hsame, hline', hjoin⟩ : ∃ line', SameLine line line' ∧ '\n' ∉ line' ∧
              line ++ sep.toList = line' ++ ['\n'] := by
            rcases hsep with rfl | rfl
            · exact ⟨line, Or.inl rfl, hline, rfl⟩
            · exact ⟨line ++ ['\r'], Or.inr rfl, by simp [hline], by simp⟩
          have hlines : Text.lines (sep.toList.intercalate (line :: next :: ls)) =
              line' :: Text.lines (sep.toList.intercalate (next :: ls)) := by
            rw [List.intercalate_cons_cons, hjoin, List.append_assoc, List.singleton_append]
            exact Text.pieces_append_cons (hfree line' hline') rfl
          rw [hlines]
          exact .cons hsame hrest

theorem contents_of_forall₂
    {ls ls' : List (List Char)}
    (h : List.Forall₂ SameLine ls ls') :
    (ls'.filterMap fun line => content? (Text.trimEnd line)) =
      ls.filterMap fun line => content? (Text.trimEnd line) := by
  induction h with
  | nil => rfl
  | cons hsame _ ih => rw [List.filterMap_cons, List.filterMap_cons, hsame.content?_eq, ih]

/-- The rows of joined lines are those of the lines, one by one. -/
theorem cells_rowsOf_joined
    {sep : String} {ls : List String}
    (hsep : sep = "\n" ∨ sep = "\r\n") (hls : ∀ line ∈ ls, IsPlain line) :
    (rowsOf (sep.intercalate ls).toList).map Row.cells =
      ls.filterMap fun line => content? (Text.trimEnd line.toList) := by
  by_cases hne : ls = []
  · subst hne
    rfl
  · have hlines : List.Forall₂ SameLine (ls.map String.toList)
        (Text.lines (sep.toList.intercalate (ls.map String.toList))) :=
      forall₂_lines_intercalate hsep (by simpa using hne)
        (by simpa using fun line hline => (hls line hline).1)
    have hplain : ∀ line' ∈ Text.lines (sep.intercalate ls).toList, ¬ IsIndented line' := by
      intro line' hline'
      rw [String.toList_intercalate] at hline'
      obtain ⟨line, hline, hsame⟩ := exists_of_mem_left hlines.flip hline'
      obtain ⟨l, hl, rfl⟩ := List.mem_map.mp hline
      exact SameLine.not_isIndented hsame (hls l hl).2
    rw [rowsOf_eq, cells_rowsFrom_eq, contents_lines_trimStart hplain, String.toList_intercalate,
      contents_of_forall₂ hlines, List.filterMap_map]
    rfl

/-- Lines without a row do not count. -/
theorem Recommented.contents_eq
    {ls ls' : List String}
    (h : Recommented ls ls') :
    (ls'.filterMap fun line => content? (Text.trimEnd line.toList)) =
      ls.filterMap fun line => content? (Text.trimEnd line.toList) := by
  have hnone : ∀ {line : String}, ¬ HasRow line → content? (Text.trimEnd line.toList) = none := by
    intro line hline
    rw [content?_eq]
    exact if_neg hline
  induction h with
  | refl => rfl
  | insert _ _ _ hline _ ih =>
      rw [List.filterMap_append, List.filterMap_cons, hnone hline, ← List.filterMap_append]
      exact ih
  | delete _ _ _ hline _ ih =>
      rw [List.filterMap_append, List.filterMap_cons, hnone hline, ← List.filterMap_append] at ih
      exact ih

end Joined

end Rung

/-- **Commentary and line ends do not matter.**  Lines, none of which is a bordered one behind
blanks, are read alike whether they are joined by a line feed or by a carriage return and a line
feed, and whatever lines without a row are put in or taken out: the program is the same, or the
flaw and the remainder that are reported. -/
theorem compile_recommented
    {ls ls' : List String} {sep sep' : String}
    (hls : ∀ line ∈ ls, Rung.IsPlain line) (hls' : ∀ line ∈ ls', Rung.IsPlain line)
    (h : Rung.Recommented ls ls')
    (hsep : sep = "\n" ∨ sep = "\r\n") (hsep' : sep' = "\n" ∨ sep' = "\r\n") :
    Agree (compile (sep.intercalate ls)) (compile (sep'.intercalate ls')) := by
  apply agree_of_cells
  rw [Rung.cells_rowsOf_joined hsep hls, Rung.cells_rowsOf_joined hsep' hls', h.contents_eq]

/-- A remark between two rows is taken out, a note, a blank line and a line with overlapping borders
are put in, and the lines end otherwise: the contact that is not closed stands elsewhere. -/
theorem compile_recommented_flaw :
    ∃ text text' : String,
      text = "\n".intercalate ["||--[A]--(X)--||  ", "remark ||", "||--[B --||"] ∧
      text' = "\r\n".intercalate ["  é", "||--[A]--(X)--||  ", "", "|||", "||--[B --||"] ∧
      compile text = .error (.malformed (.unterminated ']') "[B --" ⟨33, 38⟩) ∧
      compile text' = .error (.malformed (.unterminated ']') "[B --" ⟨37, 42⟩) ∧
      Agree (compile text) (compile text') := by
  refine ⟨_, _, rfl, rfl, by cbv, by cbv, ?_⟩
  refine compile_recommented (by decide) (by decide) ?_ (Or.inl rfl) (Or.inr rfl)
  have hdeleted : Rung.Recommented ["||--[A]--(X)--||  ", "remark ||", "||--[B --||"]
      ["||--[A]--(X)--||  ", "||--[B --||"] :=
    .delete ["||--[A]--(X)--||  "] ["||--[B --||"] "remark ||" (by decide) .refl
  have hnote := hdeleted.insert [] ["||--[A]--(X)--||  ", "||--[B --||"] "  é" (by decide)
  have hblank := hnote.insert ["  é", "||--[A]--(X)--||  "] ["||--[B --||"] "" (by decide)
  exact hblank.insert ["  é", "||--[A]--(X)--||  ", ""] ["||--[B --||"] "|||" (by decide)

end RelayLadder
