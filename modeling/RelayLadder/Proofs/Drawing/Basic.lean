import RelayLadder.Drawing
import RelayLadder.Proofs.Canvas.Sheet
import RelayLadder.Proofs.Wire.Figure

/-!
# Drawing figures

**States.**  A sheet is `Ready` when the plane below the cursor's row is blank from
the cursor on.  `Drawn fig s s'` says what drawing a figure changes: nothing but a
box of the figure's height that starts at the cursor, and in this box the figure
can be read.

**Results.**
* `draws_contact`, `draws_call`: elements.
* `Draws.bind`: figures side by side.
-/

namespace RelayLadder
namespace Drawing

open Canvas (Action Sheet Does)
open Rung (Reads wired)

section Defs

/-- The plane below the cursor's row is blank from the cursor on. -/
structure Ready (s : Sheet) : Prop where
  row_lt : s.row < s.height
  row_le : s.row ≤ s.deepest
  blank : ∀ i k, s.row < i → s.col ≤ k → s.look i k = ' '
  clean : ∀ i k, s.look i k ≠ '\n'

/-- A figure is drawn at the cursor, which ends behind it. -/
structure Drawn (fig : Figure) (s s' : Sheet) : Prop where
  height_pos : 0 < fig.height
  row_eq : s'.row = s.row
  col_lt : s.col < s'.col
  col_lt_width : s'.col < s'.width
  width_le : s.width ≤ s'.width
  height_eq : s'.height = max s.height (s.row + fig.height)
  deepest_eq : s'.deepest = max s.deepest (s.row + fig.height - 1)
  clean : ∀ i k, s'.look i k ≠ '\n'
  frame : ∀ i k, i < s.row ∨ s.row + fig.height ≤ i ∨ k < s.col → s'.look i k = s.look i k
  margin : ∀ i, s.row < i → s'.look i s.col = ' '
  blank : ∀ i k, s.row < i → i < s.row + fig.height → s'.col ≤ k → s'.look i k = ' '
  -- On a row that is wired to its end, or that has no cells from the cursor on.
  wire : (s.col < s.width → ∀ k, s.col ≤ k → s.look s.row k = '-') →
    ∀ k, s'.col ≤ k → s'.look s.row k = '-'
  lead : s'.look s.row s.col = '-'
  reads : Reads s'.look s.row s.col s'.col fig

/-- The action draws the figure. -/
def Draws (act : Action Unit) (fig : Figure) : Prop :=
  ∀ s, Ready s → ∃ s', Does act s () s' ∧ Drawn fig s s'

end Defs

section Elements

variable {s s' : Sheet} {fig : Figure}

theorem does_element
    {text : String}
    (hrow : s.row < s.height) (htext : text ≠ "") :
    Does (element text) s () (s.element text.toList) :=
  (Canvas.does_draw hrow htext).bind (Canvas.does_right hrow)

theorem written_of_lt
    (s : Sheet) (text : List Char) {n : Nat}
    (hn : n < text.length) :
    some (s.written text s.row (s.col + n)) = text[n]? := by
  have hle : s.col ≤ s.col + n := Nat.le_add_right _ _
  have hlt : s.col + n < s.col + text.length := by omega
  simp only [Sheet.written, hle, hlt, and_self, if_true, Nat.add_sub_cancel_left,
    List.getElem?_eq_getElem hn, Option.getD_some]

theorem written_frame
    {text : List Char} {i k : Nat}
    (h : i ≠ s.row ∨ k < s.col) :
    s.written text i k = s.look i k := by
  rw [Sheet.written, if_neg (by omega)]

/-- What is written is of the text or was there before. -/
theorem written_cases
    {text : List Char} (htext : text ≠ []) (i k : Nat) :
    s.written text i k ∈ text ∨ s.written text i k = s.look i k := by
  rw [Sheet.written]
  split
  · split
    · rename_i hik hk
      have hn : k - s.col < text.length := by omega
      left
      rw [List.getElem?_eq_getElem hn]
      exact List.getElem_mem hn
    · split
      · exact Or.inr rfl
      · left
        rw [List.getLast?_eq_some_getLast htext]
        exact List.getLast_mem htext
  · exact Or.inr rfl

/-- No line feed is written. -/
theorem written_clean
    {text : List Char}
    (htext : text ≠ []) (hclean : '\n' ∉ text) (hs : ∀ i k, s.look i k ≠ '\n') (i k : Nat) :
    s.written text i k ≠ '\n' := by
  rcases written_cases htext i k with h | h
  · intro heq
    exact hclean (heq ▸ h)
  · rw [h]
    exact hs i k

/-- Behind a text that ends with a wire, a wired row stays wired. -/
theorem written_wire
    {text : List Char}
    (hlast : text.getLast? = some '-')
    (hwire : s.col + text.length < s.width → ∀ k, s.col ≤ k → s.look s.row k = '-') :
    ∀ k, s.col + text.length ≤ k → s.written text s.row k = '-' := by
  intro k hk
  have hle : s.col ≤ k := by omega
  simp only [Sheet.written, hle, and_self, if_true, Nat.not_lt.mpr hk, if_false, hlast,
    Option.getD_some]
  split
  · rename_i hwidth
    exact hwire hwidth k hle
  · rfl

/-- An element with pieces of wire around it is drawn. -/
theorem drawn_element
    {opener closer : Char} {text : List Char}
    (hs : Ready s)
    (hclean : '\n' ∉ text) (hends : opener ≠ '\n' ∧ closer ≠ '\n')
    (hheight : fig.height = 1)
    (hreads : ∀ (rung : Rung) (r₀ : Nat) (scope : Wire.Scope) (e : Nat),
      rung.Spelled r₀ s.col (wired opener closer text) → s.col + text.length + 6 ≤ e →
      rung.read? scope r₀ s.col e =
        (rung.read? scope r₀ (s.col + text.length + 6) e).bind fig.onto) :
    Drawn fig s (s.element (wired opener closer text)) := by
  have hlen : (wired opener closer text).length = text.length + 6 :=
    Rung.length_wired opener closer text
  have hne : wired opener closer text ≠ [] := by simp [wired]
  have hcol : (s.element (wired opener closer text)).col = s.col + text.length + 6 := by
    simp only [Sheet.element, Sheet.draw, Sheet.right, hlen]
    omega
  have hlook : (s.element (wired opener closer text)).look =
      s.written (wired opener closer text) := rfl
  refine
    { height_pos := by omega
      row_eq := rfl
      col_lt := by omega
      col_lt_width := ?_
      width_le := ?_
      height_eq := ?_
      deepest_eq := ?_
      clean := ?_
      frame := ?_
      margin := ?_
      blank := ?_
      wire := ?_
      lead := ?_
      reads := ?_ }
  · rw [hcol]
    simp only [Sheet.element, Sheet.draw, Sheet.right, hlen]
    omega
  · simp only [Sheet.element, Sheet.draw, Sheet.right, Sheet.write]
    omega
  · have := hs.row_lt
    simp only [Sheet.element, Sheet.draw, Sheet.right, Sheet.write, hheight]
    omega
  · have := hs.row_le
    simp only [Sheet.element, Sheet.draw, Sheet.right, Sheet.write, hheight]
    omega
  · refine written_clean hne ?_ hs.clean
    simp [wired, hclean, hends.1.symm, hends.2.symm]
  · intro i k h
    exact written_frame (by omega)
  · intro i hi
    rw [hlook, written_frame (by omega)]
    exact hs.blank i s.col hi (Nat.le_refl _)
  · intro i k hi hi'
    omega
  · intro hwire k hk
    rw [hcol] at hk
    refine written_wire (Rung.getLast?_wired opener closer text)
      (fun hwidth => hwire (by omega)) k ?_
    rw [hlen]
    omega
  · have hlead := written_of_lt s (wired opener closer text) (n := 0) (by omega)
    rw [Nat.add_zero] at hlead
    exact Option.some.inj hlead
  · intro rung r₀ hshows scope e he
    rw [hcol] at he hshows ⊢
    refine hreads rung r₀ scope e ?_ he
    refine hshows.spelled (by omega) (by omega) fun n hn => ?_
    exact written_of_lt s _ hn

/-- The label of an element, with pieces of wire around it, is drawn as the figure that it is read
as. -/
theorem draws_element
    {label : String} {opener closer : Char} {text : List Char}
    (hlabel : label.toList = wired opener closer text)
    (hclean : '\n' ∉ text) (hends : opener ≠ '\n' ∧ closer ≠ '\n')
    (hheight : fig.height = 1)
    (hreads : ∀ (rung : Rung) (r₀ k : Nat) (scope : Wire.Scope) (e : Nat),
      rung.Spelled r₀ k (wired opener closer text) → k + text.length + 6 ≤ e →
      rung.read? scope r₀ k e =
        (rung.read? scope r₀ (k + text.length + 6) e).bind fig.onto) :
    Draws (element label) fig := by
  intro s hs
  refine ⟨s.element label.toList, does_element hs.row_lt (Rung.ne_empty_of_wired hlabel), ?_⟩
  rw [hlabel]
  exact drawn_element hs hclean hends hheight fun rung r₀ => hreads rung r₀ s.col

theorem draws_contact
    {name : String}
    (hclean : '\n' ∉ name.toList) (hclose : ']' ∉ name.toList) :
    Draws (contact name) (Figure.contact name) := by
  have hlabel : ("--[" ++ name ++ "]--").toList = wired '[' ']' name.toList := by
    simp [wired]
  refine draws_element hlabel hclean (by decide) rfl fun rung r₀ k scope e hspelled he => ?_
  exact hspelled.read?_contact hclose he

theorem draws_call
    {tokens : List String}
    (hclean : '\n' ∉ (" ".intercalate tokens).toList)
    (hclose : '\x7d' ∉ (" ".intercalate tokens).toList) :
    Draws (call tokens) (Figure.call tokens) := by
  have hlabel : ("--\x7b" ++ " ".intercalate tokens ++ "\x7d--").toList =
      wired '\x7b' '\x7d' (" ".intercalate tokens).toList := by
    simp [wired]
  refine draws_element hlabel hclean (by decide) rfl fun rung r₀ k scope e hspelled he => ?_
  exact hspelled.read?_call hclose he

end Elements

section Series

variable {s s₁ s₂ : Sheet} {left right : Figure}

/-- Behind a figure the next one can be drawn. -/
theorem Drawn.ready
    (h : Drawn left s s₁) (hs : Ready s) :
    Ready s₁ := by
  refine ⟨?_, ?_, ?_, h.clean⟩
  · rw [h.row_eq, h.height_eq]
    have := hs.row_lt
    omega
  · rw [h.row_eq, h.deepest_eq]
    have := hs.row_le
    omega
  · intro i k hi hk
    rw [h.row_eq] at hi
    rcases Nat.lt_or_ge i (s.row + left.height) with hlt | hge
    · exact h.blank i k hi hlt hk
    · rw [h.frame i k (Or.inr (Or.inl hge))]
      have := h.col_lt
      exact hs.blank i k hi (by omega)

/-- Figures side by side. -/
theorem Drawn.series
    (h₁ : Drawn left s s₁) (h₂ : Drawn right s₁ s₂) (hs : Ready s) :
    Drawn (left.series right) s s₂ := by
  have hcol₁ := h₁.col_lt
  have hcol₂ := h₂.col_lt
  have hrow₁ := h₁.row_eq
  have hheight : (left.series right).height = max left.height right.height := rfl
  refine
    { height_pos := ?_
      row_eq := h₂.row_eq.trans hrow₁
      col_lt := hcol₁.trans hcol₂
      col_lt_width := h₂.col_lt_width
      width_le := h₁.width_le.trans h₂.width_le
      height_eq := ?_
      deepest_eq := ?_
      clean := h₂.clean
      frame := ?_
      margin := ?_
      blank := ?_
      wire := ?_
      lead := ?_
      reads := ?_ }
  · have := h₁.height_pos
    omega
  · rw [h₂.height_eq, h₁.height_eq, hrow₁]
    omega
  · rw [h₂.deepest_eq, h₁.deepest_eq, hrow₁]
    omega
  · intro i k h
    rw [h₂.frame i k (by omega), h₁.frame i k (by omega)]
  · intro i hi
    rw [h₂.frame i s.col (by omega), h₁.margin i hi]
  · intro i k hi hi' hk
    rcases Nat.lt_or_ge i (s.row + right.height) with hlt | hge
    · exact h₂.blank i k (by omega) (by omega) hk
    · rw [h₂.frame i k (by omega)]
      exact h₁.blank i k hi (by omega) (by omega)
  · intro hwire k hk
    have hwired := h₁.wire hwire
    rw [← hrow₁] at hwired ⊢
    exact h₂.wire (fun _ => hwired) k hk
  · rw [h₂.frame s.row s.col (by omega)]
    exact h₁.lead
  · have hleft : Reads s₂.look s.row s.col s₁.col left := by
      intro rung r₀ hshows scope e he
      refine h₁.reads rung r₀ (hshows.congr fun i j _ _ hj => ?_) scope e he
      exact (h₂.frame _ j (by omega)).symm
    have hright : Reads s₂.look s.row s₁.col s₂.col right := hrow₁ ▸ h₂.reads
    refine hleft.series hright hcol₁.le hcol₂.le ?_ ?_
    · intro i j hi hi' hkj hj
      have := h₁.height_pos
      rw [h₂.frame i j (by omega), h₁.frame i j (by omega)]
      exact hs.blank i j (by omega) hkj
    · intro i j hi hi' hmj hj
      have := h₂.height_pos
      rw [h₂.frame i j (by omega)]
      exact h₁.blank i j (by omega) hi' hmj

theorem Draws.bind
    {act₁ act₂ : Action Unit}
    (h₁ : Draws act₁ left) (h₂ : Draws act₂ right) :
    Draws (do act₁; act₂) (left.series right) := by
  intro s hs
  obtain ⟨s₁, hdoes₁, hdrawn₁⟩ := h₁ s hs
  obtain ⟨s₂, hdoes₂, hdrawn₂⟩ := h₂ s₁ (hdrawn₁.ready hs)
  exact ⟨s₂, hdoes₁.bind hdoes₂, hdrawn₁.series hdrawn₂ hs⟩

end Series

end Drawing
end RelayLadder
