import RelayLadder.Proofs.Drawing.Refusal

/-!
# What a drawing leaves alone

Drawing an expression widens the grid and appends rows to it, and otherwise changes only
the cells in the box of the expression: from the cursor to the right, and as many rows
down as the expression is high.

**Results.**
* `Canvas.Uniform.getElem?_rows`, `Canvas.Uniform.cell?_eq`: the rows and the cells of a canvas
  are those of its plane.
* `Canvas.Uniform.stretch_eq`: a row made longer is a longer line of the plane.
* `expr_frame`: what is the same after an expression was drawn.
-/

namespace RelayLadder

namespace Canvas

section Cells

variable {c : Canvas} {row : List Char}

/-- The character of a cell of the grid. -/
def cell? (c : Canvas) (i k : Nat) : Option Char :=
  c.rows[i]?.bind (·[k]?)

theorem Uniform.getElem?_rows
    (hc : c.Uniform) {i : Nat} (hi : i < c.height) :
    c.rows[i]? = some (line c.look c.width i) := by
  rw [hc.rows_eq, List.getElem?_map, List.getElem?_range hi]
  rfl

theorem Uniform.cell?_eq
    (hc : c.Uniform) {i k : Nat} (hi : i < c.height) (hk : k < c.width) :
    c.cell? i k = some (c.look i k) := by
  rw [cell?, hc.getElem?_rows hi, Option.bind_some, line, List.getElem?_map,
    List.getElem?_range hk]
  rfl

/-- Only positions on the grid have cells. -/
theorem Uniform.lt_of_cell?
    (hc : c.Uniform) {i k : Nat} {ch : Char} (h : c.cell? i k = some ch) :
    i < c.height ∧ k < c.width := by
  obtain ⟨row, hrow, hk⟩ := Option.bind_eq_some_iff.mp h
  have hlength := hc row (List.mem_of_getElem? hrow)
  refine ⟨(List.getElem?_eq_some_iff.mp hrow).1, ?_⟩
  rw [← hlength]
  exact (List.getElem?_eq_some_iff.mp hk).1

/-- A row of a canvas made longer is a longer line of its plane. -/
theorem Uniform.stretch_eq
    (hc : c.Uniform) {i : Nat} (hrow : c.rows[i]? = some row) (n : Nat) :
    stretch n row = line c.look (c.width + n) i := by
  have hlength : (stretch n row).length = c.width + n := by
    rw [stretch, List.length_append, List.length_replicate, hc row (List.mem_of_getElem? hrow)]
  have hlook : rowLook (stretch n row) = c.look i := by
    funext k
    rw [rowLook_stretch, look, hrow]
    rfl
  rw [← map_rowLook (stretch n row), hlength, hlook, line]

end Cells

end Canvas

namespace Drawing

section Frame

variable {e : Expr} {c c' : Canvas}

/-- An expression that was drawn has been drawn in a box. -/
theorem boxed_of_run
    (hc : c.Uniform) (hrow : c.row < c.height) (h : (expr e).run c = .ok () c') :
    c'.Uniform ∧ Boxed (fun _ => True) e.height c.sheet c'.sheet := by
  have hends : Canvas.Ends e.undrawable? (expr e) c.sheet fun _ s' =>
      Boxed (fun _ => True) e.height c.sheet s' :=
    boxing_expr (fun _ _ => trivial) e (fun _ _ _ _ => trivial) c.sheet hrow
  cases hrefusal : e.undrawable? with
  | none =>
      rw [hrefusal] at hends
      obtain ⟨_, s', hdoes, hboxed⟩ := hends
      obtain ⟨d, hrun, hd, rfl⟩ := hdoes c hc rfl
      rw [h] at hrun
      cases hrun
      exact ⟨hd, hboxed⟩
  | some kind =>
      rw [hrefusal] at hends
      obtain ⟨d, hrun⟩ := hends c hc rfl
      rw [h] at hrun
      cases hrun

/-- **Drawing an expression touches only its own box.**  The cursor ends on its row, further to the
right.  Cells to the left of it, above it, and below the box stay as they were, and rows above and
below the box are made longer by their last character only.  No row is removed, and rows are
appended only as far as the box needs them. -/
theorem expr_frame
    (hc : c.Uniform) (hrow : c.row < c.height) (h : (expr e).run c = .ok () c') :
    c'.Uniform ∧ c'.row = c.row ∧ c.col < c'.col ∧
    (∀ i k ch, c.cell? i k = some ch → k < c.col ∨ i < c.row ∨ c.row + e.height ≤ i →
      c'.cell? i k = some ch) ∧
    (∀ i row, c.rows[i]? = some row → i < c.row ∨ c.row + e.height ≤ i →
      c'.rows[i]? =
        some (row ++ List.replicate (c'.width - c.width) (row.getLast?.getD ' '))) ∧
    c'.height = max c.height (c.row + e.height) := by
  obtain ⟨hc', hboxed⟩ := boxed_of_run hc hrow h
  have hframe : ∀ i k, i < c.row ∨ c.row + e.height ≤ i ∨ k < c.col →
      c'.look i k = c.look i k := hboxed.frame
  have hwidth : c.width ≤ c'.width := hboxed.width_le
  have hheight : c'.height = max c.height (c.row + e.height) := hboxed.height_eq
  refine ⟨hc', hboxed.row_eq, hboxed.col_lt, ?_, ?_, hheight⟩
  · intro i k ch hcell hout
    obtain ⟨hi, hk⟩ := hc.lt_of_cell? hcell
    rw [hc'.cell?_eq (by omega) (by omega), hframe i k (by omega), ← hc.cell?_eq hi hk, hcell]
  · intro i row hget hout
    have hi : i < c.height := (List.getElem?_eq_some_iff.mp hget).1
    have hlook : c'.look i = c.look i := funext fun k => hframe i k (by omega)
    have hstretch := hc.stretch_eq hget (c'.width - c.width)
    rw [Nat.add_sub_cancel' hwidth] at hstretch
    change c'.rows[i]? = some (Canvas.stretch (c'.width - c.width) row)
    rw [hc'.getElem?_rows (by omega), hstretch, Canvas.line, Canvas.line, hlook]

/-- A block is drawn at the right edge of a picture, from its second row to its fourth one.  The
first and the last row go on with the wire that they end with. -/
theorem expr_frame_block :
    ∃ c c' : Canvas,
      c.rows = ["a-".toList, "b-".toList, "c ".toList, "d ".toList, "e-".toList] ∧
      c.marker = ⟨1, 2⟩ ∧ c.Uniform ∧ c.row < c.height ∧
      (expr (.or (.contact "A") (.not (.contact "/B")))).run c = .ok () c' ∧
      c'.row = c.row ∧ c.col < c'.col ∧ c'.height = 5 ∧ c'.cell? 2 0 = some 'c' ∧
      c'.rows[0]? = some ("a-".toList ++ List.replicate (c'.width - c.width) '-') ∧
      c'.rows[4]? = some ("e-".toList ++ List.replicate (c'.width - c.width) '-') := by
  obtain ⟨c, hc⟩ : ∃ c : Canvas,
      c = ⟨["a-".toList, "b-".toList, "c ".toList, "d ".toList, "e-".toList], 1, 2, 0⟩ := ⟨_, rfl⟩
  obtain ⟨c', hc'⟩ : ∃ c' : Canvas,
      c' = ⟨["a---------------".toList,
        "b---+--[A]--+---".toList,
        "c   |       |   ".toList,
        "d   +--[B]--+   ".toList,
        "e---------------".toList], 1, 15, 3⟩ := ⟨_, rfl⟩
  have hrows : c.rows = ["a-".toList, "b-".toList, "c ".toList, "d ".toList, "e-".toList] := by
    rw [hc]
  have huniform : c.Uniform := by
    rw [hc, Canvas.Uniform]
    decide
  have hrow : c.row < c.height := by
    rw [hc]
    decide
  have hrun : (expr (.or (.contact "A") (.not (.contact "/B")))).run c = .ok () c' := by
    rw [hc, hc']
    cbv
  obtain ⟨-, hrow', hcol, hcells, hlonger, hheight⟩ := expr_frame huniform hrow hrun
  refine ⟨c, c', hrows, by rw [hc]; rfl, huniform, hrow, hrun, hrow', hcol, ?_, ?_, ?_, ?_⟩
  · rw [hheight, hc]
    rfl
  · refine hcells 2 0 'c' ?_ (Or.inl ?_)
    · rw [hc]
      rfl
    · rw [hc]
      decide
  · refine hlonger 0 "a-".toList ?_ (Or.inl ?_)
    · rw [hrows]
      rfl
    · rw [hc]
      decide
  · refine hlonger 4 "e-".toList ?_ (Or.inr ?_)
    · rw [hrows]
      rfl
    · rw [hc]
      decide

end Frame

end Drawing
end RelayLadder
