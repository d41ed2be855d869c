import Mathlib.Data.List.SplitBy
import RelayLadder.Proofs.Drawing.Coils
import RelayLadder.Proofs.Text.Trim
import RelayLadder.Schematic

/-!
# The rungs of a drawn schematic

A drawing is written down row by row between borders, and the splitter takes it
apart again.  The first rung is the blank row that the canvas ends with; after it
comes one rung for each coil.

**Results.**
* `cells_rowsOf`: the rows of a bordered text are the rows it was made of.
* `exists_schematic`: drawable coils give a schematic, and its rungs are read as the
  wires of the coils.
-/

namespace RelayLadder

open Canvas (Sheet Does)

namespace Schematic

section Lines

/-- A row between borders. -/
def bordered (row : List Char) : List Char :=
  '|' :: '|' :: (row ++ ['|', '|'])

theorem trimmed_bordered
    (row : List Char) :
    Text.Trimmed (bordered row) := by
  have hlast : (bordered row).getLast? = some '|' := by
    rw [bordered,
      show '|' :: '|' :: (row ++ ['|', '|']) = ('|' :: '|' :: row) ++ ['|', '|'] from rfl,
      List.getLast?_append_of_ne_nil _ (List.cons_ne_nil _ _)]
    rfl
  refine ⟨List.cons_ne_nil _ _, ?_, ?_⟩
  · rintro a ⟨⟩
    decide
  · intro a ha
    rw [hlast] at ha
    cases ha
    decide

theorem content?_bordered
    (row : List Char) :
    Rung.content? (bordered row) = some row := by
  simp [bordered, Rung.content?]

theorem cells_rowsFrom
    (rows : List (List Char)) (start : Nat) :
    (Rung.rowsFrom start (rows.map bordered)).map Row.cells = rows := by
  induction rows generalizing start with
  | nil => rfl
  | cons row rows ih =>
      have hline : Rung.content? (Text.trimEnd (bordered row)) = some row := by
        rw [Text.trimEnd_of_last (trimmed_bordered row).last, content?_bordered]
      simp only [List.map_cons, Rung.rowsFrom, hline, ih]

/-- The rows of a bordered text are the rows it was made of. -/
theorem cells_rowsOf
    {rows : List (List Char)}
    (hrows : rows ≠ []) (hclean : ∀ row ∈ rows, '\n' ∉ row) :
    (Rung.rowsOf (['\n'].intercalate (rows.map bordered))).map Row.cells = rows := by
  have hne : rows.map bordered ≠ [] := by simpa using hrows
  have htrim : Text.trim (['\n'].intercalate (rows.map bordered)) =
      ['\n'].intercalate (rows.map bordered) := by
    refine (Text.Trimmed.intercalate hne fun line hline => ?_).trim_eq
    obtain ⟨row, -, rfl⟩ := List.mem_map.mp hline
    exact trimmed_bordered row
  have hlines : Text.lines (['\n'].intercalate (rows.map bordered)) = rows.map bordered := by
    refine Text.pieces_intercalate hne rfl fun line hline ch hch => ?_
    obtain ⟨row, hrow, rfl⟩ := List.mem_map.mp hline
    have hnot : '\n' ∉ bordered row := by simp [bordered, hclean row hrow]
    exact beq_false_of_ne fun heq => hnot (heq ▸ hch)
  rw [Rung.rowsOf, htrim, hlines]
  exact cells_rowsFrom rows _

/-- A line feed at the end of a text changes no row. -/
theorem rowsOf_append_newline
    (text : List Char) :
    Rung.rowsOf (text ++ ['\n']) = Rung.rowsOf text := by
  have hblank : Text.isBlank '\n' = true := by decide
  rw [Rung.rowsOf, Rung.rowsOf, Text.trim_append_blank text hblank, List.takeWhile_append]
  split
  · -- A text of blanks only has no rows, wherever it ends.
    rename_i hlength
    have hnone : Text.trim text = [] := by
      have hdrop : text.dropWhile Text.isBlank = [] := by
        have hparts := congrArg List.length (List.takeWhile_append_dropWhile
          (p := Text.isBlank) (l := text))
        rw [List.length_append, hlength] at hparts
        exact List.length_eq_zero_iff.mp (by omega)
      rw [Text.trim, Text.trimStart, hdrop]
      rfl
    rw [hnone]
    rfl
  · rfl

theorem toList_schematic
    (c : Canvas) :
    c.schematic.toList =
      ['\n'].intercalate
        ((c.rows.drop (c.height - 1) ++ c.rows.take (c.height - 1)).map bordered) := by
  rw [Canvas.schematic, String.toList_intercalate, List.map_map]
  congr 1
  apply List.map_congr_left
  intro row _
  simp [bordered]

/-- The last row is read first, and then the rows above it. -/
theorem rows_rotated
    {c : Canvas}
    (hc : c.Uniform) (hheight : c.height = c.row + 1) :
    c.rows.drop (c.height - 1) ++ c.rows.take (c.height - 1) =
      (c.row :: List.range c.row).map (Canvas.line c.look c.width) := by
  rw [hc.rows_eq, hheight, Nat.add_sub_cancel, ← List.map_drop, ← List.map_take,
    List.range_succ]
  simp

end Lines

section Groups

variable {P : Nat → Nat → Char} {w t u : Nat} {cs : List Coil}

theorem le_of_pages
    (h : Drawing.Pages P w t cs u) :
    t ≤ u := by
  induction cs generalizing t with
  | nil => exact Nat.le_of_eq h
  | cons c cs ih =>
      obtain ⟨m, hpage, hrest⟩ := h
      exact hpage.lt.le.trans (ih hrest)

theorem get?_of_cells
    {row : Row} {i k : Nat}
    (h : row.cells = Canvas.line P w i) (hk : k < w) :
    row.get? k = some (P i k) := by
  rw [Row.get?, h, Canvas.line, List.getElem?_map, List.getElem?_range hk]
  rfl

theorem opensRung_iff
    {row : Row} {i : Nat}
    (h : row.cells = Canvas.line P w i) (hw : 0 < w) :
    row.opensRung = true ↔ P i 0 = '-' := by
  rw [Row.opensRung, get?_of_cells h hw]
  simp

/-- A rung of rows that show a plane. -/
theorem cell?_of_cells
    {rows : List Row} {n i k : Nat}
    (h : rows.map Row.cells = (List.range' t n).map (Canvas.line P w))
    (hi : i < n) (hk : k < w) :
    (Rung.mk rows).cell? i k = some (P (t + i) k) := by
  have hrow := congrArg (·[i]?) h
  simp only [List.getElem?_map, List.getElem?_range' hi, Option.map_some, Nat.one_mul] at hrow
  obtain ⟨row, hget, hcells⟩ := Option.map_eq_some_iff.mp hrow
  rw [Rung.cell?, hget]
  exact get?_of_cells hcells hk

theorem rowLength_of_cells
    {rows : List Row} {n : Nat}
    (h : rows.map Row.cells = (List.range' t n).map (Canvas.line P w)) (hn : 0 < n) :
    (Rung.mk rows).rowLength 0 = w := by
  have hrow := congrArg (·[0]?) h
  simp only [List.getElem?_map, List.getElem?_range' hn, Option.map_some] at hrow
  obtain ⟨row, hget, hcells⟩ := Option.map_eq_some_iff.mp hrow
  simp [Rung.rowLength, hget, Row.length, hcells, Canvas.line]

/-- The rows of one coil form one rung. -/
theorem splitBy_page
    {c : Coil} {rows : List Row}
    (h : Drawing.Page P w c t u)
    (hrows : rows.map Row.cells = (List.range' t (u - t)).map (Canvas.line P w)) :
    rows.splitBy (fun _ next => !next.opensRung) = [rows] ∧
      ∀ row ∈ rows.head?, row.opensRung = true := by
  have hlt := h.lt
  rw [show u - t = u - t - 1 + 1 by omega, List.range'_succ, List.map_cons] at hrows
  obtain ⟨first, below, rfl, hfirst, hbelow⟩ := List.map_eq_cons_iff.mp hrows
  refine ⟨?_, ?_⟩
  · have hhang : ∀ row ∈ below, row.opensRung = false := by
      intro row hmem
      have hcells : row.cells ∈ below.map Row.cells := List.mem_map_of_mem hmem
      rw [hbelow] at hcells
      obtain ⟨i, hi, heq⟩ := List.mem_map.mp hcells
      have hi' := List.mem_range'_1.mp hi
      rw [← Bool.not_eq_true, opensRung_iff heq.symm h.width_pos,
        h.hangs i (by omega) (by omega)]
      decide
    refine List.splitBy_of_isChain (List.cons_ne_nil _ _) ?_
    refine (List.pairwise_cons.mpr ⟨fun row hmem => ?_, ?_⟩).isChain
    · simp [hhang row hmem]
    · exact List.pairwise_of_forall_mem_list fun _ _ row hmem => by simp [hhang row hmem]
  · rintro row ⟨⟩
    exact (opensRung_iff hfirst h.width_pos).mpr h.opens

/-- The rung of one coil is read as the coil. -/
theorem toOption_wire_page
    {c : Coil} {rows : List Row}
    (h : Drawing.Page P w c t u)
    (hrows : rows.map Row.cells = (List.range' t (u - t)).map (Canvas.line P w)) :
    (Rung.mk rows).wire.toOption = c.wire? := by
  have hlt := h.lt
  rw [Rung.toOption_wire, rowLength_of_cells hrows (by omega)]
  exact h.reads _ fun i k hi hk => cell?_of_cells hrows (by omega) hk

/-- The rows of coils form the rungs of the coils. -/
theorem wires_group
    {rows : List Row}
    (h : Drawing.Pages P w t cs u)
    (hrows : rows.map Row.cells = (List.range' t (u - t)).map (Canvas.line P w)) :
    (Rung.group rows).map (·.wire.toOption) = cs.map Coil.wire? ∧
      ∀ row ∈ rows.head?, row.opensRung = true := by
  induction cs generalizing t rows with
  | nil =>
      obtain rfl : t = u := h
      rw [Nat.sub_self] at hrows
      obtain rfl : rows = [] := List.map_eq_nil_iff.mp hrows
      exact ⟨rfl, fun row hrow => by cases hrow⟩
  | cons c cs ih =>
      obtain ⟨m, hpage, hrest⟩ := h
      have htm := hpage.lt
      have hmu := le_of_pages hrest
      have hsplit : List.range' t (u - t) = List.range' t (m - t) ++ List.range' m (u - m) := by
        rw [show u - t = (m - t) + (u - m) by omega, ← List.range'_append_1,
          show t + (m - t) = m by omega]
      rw [hsplit, List.map_append] at hrows
      obtain ⟨rows₁, rows₂, rfl, hrows₁, hrows₂⟩ := List.map_eq_append_iff.mp hrows
      obtain ⟨hgroup₁, hhead₁⟩ := splitBy_page hpage hrows₁
      obtain ⟨hgroup₂, hhead₂⟩ := ih hrest hrows₂
      have hne : rows₁ ≠ [] := by
        rintro rfl
        have hlen := congrArg List.length hrows₁
        simp at hlen
        omega
      refine ⟨?_, ?_⟩
      · have happend := List.splitBy_append (r := fun _ next : Row => !next.opensRung)
          (l := rows₁) (m := rows₂) fun _ _ row hrow => by simp [hhead₂ row hrow]
        rw [Rung.group, happend, hgroup₁, List.map_append, List.map_append, ← Rung.group, hgroup₂]
        change (Rung.mk rows₁).wire.toOption :: _ = _
        rw [toOption_wire_page hpage hrows₁]
        rfl
      · rw [List.head?_append_of_ne_nil rows₁ hne]
        exact hhead₁

end Groups

section Coils

/-- A blank row is a rung without a program. -/
theorem program_blank
    {row : Row} {P : Nat → Nat → Char} {w i : Nat}
    (hrow : row.cells = Canvas.line P w i) (hblank : ∀ k, P i k = ' ') :
    (Rung.mk [row]).program = .ok [] := by
  have hcells : [row].map Row.cells = (List.range' i 1).map (Canvas.line P w) := by
    simp [hrow]
  have hwire : (Rung.mk [row]).wire = .ok .finish := by
    rw [← toOption_eq_some_iff, Rung.toOption_wire]
    refine Rung.read?_finish fun k _ hk ch hch => ?_
    rw [rowLength_of_cells hcells Nat.one_pos] at hk
    rw [cell?_of_cells hcells Nat.one_pos hk, Nat.add_zero, hblank] at hch
    cases hch
    decide
  rw [Rung.program, hwire]
  rfl

theorem fresh_blank
    (w : Nat) :
    Drawing.Fresh (Canvas.blank w).sheet := by
  have hlook : ∀ i k, (Canvas.blank w).look i k = ' ' := by
    intro i k
    cases i with
    | zero => simp [Canvas.look, Canvas.blank]
    | succ i => simp [Canvas.look, Canvas.blank]
  refine ⟨rfl, rfl, Nat.le_refl _, fun i k _ => hlook i k, fun i k => ?_⟩
  change (Canvas.blank w).look i k ≠ '\n'
  rw [hlook]
  decide

/-- Drawable coils give a schematic.  Its first rung is blank, and the others are read as the
wires of the coils. -/
theorem exists_schematic
    {cs : List Coil}
    (hcs : ∀ c ∈ cs, c.Drawable) (w : Nat) :
    ∃ text head rungs, ofCoils cs w = .ok text ∧ Rung.split text = head :: rungs ∧
      head.program = .ok [] ∧ rungs.map (·.wire.toOption) = cs.map Coil.wire? := by
  obtain ⟨s, hdoes, hs, -, -, -, hpages⟩ := Drawing.exists_coils hcs (fresh_blank w)
  obtain ⟨c, hrun, hc, rfl⟩ := hdoes _ (Canvas.uniform_blank w) rfl
  have hheight : c.height = c.row + 1 := hs.row_eq.symm
  have hrows := rows_rotated hc hheight
  have hclean : ∀ row ∈ (c.row :: List.range c.row).map (Canvas.line c.look c.width),
      '\n' ∉ row := by
    intro row hrow hmem
    obtain ⟨i, -, rfl⟩ := List.mem_map.mp hrow
    obtain ⟨k, -, hk⟩ := List.mem_map.mp hmem
    exact hs.clean i k hk
  have hcells := cells_rowsOf (by simp) hclean
  rw [← hrows, ← toList_schematic, hrows, List.map_cons] at hcells
  obtain ⟨first, rest, hsplit, hfirst, hrest⟩ := List.map_eq_cons_iff.mp hcells
  have hpages' : Drawing.Pages c.look c.width 0 cs c.row := hpages
  obtain ⟨hwires, hhead⟩ := wires_group hpages' (hrest.trans (by
    rw [Nat.sub_zero, List.range_eq_range']))
  refine ⟨c.schematic, ⟨[first]⟩, Rung.group rest, ?_, ?_, ?_, hwires⟩
  · have hrow : c.row < c.height := hheight ▸ Nat.lt_succ_self c.row
    rw [ofCoils, hrun]
    exact Canvas.finish_of_lt hrow
  · have happend := List.splitBy_append (r := fun _ next : Row => !next.opensRung)
      (l := [first]) (m := rest) fun _ _ row hrow => by simp [hhead row hrow]
    rw [Rung.split, hsplit, Rung.group, ← List.singleton_append, happend]
    rfl
  · exact program_blank hfirst fun k => hs.blank c.row k (Nat.le_refl _)

end Coils

end Schematic
end RelayLadder
