import RelayLadder.Proofs.Schematic.Rows

/-!
# The rungs of a text

**Rows.**  A line is bordered when it has at least four bytes and both starts and ends
with `||`.  The rows of a text are the contents of its bordered lines, in order.

**Rungs.**  A row that starts with `-` opens a rung, and the rows behind it that do not
start so hang below it.

**Results.**
* `cells_rowsFrom_eq`: the rows of lines, without their places.
* `split_partition`: the rungs of a text divide its bordered lines among them, and each
  row stands where its offset says.
-/

namespace RelayLadder
namespace Rung

section Borders

variable {line : List Char}

/-- The line has a border at its start and one at its end, and the two do not overlap. -/
def IsBordered (line : List Char) : Prop :=
  4 ≤ Text.byteSize line ∧ ['|', '|'] <+: line ∧ ['|', '|'] <:+ line

instance : DecidablePred IsBordered :=
  fun line => inferInstanceAs
    (Decidable (4 ≤ Text.byteSize line ∧ ['|', '|'] <+: line ∧ ['|', '|'] <:+ line))

/-- What is left of a line without two characters at either end. -/
def betweenBorders (line : List Char) : List Char :=
  (line.drop 2).take (line.length - 4)

theorem isBordered_bordered
    (cells : List Char) :
    IsBordered (Schematic.bordered cells) := by
  have hbar : '|'.utf8Size = 1 := by decide
  refine ⟨?_, ⟨cells ++ ['|', '|'], rfl⟩, ⟨'|' :: '|' :: cells, rfl⟩⟩
  simp only [Schematic.bordered, Text.byteSize_cons, Text.byteSize_append, Text.byteSize_nil, hbar]
  omega

theorem betweenBorders_bordered
    (cells : List Char) :
    betweenBorders (Schematic.bordered cells) = cells := by
  simp [betweenBorders, Schematic.bordered]

/-- A bordered line is its content between two borders. -/
theorem exists_bordered_of_isBordered
    (h : IsBordered line) :
    ∃ cells, line = Schematic.bordered cells := by
  obtain ⟨hsize, ⟨rest, rfl⟩, hend⟩ := h
  have hbar : '|'.utf8Size = 1 := by decide
  -- The right border lies behind the left one, since the line has four bytes.
  have hrest : ['|', '|'] <:+ rest := by
    refine List.suffix_of_suffix_length_le hend (List.suffix_append _ rest) ?_
    match rest with
    | [] => simp [hbar] at hsize
    | [ch] =>
        obtain ⟨front, hfront⟩ := hend
        have hch : ch = '|' := by
          have hlast := congrArg List.getLast? hfront
          simpa using hlast.symm
        simp [hch, hbar] at hsize
    | _ :: _ :: rest => simp
  obtain ⟨cells, rfl⟩ := hrest
  exact ⟨cells, rfl⟩

/-- The content of a line, where it has one, is what stands between its borders. -/
theorem content?_eq
    (line : List Char) :
    content? line = if IsBordered line then some (betweenBorders line) else none := by
  split
  · rename_i h
    obtain ⟨cells, rfl⟩ := exists_bordered_of_isBordered h
    rw [Schematic.content?_bordered, betweenBorders_bordered]
  · rename_i h
    cases hcontent : content? line with
    | none => rfl
    | some cells =>
        rw [content?_eq_some_iff.mp hcontent] at h
        exact absurd (isBordered_bordered cells) h

end Borders

section Rows

/-- The rows of lines, without their places. -/
theorem cells_rowsFrom_eq
    (start : Nat) (ls : List (List Char)) :
    (rowsFrom start ls).map Row.cells = ls.filterMap fun line => content? (Text.trimEnd line) := by
  induction ls generalizing start with
  | nil => rfl
  | cons line ls ih =>
      rw [rowsFrom]
      split
      · rename_i cells hcells
        rw [List.map_cons, ih, List.filterMap_cons, hcells]
      · rename_i hnone
        rw [ih, List.filterMap_cons, hnone]

/-- The contents of lines are found by picking the bordered lines and taking off their borders. -/
theorem filterMap_content?_eq
    (ls : List (List Char)) :
    (ls.filterMap fun line => content? (Text.trimEnd line)) =
      ((ls.map Text.trimEnd).filter fun line => IsBordered line).map betweenBorders := by
  induction ls with
  | nil => rfl
  | cons line ls ih =>
      rw [List.filterMap_cons, List.map_cons, List.filter_cons, content?_eq, ih]
      by_cases h : IsBordered (Text.trimEnd line)
      · simp only [h, if_true, decide_true, List.map_cons]
      · simp only [h, if_false, decide_false, Bool.false_eq_true]

/-- Rows of lines stand from the first line on. -/
theorem le_offset_of_mem_rowsFrom
    {row : Row} {start : Nat} {ls : List (List Char)}
    (h : row ∈ rowsFrom start ls) :
    start + 2 ≤ row.offset := by
  obtain ⟨before, after, -, hoffset, -⟩ := exists_of_mem_rowsFrom h
  omega

/-- Between a row and the next one there are at least their borders and a line feed. -/
theorem pairwise_rowsFrom
    (start : Nat) (ls : List (List Char)) :
    (rowsFrom start ls).Pairwise fun row next =>
      row.offset + Text.byteSize row.cells + 5 ≤ next.offset := by
  induction ls generalizing start with
  | nil => exact List.Pairwise.nil
  | cons line ls ih =>
      rw [rowsFrom]
      split
      · rename_i cells hcells
        refine List.Pairwise.cons (fun next hnext => ?_) (ih _)
        have hle := le_offset_of_mem_rowsFrom hnext
        have hbar : '|'.utf8Size = 1 := by decide
        have hsize : Text.byteSize cells + 4 ≤ Text.byteSize line := by
          obtain ⟨blanks, hline, -⟩ := Text.exists_trimEnd_append line
          rw [← hline, content?_eq_some_iff.mp hcells, Schematic.bordered]
          simp only [Text.byteSize_append, Text.byteSize_cons, Text.byteSize_nil, hbar]
          omega
        change start + 2 + Text.byteSize cells + 5 ≤ next.offset
        omega
      · exact ih _

end Rows

section Rungs

variable {text : String}

/-- Where a relation looks at the second element only, it holds of all elements of a chain but the
first one. -/
theorem forall_mem_tail_of_isChain
    {α : Type} {p : α → Prop} {l : List α}
    (h : l.IsChain fun _ next => p next) :
    ∀ a ∈ l.tail, p a := by
  intro a ha
  cases l with
  | nil => cases ha
  | cons first l =>
      obtain ⟨i, hi, rfl⟩ := List.getElem_of_mem ha
      exact List.isChain_iff_getElem.mp h i (by simpa using hi)

theorem flatMap_rows_split
    (text : String) :
    (split text).flatMap Rung.rows = rowsOf text.toList := by
  rw [split, group, List.flatMap_map]
  exact List.flatMap_id.trans (List.flatten_splitBy _ _)

/-- Of two rungs in a row, the second one is opened by its first row. -/
theorem isChain_split
    (text : String) :
    (split text).IsChain fun _ rung => ∃ row ∈ rung.rows.head?, row.opensRung = true := by
  rw [split, group, List.isChain_map]
  refine (List.isChain_getLast_head_splitBy _ _).imp fun _ rows h => ?_
  obtain ⟨-, hne, hopens⟩ := h
  exact ⟨rows.head hne, List.head_mem_head? hne, by simpa using hopens⟩

/-- The rows below the first one of a rung hang there. -/
theorem opensRung_of_mem_tail
    {rung : Rung} {row : Row}
    (hrung : rung ∈ split text) (hrow : row ∈ rung.rows.tail) :
    row.opensRung = false := by
  obtain ⟨rows, hrows, rfl⟩ := List.mem_map.mp hrung
  have hchain : rows.IsChain fun _ next => (!next.opensRung) = true :=
    List.isChain_of_mem_splitBy hrows
  simpa using forall_mem_tail_of_isChain hchain row hrow

theorem opensRung_iff_head?
    (row : Row) :
    row.opensRung = true ↔ row.cells.head? = some '-' := by
  rw [Row.opensRung, Row.get?, beq_iff_eq, List.head?_eq_getElem?]

/-- **The rungs of a text divide its bordered lines among them.**  The rows of the rungs, in order,
are what stands between the borders of those lines of the trimmed text that are bordered once the
blanks at their ends are removed.  No rung is empty.  Every rung but the first one starts with a row
that starts with a dash, and no row behind the first one of a rung does.  Each row stands at its
offset, between two borders and on a line of its own, and the rows stand one behind the other. -/
theorem split_partition
    (text : String) :
    ((split text).flatMap Rung.rows).map Row.cells =
      (((Text.lines (Text.trim text.toList)).map Text.trimEnd).filter
        fun line => IsBordered line).map betweenBorders ∧
    (∀ rung ∈ split text, rung.rows ≠ []) ∧
    (∀ rung ∈ (split text).tail, ∃ row ∈ rung.rows.head?, row.cells.head? = some '-') ∧
    (∀ rung ∈ split text, ∀ row ∈ rung.rows.tail, row.cells.head? ≠ some '-') ∧
    (∀ rung ∈ split text, ∀ row ∈ rung.rows, row.FillsLine text.toList) ∧
    ((split text).flatMap Rung.rows).Pairwise fun row next =>
      row.offset + Text.byteSize row.cells + 5 ≤ next.offset := by
  refine ⟨?_, ?_, ?_, ?_, ?_, ?_⟩
  · rw [flatMap_rows_split, rowsOf, cells_rowsFrom_eq, filterMap_content?_eq]
  · intro rung hrung
    obtain ⟨rows, hrows, rfl⟩ := List.mem_map.mp hrung
    exact List.ne_nil_of_mem_splitBy hrows
  · intro rung hrung
    obtain ⟨row, hrow, hopens⟩ := forall_mem_tail_of_isChain (isChain_split text) rung hrung
    exact ⟨row, hrow, (opensRung_iff_head? row).mp hopens⟩
  · intro rung hrung row hrow hdash
    rw [← opensRung_iff_head?, opensRung_of_mem_tail hrung hrow] at hdash
    cases hdash
  · intro rung hrung row hrow
    exact fillsLine_of_mem_rowsOf (mem_rowsOf_of_mem_split hrung hrow)
  · rw [flatMap_rows_split]
    exact pairwise_rowsFrom _ _

/-- Overlapping borders are commentary, and a row can be empty. -/
example : split "|||\n||||\r\n||-||" = [⟨[⟨[], 6⟩]⟩, ⟨[⟨['-'], 12⟩]⟩] := by
  cbv

end Rungs

end Rung
end RelayLadder
