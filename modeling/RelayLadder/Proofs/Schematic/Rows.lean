import RelayLadder.Proofs.Schematic.Compiled
import RelayLadder.Proofs.Text.Lines
import RelayLadder.Proofs.Wire.Fault

/-!
# Where the rows of a text stand

A row carries the byte at which its first cell stands.  Blanks before the text, the
lines before the row and the left border add up to it.

**Results.**
* `fillsLine_of_mem_rowsOf`: a row stands in its text between two borders, on a line of
  its own, and its offset is the number of bytes before its first cell.
* `rowsOf_append_line`: a text that is continued on a new line has the rows of both
  parts, those of the second part moved by the bytes of the first one.
-/

namespace RelayLadder

/-- Behind the text a line can start: the text is blank, or it ends with a line feed. -/
def Text.OpensLine (before : List Char) : Prop :=
  (∀ ch ∈ before, isBlank ch = true) ∨ before.getLast? = some '\n'

/-- Nothing but blanks stand in front of a line feed or the end of the text. -/
def Text.ClosesLine (after : List Char) : Prop :=
  ∃ blanks rest, after = blanks ++ rest ∧ (∀ ch ∈ blanks, isBlank ch = true) ∧
    (rest = [] ∨ rest.head? = some '\n')

/-- The row stands in the text between two borders, on a line of its own, and its offset is the
number of bytes before its first cell. -/
def Row.FillsLine (row : Row) (text : List Char) : Prop :=
  ∃ before after, text = before ++ Schematic.bordered row.cells ++ after ∧
    row.offset = Text.byteSize before + 2 ∧ Text.OpensLine before ∧ Text.ClosesLine after

namespace Rung

section Lines

/-- A line has content exactly when it is bordered. -/
theorem content?_eq_some_iff
    {line cells : List Char} :
    content? line = some cells ↔ line = Schematic.bordered cells := by
  constructor
  · intro h
    unfold content? at h
    split at h
    · rename_i rest
      split at h
      · rename_i inner hrest
        cases h
        have hback : rest = inner.reverse ++ ['|', '|'] := by
          rw [← List.reverse_reverse rest, hrest]
          simp
        rw [hback, Schematic.bordered]
      · cases h
    · cases h
  · rintro rfl
    exact Schematic.content?_bordered cells

theorem rowsFrom_append
    (start : Nat) (ls ls' : List (List Char)) :
    rowsFrom start (ls ++ ls') =
      rowsFrom start ls ++
        rowsFrom (start + (ls.map fun line => Text.byteSize line + 1).sum) ls' := by
  induction ls generalizing start with
  | nil => rfl
  | cons line ls ih =>
      have hstart : start + Text.byteSize line + 1 +
            (ls.map fun line => Text.byteSize line + 1).sum =
          start + ((line :: ls).map fun line => Text.byteSize line + 1).sum := by
        rw [List.map_cons, List.sum_cons]
        omega
      simp only [List.cons_append, rowsFrom, ih, hstart]
      split
      · rfl
      · rfl

/-- Lines that start later have the same rows, moved. -/
theorem rowsFrom_add
    (start n : Nat) (ls : List (List Char)) :
    rowsFrom (start + n) ls = (rowsFrom start ls).map (Row.shift n) := by
  induction ls generalizing start with
  | nil => rfl
  | cons line ls ih =>
      have hrest : rowsFrom (start + n + Text.byteSize line + 1) ls =
          (rowsFrom (start + Text.byteSize line + 1) ls).map (Row.shift n) := by
        rw [← ih]
        congr 1
        omega
      have hrow : ∀ cells, (⟨cells, start + n + 2⟩ : Row) = Row.shift n ⟨cells, start + 2⟩ := by
        intro cells
        rw [Row.shift, Nat.add_right_comm]
      simp only [rowsFrom, hrest]
      split
      · rw [List.map_cons, hrow]
      · rfl

/-- Only the last line notices a blank at the end of a text, and it is trimmed. -/
theorem rowsFrom_lines_append_blank
    (start : Nat) (s : List Char) {b : Char} (hb : Text.isBlank b = true) :
    rowsFrom start (Text.lines (s ++ [b])) = rowsFrom start (Text.lines s) := by
  rcases Text.exists_lines_append_blank s hb with hlines | ⟨front, last, hs, hsb⟩
  · rw [hlines, rowsFrom_append]
    exact List.append_nil _
  · rw [hs, hsb, rowsFrom_append, rowsFrom_append]
    simp only [rowsFrom, Text.trimEnd_append_blank last hb]

theorem rowsFrom_lines_append_blanks
    (start : Nat) (s blanks : List Char) (hblanks : ∀ b ∈ blanks, Text.isBlank b = true) :
    rowsFrom start (Text.lines (s ++ blanks)) = rowsFrom start (Text.lines s) := by
  induction blanks generalizing s with
  | nil => rw [List.append_nil]
  | cons b blanks ih =>
      rw [← List.singleton_append, ← List.append_assoc,
        ih _ fun b' hb' => hblanks b' (List.mem_cons_of_mem b hb'),
        rowsFrom_lines_append_blank start s (hblanks b List.mem_cons_self)]

/-- The blanks at the end of a text need not be trimmed to find its rows. -/
theorem rowsOf_eq
    (text : List Char) :
    rowsOf text =
      rowsFrom (Text.byteSize (text.takeWhile Text.isBlank))
        (Text.lines (Text.trimStart text)) := by
  obtain ⟨blanks, htext, hblanks⟩ := Text.exists_trimEnd_append (Text.trimStart text)
  calc rowsOf text
      = rowsFrom (Text.byteSize (text.takeWhile Text.isBlank))
          (Text.lines (Text.trimEnd (Text.trimStart text))) := rfl
    _ = rowsFrom (Text.byteSize (text.takeWhile Text.isBlank))
          (Text.lines (Text.trimEnd (Text.trimStart text) ++ blanks)) :=
        (rowsFrom_lines_append_blanks _ _ blanks hblanks).symm
    _ = _ := by rw [htext]

end Lines

section Places

/-- A row is cut from a line, on which nothing but blanks follow it. -/
theorem exists_of_mem_rowsFrom
    {row : Row} {start : Nat} {ls : List (List Char)}
    (h : row ∈ rowsFrom start ls) :
    ∃ before after, ['\n'].intercalate ls = before ++ Schematic.bordered row.cells ++ after ∧
      row.offset = start + Text.byteSize before + 2 ∧
      (before = [] ∨ before.getLast? = some '\n') ∧ Text.ClosesLine after := by
  induction ls generalizing start with
  | nil => cases h
  | cons line ls ih =>
      obtain ⟨rest, hrest, hbreak, hfeed⟩ : ∃ rest, ['\n'].intercalate (line :: ls) = line ++ rest ∧
          (rest = [] ∨ rest.head? = some '\n') ∧
          (ls ≠ [] → rest = '\n' :: ['\n'].intercalate ls) := by
        cases ls with
        | nil => exact ⟨[], by simp, Or.inl rfl, fun hne => absurd rfl hne⟩
        | cons next ls =>
            refine ⟨'\n' :: ['\n'].intercalate (next :: ls), ?_, Or.inr rfl, fun _ => rfl⟩
            rw [List.intercalate_cons_cons, List.append_assoc, List.singleton_append]
      -- Either the row is cut from this line, or it stands behind the line feed.
      have hcases :
          (∃ cells, content? (Text.trimEnd line) = some cells ∧ row = ⟨cells, start + 2⟩) ∨
          row ∈ rowsFrom (start + Text.byteSize line + 1) ls := by
        rw [rowsFrom] at h
        split at h
        · rename_i cells hcells
          rcases List.mem_cons.mp h with hrow | hrow
          · exact Or.inl ⟨cells, hcells, hrow⟩
          · exact Or.inr hrow
        · exact Or.inr h
      rcases hcases with ⟨cells, hcells, rfl⟩ | hrow
      · obtain ⟨blanks, hline, hblanks⟩ := Text.exists_trimEnd_append line
        rw [content?_eq_some_iff.mp hcells] at hline
        refine ⟨[], blanks ++ rest, ?_, rfl, Or.inl rfl, blanks, rest, rfl, hblanks, hbreak⟩
        rw [hrest, ← hline, List.nil_append, List.append_assoc]
      · have hne : ls ≠ [] := by
          rintro rfl
          cases hrow
        obtain ⟨before, after, hls, hoffset, hopens, hcloses⟩ := ih hrow
        refine ⟨line ++ '\n' :: before, after, ?_, ?_, Or.inr ?_, hcloses⟩
        · rw [hrest, hfeed hne, hls]
          simp
        · have hnewline : '\n'.utf8Size = 1 := by decide
          rw [hoffset, Text.byteSize_append, Text.byteSize_cons, hnewline]
          omega
        · rcases hopens with rfl | hlast
          · simp
          · rw [List.getLast?_append, List.getLast?_cons, hlast]
            rfl

/-- A row fills a line of its text. -/
theorem fillsLine_of_mem_rowsOf
    {row : Row} {text : List Char}
    (h : row ∈ rowsOf text) :
    row.FillsLine text := by
  rw [rowsOf_eq] at h
  obtain ⟨before, after, hlines, hoffset, hopens, hcloses⟩ := exists_of_mem_rowsFrom h
  rw [Text.intercalate_lines] at hlines
  refine ⟨text.takeWhile Text.isBlank ++ before, after, ?_, ?_, ?_, hcloses⟩
  · rw [List.append_assoc, List.append_assoc, ← List.append_assoc before, ← hlines, Text.trimStart,
      List.takeWhile_append_dropWhile]
  · rw [hoffset, Text.byteSize_append]
  · rcases hopens with rfl | hlast
    · refine Or.inl fun ch hch => ?_
      rw [List.append_nil] at hch
      exact List.all_eq_true.mp List.all_takeWhile ch hch
    · refine Or.inr ?_
      rw [List.getLast?_append, hlast]
      rfl

theorem mem_rowsOf_of_mem_split
    {text : String} {rung : Rung} {row : Row}
    (hrung : rung ∈ split text) (hrow : row ∈ rung.rows) :
    row ∈ rowsOf text.toList := by
  obtain ⟨rows, hrows, rfl⟩ := List.mem_map.mp hrung
  rw [← List.flatten_splitBy (fun _ next : Row => !next.opensRung) (rowsOf text.toList)]
  exact List.mem_flatten.mpr ⟨rows, hrows, hrow⟩

end Places

section Append

variable {s t : List Char}

theorem rowsOf_of_head
    (ht : ∀ ch ∈ t.head?, Text.isBlank ch = false) :
    rowsOf t = rowsFrom 0 (Text.lines t) := by
  rw [rowsOf_eq, Text.takeWhile_of_head ht, Text.trimStart_of_head ht]
  rfl

/-- A text that is continued on a new line has the rows of both parts. -/
theorem rowsOf_append_line
    (s : List Char) (ht : ∀ ch ∈ t.head?, Text.isBlank ch = false) :
    rowsOf (s ++ '\n' :: t) = rowsOf s ++ (rowsOf t).map (Row.shift (Text.byteSize s + 1)) := by
  have hnewline : '\n'.utf8Size = 1 := by decide
  have hsplit : s.takeWhile Text.isBlank ++ Text.trimStart s = s := List.takeWhile_append_dropWhile
  have hsecond : rowsFrom (Text.byteSize s + 1) (Text.lines t) =
      (rowsOf t).map (Row.shift (Text.byteSize s + 1)) := by
    rw [rowsOf_of_head ht, ← rowsFrom_add, Nat.zero_add]
  rw [← hsecond, rowsOf_eq, rowsOf_eq, Text.trimStart, List.takeWhile_append, List.dropWhile_append,
    ← Text.trimStart]
  by_cases hstart : Text.trimStart s = []
  · -- The first part is blank: the blanks before the text reach to the second part.
    have hblank : s.takeWhile Text.isBlank = s := by rwa [hstart, List.append_nil] at hsplit
    have hfeed : Text.isBlank '\n' = true := by decide
    rw [hblank, if_pos rfl, hstart, List.isEmpty_nil, if_pos rfl, List.takeWhile_cons_of_pos hfeed,
      List.dropWhile_cons_of_pos hfeed, ← Text.trimStart, Text.takeWhile_of_head ht,
      Text.trimStart_of_head ht, Text.byteSize_append]
    simp [rowsFrom, Text.lines, Text.pieces, Text.trimEnd, content?, hnewline]
  · have hlength : (s.takeWhile Text.isBlank).length ≠ s.length := by
      intro heq
      have hlen := congrArg List.length hsplit
      rw [List.length_append, heq] at hlen
      exact hstart (List.length_eq_zero_iff.mp (by omega))
    have hbytes :
        Text.byteSize (s.takeWhile Text.isBlank) + (Text.byteSize (Text.trimStart s) + 1) =
        Text.byteSize s + 1 := by
      rw [← Nat.add_assoc, ← Text.byteSize_append, hsplit]
    rw [if_neg hlength, if_neg (by simpa using hstart), Text.lines_append_newline, rowsFrom_append,
      Text.sum_byteSize_lines, hbytes]

end Append

end Rung
end RelayLadder
