import Mathlib
import RelayLadder.Canvas.Basic

/-!
# The plane behind a canvas

A canvas widens by repeating the last character of each row and grows downward
by blank rows.  So what it shows can be continued to an unbounded plane: to the
right each row goes on with its last character, and below there are blanks.
Growing does not change the plane.

**Sheets.**  A `Sheet` is the plane of a canvas with its sizes, its cursor and its
depth.  Each drawing action is a function on sheets, and `Does act s a s'` says
that `act`, started on any canvas that shows `s`, ends without a stop, gives `a`
and leaves a canvas that shows `s'`.
-/

namespace RelayLadder
namespace Canvas

section Plane

/-- The character of a row in a column.  Behind its end a row goes on with its last character. -/
def rowLook (row : List Char) (k : Nat) : Char :=
  row[min k (row.length - 1)]?.getD ' '

/-- The character at a position of the plane.  Rows that do not exist are blank. -/
def look (c : Canvas) (i k : Nat) : Char :=
  (c.rows[i]?.map (rowLook · k)).getD ' '

/-- All rows have the width of the canvas. -/
def Uniform (c : Canvas) : Prop :=
  ∀ row ∈ c.rows, row.length = c.width

theorem rowLook_of_lt
    {row : List Char} {k : Nat} (h : k < row.length) :
    rowLook row k = row[k]?.getD ' ' := by
  rw [rowLook, Nat.min_eq_left (by omega)]

@[simp] theorem rowLook_replicate
    (n : Nat) (k : Nat) :
    rowLook (List.replicate n ' ') k = ' ' := by
  simp only [rowLook, List.getElem?_replicate]
  split
  · rfl
  · rfl

theorem map_rowLook
    (row : List Char) :
    (List.range row.length).map (rowLook row) = row := by
  apply List.ext_getElem?
  intro k
  rw [List.getElem?_map]
  by_cases hk : k < row.length
  · rw [List.getElem?_range hk, Option.map_some, rowLook_of_lt hk, List.getElem?_eq_getElem hk]
    rfl
  · rw [List.getElem?_eq_none (Nat.not_lt.mp hk), List.getElem?_eq_none (by simpa using hk)]
    rfl

/-- A row made longer shows the same. -/
theorem rowLook_stretch
    (n : Nat) (row : List Char) (k : Nat) :
    rowLook (stretch n row) k = rowLook row k := by
  have hlen : (stretch n row).length = row.length + n := by
    simp [stretch]
  rw [rowLook, hlen, stretch, List.getElem?_append, List.getElem?_replicate,
    List.getLast?_eq_getElem?]
  by_cases hk : min k (row.length + n - 1) < row.length
  · rw [if_pos hk, rowLook]
    congr 2
    omega
  · rw [if_neg hk, rowLook]
    split
    · simp only [Option.getD_some]
      congr 2
      omega
    · have hempty : row.length = 0 := by omega
      rw [List.getElem?_eq_none (by omega)]

/-- A character written into a cell of a row.  In the last cell it is what the row goes on with. -/
theorem rowLook_set
    {col : Nat} {row : List Char} (ch : Char) (k : Nat)
    (hcol : col < row.length) :
    rowLook (row.set col ch) k =
      if k = col ∨ col ≤ k ∧ row.length ≤ col + 1 then ch else rowLook row k := by
  rw [rowLook, List.length_set, List.getElem?_set, rowLook]
  by_cases hhit : col = min k (row.length - 1)
  · rw [if_pos hhit, if_pos hcol, if_pos (by omega), Option.getD_some]
  · rw [if_neg hhit, if_neg (by omega)]

end Plane

section Growth

variable {c : Canvas}

theorem look_widenBy
    (n : Nat) (c : Canvas) :
    (c.widenBy n).look = c.look := by
  funext i k
  simp only [look, widenBy, List.getElem?_map, Option.map_map, Function.comp_def, rowLook_stretch]

theorem width_widenBy
    (n : Nat) (hrows : 0 < c.height) :
    (c.widenBy n).width = c.width + n := by
  obtain ⟨first, below, hc⟩ := List.exists_cons_of_length_pos hrows
  simp [width, widenBy, hc, stretch]

@[simp] theorem height_widenBy (n : Nat) (c : Canvas) : (c.widenBy n).height = c.height := by
  simp [height, widenBy]

theorem Uniform.widenBy
    (hc : c.Uniform) (n : Nat) (hrows : 0 < c.height) :
    (c.widenBy n).Uniform := by
  intro row hrow
  obtain ⟨row', hrow', rfl⟩ := List.mem_map.mp hrow
  rw [width_widenBy n hrows, stretch, List.length_append, List.length_replicate, hc row' hrow']

theorem uniform_blank
    (w : Nat) :
    (blank w).Uniform := by
  intro row hrow
  rw [List.mem_singleton.mp hrow]
  rfl

theorem finish_of_lt
    (hrow : c.row < c.height) :
    c.finish = .ok c.schematic :=
  if_pos (Nat.zero_lt_of_lt hrow)

/-- The row under the cursor. -/
theorem exists_currentRow
    (hc : c.Uniform) (hrow : c.row < c.height) :
    ∃ row, c.rows[c.row]? = some row ∧ row.length = c.width ∧ rowLook row = c.look c.row := by
  refine ⟨c.rows[c.row], List.getElem?_eq_getElem hrow, hc _ (List.getElem_mem hrow), ?_⟩
  funext k
  simp [look, List.getElem?_eq_getElem hrow]

variable {row' : List Char}

theorem width_set
    (hlen : row'.length = c.width) (hrow : c.row < c.height) :
    ((c.rows.set c.row row').headD []).length = c.width := by
  obtain ⟨first, below, hc⟩ := List.exists_cons_of_length_pos (Nat.zero_lt_of_lt hrow)
  cases hr : c.row with
  | zero => simp [hc, hlen]
  | succ n => simp [width, hc]

theorem look_set
    (hrow : c.row < c.height) (i k : Nat) :
    ((c.rows.set c.row row')[i]?.map (rowLook · k)).getD ' ' =
      if i = c.row then rowLook row' k else c.look i k := by
  rw [height] at hrow
  by_cases hi : i = c.row
  · subst hi
    simp [hrow]
  · simp [look, hi, List.getElem?_set_ne (Ne.symm hi)]

theorem Uniform.set
    (hc : c.Uniform) (hlen : row'.length = c.width) (hrow : c.row < c.height) :
    ∀ row ∈ c.rows.set c.row row',
      row.length = ((c.rows.set c.row row').headD []).length := by
  intro row hmem
  rw [width_set hlen hrow]
  rcases List.mem_or_eq_of_mem_set hmem with h | h
  · exact hc row h
  · rw [h, hlen]

end Growth

/-- A plane with the sizes, the cursor and the depth of a canvas. -/
@[ext]
structure Sheet where
  look : Nat → Nat → Char
  width : Nat
  height : Nat
  row : Nat
  col : Nat
  deepest : Nat

/-- What a canvas shows. -/
def sheet (c : Canvas) : Sheet :=
  ⟨c.look, c.width, c.height, c.row, c.col, c.deepest⟩

/-- The first `w` cells of a row of a plane. -/
def line (P : Nat → Nat → Char) (w i : Nat) : List Char :=
  (List.range w).map (P i)

/-- The rows of a canvas are the lines of its plane. -/
theorem Uniform.rows_eq
    {c : Canvas}
    (hc : c.Uniform) :
    c.rows = (List.range c.height).map (line c.look c.width) := by
  apply List.ext_getElem?
  intro i
  rw [List.getElem?_map]
  by_cases hi : i < c.height
  · have hi' : i < c.rows.length := hi
    have hlook : rowLook c.rows[i] = c.look i := by
      funext k
      simp [look, List.getElem?_eq_getElem hi']
    have hline : line c.look c.width i = c.rows[i] := by
      rw [line, ← hlook, ← hc _ (List.getElem_mem hi'), map_rowLook]
    rw [List.getElem?_eq_getElem hi', List.getElem?_range hi, Option.map_some, hline]
  · rw [List.getElem?_eq_none (Nat.not_lt.mp hi),
      List.getElem?_eq_none (by simpa using Nat.not_lt.mp hi)]
    rfl

/-- Started on any canvas that shows `s`, the action gives `a` and leaves a canvas that shows
`s'`. -/
def Does {α : Type} (act : Action α) (s : Sheet) (a : α) (s' : Sheet) : Prop :=
  ∀ c : Canvas, c.Uniform → c.sheet = s →
    ∃ c' : Canvas, act.run c = .ok a c' ∧ c'.Uniform ∧ c'.sheet = s'

namespace Sheet

section Actions

/-- The position of the cursor. -/
def marker (s : Sheet) : Marker :=
  ⟨s.row, s.col⟩

/-- The cursor moved to a position. -/
def goto (s : Sheet) (m : Marker) : Sheet :=
  { s with row := m.row, col := m.col }

/-- Wide enough for the cursor. -/
def reach (s : Sheet) : Sheet :=
  { s with width := max s.width (s.col + 1) }

/-- One cell to the right. -/
def right (s : Sheet) : Sheet :=
  { s with col := s.col + 1, width := max s.width (s.col + 2) }

/-- One cell down. -/
def down (s : Sheet) : Sheet :=
  { s with
    height := max s.height (s.row + 2)
    row := s.row + 1
    deepest := max s.deepest (s.row + 1) }

/-- To the last row. -/
def bottom (s : Sheet) : Sheet :=
  { s with row := s.height - 1 }

/-- To the last column. -/
def lineEnd (s : Sheet) : Sheet :=
  { s with col := s.width - 1 }

/-- To the first column of the next row. -/
def newline (s : Sheet) : Sheet :=
  { s with col := 0 }.down

/-- The plane after a text is written at the cursor.  Where the text reaches the right edge, the
row goes on with its last character. -/
def written (s : Sheet) (text : List Char) (i k : Nat) : Char :=
  if i = s.row ∧ s.col ≤ k then
    if k < s.col + text.length then text[k - s.col]?.getD ' '
    else if s.col + text.length < s.width then s.look i k
    else text.getLast?.getD ' '
  else
    s.look i k

/-- A text written at the cursor, which stays in place. -/
def write (s : Sheet) (text : List Char) : Sheet :=
  { s with look := s.written text, width := max s.width (s.col + text.length) }

/-- A text written at the cursor, which ends on its last character. -/
def draw (s : Sheet) (text : List Char) : Sheet :=
  { s.write text with col := s.col + text.length - 1 }

/-- The cell under the cursor redrawn by the text that a table gives for a character.  Without a
text it stays as it is. -/
def redraw (s : Sheet) (table : Char → Option String) (ch : Char) : Sheet :=
  if (table ch).getD "" = "" then s else s.draw ((table ch).getD "").toList

/-- A text drawn, and the cursor behind it. -/
def element (s : Sheet) (text : List Char) : Sheet :=
  (s.draw text).right

/-- The row filled from the cursor to the right edge. -/
def fill (s : Sheet) (ch : Char) : Sheet :=
  { s with
    look := fun i k => if i = s.row ∧ s.col ≤ k then ch else s.look i k
    col := s.width - 1 }

/-- The depth set to the cursor's row. -/
def openDepth (s : Sheet) : Sheet :=
  { s with deepest := s.row }

/-- The depth joined with an outer one. -/
def closeDepth (s : Sheet) (outer : Nat) : Sheet :=
  { s with deepest := max outer s.deepest }

end Actions

end Sheet

section Runs

variable {α β : Type} {act : Action α} {next : α → Action β} {c c' : Canvas}

theorem run_bind_of_ok
    {a : α}
    (h : act.run c = .ok a c') :
    (act >>= next).run c = (next a).run c' := by
  simp only [EStateM.run, Bind.bind, EStateM.bind] at h ⊢
  rw [h]

theorem run_bind_of_error
    {stop : Stop}
    (h : act.run c = .error stop c') :
    (act >>= next).run c = .error stop c' := by
  simp only [EStateM.run, Bind.bind, EStateM.bind] at h ⊢
  rw [h]

/-- An action that looks at the canvas first. -/
theorem run_get_bind (next : Canvas → Action β) : (get >>= next).run c = (next c).run c :=
  rfl

theorem run_modify_bind (f : Canvas → Canvas) (next : PUnit → Action β) :
    (modify f >>= next).run c = (next ⟨⟩).run (f c) :=
  rfl

theorem run_rowAt
    {i : Nat} {row : List Char}
    (h : c.rows[i]? = some row) :
    (Action.rowAt i).run c = .ok row c := by
  rw [Action.rowAt, run_get_bind, h]
  rfl

theorem run_currentRow
    {row : List Char}
    (h : c.rows[c.row]? = some row) :
    Action.currentRow.run c = .ok row c := by
  rw [Action.currentRow, run_get_bind, run_rowAt h]

theorem run_gridWidth
    (hrows : 0 < c.height) :
    Action.gridWidth.run c = .ok c.width c := by
  obtain ⟨first, below, hc⟩ := List.exists_cons_of_length_pos hrows
  have hfirst : c.rows[0]? = some first := by rw [hc, List.getElem?_cons_zero]
  rw [Action.gridWidth, run_bind_of_ok (run_rowAt hfirst), width, hc, List.headD_cons]
  rfl

theorem run_difference
    {m n : Nat}
    (h : n ≤ m) :
    (Action.difference m n).run c = .ok (m - n) c := by
  rw [Action.difference, if_pos h]
  rfl

/-- The canvas with a blank row below it. -/
def appendBlank (c : Canvas) : Canvas :=
  { c with rows := c.rows ++ [List.replicate c.width ' '] }

theorem run_extend_of_eq
    (hlast : c.row = c.height) (hrow : 0 < c.row) :
    Action.extend.run c = .ok () c.appendBlank := by
  rw [Action.extend, run_get_bind, if_pos hlast,
    run_bind_of_ok (run_gridWidth (hrow.trans_eq hlast))]
  rfl

theorem run_extend_of_ne
    (hlast : c.row ≠ c.height) :
    Action.extend.run c = .ok () c := by
  rw [Action.extend, run_get_bind, if_neg hlast]
  rfl

theorem run_down_of_eq
    (hlast : c.row + 1 = c.height) :
    Action.down.run c = .ok ()
      { c.appendBlank with row := c.row + 1, deepest := max c.deepest (c.row + 1) } := by
  have hextend := run_extend_of_eq (c := { c with row := c.row + 1 }) hlast (Nat.zero_lt_succ _)
  rw [Action.down, run_modify_bind, run_bind_of_ok hextend]
  rfl

theorem run_down_of_ne
    (hlast : c.row + 1 ≠ c.height) :
    Action.down.run c = .ok ()
      { c with row := c.row + 1, deepest := max c.deepest (c.row + 1) } := by
  have hextend := run_extend_of_ne (c := { c with row := c.row + 1 }) hlast
  rw [Action.down, run_modify_bind, run_bind_of_ok hextend]
  rfl

end Runs

section Actions

variable {α β : Type} {s s' s'' : Sheet}

theorem does_pure (a : α) : Does (pure a) s a s :=
  fun c hc hs => ⟨c, rfl, hc, hs⟩

theorem Does.bind
    {act : Action α} {next : α → Action β} {a : α} {b : β}
    (h : Does act s a s') (hnext : Does (next a) s' b s'') :
    Does (act >>= next) s b s'' := by
  intro c hc hs
  obtain ⟨c', hact, hc', hs'⟩ := h c hc hs
  obtain ⟨c'', hnext, hc'', hs''⟩ := hnext c' hc' hs'
  exact ⟨c'', (run_bind_of_ok hact).trans hnext, hc'', hs''⟩

/-- An action that looks at the canvas first. -/
theorem does_get_bind
    {next : Canvas → Action β} {b : β}
    (hnext : ∀ c : Canvas, c.sheet = s → Does (next c) s b s') :
    Does (get >>= next) s b s' := by
  intro c hc hs
  exact hnext c hs c hc hs

theorem marker_of_sheet
    {c : Canvas}
    (h : c.sheet = s) :
    c.marker = s.marker := by
  rw [← h]
  rfl

theorem does_goto
    (m : Marker) :
    Does (Action.goto m) s () (s.goto m) := by
  rintro c hc rfl
  exact ⟨_, rfl, hc, rfl⟩

theorem does_setRow
    (row : Nat) :
    Does (modify fun c : Canvas => { c with row := row }) s () { s with row := row } := by
  rintro c hc rfl
  exact ⟨_, rfl, hc, rfl⟩

theorem does_setCol
    (col : Nat) :
    Does (modify fun c : Canvas => { c with col := col }) s () { s with col := col } := by
  rintro c hc rfl
  exact ⟨_, rfl, hc, rfl⟩

theorem does_gridWidth
    (hrows : 0 < s.height) :
    Does Action.gridWidth s s.width s := by
  rintro c hc rfl
  exact ⟨c, run_gridWidth hrows, hc, rfl⟩

theorem does_difference
    {m n : Nat}
    (h : n ≤ m) :
    Does (Action.difference m n) s (m - n) s :=
  fun c hc hs => ⟨c, run_difference h, hc, hs⟩

theorem does_bottom
    (hrows : 0 < s.height) :
    Does Action.bottom s () s.bottom := by
  refine does_get_bind fun c hs => ?_
  rw [show c.height = s.height from congrArg Sheet.height hs]
  exact (does_difference hrows).bind (does_setRow _)

theorem does_lineEnd
    (hrows : 0 < s.height) :
    Does Action.lineEnd s () s.lineEnd :=
  (does_gridWidth hrows).bind (does_setCol _)

theorem does_openDepth : Does Action.openDepth s s.deepest s.openDepth := by
  rintro c hc rfl
  exact ⟨_, rfl, hc, rfl⟩

theorem does_closeDepth
    (outer : Nat) :
    Does (Action.closeDepth outer) s s.deepest (s.closeDepth outer) := by
  rintro c hc rfl
  exact ⟨_, rfl, hc, rfl⟩

theorem does_reach
    (hrows : 0 < s.height) :
    Does Action.reach s () s.reach := by
  rintro c hc rfl
  change 0 < c.height at hrows
  rw [Action.reach, run_bind_of_ok (run_gridWidth hrows), run_get_bind]
  by_cases hout : c.width ≤ c.col
  · refine ⟨c.widenBy (c.col + 1 - c.width), ?_, hc.widenBy _ hrows, ?_⟩
    · rw [if_pos hout]
      rfl
    · have hwidth : (c.widenBy (c.col + 1 - c.width)).width = max c.width (c.col + 1) := by
        rw [width_widenBy _ hrows]
        omega
      exact Sheet.ext (look_widenBy _ _) hwidth (height_widenBy _ _) rfl rfl rfl
  · have hwidth : c.width = max c.width (c.col + 1) := by omega
    refine ⟨c, ?_, hc, Sheet.ext rfl hwidth rfl rfl rfl rfl⟩
    rw [if_neg hout]
    rfl

theorem does_right
    (hrow : s.row < s.height) :
    Does Action.right s () s.right := by
  have hcol : Does (modify fun c : Canvas => { c with col := c.col + 1 }) s ()
      { s with col := s.col + 1 } := by
    rintro c hc rfl
    exact ⟨_, rfl, hc, rfl⟩
  exact hcol.bind (does_reach (Nat.zero_lt_of_lt hrow))

/-- A blank row at the bottom changes neither the plane nor the width. -/
theorem look_append_blank
    (rows : List (List Char)) (w i k : Nat) :
    ((rows ++ [List.replicate w ' '])[i]?.map (rowLook · k)).getD ' ' =
      (rows[i]?.map (rowLook · k)).getD ' ' := by
  rcases Nat.lt_trichotomy i rows.length with hlt | heq | hgt
  · rw [List.getElem?_append_left hlt]
  · subst heq
    simp
  · rw [List.getElem?_eq_none (by simp; omega), List.getElem?_eq_none (by omega)]

/-- A blank row at the bottom changes only the height. -/
theorem sheet_appendBlank
    {c : Canvas}
    (hrows : 0 < c.height) :
    c.appendBlank.sheet = { c.sheet with height := c.height + 1 } := by
  have hwidth : c.appendBlank.width = c.width := by
    obtain ⟨first, below, hc⟩ := List.exists_cons_of_length_pos hrows
    simp [width, appendBlank, hc]
  refine Sheet.ext ?_ hwidth ?_ rfl rfl rfl
  · funext i k
    exact look_append_blank c.rows c.width i k
  · exact List.length_append

theorem Uniform.appendBlank
    {c : Canvas}
    (hc : c.Uniform) (hrows : 0 < c.height) :
    c.appendBlank.Uniform := by
  have hwidth : c.appendBlank.width = c.width := congrArg Sheet.width (sheet_appendBlank hrows)
  intro row hmem
  rw [hwidth]
  rcases List.mem_append.mp hmem with hmem | hmem
  · exact hc row hmem
  · rw [List.mem_singleton.mp hmem, List.length_replicate]

theorem does_down
    (hrow : s.row < s.height) :
    Does Action.down s () s.down := by
  rintro c hc rfl
  change c.row < c.height at hrow
  have hrows : 0 < c.height := Nat.zero_lt_of_lt hrow
  by_cases hlast : c.row + 1 = c.height
  · have hheight : c.height + 1 = max c.height (c.row + 2) := by omega
    refine ⟨_, run_down_of_eq hlast, hc.appendBlank hrows, ?_⟩
    change { c.appendBlank.sheet with
      row := c.row + 1
      deepest := max c.deepest (c.row + 1) } = _
    rw [sheet_appendBlank hrows]
    exact Sheet.ext rfl rfl hheight rfl rfl rfl
  · have hheight : c.height = max c.height (c.row + 2) := by omega
    exact ⟨_, run_down_of_ne hlast, hc, Sheet.ext rfl rfl hheight rfl rfl rfl⟩

theorem does_newline
    (hrow : s.row < s.height) :
    Does Action.newline s () s.newline := by
  have hdown : Does Action.down { s with col := 0 } () s.newline := by
    apply does_down
    exact hrow
  exact (does_setCol 0).bind hdown

theorem does_left
    (hcol : 0 < s.col) :
    Does Action.left s () { s with col := s.col - 1 } := by
  rintro c hc rfl
  have hne : c.col ≠ 0 := Nat.ne_of_gt hcol
  refine ⟨{ c with col := c.col - 1 }, ?_, hc, rfl⟩
  simp [Action.left, EStateM.run, Bind.bind, EStateM.bind, get, getThe, MonadStateOf.get,
    EStateM.get, hne, MonadStateOf.set, EStateM.set]

theorem does_up
    (hrow : 0 < s.row) :
    Does Action.up s () { s with row := s.row - 1 } := by
  rintro c hc rfl
  have hne : c.row ≠ 0 := Nat.ne_of_gt hrow
  refine ⟨{ c with row := c.row - 1 }, ?_, hc, rfl⟩
  simp [Action.up, EStateM.run, Bind.bind, EStateM.bind, get, getThe, MonadStateOf.get,
    EStateM.get, hne, MonadStateOf.set, EStateM.set]

theorem does_peek
    (hrow : s.row < s.height) (hcol : s.col < s.width) :
    Does Action.peek s (s.look s.row s.col) s := by
  rintro c hc rfl
  obtain ⟨row, hget, hlen, hlook⟩ := exists_currentRow hc hrow
  refine ⟨c, ?_, hc, rfl⟩
  have hshown : row.getD c.col ' ' = c.look c.row c.col := by
    rw [← hlook, rowLook_of_lt (hlen.symm ▸ hcol), List.getD_eq_getElem?_getD]
  rw [Action.peek, run_bind_of_ok (run_currentRow hget), run_get_bind, hshown]
  rfl

/-- To the right of the grid there is nothing to see. -/
theorem does_peek_of_le
    (hrow : s.row < s.height) (hcol : s.width ≤ s.col) :
    Does Action.peek s ' ' s := by
  rintro c hc rfl
  obtain ⟨row, hget, hlen, -⟩ := exists_currentRow hc hrow
  have hout : row.getD c.col ' ' = ' ' := by
    have hend : row.length ≤ c.col := hlen.trans_le hcol
    rw [List.getD_eq_getElem?_getD, List.getElem?_eq_none hend, Option.getD_none]
  refine ⟨c, ?_, hc, rfl⟩
  rw [Action.peek, run_bind_of_ok (run_currentRow hget), run_get_bind, hout]
  rfl

/-- A character written at the cursor.  In the last column it is what the row goes on with. -/
theorem written_singleton
    (ch : Char) (i k : Nat) :
    s.written [ch] i k =
      if i = s.row ∧ (k = s.col ∨ s.col ≤ k ∧ s.width ≤ s.col + 1) then ch else s.look i k := by
  rw [Sheet.written, List.length_singleton]
  by_cases hi : i = s.row ∧ s.col ≤ k
  · rw [if_pos hi]
    by_cases hhere : k = s.col
    · rw [if_pos (by omega), if_pos ⟨hi.1, Or.inl hhere⟩, hhere, Nat.sub_self]
      rfl
    · rw [if_neg (by omega)]
      by_cases hend : s.col + 1 < s.width
      · rw [if_pos hend, if_neg (by omega)]
      · rw [if_neg hend, if_pos ⟨hi.1, Or.inr ⟨hi.2, Nat.not_lt.mp hend⟩⟩]
        rfl
  · rw [if_neg hi, if_neg (by omega)]

theorem does_setCell
    (ch : Char)
    (hrow : s.row < s.height) (hcol : s.col < s.width) :
    Does (Action.setCell ch) s () { s with look := s.written [ch] } := by
  rintro c hc rfl
  change c.row < c.height at hrow
  change c.col < c.width at hcol
  obtain ⟨row, hget, hlen, hlook⟩ := exists_currentRow hc hrow
  have hcell : c.col < row.length := hcol.trans_eq hlen.symm
  have hset : (row.set c.col ch).length = c.width := by
    rw [List.length_set, hlen]
  refine ⟨{ c with rows := c.rows.set c.row (row.set c.col ch) }, ?_, hc.set hset hrow, ?_⟩
  · rw [Action.setCell, run_bind_of_ok (run_currentRow hget), run_get_bind, if_pos hcell]
    rfl
  · refine Sheet.ext ?_ (width_set hset hrow) List.length_set rfl rfl rfl
    funext i k
    change ((c.rows.set c.row (row.set c.col ch))[i]?.map (rowLook · k)).getD ' ' =
      c.sheet.written [ch] i k
    rw [look_set hrow, rowLook_set ch k hcell, hlook, hlen, written_singleton]
    by_cases hi : i = c.row
    · subst hi
      simp [sheet]
    · simp [sheet, hi]

theorem does_put
    (ch : Char)
    (hrow : s.row < s.height) :
    Does (Action.put ch) s () (s.write [ch]) := by
  have hcol : s.reach.col < s.reach.width := Nat.lt_of_lt_of_le (Nat.lt_succ_self _)
    (Nat.le_max_right s.width (s.col + 1))
  have hlook : s.reach.written [ch] = s.written [ch] := by
    funext i k
    simp [Sheet.written, Sheet.reach]
  have hwrite : { s.reach with look := s.reach.written [ch] } = s.write [ch] := by
    rw [hlook]
    rfl
  rw [← hwrite]
  exact (does_reach (Nat.zero_lt_of_lt hrow)).bind (does_setCell ch hrow hcol)

/-- A text is continued by a character in the next cell. -/
theorem write_right_draw
    {text : List Char} (ch : Char)
    (htext : text ≠ []) :
    (s.draw text).right.write [ch] = s.draw (text ++ [ch]) := by
  have hpos : 0 < text.length := List.length_pos_iff.mpr htext
  have hcol : (s.draw text).right.col = s.col + text.length :=
    Nat.succ_pred_eq_of_pos (Nat.add_pos_right s.col hpos)
  have hwidth : (s.draw text).right.width = max s.width (s.col + text.length + 1) := by
    change max (max s.width (s.col + text.length)) (s.col + text.length - 1 + 2) = _
    omega
  have hlength : (text ++ [ch]).length = text.length + 1 := List.length_append
  have hlook : (s.draw text).right.written [ch] = s.written (text ++ [ch]) := by
    funext i k
    have hdrawn : (s.draw text).right.look i k = s.written text i k := rfl
    have hrow : (s.draw text).right.row = s.row := rfl
    rw [Sheet.written, hrow, hcol, hwidth, hdrawn, List.length_singleton, Sheet.written,
      Sheet.written, hlength, List.getLast?_concat]
    by_cases hi : i = s.row ∧ s.col ≤ k
    · rw [if_pos hi, if_pos hi]
      rcases Nat.lt_trichotomy k (s.col + text.length) with hlt | heq | hgt
      · rw [if_neg (by omega), if_pos hlt, if_pos (by omega), List.getElem?_append_left (by omega)]
      · rw [if_pos (by omega), if_pos (by omega), if_pos (by omega),
          List.getElem?_append_right (by omega), heq]
        congr 2
        omega
      · rw [if_pos (by omega), if_neg (by omega)]
        by_cases hend : s.col + text.length + 1 < s.width
        · rw [if_pos (by omega), if_neg (by omega), if_pos (by omega), if_neg (by omega),
            if_pos (by omega)]
        · rw [if_neg (by omega), if_neg (by omega), if_neg (by omega)]
          rfl
    · rw [if_neg (by omega), if_neg hi, if_neg hi]
  refine Sheet.ext hlook ?_ rfl rfl ?_ rfl
  · change max (s.draw text).right.width ((s.draw text).right.col + 1) = _
    rw [hwidth, hcol]
    change _ = max s.width (s.col + (text ++ [ch]).length)
    omega
  · change (s.draw text).right.col = s.col + (text ++ [ch]).length - 1
    omega

theorem does_putNext
    {text : List Char} (ch : Char)
    (hrow : s.row < s.height) (htext : text ≠ []) :
    Does (Action.putNext ch) (s.draw text) () (s.draw (text ++ [ch])) := by
  rw [← write_right_draw ch htext]
  have hright : Does Action.right (s.draw text) () (s.draw text).right := does_right hrow
  exact hright.bind (does_put (s := (s.draw text).right) ch hrow)

theorem does_forM_putNext
    {text : List Char} (rest : List Char)
    (hrow : s.row < s.height) (htext : text ≠ []) :
    Does (rest.forM Action.putNext) (s.draw text) () (s.draw (text ++ rest)) := by
  induction rest generalizing text with
  | nil =>
      rw [List.append_nil]
      exact does_pure ()
  | cons ch rest ih =>
      rw [List.append_cons]
      exact (does_putNext ch hrow htext).bind (ih (List.append_ne_nil_of_right_ne_nil _ nofun))

theorem does_draw
    {text : String}
    (hrow : s.row < s.height) (htext : text ≠ "") :
    Does (Action.draw text) s () (s.draw text.toList) := by
  have hne : text.toList ≠ [] := fun h => htext (String.toList_eq_nil_iff.mp h)
  cases hlist : text.toList with
  | nil => exact absurd hlist hne
  | cons first rest =>
      rw [Action.draw, hlist]
      exact (does_put first hrow).bind (does_forM_putNext rest hrow (List.cons_ne_nil first []))

theorem does_draw_empty : Does (Action.draw "") s () s := by
  have hdraw : Action.draw "" = pure () := by
    rw [Action.draw, String.toList_empty]
  rw [hdraw]
  exact does_pure ()

/-- To the right of the grid nothing is filled. -/
theorem does_fill_of_le
    (ch : Char)
    (hrow : s.row < s.height) (hcol : s.width ≤ s.col) :
    Does (Action.fill ch) s () s := by
  refine (does_gridWidth (Nat.zero_lt_of_lt hrow)).bind (does_get_bind fun c hs => ?_)
  have hout : ¬ c.col < s.width := by
    rw [show c.col = s.col from congrArg Sheet.col hs]
    exact Nat.not_lt.mpr hcol
  rw [if_neg hout]
  exact does_pure ()

theorem does_setCells
    (ch : Char)
    (hrow : s.row < s.height) (hcol : s.col < s.width) :
    Does (Action.setCells ch) s ()
      { s with look := fun i k => if i = s.row ∧ s.col ≤ k then ch else s.look i k } := by
  rintro c hc rfl
  change c.row < c.height at hrow
  change c.col < c.width at hcol
  obtain ⟨row, hget, hlen, hlook⟩ := exists_currentRow hc hrow
  have hfit : c.col ≤ row.length := (hcol.trans_eq hlen.symm).le
  obtain ⟨filled, hfilled⟩ : ∃ filled,
      filled = row.take c.col ++ List.replicate (row.length - c.col) ch := ⟨_, rfl⟩
  have hlength : filled.length = c.width := by
    rw [hfilled, List.length_append, List.length_take, List.length_replicate]
    omega
  refine ⟨{ c with rows := c.rows.set c.row filled }, ?_, hc.set hlength hrow, ?_⟩
  · rw [Action.setCells, run_bind_of_ok (run_currentRow hget), run_get_bind, if_pos hfit, hfilled]
    rfl
  · refine Sheet.ext ?_ (width_set hlength hrow) List.length_set rfl rfl rfl
    funext i k
    change ((c.rows.set c.row filled)[i]?.map (rowLook · k)).getD ' ' = _
    rw [look_set hrow]
    simp only [sheet]
    by_cases hi : i = c.row
    · subst hi
      rw [if_pos rfl, rowLook, hlength, hfilled, List.getElem?_append, List.getElem?_take,
        List.length_take, Nat.min_eq_left hfit]
      by_cases hk : c.col ≤ k
      · rw [if_neg (by omega), List.getElem?_replicate, if_pos (by omega)]
        simp [hk]
      · rw [if_pos (by omega), if_pos (by omega), ← hlook, rowLook, hlen]
        simp [hk]
    · simp [hi]

theorem does_fill
    (ch : Char)
    (hrow : s.row < s.height) (hcol : s.col < s.width) :
    Does (Action.fill ch) s () (s.fill ch) := by
  refine (does_gridWidth (Nat.zero_lt_of_lt hrow)).bind (does_get_bind fun c hs => ?_)
  rw [if_pos (show c.col < s.width from (congrArg Sheet.col hs).trans_lt hcol)]
  exact (does_setCells ch hrow hcol).bind
    ((does_difference (Nat.zero_lt_of_lt hcol)).bind (does_setCol _))

section Redrawing

variable {table : Char → Option String} {ch : Char}

theorem redraw_cases
    (s : Sheet) (table : Char → Option String) (ch : Char) :
    s.redraw table ch = s ∨
      ∃ text, table ch = some text ∧ text ≠ "" ∧ s.redraw table ch = s.draw text.toList := by
  rw [Sheet.redraw]
  cases table ch with
  | none => exact Or.inl (if_pos rfl)
  | some text =>
      by_cases htext : text = ""
      · exact Or.inl (if_pos htext)
      · exact Or.inr ⟨text, rfl, htext, if_neg htext⟩

@[simp] theorem deepest_redraw (s : Sheet) (table : Char → Option String) (ch : Char) :
    (s.redraw table ch).deepest = s.deepest := by
  rw [Sheet.redraw]
  split <;> rfl

theorem redraw_of_none
    (h : table ch = none) :
    s.redraw table ch = s := by
  rw [Sheet.redraw, h]
  exact if_pos rfl

theorem does_draw_of_table
    {text : String}
    (hrow : s.row < s.height) (h : table ch = some text) :
    Does (Action.draw text) s () (s.redraw table ch) := by
  rw [Sheet.redraw, h, Option.getD_some]
  split
  · rename_i htext
    subst htext
    exact does_draw_empty
  · rename_i htext
    exact does_draw hrow htext

/-- One step of going up: the cell under the cursor is redrawn, and the rest starts in the row above
it. -/
theorem does_redrawUp_succ
    {n : Nat}
    (hpeek : Does Action.peek s ch s) (hrow : s.row < s.height) (hpos : 0 < s.row)
    (hrest : Does (Action.redrawUp table n)
      ((s.redraw table ch).goto ⟨s.row - 1, s.col⟩) () s') :
    Does (Action.redrawUp table (n + 1)) s () s' := by
  have hup : Does Action.up ((s.redraw table ch).goto s.marker) ()
      ((s.redraw table ch).goto ⟨s.row - 1, s.col⟩) :=
    does_up (s := (s.redraw table ch).goto s.marker) hpos
  have hafter : Does (do
      Action.goto s.marker
      Action.up
      Action.redrawUp table n) (s.redraw table ch) () s' :=
    (does_goto s.marker).bind (hup.bind hrest)
  rw [Action.redrawUp]
  refine does_get_bind fun c hc => ?_
  rw [marker_of_sheet hc]
  refine hpeek.bind ?_
  cases htable : table ch with
  | none =>
      rw [redraw_of_none htable] at hafter
      exact hafter
  | some text => exact (does_draw_of_table hrow htable).bind hafter

end Redrawing

end Actions

end Canvas
end RelayLadder
