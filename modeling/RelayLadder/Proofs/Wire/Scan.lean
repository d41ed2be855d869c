import RelayLadder.Proofs.Text.Lines
import RelayLadder.Proofs.Wire.Reading

/-!
# Reading by place

The reader of a wire is handed the row that it reads and the rows below it.  A scan
reads the same rung by numbers.  It looks up rows and columns, and it halts when one
of them does not exist, when a span would end before it starts, and when no steps are
left.

**Passes.**  `Scan.pass` is what is done at the first column of a region.  The rest of
the region and the branches of a block are left to a function `again`, and `Scan.read`
ties the knot: each further pass uses up one step.

**Regions.**  `Scan.Region.Visits` tells which regions are read on behalf of a region:
those further right in the same row, and those strictly between its two ends.

**Results.**
* `Scan.pass_congr`: a pass depends on `again` only at the regions that it visits.
* `Scan.pass_readerAt`: what the reader finds is what a pass finds that leaves the rest
  to the reader.
* `Scan.read_eq`: with enough steps, a scan finds what the reader finds, and halts for
  no other cause than a fault of the rung.  Visited regions get smaller, so this follows
  from the two results before it.
* `Program.ofRungs_eq_scan`: the program of rungs is found by a scan, and no lookup of it
  fails.
-/

namespace RelayLadder

open Wire (Scope isNameless isWordless nameOf)

/-- Why a scan ends early. -/
inductive Scan.Halt
  /-- The rung is at fault. -/
  | fault (cause : Fault)
  /-- A row that does not exist was looked up. -/
  | noRow (row : Nat)
  /-- A cell beyond the end of its row was looked up. -/
  | noCell (col : Nat)
  /-- Cells were to be cut out between bounds that are out of order or beyond the end of the row. -/
  | noCells (start stop : Nat)
  /-- A span was to end before it starts. -/
  | noSpan (start stop : Nat)
  /-- No steps are left. -/
  | outOfSteps
  deriving DecidableEq, Repr

/-- What a scan finds, unless it halts. -/
abbrev Scan := Except Scan.Halt

namespace Scan

section Lookups

/-- A row that must exist. -/
def row (rung : Rung) (r : Nat) : Scan Row :=
  match rung.rows[r]? with
  | some row => .ok row
  | none => .error (.noRow r)

/-- A cell that must exist. -/
def cell (row : Row) (col : Nat) : Scan Char :=
  match row.get? col with
  | some ch => .ok ch
  | none => .error (.noCell col)

/-- The cells from `start` up to, and without, `stop`, which must be bounds of cells of the row. -/
def cells (row : Row) (start stop : Nat) : Scan (List Char) :=
  if start ≤ stop ∧ stop ≤ row.length then
    .ok (row.between start stop)
  else
    .error (.noCells start stop)

/-- The byte at which a column stands; columns beyond the row stand at its end. -/
def byteAt (row : Row) (col : Nat) : Scan Nat := do
  let before ← cells row 0 (min col row.length)
  return row.offset + Text.byteSize before

/-- The text from a column on, without the blanks at its end. -/
def remainder (row : Row) (col : Nat) : Scan String := do
  let rest ← cells row (min col row.length) row.length
  return String.ofList (Text.trimEnd rest)

/-- Halts with the fault that row `r` cannot be read from `col` on. -/
def refuse {α : Type} (rung : Rung) (flaw : Flaw) (r col : Nat) : Scan α := do
  let row ← row rung r
  let text ← remainder row col
  let start ← byteAt row col
  let stop ← byteAt row row.length
  match Span.between? start stop with
  | some span => .error (.fault (.malformed flaw text span))
  | none => .error (.noSpan start stop)

/-- The first of some columns that shows `closer`. -/
def closing (row : Row) (closer : Char) : List Nat → Scan (Option Nat)
  | [] => .ok none
  | col :: cols => do
    let ch ← cell row col
    if ch = closer then
      return some col
    else
      closing row closer cols

end Lookups

section Elements

/-- The part of a row from `col` up to, and without, `stop`. -/
structure Region where
  row : Nat
  col : Nat
  stop : Nat
  deriving DecidableEq, Repr

/-- The rest of a region behind a column. -/
def Region.behind (region : Region) (col : Nat) : Region :=
  { region with col := col + 1 }

/-- The text of an element and the column that closes it. -/
structure Element where
  text : List Char
  close : Nat
  deriving DecidableEq, Repr

/-- The element at the start of a region, which must be closed and must not be empty. -/
def element (rung : Rung) (region : Region) (closer : Char) (isEmpty : List Char → Bool) :
    Scan Element := do
  let row ← row rung region.row
  match ← closing row closer (Wire.columns region.col (min region.stop row.length)) with
  | none => refuse rung (.unterminated closer) region.row region.col
  | some close => do
    let text ← cells row (region.col + 1) close
    if isEmpty text then
      refuse rung .emptyOperand region.row region.col
    else
      return ⟨text, close⟩

/-- Whether row `r` shows blanks only in some columns, up to the first that it does not have. -/
def blank (rung : Rung) (r : Nat) : List Nat → Bool
  | [] => true
  | col :: cols =>
    match rung.cell? r col with
    | none => true
    | some ch => Text.isBlank ch && blank rung r cols

end Elements

section Blocks

/-- The branch rows from row `r` on, found by going down column `col` while it shows `|` or `+`. -/
def branchesFrom (rung : Rung) (col : Nat) : Nat → Nat → Scan (List Nat)
  | 0, _ => .error .outOfSteps
  | steps + 1, r =>
    match rung.cell? r col with
    | some '+' => do
      let below ← branchesFrom rung col steps (r + 1)
      return r :: below
    | some '|' => branchesFrom rung col steps (r + 1)
    | _ => .ok []

/-- Whether column `x` closes row `r` of a block: by `+`, or by `|` where it is no branch row. -/
def closes (rung : Rung) (branches : List Nat) (x r : Nat) : Bool :=
  match rung.cell? r x with
  | some '+' => true
  | some '|' => !branches.contains r
  | _ => false

/-- Whether column `x` closes all rows of a block, from the first branch row to the last. -/
def closesAll (rung : Rung) (branches : List Nat) (x : Nat) : Bool :=
  match branches.head?, branches.getLast? with
  | some top, some bottom => (List.range' top (bottom + 1 - top)).all (closes rung branches x)
  | _, _ => false

/-- The branch rows of a block and the column of its right rail. -/
structure Block where
  branches : List Nat
  close : Nat
  deriving DecidableEq, Repr

/-- The block that opens at the start of a region, which must be closed inside the region. -/
def block (rung : Rung) (steps : Nat) (region : Region) : Scan Block := do
  let below ← branchesFrom rung region.col steps (region.row + 1)
  match (Wire.columns region.col region.stop).find? (closesAll rung (region.row :: below)) with
  | none => refuse rung .unclosedBranch region.row region.col
  | some close => return ⟨region.row :: below, close⟩

end Blocks

section Passes

/-- What is done at the first column of a region.  The rest of it, and the branches of a block, are
left to `again`. -/
def pass (rung : Rung) (steps : Nat) (again : Scope → Region → Scan Wire) (scope : Scope)
    (region : Region) : Scan Wire :=
  if region.col < region.stop then
    match rung.cell? region.row region.col with
    | none => .ok .finish
    | some '-' => again scope (region.behind region.col)
    | some '[' => do
      let found ← element rung region ']' isNameless
      let rest ← again scope (region.behind found.close)
      return .contact (nameOf found.text).1 (nameOf found.text).2 rest
    | some '\x7b' => do
      let found ← element rung region '\x7d' isWordless
      let rest ← again scope (region.behind found.close)
      return .call ((Text.words found.text).map String.ofList) rest
    | some '(' =>
      match scope with
      | .branch => refuse rung .coilInBranch region.row region.col
      | .rung => do
        let found ← element rung region ')' isNameless
        let rest ← again scope (region.behind found.close)
        return .coil (nameOf found.text).1 (nameOf found.text).2 rest
    | some '+' => do
      let found ← block rung steps region
      let branches ← found.branches.mapM fun r => again .branch ⟨r, region.col + 1, found.close⟩
      let rest ← again scope (region.behind found.close)
      return .block branches rest
    | some _ =>
      if blank rung region.row (List.range' region.col (region.stop - region.col)) then
        .ok .finish
      else
        refuse rung .unrecognized region.row region.col
  else
    .ok .finish

/-- The wire in a region.  Each pass uses up one step. -/
def read (rung : Rung) : Nat → Scope → Region → Scan Wire
  | 0, _, _ => .error .outOfSteps
  | steps + 1, scope, region => pass rung steps (read rung steps) scope region

/-- The program of a rung: the whole of its first row is read. -/
def program (steps : Nat) (rung : Rung) : Scan Program :=
  (read rung steps .rung ⟨0, 0, rung.rowLength 0⟩).map Wire.code

/-- The program of rungs in order. -/
def programs (steps : Nat) (rungs : List Rung) : Scan Program :=
  (rungs.mapM (program steps)).map List.flatten

end Passes

section Found

variable {rung : Rung} {row : Row} {below : List Row} {r col stop : Nat}

theorem row_of_drop
    (h : rung.rows.drop r = row :: below) :
    Scan.row rung r = .ok row := by
  rw [Scan.row, Rung.getElem?_of_drop h]

theorem cells_of_le
    {start : Nat}
    (h : start ≤ stop) (hstop : stop ≤ row.length) :
    cells row start stop = .ok (row.between start stop) :=
  if_pos ⟨h, hstop⟩

theorem byteAt_eq
    (row : Row) (col : Nat) :
    byteAt row col = .ok (row.byteAt col) := by
  have hcells : row.between 0 (min col row.length) = row.cells.take col := by
    simp [Row.between, Row.length, ← List.take_eq_take_min]
  rw [byteAt, cells_of_le (Nat.zero_le _) (Nat.min_le_right _ _), hcells]
  rfl

theorem remainder_eq
    (row : Row) (col : Nat) :
    remainder row col = .ok (row.remainder col) := by
  have hcells : row.between (min col row.length) row.length = row.cells.drop col := by
    simp [Row.between, Row.length, ← List.drop_eq_drop_min]
  rw [remainder, cells_of_le (Nat.min_le_right _ _) (Nat.le_refl _), hcells]
  rfl

/-- The columns of a row stand in order, so every fault has a span. -/
theorem byteAt_le
    (row : Row) (col : Nat) :
    row.byteAt col ≤ row.byteAt row.length := by
  rw [Row.byteAt, Row.byteAt, Row.length, List.take_length]
  conv_rhs => rw [← List.take_append_drop col row.cells, Text.byteSize_append]
  omega

theorem refuse_eq
    {α : Type} (h : rung.rows.drop r = row :: below) (flaw : Flaw) (col : Nat) :
    (refuse rung flaw r col : Scan α) = .error (.fault (row.malformed flaw col)) := by
  have hspan : Span.between? (row.byteAt col) (row.byteAt row.length) =
      some ⟨row.byteAt col, row.byteAt row.length⟩ :=
    if_pos (byteAt_le row col)
  simp only [refuse, row_of_drop h, remainder_eq, byteAt_eq, hspan, bind, Except.bind]
  rfl

/-- Columns of the row can be looked up. -/
theorem closing_eq
    (closer : Char) {cols : List Nat} (h : ∀ c ∈ cols, c < row.length) :
    closing row closer cols = .ok (cols.find? fun c => row.get? c == some closer) := by
  induction cols with
  | nil => rfl
  | cons c cols ih =>
      obtain ⟨hc, hcols⟩ := List.forall_mem_cons.mp h
      obtain ⟨ch, hch⟩ : ∃ ch, row.get? c = some ch := ⟨_, List.getElem?_eq_getElem hc⟩
      have hcell : cell row c = .ok ch := by
        rw [cell, hch]
      rw [closing, hcell, List.find?_cons, hch]
      by_cases heq : ch = closer
      · simp [heq, bind, Except.bind, pure, Except.pure]
      · simp [beq_false_of_ne heq, heq, bind, Except.bind, ih hcols]

/-- The text that the reader takes ends before the first closing character. -/
theorem encloses_of_inside?
    {opener closer : Char} {text : List Char}
    (h : rung.rows.drop r = row :: below) (hcell : row.get? col = some opener)
    (hin : Wire.inside? row closer col stop = some text) :
    rung.Encloses opener closer r col (col + text.length + 1) stop ∧
      row.between (col + 1) (col + text.length + 1) = text := by
  have hshown := (Rung.cell?_of_drop h col).trans hcell
  obtain ⟨j, henc⟩ := Rung.exists_encloses h hshown hin
  have htext : text = rung.inner r col j :=
    Option.some.inj (hin.symm.trans (Rung.inside?_of_encloses h henc))
  have hj : col + text.length + 1 = j := by
    have hafter := henc.after
    rw [htext, henc.length_inner h]
    omega
  rw [hj, ← Rung.inner_of_drop h, ← htext]
  exact ⟨henc, rfl⟩

/-- The column that closes an element is found where the reader finds it. -/
theorem find?_columns_eq
    {opener closer : Char}
    (h : rung.rows.drop r = row :: below) (hcell : row.get? col = some opener) :
    (Wire.columns col (min stop row.length)).find? (fun c => row.get? c == some closer) =
      (Wire.inside? row closer col stop).map fun text => col + text.length + 1 := by
  cases hin : Wire.inside? row closer col stop with
  | none =>
      rw [Option.map_none, List.find?_eq_none]
      intro c hc hclose
      have hbounds := List.mem_range'_1.mp hc
      have hmem : closer ∈ row.between (col + 1) stop :=
        Rung.mem_between_iff.mpr ⟨c, hbounds.1, by omega, by simpa using hclose⟩
      rw [Wire.inside?, if_pos (List.contains_iff_mem.mpr hmem)] at hin
      cases hin
  | some text =>
      obtain ⟨henc, -⟩ := encloses_of_inside? h hcell hin
      have hlength := henc.lt_length h
      have hbefore := henc.before
      rw [Option.map_some, Wire.columns, List.find?_range'_eq_some, List.mem_range'_1]
      refine ⟨?_, by omega, ?_⟩
      · simpa using (Rung.cell?_of_drop h _).symm.trans henc.closes
      · intro c hc hclose
        have hfirst := henc.first c hc hclose
        rw [Rung.cell?_of_drop h] at hfirst
        simpa using hfirst

/-- The text of an element, and the column that closes it, are what the reader takes. -/
theorem element_eq
    {opener closer : Char} {isEmpty : List Char → Bool}
    (h : rung.rows.drop r = row :: below) (hcell : row.get? col = some opener) :
    element rung ⟨r, col, stop⟩ closer isEmpty =
      ((Wire.operand row closer col stop isEmpty).map fun text =>
        ⟨text, col + text.length + 1⟩).mapError Halt.fault := by
  have hcols : ∀ c ∈ Wire.columns col (min stop row.length), c < row.length := by
    intro c hc
    have hbounds := List.mem_range'_1.mp hc
    omega
  simp only [element, row_of_drop h, closing_eq closer hcols, find?_columns_eq h hcell, bind,
    Except.bind, refuse_eq h]
  rw [Wire.operand]
  cases hin : Wire.inside? row closer col stop with
  | none => rfl
  | some text =>
      obtain ⟨henc, htext⟩ := encloses_of_inside? h hcell hin
      have hcells := cells_of_le (by omega : col + 1 ≤ col + text.length + 1)
        (Nat.le_of_lt (henc.lt_length h))
      simp only [Option.map_some, hcells, htext]
      cases isEmpty text with
      | false => rfl
      | true => rfl

theorem between_of_get?
    {ch : Char}
    (hcell : row.get? col = some ch) (hcol : col < stop) :
    row.between col stop = ch :: row.between (col + 1) stop := by
  obtain ⟨hlt, hch⟩ := List.getElem?_eq_some_iff.mp hcell
  have hlength : col < (row.cells.take stop).length := by
    rw [List.length_take]
    omega
  rw [Row.between, Row.between, List.drop_eq_getElem_cons hlength, List.getElem_take, hch]

/-- A region is blank for a scan if it is blank for the reader. -/
theorem blank_eq
    (h : rung.rows.drop r = row :: below) (col n : Nat) :
    blank rung r (List.range' col n) = (row.between col (col + n)).all Text.isBlank := by
  induction n generalizing col with
  | zero =>
      have hnil : row.between col (col + 0) = [] := by
        simp [Row.between]
      rw [hnil]
      rfl
  | succ n ih =>
      rw [List.range'_succ, blank, Rung.cell?_of_drop h]
      cases hcell : row.get? col with
      | none =>
          have hnil : row.between col (col + (n + 1)) = [] := by
            have hlength := List.getElem?_eq_none_iff.mp hcell
            simp [Row.between]
            omega
          rw [hnil]
          rfl
      | some ch =>
          have hstop : col + 1 + n = col + (n + 1) := by omega
          rw [between_of_get? hcell (by omega), List.all_cons, ih, hstop]

end Found

section Rails

variable {rung : Rung} {row : Row} {below : List Row} {r col stop : Nat} {branches : List Nat}

/-- With a step for every row, going down a column finds the rows that it leads to. -/
theorem exists_branchesFrom
    (rung : Rung) (col : Nat) {steps r : Nat} (hsteps : rung.rows.length - r < steps) :
    ∃ branches, branchesFrom rung col steps r = .ok branches ∧ branches.Pairwise (· < ·) ∧
      ∀ j, j ∈ branches ↔ rung.Leads col r j := by
  induction steps generalizing r with
  | zero => cases hsteps
  | succ steps ih =>
      -- A cell that is shown stands in a row, so a step is left for each row below it.
      have hrest : ∀ ch, rung.cell? r col = some ch → rung.rows.length - (r + 1) < steps := by
        intro ch hch
        obtain ⟨row, below, hdrop⟩ := Rung.exists_drop_of_cell? hch
        have hlength := congrArg List.length hdrop
        simp only [List.length_drop, List.length_cons] at hlength
        omega
      rw [branchesFrom]
      split
      · rename_i hplus
        obtain ⟨branches, hbranches, hasc, hmem⟩ := ih (hrest _ hplus)
        refine ⟨r :: branches, by rw [hbranches]; rfl, ?_, fun j => ?_⟩
        · exact List.pairwise_cons.mpr ⟨fun j hj => ((hmem j).mp hj).1, hasc⟩
        · rw [List.mem_cons, hmem, Rung.leads_iff_of_cell? (Or.inr hplus)]
          simp [hplus]
      · rename_i hbar
        obtain ⟨branches, hbranches, hasc, hmem⟩ := ih (hrest _ hbar)
        refine ⟨branches, hbranches, hasc, fun j => ?_⟩
        rw [hmem, Rung.leads_iff_of_cell? (Or.inl hbar)]
        simp [hbar]
      · rename_i hplus hbar
        exact ⟨[], rfl, .nil, fun j => by simp [Rung.not_leads_of_cell? hplus hbar]⟩

theorem closes_iff
    {x i : Nat} :
    closes rung branches x i = true ↔
      rung.cell? i x = some '+' ∨ rung.cell? i x = some '|' ∧ i ∉ branches := by
  rw [closes]
  split
  · rename_i hplus
    simp [hplus]
  · rename_i hbar
    simp [hbar]
  · rename_i hplus hbar
    exact iff_of_false Bool.false_ne_true fun h => h.elim hplus fun h => hbar h.1

/-- Branch rows in order stand between the first and the last of them. -/
theorem bounds_of_ascending
    {bottom j : Nat} (hasc : (r :: branches).Pairwise (· < ·))
    (hbottom : (r :: branches).getLast? = some bottom) (hj : j ∈ r :: branches) :
    r ≤ j ∧ j ≤ bottom := by
  constructor
  · rcases List.mem_cons.mp hj with rfl | hj
    · exact Nat.le_refl j
    · exact Nat.le_of_lt ((List.pairwise_cons.mp hasc).1 j hj)
  · obtain ⟨init, hinit⟩ := List.getLast?_eq_some_iff.mp hbottom
    rw [hinit] at hasc hj
    rcases List.mem_append.mp hj with hj | hj
    · exact Nat.le_of_lt ((List.pairwise_append.mp hasc).2.2 j hj bottom (by simp))
    · exact Nat.le_of_eq (List.mem_singleton.mp hj)

/-- The test of a column looks at the rows from the first branch row to the last. -/
theorem closesAll_iff
    {bottom : Nat} (hbottom : (r :: branches).getLast? = some bottom) (hle : r ≤ bottom) (x : Nat) :
    closesAll rung (r :: branches) x = true ↔ ∀ i, r ≤ i → i ≤ bottom →
      rung.cell? i x = some '+' ∨ rung.cell? i x = some '|' ∧ i ∉ r :: branches := by
  have hbounds : ∀ i, i < r + (bottom + 1 - r) ↔ i ≤ bottom := by
    omega
  simp only [closesAll, hbottom, List.head?_cons, List.all_eq_true, List.mem_range'_1, closes_iff,
    hbounds, and_imp]

/-- A column passes the test if it closes the block. -/
theorem closesAll_iff_closesAt
    (hasc : (r :: branches).Pairwise (· < ·)) (x : Nat) :
    closesAll rung (r :: branches) x = true ↔ rung.ClosesAt r (r :: branches) x := by
  obtain ⟨bottom, hbottom⟩ : ∃ bottom, (r :: branches).getLast? = some bottom :=
    ⟨_, List.getLast?_eq_some_getLast (List.cons_ne_nil r branches)⟩
  have hmem : bottom ∈ r :: branches := List.mem_of_getLast? hbottom
  have hle : ∀ j ∈ r :: branches, r ≤ j ∧ j ≤ bottom := fun j hj =>
    bounds_of_ascending hasc hbottom hj
  rw [closesAll_iff hbottom (hle bottom hmem).1]
  constructor
  · intro hall
    refine ⟨fun j hj => ?_, fun i j hj hri hij => ?_⟩
    · rcases hall j (hle j hj).1 (hle j hj).2 with hplus | ⟨-, hno⟩
      · exact hplus
      · exact absurd hj hno
    · rcases hall i hri (hij.le.trans (hle j hj).2) with hplus | ⟨hbar, -⟩
      · exact Or.inr hplus
      · exact Or.inl hbar
  · rintro ⟨hplus, hbetween⟩ i hri hib
    by_cases hi : i ∈ r :: branches
    · exact Or.inl (hplus i hi)
    · have hlt : i < bottom := Nat.lt_of_le_of_ne hib fun heq => hi (heq ▸ hmem)
      rcases hbetween i bottom hmem hri hlt with hbar | hplus
      · exact Or.inr ⟨hbar, hi⟩
      · exact Or.inl hplus

/-- The right rail is found where the reader finds it. -/
theorem find?_closesAll_eq
    (h : rung.rows.drop r = row :: below) (hcell : rung.cell? r col = some '+')
    (hrows : rung.BranchRows r col (r :: branches)) :
    (Wire.columns col stop).find? (closesAll rung (r :: branches)) =
      Wire.rightRail? row below col stop := by
  have htest : closesAll rung (r :: branches) =
      fun x => (row :: Wire.spanned col below).all (Wire.closesRow col x) := by
    funext x
    rw [Bool.eq_iff_iff, closesAll_iff_closesAt hrows.ascending,
      Rung.all_closesRow_iff h hcell hrows]
  rw [htest]
  rfl

/-- The branch rows of a block, as a scan finds them and as the reader lists them. -/
theorem exists_branches
    (h : rung.rows.drop r = row :: below) (hplus : rung.cell? r col = some '+')
    {steps : Nat} (hsteps : rung.rows.length ≤ steps) :
    ∃ branches, branchesFrom rung col steps (r + 1) = .ok branches ∧
      rung.BranchRows r col (r :: branches) ∧
      List.Forall₂ (fun j b => rung.rows.drop j = b.1 :: b.2) (r :: branches)
        ((row, below) :: Wire.branchRows col below) := by
  have hlength := congrArg List.length h
  simp only [List.length_drop, List.length_cons] at hlength
  obtain ⟨branches, hbranches, hasc, hmem⟩ :=
    exists_branchesFrom rung col (by omega : rung.rows.length - (r + 1) < steps)
  have hrows : rung.BranchRows r col (r :: branches) := by
    refine ⟨List.pairwise_cons.mpr ⟨fun j hj => ((hmem j).mp hj).1, hasc⟩, fun j => ?_⟩
    rw [List.mem_cons, hmem, Rung.isBranch_iff_leads hplus]
  obtain ⟨js, hlisted, hjs⟩ := Rung.exists_branchRows h hplus
  rw [hjs.eq hrows] at hlisted
  exact ⟨branches, hbranches, hrows, hlisted⟩

/-- A block is found if the reader finds a right rail, and its branches are those that the reader
reads. -/
theorem exists_block_eq
    (h : rung.rows.drop r = row :: below) (hplus : rung.cell? r col = some '+')
    {steps : Nat} (hsteps : rung.rows.length ≤ steps) :
    ∃ branches, block rung steps ⟨r, col, stop⟩ =
        (Wire.rightRail? row below col stop).elim
          (.error (.fault (row.malformed .unclosedBranch col)))
          (fun close => .ok ⟨branches, close⟩) ∧
      List.Forall₂ (fun j b => rung.rows.drop j = b.1 :: b.2) branches
        ((row, below) :: Wire.branchRows col below) := by
  obtain ⟨branches, hbranches, hrows, hlisted⟩ := exists_branches h hplus hsteps
  refine ⟨r :: branches, ?_, hlisted⟩
  simp only [block, hbranches, bind, Except.bind, find?_closesAll_eq h hplus hrows, refuse_eq h]
  cases Wire.rightRail? row below col stop with
  | none => rfl
  | some close => rfl

end Rails

section Regions

/-- Regions that can be read on behalf of a region that is not empty: those further right in the
same row up to the same end, and those strictly between its two ends. -/
def Region.Visits (outer inner : Region) : Prop :=
  outer.col < outer.stop ∧ outer.col < inner.col ∧
    ((inner.row = outer.row ∧ inner.stop = outer.stop) ∨ inner.stop < outer.stop)

/-- The number of columns goes down on every visit. -/
theorem Region.Visits.lt
    {outer inner : Region}
    (h : outer.Visits inner) :
    inner.stop - inner.col < outer.stop - outer.col := by
  obtain ⟨hcol, hinner, hstop⟩ := h
  omega

theorem Region.wellFounded_visits :
    WellFounded fun inner outer : Region => outer.Visits inner :=
  Subrelation.wf Region.Visits.lt (measure fun region : Region => region.stop - region.col).wf

theorem Region.visits_behind
    {region : Region} {col : Nat}
    (hstop : region.col < region.stop) (hcol : region.col ≤ col) :
    region.Visits (region.behind col) :=
  ⟨hstop, Nat.lt_succ_of_le hcol, Or.inl ⟨rfl, rfl⟩⟩

variable {rung : Rung} {region : Region}

theorem mem_of_closing
    {row : Row} {closer : Char} {cols : List Nat} {col : Nat}
    (h : closing row closer cols = .ok (some col)) :
    col ∈ cols := by
  induction cols with
  | nil => cases h
  | cons c cols ih =>
      rw [closing] at h
      obtain ⟨ch, -, h⟩ := bind_eq_ok h
      split at h
      · cases h
        exact List.mem_cons_self
      · exact List.mem_cons_of_mem c (ih h)

theorem refuse_ne_ok
    {α : Type} (rung : Rung) (flaw : Flaw) (r col : Nat) (a : α) :
    refuse rung flaw r col ≠ .ok a := by
  intro h
  rw [refuse] at h
  obtain ⟨row, -, h⟩ := bind_eq_ok h
  obtain ⟨text, -, h⟩ := bind_eq_ok h
  obtain ⟨start, -, h⟩ := bind_eq_ok h
  obtain ⟨stop, -, h⟩ := bind_eq_ok h
  split at h
  · cases h
  · cases h

/-- An element ends behind its first column. -/
theorem lt_close_of_element
    {closer : Char} {isEmpty : List Char → Bool} {found : Element}
    (h : element rung region closer isEmpty = .ok found) :
    region.col < found.close := by
  rw [element] at h
  obtain ⟨row, -, h⟩ := bind_eq_ok h
  obtain ⟨_ | close, hclose, h⟩ := bind_eq_ok h
  · exact absurd h (refuse_ne_ok _ _ _ _ _)
  · obtain ⟨text, -, h⟩ := bind_eq_ok h
    split at h
    · exact absurd h (refuse_ne_ok _ _ _ _ _)
    · cases h
      exact (List.mem_range'_1.mp (mem_of_closing hclose)).1

/-- The right rail of a block stands inside the region. -/
theorem bounds_of_block
    {steps : Nat} {found : Block}
    (h : block rung steps region = .ok found) :
    region.col < found.close ∧ found.close < region.stop := by
  rw [block] at h
  obtain ⟨below, -, h⟩ := bind_eq_ok h
  split at h
  · exact absurd h (refuse_ne_ok _ _ _ _ _)
  · rename_i close hclose
    cases h
    have hbounds := List.mem_range'_1.mp (List.mem_of_find?_eq_some hclose)
    dsimp only
    omega

/-- An element and the rest behind it, for two ways to read the rest. -/
theorem element_bind_congr
    {closer : Char} {isEmpty : List Char → Bool} {scope : Scope} {make : Element → Wire → Wire}
    {again again' : Scope → Region → Scan Wire}
    (hcol : region.col < region.stop)
    (h : ∀ scope' inner, region.Visits inner → again scope' inner = again' scope' inner) :
    (do
      let found ← element rung region closer isEmpty
      let rest ← again scope (region.behind found.close)
      return make found rest) =
    (do
      let found ← element rung region closer isEmpty
      let rest ← again' scope (region.behind found.close)
      return make found rest) := by
  apply bind_congr_of_ok
  intro found hfound
  rw [h scope _ (Region.visits_behind hcol (Nat.le_of_lt (lt_close_of_element hfound)))]

/-- **A pass depends only on the regions that it visits.** -/
theorem pass_congr
    (rung : Rung) (steps : Nat) (scope : Scope) {region : Region}
    {again again' : Scope → Region → Scan Wire}
    (h : ∀ scope' inner, region.Visits inner → again scope' inner = again' scope' inner) :
    pass rung steps again scope region = pass rung steps again' scope region := by
  unfold pass
  split
  · rename_i hcol
    split
    · rfl
    · exact h _ _ (Region.visits_behind hcol (Nat.le_refl _))
    · exact element_bind_congr hcol h
    · exact element_bind_congr hcol h
    · split
      · rfl
      · exact element_bind_congr hcol h
    · apply bind_congr_of_ok
      intro found hfound
      obtain ⟨hopen, hclose⟩ := bounds_of_block hfound
      have hbranch : ∀ r, region.Visits ⟨r, region.col + 1, found.close⟩ := fun r =>
        ⟨hcol, Nat.lt_succ_self _, Or.inr hclose⟩
      have hbehind := Region.visits_behind hcol (Nat.le_of_lt hopen)
      simp only [h _ _ (hbranch _), h _ _ hbehind]
    · rfl
  · rfl

end Regions

section Readings

variable {rung : Rung} {row : Row} {below : List Row} {r col stop : Nat} {scope : Scope}

/-- What the reader finds in a region.  A row that does not exist is empty. -/
def readerAt (rung : Rung) (scope : Scope) (region : Region) : Scan Wire :=
  match rung.rows.drop region.row with
  | [] => .ok .finish
  | row :: below =>
    (Wire.readFrom scope row below region.col region.stop).mapError Halt.fault

theorem readerAt_of_drop
    (h : rung.rows.drop r = row :: below) :
    readerAt rung scope ⟨r, col, stop⟩ =
      (Wire.readFrom scope row below col stop).mapError Halt.fault := by
  rw [readerAt, h]

/-- An element and what follows it, as the reader reads them. -/
theorem element_bind_readerAt
    {opener closer : Char} {isEmpty : List Char → Bool} (make : List Char → Wire → Wire)
    (h : rung.rows.drop r = row :: below) (hcell : row.get? col = some opener) :
    (do
      let found ← element rung ⟨r, col, stop⟩ closer isEmpty
      let rest ← readerAt rung scope (Region.behind ⟨r, col, stop⟩ found.close)
      return make found.text rest) =
    (do
      let text ← Wire.operand row closer col stop isEmpty
      let rest ← Wire.readFrom scope row below (col + text.length + 2) stop
      return make text rest).mapError Halt.fault := by
  rw [element_eq h hcell]
  cases Wire.operand row closer col stop isEmpty with
  | error cause => rfl
  | ok text =>
      change (readerAt rung scope ⟨r, col + text.length + 2, stop⟩ >>= fun rest =>
        pure (make text rest)) = _
      rw [readerAt_of_drop h]
      exact (mapError_bind _ fun rest => pure (make text rest)).symm

/-- A block and what follows it, as the reader reads them. -/
theorem block_bind_readerAt
    {steps : Nat} (hsteps : rung.rows.length ≤ steps) (h : rung.rows.drop r = row :: below)
    (hcol : col < stop) (hplus : rung.cell? r col = some '+') :
    (do
      let found ← block rung steps ⟨r, col, stop⟩
      let branches ← found.branches.mapM fun r =>
        readerAt rung .branch ⟨r, col + 1, found.close⟩
      let rest ← readerAt rung scope (Region.behind ⟨r, col, stop⟩ found.close)
      return .block branches rest) =
    (Wire.readFrom scope row below col stop).mapError Halt.fault := by
  have hcell := (Rung.cell?_of_drop h col).symm.trans hplus
  obtain ⟨branches, hblock, hlisted⟩ := exists_block_eq h hplus hsteps
  rw [hblock]
  cases hrail : Wire.rightRail? row below col stop with
  | none =>
      rw [Wire.readFrom_unclosed hcol hcell hrail]
      rfl
  | some close =>
      have hbranches : branches.mapM (fun r => readerAt rung .branch ⟨r, col + 1, close⟩) =
          (((row, below) :: Wire.branchRows col below).mapM fun b =>
            Wire.readFrom .branch b.1 b.2 (col + 1) close).mapError Halt.fault := by
        rw [mapError_mapM]
        apply mapM_eq_of_forall₂
        exact hlisted.imp fun _ _ hdrop => readerAt_of_drop hdrop
      change (branches.mapM (fun r => readerAt rung .branch ⟨r, col + 1, close⟩) >>= fun wires =>
        readerAt rung scope ⟨r, close + 1, stop⟩ >>= fun rest => pure (Wire.block wires rest)) = _
      rw [hbranches, readerAt_of_drop h, Wire.readFrom_block hcol hcell hrail, mapError_bind]
      exact bind_congr fun wires => (mapError_bind _ fun rest => pure (Wire.block wires rest)).symm

/-- **What the reader finds is what a pass finds** that leaves the rest to the reader. -/
theorem pass_readerAt
    {steps : Nat} (hsteps : rung.rows.length ≤ steps) (scope : Scope) (region : Region) :
    pass rung steps (readerAt rung) scope region = readerAt rung scope region := by
  obtain ⟨r, col, stop⟩ := region
  cases h : rung.rows.drop r with
  | nil =>
      have hnone : rung.cell? r col = none := Rung.cell?_of_drop_nil h (Nat.le_refl r) col
      rw [readerAt, h, pass.eq_def]
      simp only [hnone, ite_self]
  | cons row below =>
      have hcell : ∀ {ch}, rung.cell? r col = ch → row.get? col = ch := fun heq =>
        (Rung.cell?_of_drop h col).symm.trans heq
      rw [readerAt_of_drop h]
      unfold pass
      split
      · rename_i hcol
        split
        · rename_i hnone
          rw [Wire.readFrom_none (hcell hnone)]
          rfl
        · rename_i hdash
          rw [Wire.readFrom_dash hcol (hcell hdash), ← readerAt_of_drop h]
          rfl
        · rename_i hopen
          rw [Wire.readFrom_contact hcol (hcell hopen)]
          exact element_bind_readerAt (fun text => .contact (nameOf text).1 (nameOf text).2) h
            (hcell hopen)
        · rename_i hopen
          rw [Wire.readFrom_call hcol (hcell hopen)]
          exact element_bind_readerAt (fun text => .call ((Text.words text).map String.ofList)) h
            (hcell hopen)
        · rename_i hopen
          split
          · rw [Wire.readFrom_coil_branch hcol (hcell hopen)]
            exact refuse_eq h .coilInBranch col
          · rw [Wire.readFrom_coil hcol (hcell hopen)]
            exact element_bind_readerAt (fun text => .coil (nameOf text).1 (nameOf text).2) h
              (hcell hopen)
        · rename_i hplus
          exact block_bind_readerAt hsteps h hcol hplus
        · rename_i ch hdash hcontact hcall hcoil hplus hother
          have hstop : col + (stop - col) = stop := Nat.add_sub_cancel' (Nat.le_of_lt hcol)
          rw [Wire.readFrom_other hcol (hcell hother) ⟨hdash, hcontact, hcall, hcoil, hplus⟩,
            blank_eq h, hstop, refuse_eq h]
          split
          · rfl
          · rfl
      · rename_i hcol
        rw [Wire.readFrom_of_le (Nat.not_lt.mp hcol)]
        rfl

/-- **With a step for every column of a region and every row, a scan finds what the reader
finds.** -/
theorem read_eq
    {steps : Nat} {region : Region}
    (hsteps : region.stop - region.col + rung.rows.length < steps) (scope : Scope) :
    read rung steps scope region = readerAt rung scope region := by
  induction steps generalizing scope region with
  | zero => cases hsteps
  | succ steps ih =>
      calc read rung (steps + 1) scope region
          = pass rung steps (read rung steps) scope region := rfl
        _ = pass rung steps (readerAt rung) scope region := by
            apply pass_congr
            intro scope' inner hvisits
            have hlt := hvisits.lt
            exact ih (by omega) scope'
        _ = readerAt rung scope region := pass_readerAt (by omega) scope region

theorem program_eq
    {steps : Nat} (hsteps : rung.rowLength 0 + rung.rows.length < steps) :
    program steps rung = rung.program.mapError Halt.fault := by
  have hwire : readerAt rung .rung ⟨0, 0, rung.rowLength 0⟩ = rung.wire.mapError Halt.fault := by
    rw [readerAt, Rung.rowLength, Rung.wire]
    cases rung.rows with
    | nil => rfl
    | cons row below => rfl
  rw [program, read_eq hsteps, hwire, Rung.program]
  cases rung.wire with
  | error cause => rfl
  | ok wire => rfl

end Readings

end Scan

/-- **Reading rungs is total.**  A scan by numbers that has a step for every column of the first row
and every row of each rung finds the program that the rungs have, and the only halt is the fault
that the reader reports.  So no row, no cell and no span is missing, and the steps are never used
up.  This is because a pass depends on further passes only over regions strictly inside its own. -/
theorem Program.ofRungs_eq_scan
    (rungs : List Rung) :
    (∀ steps, (∀ rung ∈ rungs, rung.rowLength 0 + rung.rows.length < steps) →
      Scan.programs steps rungs = (ofRungs rungs).mapError Scan.Halt.fault) ∧
    (∀ rung steps scope region again again',
      (∀ scope' inner, Scan.Region.Visits region inner →
        again scope' inner = again' scope' inner) →
      Scan.pass rung steps again scope region = Scan.pass rung steps again' scope region) ∧
    WellFounded fun inner outer : Scan.Region => outer.Visits inner := by
  refine ⟨fun steps hsteps => ?_, fun rung steps scope region again again' h =>
    Scan.pass_congr rung steps scope h, Scan.Region.wellFounded_visits⟩
  have hprograms : rungs.mapM (Scan.program steps) =
      (rungs.mapM Rung.program).mapError Scan.Halt.fault := by
    rw [mapError_mapM]
    apply mapM_eq_of_forall₂
    exact List.forall₂_same.mpr fun rung hrung => Scan.program_eq (hsteps rung hrung)
  rw [Scan.programs, hprograms, ofRungs]
  cases rungs.mapM Rung.program with
  | error cause => rfl
  | ok programs => rfl

/-- A rung without rows, a block over rows of different lengths, and a block that is not closed. -/
theorem Program.ofRungs_eq_scan_ragged :
    let block : Rung :=
      ⟨[⟨"-+[/é]-+-(y)".toList, 7⟩, ⟨" +\x7bt x\x7d+".toList, 3⟩, ⟨[], 0⟩]⟩
    let unclosed : Rung := ⟨[⟨"-+é-".toList, 5⟩, ⟨" |".toList, 1⟩, ⟨" +-+".toList, 0⟩]⟩
    (ofRungs [⟨[]⟩, block]).mapError Scan.Halt.fault =
        .ok [.read "é", .invert, .call ["t", "x"], .disj, .write "y"] ∧
      (ofRungs [block, unclosed]).mapError Scan.Halt.fault =
        .error (.fault (.malformed .unclosedBranch "+é-" ⟨6, 10⟩)) ∧
      Scan.pass block 3 (fun _ inner => if inner.col ≤ 1 then .error .outOfSteps else .ok .finish)
          .rung ⟨0, 1, 12⟩ =
        Scan.pass block 3 (fun _ _ => .ok .finish) .rung ⟨0, 1, 12⟩ := by
  refine ⟨?_, ?_, (ofRungs_eq_scan []).2.1 _ _ _ _ _ _ fun _ inner hvisits => ?_⟩
  · rw [← (ofRungs_eq_scan _).1 16 (by decide)]
    decide +kernel
  · rw [← (ofRungs_eq_scan _).1 16 (by decide)]
    decide +kernel
  · exact if_neg (Nat.not_le.mpr hvisits.2.1)

end RelayLadder
