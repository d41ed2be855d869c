import RelayLadder.Proofs.Wire.Reading

/-!
# Where reading fails

**Places.**  A fault is reported at a cell of a row of the rung, and the cell shows
what the flaw is about: an opening character that is not closed, a junction without
a right rail, and so on (`Flaw.Fits`).

**Offsets.**  The offset of a row is used for the place of a fault and for nothing
else.  When the rows of a rung get other offsets, the rung has the same wire, or a
fault that differs in its place only.

**Results.**
* `exists_blames_of_program`: a fault is reported at a cell that fits its flaw.
* `program_relocated`: a rung whose rows have other offsets has the same program or a
  fault elsewhere.
-/

namespace RelayLadder

section Defs

/-- The opening characters of elements, each with the one that closes it. -/
def Wire.brackets : List (Char × Char) :=
  [('[', ']'), ('\x7b', '\x7d'), ('(', ')')]

/-- What the cell at which a flaw is reported can show. -/
def Flaw.Fits : Flaw → Char → Prop
  | unrecognized, ch => ch ∉ ['-', '[', '\x7b', '+', '(']
  | unterminated closer, ch => (ch, closer) ∈ Wire.brackets
  | unclosedBranch, ch => ch = '+'
  | coilInBranch, ch => ch = '('
  | emptyOperand, ch => ch ∈ ['[', '\x7b', '(']

instance Flaw.Fits.decidable : ∀ flaw : Flaw, DecidablePred flaw.Fits
  | unrecognized, ch => inferInstanceAs (Decidable (ch ∉ ['-', '[', '\x7b', '+', '(']))
  | unterminated closer, ch => inferInstanceAs (Decidable ((ch, closer) ∈ Wire.brackets))
  | unclosedBranch, ch => inferInstanceAs (Decidable (ch = '+'))
  | coilInBranch, ch => inferInstanceAs (Decidable (ch = '('))
  | emptyOperand, ch => inferInstanceAs (Decidable (ch ∈ ['[', '\x7b', '(']))

/-- The fault is reported at a cell of the row that fits its flaw, and the row is not blank from
there on. -/
def Row.Blames (row : Row) (cause : Fault) : Prop :=
  ∃ flaw col ch, cause = row.malformed flaw col ∧ row.get? col = some ch ∧ flaw.Fits ch ∧
    ∃ a ∈ row.cells.drop col, Text.isBlank a = false

/-- The fault when `n` more bytes stand before the text. -/
def Fault.shift (n : Nat) : Fault → Fault
  | malformed flaw remainder span =>
    malformed flaw remainder ⟨span.start + n, span.stop + n⟩
  | cause => cause

/-- The row when `n` more bytes stand before it. -/
def Row.shift (n : Nat) (row : Row) : Row :=
  { row with offset := row.offset + n }

/-- The rung when `n` more bytes stand before it. -/
def Rung.shift (n : Nat) (rung : Rung) : Rung :=
  ⟨rung.rows.map (Row.shift n)⟩

end Defs

namespace Wire

section Places

variable {scope : Scope} {row : Row} {below : List Row} {col stop : Nat} {cause : Fault}

theorem mem_drop_of_get?
    {ch : Char} {k : Nat}
    (hcell : row.get? k = some ch) (hk : col ≤ k) :
    ch ∈ row.cells.drop col := by
  refine List.mem_of_getElem? (i := k - col) ?_
  rw [List.getElem?_drop, Nat.add_sub_cancel' hk]
  exact hcell

/-- A fault at a cell that is not blank. -/
theorem blames_of_cell
    {flaw : Flaw} {ch : Char}
    (hcell : row.get? col = some ch) (hfits : flaw.Fits ch) (hch : Text.isBlank ch = false) :
    row.Blames (row.malformed flaw col) :=
  ⟨flaw, col, ch, rfl, hcell, hfits, ch, mem_drop_of_get? hcell (Nat.le_refl col), hch⟩

/-- An element fails at its opening character, or the rest behind it fails. -/
theorem blames_of_element
    {opener closer : Char} {isEmpty : List Char → Bool} {next : List Char → Except Fault Wire}
    {make : List Char → Wire → Wire}
    (hcell : row.get? col = some opener) (hpair : (opener, closer) ∈ brackets)
    (h : (do
      let text ← operand row closer col stop isEmpty
      let rest ← next text
      return make text rest) = .error cause) :
    row.Blames cause ∨ ∃ text, next text = .error cause := by
  have hopener : Flaw.emptyOperand.Fits opener ∧ Text.isBlank opener = false := by
    simp only [brackets, List.mem_cons, Prod.mk.injEq, List.not_mem_nil, or_false] at hpair
    rcases hpair with ⟨rfl, -⟩ | ⟨rfl, -⟩ | ⟨rfl, -⟩ <;> decide
  rcases bind_eq_error_iff.mp h with hop | ⟨text, -, hrest⟩
  · left
    rw [operand] at hop
    split at hop
    · cases hop
      exact blames_of_cell hcell hpair hopener.2
    · split at hop
      · cases hop
        exact blames_of_cell hcell hopener.1 hopener.2
      · cases hop
  · right
    rcases bind_eq_error_iff.mp hrest with hnext | ⟨rest, -, hpure⟩
    · exact ⟨text, hnext⟩
    · cases hpure

/-- A branch row stands among the rows below the block, with the rows below it. -/
theorem suffix_of_mem_branchRows
    {b : Row × List Row}
    (h : b ∈ branchRows col below) :
    b.1 :: b.2 <:+ below := by
  induction below with
  | nil => cases h
  | cons row below ih =>
      rw [branchRows] at h
      split at h
      · rcases List.mem_cons.mp h with rfl | h
        · exact List.suffix_rfl
        · exact (ih h).trans (List.suffix_cons row below)
      · split at h
        · exact (ih h).trans (List.suffix_cons row below)
        · cases h

/-- A fault is reported at a cell of one of the rows. -/
theorem exists_blames_of_readFrom
    (h : readFrom scope row below col stop = .error cause) :
    ∃ r ∈ row :: below, r.Blames cause := by
  induction scope, row, below, col, stop using readFrom.induct with
  | case1 scope row below col stop hcol hcell =>
      rw [readFrom_none hcell] at h
      cases h
  | case2 scope row below col stop hcol hcell ih =>
      rw [readFrom_dash hcol hcell] at h
      exact ih h
  | case3 scope row below col stop hcol hcell ih =>
      rw [readFrom_contact hcol hcell] at h
      rcases blames_of_element hcell (by decide) h with hrow | ⟨text, hrest⟩
      · exact ⟨row, List.mem_cons_self, hrow⟩
      · exact ih text hrest
  | case4 scope row below col stop hcol hcell ih =>
      rw [readFrom_call hcol hcell] at h
      rcases blames_of_element hcell (by decide) h with hrow | ⟨text, hrest⟩
      · exact ⟨row, List.mem_cons_self, hrow⟩
      · exact ih text hrest
  | case5 row below col stop hcol hcell =>
      rw [readFrom_coil_branch hcol hcell] at h
      cases h
      exact ⟨row, List.mem_cons_self, blames_of_cell hcell rfl (by decide)⟩
  | case6 row below col stop hcol hcell ih =>
      rw [readFrom_coil hcol hcell] at h
      rcases blames_of_element hcell (by decide) h with hrow | ⟨text, hrest⟩
      · exact ⟨row, List.mem_cons_self, hrow⟩
      · exact ih text hrest
  | case7 scope row below col stop hcol hcell hrail =>
      rw [readFrom_unclosed hcol hcell hrail] at h
      cases h
      exact ⟨row, List.mem_cons_self, blames_of_cell hcell rfl (by decide)⟩
  | case8 scope row below col stop hcol hcell x hrail _ ihs ih =>
      rw [readFrom_block hcol hcell hrail] at h
      rcases bind_eq_error_iff.mp h with hbranches | ⟨branches, -, h⟩
      · obtain ⟨b, hb, hbranch⟩ := exists_of_mapM_eq_error hbranches
        obtain ⟨r, hr, hblames⟩ := ihs b.1 b.2 hbranch
        refine ⟨r, ?_, hblames⟩
        rcases List.mem_cons.mp hb with rfl | hb
        · exact hr
        · exact List.mem_cons_of_mem row ((suffix_of_mem_branchRows hb).mem hr)
      · rcases bind_eq_error_iff.mp h with hrest | ⟨rest, -, hpure⟩
        · exact ih hrest
        · cases hpure
  | case9 scope row below col stop hcol ch h1 h2 h3 h4 h5 hcell hall =>
      rw [readFrom_other hcol hcell ⟨h1, h2, h3, h4, h5⟩, if_pos hall] at h
      cases h
  | case10 scope row below col stop hcol ch h1 h2 h3 h4 h5 hcell hall =>
      rw [readFrom_other hcol hcell ⟨h1, h2, h3, h4, h5⟩, if_neg hall] at h
      cases h
      -- The cell itself may be blank, but not all cells behind it are.
      obtain ⟨a, ha, hblank⟩ : ∃ a ∈ row.between col stop, Text.isBlank a = false := by
        simpa using hall
      obtain ⟨k, hk, -, ha⟩ := Rung.mem_between_iff.mp ha
      refine ⟨row, List.mem_cons_self, .unrecognized, col, ch, rfl, hcell, ?_, a,
        mem_drop_of_get? ha hk, hblank⟩
      simp only [Flaw.Fits, List.mem_cons, List.not_mem_nil, or_false, not_or]
      exact ⟨h1, h2, h3, h5, h4⟩
  | case11 scope row below col stop hcol =>
      rw [readFrom_of_le (Nat.not_lt.mp hcol)] at h
      cases h

end Places

section Offsets

/-- `f` changes nothing but the offset of a row, and `g` makes of a fault after the change what `g'`
makes of it before the change. -/
structure Relocates (f : Row → Row) (g g' : Fault → Fault) : Prop where
  cells : ∀ row, (f row).cells = row.cells
  malformed : ∀ row flaw col, g ((f row).malformed flaw col) = g' (row.malformed flaw col)

variable {f : Row → Row} {g g' : Fault → Fault}

theorem Relocates.get?_eq
    (h : Relocates f g g') (row : Row) (col : Nat) :
    (f row).get? col = row.get? col := by
  rw [Row.get?, Row.get?, h.cells]

theorem Relocates.between_eq
    (h : Relocates f g g') (row : Row) (col stop : Nat) :
    (f row).between col stop = row.between col stop := by
  rw [Row.between, Row.between, h.cells]

theorem Relocates.operand_eq
    (h : Relocates f g g') (row : Row) (closer : Char) (col stop : Nat)
    (isEmpty : List Char → Bool) :
    (operand (f row) closer col stop isEmpty).mapError g =
      (operand row closer col stop isEmpty).mapError g' := by
  have hinside : inside? (f row) closer col stop = inside? row closer col stop := by
    rw [inside?, inside?, h.between_eq]
  rw [operand, operand, hinside]
  cases inside? row closer col stop with
  | none => exact congrArg Except.error (h.malformed row _ col)
  | some text =>
      dsimp only
      split
      · exact congrArg Except.error (h.malformed row _ col)
      · rfl

theorem Relocates.spanned_map
    (h : Relocates f g g') (col : Nat) (below : List Row) :
    spanned col (below.map f) = (spanned col below).map f := by
  have hhanging : hanging col (below.map f) = (hanging col below).map f := by
    rw [hanging, List.takeWhile_map]
    simp only [Function.comp_def, h.get?_eq]
    rfl
  rw [spanned, hhanging, ← List.map_reverse, List.dropWhile_map, ← List.map_reverse]
  simp only [Function.comp_def, h.get?_eq]
  rfl

theorem Relocates.rightRail?_eq
    (h : Relocates f g g') (row : Row) (below : List Row) (col stop : Nat) :
    rightRail? (f row) (below.map f) col stop = rightRail? row below col stop := by
  have hrows : f row :: spanned col (below.map f) = (row :: spanned col below).map f := by
    rw [h.spanned_map, List.map_cons]
  rw [rightRail?, hrows]
  simp only [List.all_map, Function.comp_def, closesRow, h.get?_eq]
  rfl

theorem Relocates.branchRows_map
    (h : Relocates f g g') (col : Nat) (below : List Row) :
    branchRows col (below.map f) = (branchRows col below).map fun b => (f b.1, b.2.map f) := by
  induction below with
  | nil => rfl
  | cons row below ih =>
      rw [List.map_cons, branchRows, branchRows, h.get?_eq, ih]
      split
      · rfl
      · split
        · rfl
        · rfl

/-- An element whose row has another offset. -/
theorem Relocates.element_eq
    {row : Row} {closer : Char} {col stop : Nat} {isEmpty : List Char → Bool}
    {next next' : List Char → Except Fault Wire} {make : List Char → Wire → Wire}
    (h : Relocates f g g') (hnext : ∀ text, (next' text).mapError g = (next text).mapError g') :
    (do
      let text ← operand (f row) closer col stop isEmpty
      let rest ← next' text
      return make text rest).mapError g =
    (do
      let text ← operand row closer col stop isEmpty
      let rest ← next text
      return make text rest).mapError g' :=
  mapError_bind_congr (h.operand_eq row closer col stop isEmpty) fun text =>
    mapError_bind_congr (hnext text) fun _ => rfl

/-- Rows with other offsets hold the same wire, or faults that differ in their places only. -/
theorem Relocates.readFrom_eq
    (h : Relocates f g g') (scope : Scope) (row : Row) (below : List Row) (col stop : Nat) :
    (readFrom scope (f row) (below.map f) col stop).mapError g =
      (readFrom scope row below col stop).mapError g' := by
  induction scope, row, below, col, stop using readFrom.induct with
  | case1 scope row below col stop hcol hcell =>
      rw [readFrom_none hcell, readFrom_none ((h.get?_eq row col).trans hcell)]
      rfl
  | case2 scope row below col stop hcol hcell ih =>
      rw [readFrom_dash hcol hcell, readFrom_dash hcol ((h.get?_eq row col).trans hcell)]
      exact ih
  | case3 scope row below col stop hcol hcell ih =>
      rw [readFrom_contact hcol hcell, readFrom_contact hcol ((h.get?_eq row col).trans hcell)]
      exact h.element_eq ih
  | case4 scope row below col stop hcol hcell ih =>
      rw [readFrom_call hcol hcell, readFrom_call hcol ((h.get?_eq row col).trans hcell)]
      exact h.element_eq ih
  | case5 row below col stop hcol hcell =>
      rw [readFrom_coil_branch hcol hcell,
        readFrom_coil_branch hcol ((h.get?_eq row col).trans hcell)]
      exact congrArg Except.error (h.malformed row _ col)
  | case6 row below col stop hcol hcell ih =>
      rw [readFrom_coil hcol hcell, readFrom_coil hcol ((h.get?_eq row col).trans hcell)]
      exact h.element_eq ih
  | case7 scope row below col stop hcol hcell hrail =>
      rw [readFrom_unclosed hcol hcell hrail,
        readFrom_unclosed hcol ((h.get?_eq row col).trans hcell)
          ((h.rightRail?_eq row below col stop).trans hrail)]
      exact congrArg Except.error (h.malformed row _ col)
  | case8 scope row below col stop hcol hcell x hrail _ ihs ih =>
      have hbranches : (f row, below.map f) :: branchRows col (below.map f) =
          ((row, below) :: branchRows col below).map fun b => (f b.1, b.2.map f) := by
        rw [h.branchRows_map, List.map_cons]
      rw [readFrom_block hcol hcell hrail,
        readFrom_block hcol ((h.get?_eq row col).trans hcell)
          ((h.rightRail?_eq row below col stop).trans hrail),
        hbranches, List.mapM_map]
      refine mapError_bind_congr ?_ fun _ => mapError_bind_congr ih fun _ => rfl
      rw [mapError_mapM, mapError_mapM]
      simp only [Function.comp_def, ihs]
  | case9 scope row below col stop hcol ch h1 h2 h3 h4 h5 hcell hall =>
      rw [readFrom_other hcol hcell ⟨h1, h2, h3, h4, h5⟩, if_pos hall,
        readFrom_other hcol ((h.get?_eq row col).trans hcell) ⟨h1, h2, h3, h4, h5⟩,
        h.between_eq, if_pos hall]
      rfl
  | case10 scope row below col stop hcol ch h1 h2 h3 h4 h5 hcell hall =>
      rw [readFrom_other hcol hcell ⟨h1, h2, h3, h4, h5⟩, if_neg hall,
        readFrom_other hcol ((h.get?_eq row col).trans hcell) ⟨h1, h2, h3, h4, h5⟩,
        h.between_eq, if_neg hall]
      exact congrArg Except.error (h.malformed row _ col)
  | case11 scope row below col stop hcol =>
      rw [readFrom_of_le (Nat.not_lt.mp hcol), readFrom_of_le (Nat.not_lt.mp hcol)]
      rfl

/-- Rows that are moved by `n` bytes. -/
theorem relocates_shift
    (n : Nat) :
    Relocates (Row.shift n) id (Fault.shift n) := by
  refine ⟨fun _ => rfl, fun row flaw col => ?_⟩
  have hbyte : ∀ col, (row.shift n).byteAt col = row.byteAt col + n := by
    intro col
    simp only [Row.byteAt, Row.shift]
    omega
  rw [id, Row.malformed, Row.malformed, hbyte, hbyte]
  rfl

end Offsets

end Wire

namespace Rung

/-- A fault of a rung is reported at a cell of one of its rows. -/
theorem exists_blames_of_program
    {rung : Rung} {cause : Fault}
    (h : rung.program = .error cause) :
    ∃ row ∈ rung.rows, row.Blames cause := by
  have hwire : rung.wire = .error cause := by
    rw [program] at h
    cases hw : rung.wire with
    | error cause' =>
        rw [hw] at h
        cases h
        rfl
    | ok w =>
        rw [hw] at h
        cases h
  cases hrows : rung.rows with
  | nil =>
      rw [wire, hrows] at hwire
      cases hwire
  | cons row below =>
      rw [wire, hrows] at hwire
      exact Wire.exists_blames_of_readFrom hwire

theorem exists_malformed_of_program
    {rung : Rung} {cause : Fault}
    (h : rung.program = .error cause) :
    ∃ flaw remainder span, cause = .malformed flaw remainder span := by
  obtain ⟨row, -, flaw, col, -, rfl, -⟩ := exists_blames_of_program h
  exact ⟨flaw, _, _, rfl⟩

/-- A rung whose rows have other offsets has the same program, or a fault that differs in its place
only. -/
theorem program_relocated
    {f : Row → Row} {g g' : Fault → Fault}
    (h : Wire.Relocates f g g') (rung : Rung) :
    (Rung.mk (rung.rows.map f)).program.mapError g = rung.program.mapError g' := by
  have hwire : (Rung.mk (rung.rows.map f)).wire.mapError g = rung.wire.mapError g' := by
    cases hrows : rung.rows with
    | nil =>
        rw [wire, wire, hrows]
        rfl
    | cons row below =>
        have hlength : (f row).length = row.length := congrArg List.length (h.cells row)
        rw [wire, wire, hrows]
        change (Wire.readFrom .rung (f row) (below.map f) 0 (f row).length).mapError g = _
        rw [hlength]
        exact h.readFrom_eq .rung row below 0 row.length
  rw [program, program, mapError_map, mapError_map, hwire]

end Rung
end RelayLadder
