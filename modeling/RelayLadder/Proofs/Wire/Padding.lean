import RelayLadder.Proofs.Wire.Fault

/-!
# Padding on the right

**Rows.**  Any wire and spaces may be added on the right of the rows below the first one.
The first row may run on: with wire if it ends with wire, and with spaces in any case.

**Regions.**  The end of the first row bounds the region that is read, so the region becomes
wider.  Everything else is read between the rails of a block, and rails stand on cells that
were there before.

**Results.**
* `branchRows_padded`, `rightRail?_widened`: rails are found where they were.
* `operand_widened`: elements are closed where they were.
* `readFrom_widened`: the same wire, or a flaw of the same kind, is read in a wider region.
* `Rung.program_padded`: padding does not change what a rung means.
-/

namespace RelayLadder

section Defs

/-- Wire and spaces are added on the right of a row, wherever it stands. -/
def Row.Padded (row row' : Row) : Prop :=
  ∃ tail, row'.cells = row.cells ++ tail ∧ ∀ ch ∈ tail, ch = '-' ∨ ch = ' '

/-- Spaces are added on the right of a row, or wire behind wire. -/
inductive Row.RunsOn (row row' : Row) : Prop
  | blanks (n : Nat) (h : row'.cells = row.cells ++ List.replicate n ' ')
  | wire (n : Nat) (hlast : row.cells.getLast? = some '-')
      (h : row'.cells = row.cells ++ List.replicate n '-')

/-- The first row of a rung runs on, and the others are padded. -/
inductive Rung.Padded : Rung → Rung → Prop
  | empty : Padded ⟨[]⟩ ⟨[]⟩
  | rows {row row' : Row} {below below' : List Row} (hrow : row.RunsOn row')
      (hbelow : List.Forall₂ Row.Padded below below') : Padded ⟨row :: below⟩ ⟨row' :: below'⟩

/-- The flaw for which a row cannot be read. -/
def Fault.flaw? : Fault → Option Flaw
  | malformed flaw _ _ => some flaw
  | _ => none

/-- The same program, or flaws of the same kind, wherever they are and whatever stands there. -/
inductive SameKind : Except Fault Program → Except Fault Program → Prop
  | program (p : Program) : SameKind (.ok p) (.ok p)
  | flaw (flaw : Flaw) (remainder remainder' : String) (span span' : Span) :
    SameKind (.error (.malformed flaw remainder span)) (.error (.malformed flaw remainder' span'))

end Defs

section Cells

variable {row row' : Row} {col stop : Nat}

theorem Row.RunsOn.padded
    (h : row.RunsOn row') :
    row.Padded row' := by
  cases h with
  | blanks n h => exact ⟨_, h, fun ch hch => Or.inr (List.eq_of_mem_replicate hch)⟩
  | wire n _ h => exact ⟨_, h, fun ch hch => Or.inl (List.eq_of_mem_replicate hch)⟩

/-- The cells of a row stay. -/
theorem Row.Padded.get?_of_lt
    (h : row.Padded row') (hcol : col < row.length) :
    row'.get? col = row.get? col := by
  obtain ⟨tail, hcells, -⟩ := h
  rw [Row.get?, hcells]
  exact List.getElem?_append_left hcol

/-- Padding shows no rails, and no opening and closing characters. -/
theorem Row.Padded.get?_eq_some_iff
    {ch : Char}
    (h : row.Padded row') (hch : ¬ (ch = '-' ∨ ch = ' ')) :
    row'.get? col = some ch ↔ row.get? col = some ch := by
  by_cases hcol : col < row.length
  · rw [h.get?_of_lt hcol]
  · obtain ⟨tail, hcells, htail⟩ := h
    have hnone : row.get? col = none := List.getElem?_eq_none (Nat.not_lt.mp hcol)
    rw [hnone, Row.get?, hcells, List.getElem?_append_right (Nat.not_lt.mp hcol)]
    constructor
    · intro htailed
      exact absurd (htail ch (List.mem_of_getElem? htailed)) hch
    · intro hshown
      cases hshown

theorem Row.Padded.length_le
    (h : row.Padded row') :
    row.length ≤ row'.length := by
  obtain ⟨tail, hcells, -⟩ := h
  rw [Row.length, Row.length, hcells, List.length_append]
  exact Nat.le_add_right _ _

theorem Row.Padded.between_eq
    (h : row.Padded row') (hstop : stop ≤ row.length) (col : Nat) :
    row'.between col stop = row.between col stop := by
  obtain ⟨tail, hcells, -⟩ := h
  rw [Row.between, Row.between, hcells, List.take_append_of_le_length hstop]

end Cells

namespace Wire

section Rails

variable {row row' : Row} {below below' : List Row} {col x : Nat}

/-- A row with the rows below it, before and after padding. -/
def PaddedFrom (b b' : Row × List Row) : Prop :=
  b.1.Padded b'.1 ∧ List.Forall₂ Row.Padded b.2 b'.2

theorem get?_beq_padded
    {ch : Char}
    (h : row.Padded row') (hch : ¬ (ch = '-' ∨ ch = ' ')) (col : Nat) :
    (row'.get? col == some ch) = (row.get? col == some ch) := by
  rw [Bool.eq_iff_iff, beq_iff_eq, beq_iff_eq]
  exact h.get?_eq_some_iff hch

/-- The branch rows of a block are the same ones. -/
theorem branchRows_padded
    (h : List.Forall₂ Row.Padded below below') (col : Nat) :
    List.Forall₂ PaddedFrom (branchRows col below) (branchRows col below') := by
  induction h with
  | nil => exact .nil
  | cons hrow hbelow ih =>
      rw [branchRows, branchRows, get?_beq_padded hrow (by decide),
        get?_beq_padded hrow (by decide)]
      split
      · exact .cons ⟨hrow, hbelow⟩ ih
      · split
        · exact ih
        · exact .nil

theorem spanned_padded
    (h : List.Forall₂ Row.Padded below below') (col : Nat) :
    List.Forall₂ Row.Padded (spanned col below) (spanned col below') := by
  induction h with
  | nil => exact .nil
  | @cons row row' below below' hrow _ ih =>
      have hnil : spanned col below' ≠ [] ↔ spanned col below ≠ [] := by
        rw [← List.length_pos_iff, ← List.length_pos_iff, ih.length_eq]
      have hplus : row'.get? col = some '+' ↔ row.get? col = some '+' :=
        hrow.get?_eq_some_iff (by decide)
      have hbar : row'.get? col = some '|' ↔ row.get? col = some '|' :=
        hrow.get?_eq_some_iff (by decide)
      simp only [Rung.spanned_cons, hplus, hbar, hnil]
      split
      · exact .cons hrow ih
      · split
        · exact .cons hrow ih
        · exact .nil

/-- A branch row is one of the rows of its block. -/
theorem mem_spanned_of_mem_branchRows
    {b : Row × List Row}
    (h : b ∈ branchRows col below) :
    b.1 ∈ spanned col below := by
  induction below with
  | nil => cases h
  | cons row below ih =>
      rw [branchRows] at h
      rw [Rung.spanned_cons]
      split at h
      · rename_i hplus
        rw [if_pos (beq_iff_eq.mp hplus)]
        rcases List.mem_cons.mp h with rfl | h
        · exact List.mem_cons_self
        · exact List.mem_cons_of_mem row (ih h)
      · rename_i hplus
        split at h
        · rename_i hbar
          have hmem := ih h
          rw [if_neg (fun heq => hplus (beq_iff_eq.mpr heq)),
            if_pos ⟨beq_iff_eq.mp hbar, List.ne_nil_of_mem hmem⟩]
          exact List.mem_cons_of_mem row hmem
        · cases h

theorem closesRow_padded
    (h : row.Padded row') (col x : Nat) :
    closesRow col x row' = closesRow col x row := by
  have hplus : ∀ k, (row'.get? k == some '+') = (row.get? k == some '+') :=
    get?_beq_padded h (by decide)
  rw [closesRow, closesRow, bne, bne, hplus, hplus, get?_beq_padded h (by decide)]

theorem all_closesRow_padded
    {rows rows' : List Row}
    (h : List.Forall₂ Row.Padded rows rows') (col x : Nat) :
    rows'.all (closesRow col x) = rows.all (closesRow col x) := by
  induction h with
  | nil => rfl
  | cons hrow _ ih => rw [List.all_cons, List.all_cons, closesRow_padded hrow, ih]

/-- A row that is closed in a column has that column. -/
theorem lt_length_of_closesRow
    (h : closesRow col x row = true) :
    x < row.length := by
  have hcell : ∃ ch, row.get? x = some ch := by
    rw [closesRow, Bool.or_eq_true, Bool.and_eq_true, beq_iff_eq, beq_iff_eq] at h
    rcases h with h | ⟨h, -⟩
    · exact ⟨_, h⟩
    · exact ⟨_, h⟩
  obtain ⟨ch, hch⟩ := hcell
  exact (List.getElem?_eq_some_iff.mp hch).1

end Rails

section Regions

variable {row row' : Row} {below below' : List Row} {col stop stop' : Nat} {scope : Scope}

/-- The region that ends before `stop` in a row ends before `stop'` in the padded one.  The cells
that it gains are spaces, or they are wire behind wire. -/
structure Widens (row row' : Row) (stop stop' : Nat) : Prop where
  padded : row.Padded row'
  le_length : stop ≤ row.length
  le : stop ≤ stop'
  gained : (∀ ch ∈ row'.between stop stop', ch = ' ') ∨
    (∀ ch ∈ row'.between stop stop', ch = '-') ∧ ∃ k, k + 1 = stop ∧ row.get? k = some '-'

theorem widens_of_runsOn
    (h : row.RunsOn row') :
    Widens row row' row.length row'.length := by
  have hgained : ∀ tail, row'.cells = row.cells ++ tail →
      row'.between row.length row'.length = tail := by
    intro tail hcells
    rw [Row.between, Row.length, Row.length, List.take_length, hcells]
    exact List.drop_left
  refine ⟨h.padded, Nat.le_refl _, h.padded.length_le, ?_⟩
  cases h with
  | blanks n h =>
      left
      rw [hgained _ h]
      exact fun ch hch => List.eq_of_mem_replicate hch
  | wire n hlast h =>
      right
      rw [hgained _ h]
      refine ⟨fun ch hch => List.eq_of_mem_replicate hch, ?_⟩
      have hne : row.cells ≠ [] := by
        intro hnil
        rw [hnil] at hlast
        cases hlast
      refine ⟨row.length - 1, Nat.sub_add_cancel (List.length_pos_iff.mpr hne), ?_⟩
      rw [List.getLast?_eq_getElem?] at hlast
      exact hlast

/-- Between the rails of a block the region is the same one. -/
theorem widens_self
    (h : row.Padded row') (hstop : stop ≤ row.length) :
    Widens row row' stop stop := by
  refine ⟨h, hstop, Nat.le_refl _, Or.inl fun ch hch => ?_⟩
  obtain ⟨k, hk, hk', -⟩ := Rung.mem_between_iff.mp hch
  omega

theorem Widens.lt
    (h : Widens row row' stop stop') (hcol : col < stop) :
    col < stop' :=
  hcol.trans_le h.le

/-- A cell of the region shows what it showed. -/
theorem Widens.get?_of_lt
    {ch : Char}
    (h : Widens row row' stop stop') (hcol : col < stop) (hcell : row.get? col = some ch) :
    row'.get? col = some ch :=
  (h.padded.get?_of_lt (hcol.trans_le h.le_length)).trans hcell

theorem Widens.gained_cases
    {ch : Char}
    (h : Widens row row' stop stop') (hch : ch ∈ row'.between stop stop') :
    ch = '-' ∨ ch = ' ' := by
  rcases h.gained with hall | ⟨hall, -⟩
  · exact Or.inr (hall ch hch)
  · exact Or.inl (hall ch hch)

/-- What is read of the padded row is what was read before, and then what was gained. -/
theorem Widens.between_eq
    (h : Widens row row' stop stop') (hcol : col ≤ stop) :
    row'.between col stop' = row.between col stop ++ row'.between stop stop' := by
  rw [← h.padded.between_eq h.le_length,
    Rung.between_append row' hcol h.le (h.le_length.trans h.padded.length_le)]

theorem inside?_widened
    {closer : Char}
    (h : Widens row row' stop stop') (hcol : col < stop)
    (hcloser : ¬ (closer = '-' ∨ closer = ' ')) :
    inside? row' closer col stop' = inside? row closer col stop := by
  have hgained : closer ∉ row'.between stop stop' := fun hmem => hcloser (h.gained_cases hmem)
  rw [inside?, inside?, h.between_eq hcol]
  by_cases hmem : closer ∈ row.between (col + 1) stop
  · obtain ⟨text, rest, hsplit, hfirst⟩ := List.eq_append_cons_of_mem hmem
    have htake : ∀ more, (text ++ closer :: more).takeWhile (· != closer) = text := by
      intro more
      have htext : ∀ ch ∈ text, (ch != closer) = true := by
        intro ch hch
        exact bne_iff_ne.mpr fun heq => hfirst (heq ▸ hch)
      rw [List.takeWhile_append_of_pos htext, List.takeWhile_cons_of_neg (by simp),
        List.append_nil]
    rw [if_pos (List.contains_iff_mem.mpr (List.mem_append_left _ hmem)),
      if_pos (List.contains_iff_mem.mpr hmem), hsplit, List.append_assoc, List.cons_append, htake,
      htake]
  · rw [if_neg, if_neg]
    · rwa [List.contains_iff_mem]
    · rw [List.contains_iff_mem, List.mem_append, not_or]
      exact ⟨hmem, hgained⟩

/-- An element is closed where it was. -/
theorem operand_widened
    {closer : Char} {isEmpty : List Char → Bool}
    (h : Widens row row' stop stop') (hcol : col < stop)
    (hcloser : ¬ (closer = '-' ∨ closer = ' ')) :
    (operand row' closer col stop' isEmpty).mapError Fault.flaw? =
      (operand row closer col stop isEmpty).mapError Fault.flaw? := by
  rw [operand, operand, inside?_widened h hcol hcloser]
  cases inside? row closer col stop with
  | none => rfl
  | some text =>
      dsimp only
      split
      · rfl
      · rfl

/-- No rail stands in the columns that are gained. -/
theorem Widens.not_closesRow
    {x : Nat}
    (h : Widens row row' stop stop') (hx : stop ≤ x) (hx' : x < stop') :
    closesRow col x row' = false := by
  have hcell : ∀ ch, row'.get? x = some ch → ch = '-' ∨ ch = ' ' := fun ch hch =>
    h.gained_cases (Rung.mem_between_iff.mpr ⟨x, hx, hx', hch⟩)
  have hplus : row'.get? x ≠ some '+' := fun hch => absurd (hcell _ hch) (by decide)
  have hbar : row'.get? x ≠ some '|' := fun hch => absurd (hcell _ hch) (by decide)
  simp [closesRow, hplus, hbar]

/-- The right rail is found where it was. -/
theorem rightRail?_widened
    (h : Widens row row' stop stop') (hbelow : List.Forall₂ Row.Padded below below')
    (hcol : col < stop) :
    rightRail? row' below' col stop' = rightRail? row below col stop := by
  have hcolumns : columns col stop' = columns col stop ++ List.range' stop (stop' - stop) := by
    obtain ⟨m, rfl⟩ := Nat.exists_eq_add_of_le (Nat.succ_le_of_lt hcol)
    obtain ⟨n, rfl⟩ := Nat.exists_eq_add_of_le h.le
    rw [columns, columns, Nat.add_sub_cancel_left, Nat.add_sub_cancel_left, Nat.add_assoc,
      Nat.add_sub_cancel_left, List.range'_append_1]
  have hrows : ∀ x, (row' :: spanned col below').all (closesRow col x) =
      (row :: spanned col below).all (closesRow col x) :=
    all_closesRow_padded (.cons h.padded (spanned_padded hbelow col)) col
  have hgained : (List.range' stop (stop' - stop)).find?
      (fun x => (row' :: spanned col below').all (closesRow col x)) = none := by
    rw [List.find?_eq_none]
    intro x hx hall
    rw [List.mem_range'_1] at hx
    rw [List.all_cons, h.not_closesRow hx.1 (by omega)] at hall
    cases hall
  rw [rightRail?, rightRail?, hcolumns, List.find?_append, hgained, Option.or_none]
  simp only [hrows]

theorem readFrom_of_spaces
    (h : ∀ ch ∈ row.between col stop, ch = ' ') :
    readFrom scope row below col stop = .ok .finish := by
  by_cases hcol : col < stop
  · cases hcell : row.get? col with
    | none => exact readFrom_none hcell
    | some ch =>
        have hch : ch = ' ' := h ch (Rung.mem_between_iff.mpr ⟨col, Nat.le_refl col, hcol, hcell⟩)
        subst hch
        rw [readFrom_other hcol hcell (by decide), if_pos]
        rw [List.all_eq_true]
        intro ch hch
        rw [h ch hch]
        decide
  · exact readFrom_of_le (Nat.not_lt.mp hcol)

theorem readFrom_of_dashes
    (h : ∀ ch ∈ row.between col stop, ch = '-') :
    readFrom scope row below col stop = .ok .finish := by
  induction hn : stop - col generalizing col with
  | zero => exact readFrom_of_le (Nat.le_of_sub_eq_zero hn)
  | succ n ih =>
      have hcol : col < stop := by omega
      cases hcell : row.get? col with
      | none => exact readFrom_none hcell
      | some ch =>
          have hch := h ch (Rung.mem_between_iff.mpr ⟨col, Nat.le_refl col, hcol, hcell⟩)
          subst hch
          rw [readFrom_dash hcol hcell]
          refine ih (fun ch hch => h ch ?_) (by omega)
          obtain ⟨k, hk, hk', hkch⟩ := Rung.mem_between_iff.mp hch
          exact Rung.mem_between_iff.mpr ⟨k, Nat.le_of_succ_le hk, hk', hkch⟩

/-- Nothing is read in the columns that are gained. -/
theorem Widens.readFrom_gained
    (h : Widens row row' stop stop') (hcol : stop ≤ col) :
    readFrom scope row' below' col stop' = .ok .finish := by
  have hsub : ∀ ch ∈ row'.between col stop', ch ∈ row'.between stop stop' := by
    intro ch hch
    obtain ⟨k, hk, hk', hkch⟩ := Rung.mem_between_iff.mp hch
    exact Rung.mem_between_iff.mpr ⟨k, hcol.trans hk, hk', hkch⟩
  rcases h.gained with hall | ⟨hall, -⟩
  · exact readFrom_of_spaces fun ch hch => hall ch (hsub ch hch)
  · exact readFrom_of_dashes fun ch hch => hall ch (hsub ch hch)

/-- The rest of a region is blank iff it was: wire is gained only behind wire. -/
theorem Widens.all_isBlank
    (h : Widens row row' stop stop') (hcol : col < stop) :
    (row'.between col stop').all Text.isBlank = (row.between col stop).all Text.isBlank := by
  rw [h.between_eq (Nat.le_of_lt hcol), List.all_append]
  rcases h.gained with hall | ⟨-, k, rfl, hlast⟩
  · have hblank : (row'.between stop stop').all Text.isBlank = true := by
      rw [List.all_eq_true]
      intro ch hch
      rw [hall ch hch]
      decide
    rw [hblank, Bool.and_true]
  · have hwire : (row.between col (k + 1)).all Text.isBlank = false := by
      rw [List.all_eq_false]
      have hmem : '-' ∈ row.between col (k + 1) :=
        Rung.mem_between_iff.mpr ⟨k, Nat.le_of_lt_succ hcol, Nat.lt_succ_self k, hlast⟩
      exact ⟨'-', hmem, by decide⟩
    rw [hwire, Bool.false_and]

/-- The branches of a block are read between its rails, which their rows reach. -/
theorem mapError_branches_padded
    {x : Nat}
    (hrow : row.Padded row') (hbelow : List.Forall₂ Row.Padded below below')
    (hrail : rightRail? row below col stop = some x)
    (hread : ∀ b b' : Row × List Row, PaddedFrom b b' → x ≤ b.1.length →
      (readFrom .branch b'.1 b'.2 (col + 1) x).mapError Fault.flaw? =
        (readFrom .branch b.1 b.2 (col + 1) x).mapError Fault.flaw?) :
    (((row', below') :: branchRows col below').mapM fun b =>
        readFrom .branch b.1 b.2 (col + 1) x).mapError Fault.flaw? =
      (((row, below) :: branchRows col below).mapM fun b =>
        readFrom .branch b.1 b.2 (col + 1) x).mapError Fault.flaw? := by
  have hcloses : ∀ r ∈ row :: spanned col below, closesRow col x r = true := by
    rw [rightRail?] at hrail
    have hall := List.find?_some hrail
    exact List.all_eq_true.mp hall
  have hreach : ∀ b ∈ (row, below) :: branchRows col below, x ≤ b.1.length := by
    intro b hb
    refine Nat.le_of_lt (lt_length_of_closesRow (hcloses b.1 ?_))
    rcases List.mem_cons.mp hb with rfl | hb
    · exact List.mem_cons_self
    · exact List.mem_cons_of_mem row (mem_spanned_of_mem_branchRows hb)
  have hpadded : List.Forall₂ PaddedFrom ((row, below) :: branchRows col below)
      ((row', below') :: branchRows col below') :=
    .cons ⟨hrow, hbelow⟩ (branchRows_padded hbelow col)
  rw [mapError_mapM, mapError_mapM]
  refine (mapM_eq_of_forall₂ ?_).symm
  refine (List.forall₂_and_left _ _ |>.mpr ⟨hreach, hpadded⟩).imp ?_
  rintro b b' ⟨hle, hb⟩
  exact (hread b b' hb hle).symm

/-- **A wider region holds the same wire**, or a flaw of the same kind. -/
theorem readFrom_widened
    (h : Widens row row' stop stop') (hbelow : List.Forall₂ Row.Padded below below')
    (scope : Scope) (col : Nat) :
    (readFrom scope row' below' col stop').mapError Fault.flaw? =
      (readFrom scope row below col stop).mapError Fault.flaw? := by
  induction scope, row, below, col, stop using readFrom.induct generalizing row' below' stop' with
  | case1 scope row below col stop hcol hcell =>
      rw [Row.get?, List.getElem?_eq_none_iff] at hcell
      exact absurd (hcol.trans_le h.le_length) (Nat.not_lt.mpr hcell)
  | case2 scope row below col stop hcol hcell ih =>
      rw [readFrom_dash hcol hcell, readFrom_dash (h.lt hcol) (h.get?_of_lt hcol hcell)]
      exact ih h hbelow
  | case3 scope row below col stop hcol hcell ih =>
      rw [readFrom_contact hcol hcell, readFrom_contact (h.lt hcol) (h.get?_of_lt hcol hcell)]
      exact mapError_bind_congr (operand_widened h hcol (by decide)) fun text =>
        mapError_bind_congr (ih text h hbelow) fun _ => rfl
  | case4 scope row below col stop hcol hcell ih =>
      rw [readFrom_call hcol hcell, readFrom_call (h.lt hcol) (h.get?_of_lt hcol hcell)]
      exact mapError_bind_congr (operand_widened h hcol (by decide)) fun text =>
        mapError_bind_congr (ih text h hbelow) fun _ => rfl
  | case5 row below col stop hcol hcell =>
      rw [readFrom_coil_branch hcol hcell,
        readFrom_coil_branch (h.lt hcol) (h.get?_of_lt hcol hcell)]
      rfl
  | case6 row below col stop hcol hcell ih =>
      rw [readFrom_coil hcol hcell, readFrom_coil (h.lt hcol) (h.get?_of_lt hcol hcell)]
      exact mapError_bind_congr (operand_widened h hcol (by decide)) fun text =>
        mapError_bind_congr (ih text h hbelow) fun _ => rfl
  | case7 scope row below col stop hcol hcell hrail =>
      rw [readFrom_unclosed hcol hcell hrail,
        readFrom_unclosed (h.lt hcol) (h.get?_of_lt hcol hcell)
          ((rightRail?_widened h hbelow hcol).trans hrail)]
      rfl
  | case8 scope row below col stop hcol hcell x hrail _ ihs ih =>
      rw [readFrom_block hcol hcell hrail,
        readFrom_block (h.lt hcol) (h.get?_of_lt hcol hcell)
          ((rightRail?_widened h hbelow hcol).trans hrail)]
      have hbranches := mapError_branches_padded h.padded hbelow hrail fun b b' hb hle =>
        ihs b.1 b.2 (widens_self hb.1 hle) hb.2
      exact mapError_bind_congr hbranches fun _ => mapError_bind_congr (ih h hbelow) fun _ => rfl
  | case9 scope row below col stop hcol ch h1 h2 h3 h4 h5 hcell hall =>
      rw [readFrom_other hcol hcell ⟨h1, h2, h3, h4, h5⟩,
        readFrom_other (h.lt hcol) (h.get?_of_lt hcol hcell) ⟨h1, h2, h3, h4, h5⟩,
        h.all_isBlank hcol, if_pos hall, if_pos hall]
  | case10 scope row below col stop hcol ch h1 h2 h3 h4 h5 hcell hall =>
      rw [readFrom_other hcol hcell ⟨h1, h2, h3, h4, h5⟩,
        readFrom_other (h.lt hcol) (h.get?_of_lt hcol hcell) ⟨h1, h2, h3, h4, h5⟩,
        h.all_isBlank hcol, if_neg hall, if_neg hall]
      rfl
  | case11 scope row below col stop hcol =>
      rw [readFrom_of_le (Nat.not_lt.mp hcol), h.readFrom_gained (Nat.not_lt.mp hcol)]

end Regions

end Wire

namespace Rung

theorem mapError_program_padded
    {rung rung' : Rung}
    (h : Padded rung rung') :
    rung'.program.mapError Fault.flaw? = rung.program.mapError Fault.flaw? := by
  rw [program, program, mapError_map, mapError_map]
  cases h with
  | empty => rfl
  | rows hrow hbelow =>
      congr 1
      exact Wire.readFrom_widened (Wire.widens_of_runsOn hrow) hbelow .rung 0

/-- **Padding on the right does not matter.**  Let wire be added to the first row of a rung if it
ends with wire, or spaces whatever it ends with, and let any wire and spaces be added to the rows
below it.  Then the rung has the same program, or a flaw of the same kind. -/
theorem program_padded
    {rung rung' : Rung}
    (h : Padded rung rung') :
    SameKind rung.program rung'.program := by
  rcases cases_of_mapError_eq (mapError_program_padded h) with
    ⟨p, hp', hp⟩ | ⟨cause', cause, hp', hp, hcause⟩
  · rw [hp, hp']
    exact .program p
  · obtain ⟨flaw, remainder, span, rfl⟩ := exists_malformed_of_program hp
    obtain ⟨flaw', remainder', span', rfl⟩ := exists_malformed_of_program hp'
    cases hcause
    rw [hp, hp']
    exact .flaw flaw remainder remainder' span span'

/-- The wire of the first row runs on, the row between the branches gains wire to the right of the
block, and the last row gains both wire and spaces. -/
theorem program_padded_block :
    ∃ rung rung' : Rung,
      rung = ⟨[⟨"--+--[A]--+--(X)-".toList, 2⟩, ⟨"  |       |".toList, 24⟩,
        ⟨"  +--[/B]-+ ".toList, 40⟩]⟩ ∧
      rung' = ⟨[⟨"--+--[A]--+--(X)----".toList, 2⟩, ⟨"  |       |-----".toList, 27⟩,
        ⟨"  +--[/B]-+ - - ".toList, 48⟩]⟩ ∧
      Padded rung rung' ∧
      rung.program = .ok [.read "A", .read "B", .invert, .disj, .write "X"] ∧
      SameKind rung.program rung'.program := by
  have hpadded : Padded
      ⟨[⟨"--+--[A]--+--(X)-".toList, 2⟩, ⟨"  |       |".toList, 24⟩,
        ⟨"  +--[/B]-+ ".toList, 40⟩]⟩
      ⟨[⟨"--+--[A]--+--(X)----".toList, 2⟩, ⟨"  |       |-----".toList, 27⟩,
        ⟨"  +--[/B]-+ - - ".toList, 48⟩]⟩ := by
    refine .rows (.wire 3 rfl rfl) (.cons ?_ (.cons ?_ .nil))
    · exact ⟨List.replicate 5 '-', rfl, fun ch hch => Or.inl (List.eq_of_mem_replicate hch)⟩
    · exact ⟨['-', ' ', '-', ' '], rfl, by simp⟩
  exact ⟨_, _, rfl, rfl, hpadded, by decide +kernel, program_padded hpadded⟩

end Rung
end RelayLadder
