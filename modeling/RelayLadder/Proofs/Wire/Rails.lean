import RelayLadder.Proofs.Text.Trim
import RelayLadder.Proofs.Wire.Grammar

/-!
# The rails that the reader finds

The reader walks down the rows below the one it reads, as a list.  Here its
results are tied to positions: `branchRows` lists the branch rows of a block in
the sense of `BranchRows`, and `rightRail?` gives its `RightRail`.

All statements are about a rung whose rows from `r` on are `row :: below`.
-/

namespace RelayLadder
namespace Rung

open Wire

variable {rung : Rung}

section Positions

theorem getElem?_of_drop
    {r : Nat} {row : Row} {below : List Row}
    (h : rung.rows.drop r = row :: below) :
    rung.rows[r]? = some row := by
  have h0 := congrArg (·[0]?) h
  simpa using h0

theorem drop_succ_of_drop
    {r : Nat} {row : Row} {below : List Row}
    (h : rung.rows.drop r = row :: below) :
    rung.rows.drop (r + 1) = below := by
  have h1 := congrArg (List.drop 1) h
  simpa [List.drop_drop] using h1

theorem cell?_of_drop
    {r : Nat} {row : Row} {below : List Row}
    (h : rung.rows.drop r = row :: below) (c : Nat) :
    rung.cell? r c = row.get? c := by
  simp [cell?, getElem?_of_drop h]

/-- No row from `r` on exists when nothing is left there. -/
theorem cell?_of_drop_nil
    {r : Nat}
    (h : rung.rows.drop r = []) {i : Nat} (hi : r ≤ i) (c : Nat) :
    rung.cell? i c = none := by
  have hlen : rung.rows.length ≤ r := List.drop_eq_nil_iff.mp h
  have hrow : rung.rows[i]? = none := List.getElem?_eq_none (hlen.trans hi)
  simp [cell?, hrow]

/-- A row with a cell is the head of what is left from it on. -/
theorem exists_drop_of_cell?
    {r c : Nat} {ch : Char}
    (h : rung.cell? r c = some ch) :
    ∃ row below, rung.rows.drop r = row :: below := by
  cases hdrop : rung.rows.drop r with
  | nil =>
      rw [cell?_of_drop_nil hdrop (Nat.le_refl r)] at h
      cases h
  | cons row below => exact ⟨row, below, rfl⟩

end Positions

section Branches

/-- Column `c` shows `|` or `+` from row `r` on, down to row `j`, where it shows `+`. -/
def Leads (rung : Rung) (c r j : Nat) : Prop :=
  r ≤ j ∧ rung.cell? j c = some '+' ∧
    ∀ i, r ≤ i → i < j → rung.cell? i c = some '|' ∨ rung.cell? i c = some '+'

variable {c r : Nat}

theorem isBranch_iff_leads
    (hcell : rung.cell? r c = some '+') (j : Nat) :
    rung.IsBranch r c j ↔ j = r ∨ rung.Leads c (r + 1) j := by
  constructor
  · rintro ⟨hle, hj, hbetween⟩
    rcases Nat.eq_or_lt_of_le hle with heq | hlt
    · exact Or.inl heq.symm
    · exact Or.inr ⟨hlt, hj, fun i hi hij => hbetween i hi hij⟩
  · rintro (rfl | ⟨hle, hj, hbetween⟩)
    · exact ⟨Nat.le_refl j, hcell, fun i hi hij => by omega⟩
    · exact ⟨by omega, hj, fun i hi hij => hbetween i hi hij⟩

theorem not_leads_of_drop_nil
    (h : rung.rows.drop r = []) (j : Nat) :
    ¬ rung.Leads c r j := by
  rintro ⟨hle, hj, -⟩
  rw [cell?_of_drop_nil h hle] at hj
  cases hj

/-- Nothing hangs from a column that shows neither `|` nor `+`. -/
theorem not_leads_of_cell?
    (hplus : rung.cell? r c ≠ some '+')
    (hbar : rung.cell? r c ≠ some '|') (j : Nat) :
    ¬ rung.Leads c r j := by
  rintro ⟨hle, hj, hbetween⟩
  rcases Nat.eq_or_lt_of_le hle with heq | hlt
  · subst heq
    exact hplus hj
  · rcases hbetween r (Nat.le_refl r) hlt with h | h
    · exact hbar h
    · exact hplus h

/-- One row further down, the column leads to the same rows, the first one apart. -/
theorem leads_iff_of_cell?
    (hcell : rung.cell? r c = some '|' ∨ rung.cell? r c = some '+') (j : Nat) :
    rung.Leads c r j ↔
      (j = r ∧ rung.cell? r c = some '+') ∨ rung.Leads c (r + 1) j := by
  constructor
  · rintro ⟨hle, hj, hbetween⟩
    rcases Nat.eq_or_lt_of_le hle with heq | hlt
    · subst heq
      exact Or.inl ⟨rfl, hj⟩
    · exact Or.inr ⟨hlt, hj, fun i hi hij => hbetween i (by omega) hij⟩
  · rintro (⟨rfl, hj⟩ | ⟨hle, hj, hbetween⟩)
    · exact ⟨Nat.le_refl j, hj, fun i hi hij => by omega⟩
    · refine ⟨by omega, hj, fun i hi hij => ?_⟩
      rcases Nat.eq_or_lt_of_le hi with heq | hlt
      · subst heq
        exact hcell
      · exact hbetween i hlt hij

/-- The branch rows that the reader lists, with the rows below each, are those the column
leads to. -/
theorem exists_positions_branchRows
    (c : Nat) (below : List Row) :
    ∀ r, rung.rows.drop r = below →
      ∃ js : List Nat,
        List.Forall₂ (fun j b => rung.rows.drop j = b.1 :: b.2) js (branchRows c below) ∧
        js.Pairwise (· < ·) ∧
        ∀ j, j ∈ js ↔ rung.Leads c r j := by
  induction below with
  | nil =>
      intro r h
      refine ⟨[], .nil, .nil, fun j => ?_⟩
      simp [not_leads_of_drop_nil h]
  | cons row below ih =>
      intro r h
      obtain ⟨js, hrows, hasc, hmem⟩ := ih (r + 1) (drop_succ_of_drop h)
      have hcell := cell?_of_drop h c
      by_cases hplus : row.get? c = some '+'
      · have hshown : rung.cell? r c = some '+' := hcell.trans hplus
        refine ⟨r :: js, ?_, ?_, fun j => ?_⟩
        · simpa [branchRows, hplus] using ⟨h, hrows⟩
        · refine List.pairwise_cons.mpr ⟨fun j hj => ?_, hasc⟩
          exact ((hmem j).mp hj).1
        · rw [List.mem_cons, hmem, leads_iff_of_cell? (Or.inr hshown)]
          simp [hshown]
      · by_cases hbar : row.get? c = some '|'
        · have hshown : rung.cell? r c = some '|' := hcell.trans hbar
          refine ⟨js, ?_, hasc, fun j => ?_⟩
          · simpa [branchRows, hbar] using hrows
          · rw [hmem, leads_iff_of_cell? (Or.inl hshown)]
            simp [hshown]
        · refine ⟨[], ?_, .nil, fun j => ?_⟩
          · simp [branchRows, hplus, hbar]
          · simp [not_leads_of_cell? (hcell ▸ hplus) (hcell ▸ hbar)]

/-- The branch rows of a block, as positions and as the reader lists them. -/
theorem exists_branchRows
    {row : Row} {below : List Row}
    (h : rung.rows.drop r = row :: below)
    (hcell : rung.cell? r c = some '+') :
    ∃ js : List Nat,
      List.Forall₂ (fun j b => rung.rows.drop j = b.1 :: b.2) js
        ((row, below) :: branchRows c below) ∧
      rung.BranchRows r c js := by
  obtain ⟨js, hrows, hasc, hmem⟩ :=
    exists_positions_branchRows c below (r + 1) (drop_succ_of_drop h)
  refine ⟨r :: js, .cons h hrows, ?_, fun j => ?_⟩
  · refine List.pairwise_cons.mpr ⟨fun j hj => ?_, hasc⟩
    exact ((hmem j).mp hj).1
  · rw [List.mem_cons, hmem, isBranch_iff_leads hcell]

end Branches

section RightRails

variable {c r : Nat}

/-- The rows of a block below its first one, from the top: a row without `+` counts only when
a row with `+` follows. -/
theorem spanned_cons
    (c : Nat) (row : Row) (below : List Row) :
    spanned c (row :: below) =
      if row.get? c = some '+' then row :: spanned c below
      else if row.get? c = some '|' ∧ spanned c below ≠ [] then row :: spanned c below
      else [] := by
  by_cases hplus : row.get? c = some '+'
  · have hhang : hanging c (row :: below) = row :: hanging c below := by
      simp [hanging, hplus]
    rw [spanned, hhang, Text.dropTrailing_cons]
    simp [hplus, spanned]
  · by_cases hbar : row.get? c = some '|'
    · have hhang : hanging c (row :: below) = row :: hanging c below := by
        simp [hanging, hbar]
      rw [spanned, hhang, Text.dropTrailing_cons]
      change (if spanned c below = [] ∧ _ then [] else row :: spanned c below) = _
      by_cases hnil : spanned c below = []
      · simp [hbar, hnil]
      · simp [hbar, hnil]
    · simp [spanned, hanging, hplus, hbar]

/-- Below a row there is a further branch row iff the column leads to one. -/
theorem spanned_eq_nil_iff
    (c : Nat) (below : List Row) :
    ∀ r, rung.rows.drop r = below →
      (spanned c below = [] ↔ ∀ j, ¬ rung.Leads c r j) := by
  induction below with
  | nil =>
      intro r h
      exact ⟨fun _ => not_leads_of_drop_nil h, fun _ => rfl⟩
  | cons row below ih =>
      intro r h
      have hcell := cell?_of_drop h c
      have hrest := ih (r + 1) (drop_succ_of_drop h)
      rw [spanned_cons]
      by_cases hplus : row.get? c = some '+'
      · have hshown : rung.cell? r c = some '+' := hcell.trans hplus
        have hleads : rung.Leads c r r :=
          (leads_iff_of_cell? (Or.inr hshown) r).mpr (Or.inl ⟨rfl, hshown⟩)
        simp only [hplus, if_true]
        exact ⟨fun hnil => absurd hnil (List.cons_ne_nil _ _), fun hno => absurd hleads (hno r)⟩
      · by_cases hbar : row.get? c = some '|'
        · have hshown : rung.cell? r c = some '|' := hcell.trans hbar
          have hsame : ∀ j, rung.Leads c r j ↔ rung.Leads c (r + 1) j := by
            intro j
            rw [leads_iff_of_cell? (Or.inl hshown)]
            simp [hshown]
          simp only [hsame, ← hrest]
          simp [hbar]
        · simp [hplus, hbar, not_leads_of_cell? (hcell ▸ hplus) (hcell ▸ hbar)]

/-- A test on the rows of a block below its first one is a test on the rows above or at a row
that the column leads to. -/
theorem all_spanned_iff
    (c : Nat) (p : Row → Bool) (below : List Row) :
    ∀ r, rung.rows.drop r = below →
      ((spanned c below).all p = true ↔
        ∀ i j, rung.Leads c r j → r ≤ i → i ≤ j →
          ∀ row, rung.rows[i]? = some row → p row = true) := by
  induction below with
  | nil =>
      intro r h
      exact ⟨fun _ i j hj => absurd hj (not_leads_of_drop_nil h j), fun _ => rfl⟩
  | cons row below ih =>
      intro r h
      have hcell := cell?_of_drop h c
      have hrow := getElem?_of_drop h
      have hrest := ih (r + 1) (drop_succ_of_drop h)
      -- Once the first row counts, the others are those of the induction hypothesis.
      have hstep :
          rung.cell? r c = some '|' ∨ rung.cell? r c = some '+' →
          (∃ j, rung.Leads c r j) →
          ((row :: spanned c below).all p = true ↔
            ∀ i j, rung.Leads c r j → r ≤ i → i ≤ j →
              ∀ row, rung.rows[i]? = some row → p row = true) := by
        intro hshown hsome
        rw [List.all_cons, Bool.and_eq_true, hrest]
        constructor
        · rintro ⟨hp, hbelow⟩ i j hj hri hij row' hrow'
          rcases Nat.eq_or_lt_of_le hri with heq | hlt
          · subst heq
            rw [hrow] at hrow'
            cases hrow'
            exact hp
          · rcases (leads_iff_of_cell? hshown j).mp hj with ⟨rfl, _⟩ | hj'
            · omega
            · exact hbelow i j hj' hlt hij row' hrow'
        · intro hall
          obtain ⟨j, hj⟩ := hsome
          refine ⟨hall r j hj (Nat.le_refl r) hj.1 row hrow, ?_⟩
          intro i j' hj' hri hij
          exact hall i j' ((leads_iff_of_cell? hshown j').mpr (Or.inr hj')) (by omega) hij
      rw [spanned_cons]
      by_cases hplus : row.get? c = some '+'
      · have hshown : rung.cell? r c = some '+' := hcell.trans hplus
        simp only [hplus, if_true]
        refine hstep (Or.inr hshown) ⟨r, ?_⟩
        exact (leads_iff_of_cell? (Or.inr hshown) r).mpr (Or.inl ⟨rfl, hshown⟩)
      · by_cases hbar : row.get? c = some '|'
        · have hshown : rung.cell? r c = some '|' := hcell.trans hbar
          by_cases hnil : spanned c below = []
          · have hno := (spanned_eq_nil_iff c (row :: below) r h).mp
              (by rw [spanned_cons]; simp [hbar, hnil])
            simp [hbar, hnil, hno]
          · have hsome : ∃ j, rung.Leads c r j := by
              by_contra hno
              have hnil' := (spanned_eq_nil_iff c (row :: below) r h).mpr
                (fun j hj => hno ⟨j, hj⟩)
              rw [spanned_cons] at hnil'
              simp [hbar, hnil] at hnil'
            have hif : (row.get? c = some '|' ∧ spanned c below ≠ []) := ⟨hbar, hnil⟩
            rw [if_neg hplus, if_pos hif]
            exact hstep (Or.inl hshown) hsome
        · simp [hplus, hbar, not_leads_of_cell? (hcell ▸ hplus) (hcell ▸ hbar)]

variable {row : Row} {below : List Row} {js : List Nat}

/-- The reader's test of a column is `ClosesAt`. -/
theorem all_closesRow_iff
    (h : rung.rows.drop r = row :: below)
    (hcell : rung.cell? r c = some '+')
    (hjs : rung.BranchRows r c js) (x : Nat) :
    (row :: spanned c below).all (closesRow c x) = true ↔ rung.ClosesAt r js x := by
  have hmem : ∀ j, j ∈ js ↔ j = r ∨ rung.Leads c (r + 1) j := fun j =>
    (hjs.mem_iff j).trans (isBranch_iff_leads hcell j)
  have hfirst : rung.cell? r c = row.get? c := cell?_of_drop h c
  have hrest := all_spanned_iff c (closesRow c x) below (r + 1) (drop_succ_of_drop h)
  have hat : ∀ i row', rung.rows[i]? = some row' →
      (closesRow c x row' = true ↔
        rung.cell? i x = some '+' ∨
          rung.cell? i x = some '|' ∧ rung.cell? i c ≠ some '+') := by
    intro i row' hrow'
    simp [closesRow, cell?, hrow']
  rw [List.all_cons, Bool.and_eq_true, hrest, hat r row (getElem?_of_drop h)]
  constructor
  · rintro ⟨htop, hbelow⟩
    have hplus : rung.cell? r x = some '+' := by
      rcases htop with htop | ⟨_, hno⟩
      · exact htop
      · exact absurd hcell hno
    have hrow : ∀ i j, rung.Leads c (r + 1) j → r + 1 ≤ i → i ≤ j →
        rung.cell? i x = some '+' ∨
          rung.cell? i x = some '|' ∧ rung.cell? i c ≠ some '+' := by
      intro i j hj hri hij
      have hshown : ∃ ch, rung.cell? i c = some ch := by
        rcases Nat.eq_or_lt_of_le hij with heq | hlt
        · exact ⟨'+', heq ▸ hj.2.1⟩
        · rcases hj.2.2 i hri hlt with hi | hi
          · exact ⟨'|', hi⟩
          · exact ⟨'+', hi⟩
      obtain ⟨ch, hch⟩ := hshown
      obtain ⟨row', below', hdrop⟩ := exists_drop_of_cell? hch
      have hrow' := getElem?_of_drop hdrop
      exact (hat i row' hrow').mp (hbelow i j hj hri hij row' hrow')
    constructor
    · intro j hj
      rcases (hmem j).mp hj with rfl | hleads
      · exact hplus
      · rcases hrow j j hleads hleads.1 (Nat.le_refl j) with hx | ⟨_, hno⟩
        · exact hx
        · exact absurd hleads.2.1 hno
    · intro i j hj hri hij
      rcases (hmem j).mp hj with rfl | hleads
      · omega
      · rcases Nat.eq_or_lt_of_le hri with heq | hlt
        · exact Or.inr (heq ▸ hplus)
        · rcases hrow i j hleads hlt (Nat.le_of_lt hij) with hx | ⟨hx, _⟩
          · exact Or.inr hx
          · exact Or.inl hx
  · rintro ⟨hplus, hbetween⟩
    refine ⟨Or.inl (hplus r ((hmem r).mpr (Or.inl rfl))), ?_⟩
    intro i j hj hri hij row' hrow'
    rw [hat i row' hrow']
    by_cases hbranch : rung.cell? i c = some '+'
    · refine Or.inl (hplus i ((hmem i).mpr (Or.inr ⟨hri, hbranch, ?_⟩)))
      intro k hk hki
      exact hj.2.2 k hk (by omega)
    · have hne : i ≠ j := by
        rintro rfl
        exact hbranch hj.2.1
      rcases hbetween i j ((hmem j).mpr (Or.inr hj)) (by omega) (by omega) with hx | hx
      · exact Or.inr ⟨hx, hbranch⟩
      · exact Or.inl hx

/-- **The right rail that the reader finds.** -/
theorem rightRail?_eq_some_iff
    (h : rung.rows.drop r = row :: below)
    (hcell : rung.cell? r c = some '+')
    (hjs : rung.BranchRows r c js) {e x : Nat} :
    rightRail? row below c e = some x ↔ rung.RightRail r c e js x := by
  have hcloses := all_closesRow_iff h hcell hjs
  rw [rightRail?, columns, List.find?_range'_eq_some, hcloses, List.mem_range'_1]
  constructor
  · rintro ⟨hx, hbounds, hleast⟩
    refine ⟨by omega, by omega, hx, fun y hcy hyx hy => ?_⟩
    have hno := hleast y hcy hyx
    rw [(hcloses y).mpr hy] at hno
    cases hno
  · intro hrail
    refine ⟨hrail.closes, ?_, fun y hcy hyx => ?_⟩
    · have := hrail.after
      have := hrail.before
      omega
    · have hno := hrail.least y hcy hyx
      rw [← hcloses, Bool.not_eq_true] at hno
      rw [hno]
      rfl

end RightRails

end Rung
end RelayLadder
