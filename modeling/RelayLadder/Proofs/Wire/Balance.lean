import RelayLadder.Proofs.Depth
import RelayLadder.Proofs.Wire.Grammar
import RelayLadder.Proofs.Wire.Power

/-!
# Operands along a wire

How many operands the program of a wire leaves, and when it finds too few of them.

**Branches.**  The program of a branch leaves at most one operand more than it finds, and
exactly one more only if the branch is fed.  So an operand that is missing on a branch is
missed later, at the next `conj`, `disj` or `write`, if there is one.

**Rungs.**  `isSelfContained` says of a rung that every coil has operands of its own and
that all branches are fed.  Only behind the last coil there may be a block without
any operand, if it has one branch and nothing else follows: such a block has no program.

**Results.**
* `Placed.exists_build_iff`: the program of a rung, run from an empty stack, finds all its
  operands exactly if the rung is self-contained.
-/

namespace RelayLadder
namespace Wire

open Program (depth? depth?_append_eq_some_iff depth?_cons_eq_some_iff depth?_program)

section Defs

/-- Coils stand on the rung row only, and every block has a branch. -/
inductive Placed : Scope → Wire → Prop
  | finish {scope : Scope} :
      Placed scope .finish
  | contact {scope : Scope} {name : String} {negated : Bool} {rest : Wire} :
      Placed scope rest →
      Placed scope (.contact name negated rest)
  | call {scope : Scope} {tokens : List String} {rest : Wire} :
      Placed scope rest →
      Placed scope (.call tokens rest)
  | coil {name : String} {negated : Bool} {rest : Wire} :
      Placed .rung rest →
      Placed .rung (.coil name negated rest)
  | block {scope : Scope} {branches : List Wire} {rest : Wire} :
      branches ≠ [] →
      (∀ b ∈ branches, Placed .branch b) →
      Placed scope rest →
      Placed scope (.block branches rest)

/-- Whether there is no operand and no coil, and at most one block, with one branch of that
kind. -/
def isBare : Wire → Bool
  | finish => true
  | block [branch] finish => branch.isBare
  | _ => false

/-- Whether every coil has an operand between it and the coil before it, and all branches are fed,
up to a bare rest behind the last coil.  `fed` tells whether an operand stands to the left. -/
def isSelfContained (fed : Bool) : Wire → Bool
  | finish => true
  | contact _ _ rest => isSelfContained true rest
  | call _ rest => isSelfContained true rest
  | coil _ _ rest => fed && isSelfContained false rest
  | block branches rest =>
    (!branches.isEmpty && areFed branches && isSelfContained true rest) ||
      (!fed && (block branches rest).isBare)

end Defs

section Placement

/-- What a derivation reads is placed. -/
theorem placed_wire
    {rung : Rung} {scope : Scope} {r c e : Nat}
    (d : Rung.Derivation rung scope r c e) :
    Placed scope d.wire := by
  induction d with
  | finish _ => exact .finish
  | dash _ _ rest ih => exact ih
  | contact _ _ _ _ _ rest ih => exact .contact ih
  | call _ _ _ _ rest ih => exact .call ih
  | coil _ _ _ _ _ rest ih => exact .coil ih
  | @block scope r c e js x hcell hrows hrail branches rest ihs ih =>
      have hmem : r ∈ js := (hrows.mem_iff r).mpr ⟨Nat.le_refl r, hcell, fun i _ _ => by omega⟩
      refine .block ?_ (fun b hb => ?_) ih
      · simpa using List.ne_nil_of_mem hmem
      · obtain ⟨j, -, rfl⟩ := List.mem_map.mp hb
        exact ihs j.1 j.2

end Placement

section Counts

variable {w rest : Wire} {operand : Expr} {n m : Nat} {joined : Bool} {p : Program}

/-- The `conj` between two operands of a series takes two operands. -/
theorem depth?_join_append_eq_some_iff :
    depth? n (join joined ++ p) = some m ↔
      2 * joined.toNat ≤ n ∧ depth? (n - joined.toNat) p = some m := by
  cases joined with
  | false => simp [join]
  | true =>
      have hcons : depth? n (join true ++ p) = some m ↔ 2 ≤ n ∧ depth? (n - 2 + 1) p = some m :=
        depth?_cons_eq_some_iff
      rw [hcons]
      refine and_congr_right fun hn => ?_
      rw [show n - 2 + 1 = n - true.toNat by simp; omega]

/-- An operand makes one more, which the operand to its left takes in. -/
theorem StartsWith.depth?_eq_some_iff
    (h : StartsWith w operand rest) :
    depth? n (w.codeFrom joined) = some m ↔
      joined.toNat ≤ n ∧ depth? (n + 1 - joined.toNat) (rest.codeFrom true) = some m := by
  have hoperand : depth? n (w.codeFrom joined) =
      depth? (n + 1) (join joined ++ rest.codeFrom true) := by
    rw [h.code, List.append_assoc, Program.depth?_append, depth?_program]
    rfl
  rw [hoperand, depth?_join_append_eq_some_iff]
  refine and_congr_left' ?_
  cases joined <;> simp

/-- With the operand to the left alone on the stack, there is one operand behind the next one. -/
theorem StartsWith.depth?_toNat_eq_some_iff
    (h : StartsWith w operand rest) :
    depth? joined.toNat (w.codeFrom joined) = some m ↔
      depth? true.toNat (rest.codeFrom true) = some m := by
  rw [h.depth?_eq_some_iff, Nat.add_sub_cancel_left]
  exact and_iff_right (Nat.le_refl _)

theorem depth?_coil_eq_some_iff
    {name : String} {negated : Bool} :
    depth? n ((coil name negated rest).codeFrom joined) = some m ↔
      1 ≤ n ∧ depth? (n - 1) (rest.codeFrom false) = some m := by
  have hwrite : depth? n (.write name :: rest.codeFrom false) = some m ↔
      1 ≤ n ∧ depth? (n - 1) (rest.codeFrom false) = some m :=
    depth?_cons_eq_some_iff
  cases negated with
  | false => exact hwrite
  | true =>
      have hinvert : depth? n ((coil name true rest).codeFrom joined) = some m ↔
          1 ≤ n ∧ depth? (n - 1 + 1) (.write name :: rest.codeFrom false) = some m :=
        depth?_cons_eq_some_iff
      rw [hinvert, ← hwrite]
      constructor
      · rintro ⟨hone, h⟩
        rwa [Nat.sub_add_cancel hone] at h
      · intro h
        have hone : 1 ≤ n := (hwrite.mp h).1
        rw [Nat.sub_add_cancel hone]
        exact ⟨hone, h⟩

/-- The parts of a block, as numbers of operands. -/
theorem depth?_block_eq_some_iff
    {branches : List Wire} :
    depth? n ((block branches rest).codeFrom joined) = some m ↔
      ∃ k, depth? n (blockCode branches) = some k ∧
        2 * joined.toNat ≤ k ∧ depth? (k - joined.toNat) (rest.codeFrom true) = some m := by
  rw [codeFrom, List.append_assoc, depth?_append_eq_some_iff]
  simp only [depth?_join_append_eq_some_iff]

end Counts

section Shortage

/-- The branch of a block leaves at most one operand more than it finds, the operand to the left
included, and none more if it is not fed. -/
def Meagre (w : Wire) : Prop :=
  ∀ joined n m, depth? n (w.codeFrom joined) = some m →
    m + joined.toNat ≤ n + 1 ∧ (w.isFed joined = false → m + joined.toNat ≤ n)

variable {w rest : Wire} {operand : Expr} {branches below : List Wire} {n m : Nat}

theorem StartsWith.meagre
    (h : StartsWith w operand rest) (hfed : ∀ joined, w.isFed joined = rest.isFed true)
    (hrest : Meagre rest) :
    Meagre w := by
  intro joined n m hdepth
  obtain ⟨hjoined, hdepth⟩ := h.depth?_eq_some_iff.mp hdepth
  obtain ⟨hmost, hless⟩ := hrest true _ m hdepth
  simp only [Bool.toNat_true] at hmost hless
  rw [hfed]
  refine ⟨by omega, fun hunfed => ?_⟩
  have := hless hunfed
  omega

/-- Branches below the top one leave no more operands than they find. -/
theorem le_of_depth?_branchesCode
    (h : ∀ b ∈ below, Meagre b)
    (hdepth : depth? n (branchesCode below) = some m) :
    m ≤ n ∧ (areFed below = false → m + 1 ≤ n) ∧ (below ≠ [] → 1 ≤ m) := by
  induction below generalizing n with
  | nil =>
      obtain rfl : n = m := Option.some.inj hdepth
      simp [areFed]
  | cons branch below ih =>
      obtain ⟨hbranch, hbelow⟩ := List.forall_mem_cons.mp h
      rw [branchesCode] at hdepth
      obtain ⟨k, hk, hdepth⟩ := depth?_append_eq_some_iff.mp hdepth
      obtain ⟨htwo, hdepth⟩ := depth?_cons_eq_some_iff.mp hdepth
      obtain ⟨hmost, hless⟩ := hbranch false n k hk
      have hjoined : 1 ≤ m := by
        obtain _ | ⟨next, others⟩ := below
        · exact (Option.some.inj hdepth) ▸ Nat.le_add_left 1 _
        · exact (ih hbelow hdepth).2.2 (List.cons_ne_nil _ _)
      obtain ⟨hrest, hrest', -⟩ := ih hbelow hdepth
      simp only [Instruction.takes, Bool.toNat_false] at htwo hmost hless
      simp only [Instruction.takes, Instruction.gives] at hrest hrest'
      refine ⟨by omega, fun hunfed => ?_, fun _ => hjoined⟩
      rw [areFed, Bool.and_eq_false_iff] at hunfed
      rcases hunfed with hunfed | hunfed
      · have := hless hunfed
        omega
      · have := hrest' hunfed
        omega

/-- A block leaves at most one operand more than it finds. -/
theorem le_of_depth?_blockCode
    (h : ∀ b ∈ branches, Meagre b)
    (hdepth : depth? n (blockCode branches) = some m) :
    m ≤ n + 1 ∧ (areFed branches = false → m ≤ n) := by
  cases branches with
  | nil =>
      obtain rfl : n = m := Option.some.inj hdepth
      simp [areFed]
  | cons top below =>
      obtain ⟨htop, hbelow⟩ := List.forall_mem_cons.mp h
      obtain ⟨k, hk, hdepth⟩ := depth?_append_eq_some_iff.mp hdepth
      obtain ⟨hmost, hless⟩ := htop false n k hk
      obtain ⟨hrest, hrest', -⟩ := le_of_depth?_branchesCode hbelow hdepth
      simp only [Bool.toNat_false] at hmost hless
      refine ⟨by omega, fun hunfed => ?_⟩
      rw [areFed, Bool.and_eq_false_iff] at hunfed
      rcases hunfed with hunfed | hunfed
      · have := hless hunfed
        omega
      · have := hrest' hunfed
        omega

theorem meagre_block
    (hne : branches ≠ []) (hbranches : ∀ b ∈ branches, Meagre b) (hrest : Meagre rest) :
    Meagre (block branches rest) := by
  intro joined n m hdepth
  obtain ⟨k, hk, htwo, hdepth⟩ := depth?_block_eq_some_iff.mp hdepth
  obtain ⟨hblock, hblock'⟩ := le_of_depth?_blockCode hbranches hk
  obtain ⟨hmost, hless⟩ := hrest true _ m hdepth
  simp only [Bool.toNat_true] at hmost hless
  refine ⟨by omega, fun hunfed => ?_⟩
  have hparts : areFed branches = false ∨ rest.isFed true = false := by
    rw [← Bool.and_eq_false_iff]
    simpa [isFed, hne] using hunfed
  rcases hparts with hunfed | hunfed
  · have := hblock' hunfed
    omega
  · have := hless hunfed
    omega

/-- **A branch leaves at most one operand more than it finds, and none more if it is not fed.** -/
theorem Placed.meagre
    (h : Placed .branch w) :
    Meagre w := by
  generalize hscope : Scope.branch = scope at h
  induction h with
  | finish =>
      intro joined n m hdepth
      obtain rfl : n = m := Option.some.inj hdepth
      cases joined <;> simp [isFed]
  | contact _ ih => exact (startsWith_contact _ _ _).meagre (fun _ => rfl) (ih hscope)
  | call _ ih => exact (startsWith_call _ _).meagre (fun _ => rfl) (ih hscope)
  | coil _ _ => cases hscope
  | block hne _ _ ihs ih => exact meagre_block hne (fun b hb => ihs b hb rfl) (ih hscope)

end Shortage

section Bare

variable {w rest : Wire} {branches : List Wire} {fed : Bool} {m : Nat} {scope : Scope}

theorem isBare_block_iff :
    (block branches rest).isBare = true ↔
      ∃ top, branches = [top] ∧ rest = finish ∧ top.isBare = true := by
  constructor
  · intro h
    unfold isBare at h
    split at h
    · cases ‹_ = finish›
    · injection ‹block branches rest = _› with hbranches hrest
      exact ⟨_, hbranches, hrest, h⟩
    · cases h
  · rintro ⟨top, rfl, rfl, h⟩
    rwa [isBare]

/-- A bare wire has no program. -/
theorem codeFrom_of_isBare
    (h : w.isBare = true) :
    w.codeFrom false = [] := by
  induction w with
  | finish => rfl
  | contact name negated rest _ => cases h
  | call tokens rest _ => cases h
  | coil name negated rest _ => cases h
  | block branches rest ihs _ =>
      obtain ⟨top, rfl, rfl, htop⟩ := isBare_block_iff.mp h
      have hcode := ihs top (List.mem_singleton_self top) htop
      simp [codeFrom, blockCode, branchesCode, hcode, join]

/-- Behind an operand that is missing nothing may follow. -/
theorem Placed.eq_finish
    (h : Placed scope w) (hdepth : depth? 0 (w.codeFrom true) = some m) :
    w = .finish := by
  cases h with
  | finish => rfl
  | contact _ =>
      exact absurd ((startsWith_contact _ _ _).depth?_eq_some_iff.mp hdepth).1 (by decide)
  | call _ => exact absurd ((startsWith_call _ _).depth?_eq_some_iff.mp hdepth).1 (by decide)
  | coil _ => exact absurd (depth?_coil_eq_some_iff.mp hdepth).1 (by decide)
  | block _ hbranches _ =>
      obtain ⟨k, hk, htwo, -⟩ := depth?_block_eq_some_iff.mp hdepth
      have := (le_of_depth?_blockCode (fun b hb => (hbranches b hb).meagre) hk).1
      simp only [Bool.toNat_true] at htwo
      omega

/-- A branch that is not fed misses no operand only if it is bare. -/
theorem Placed.isBare
    (h : Placed .branch w)
    (hcontained : w.isSelfContained fed = true) (hunfed : w.isFed fed = false) :
    fed = false ∧ w.isBare = true := by
  generalize hscope : Scope.branch = scope at h
  induction h generalizing fed with
  | finish => exact ⟨hunfed, rfl⟩
  | contact _ ih => cases (ih hcontained hunfed hscope).1
  | call _ ih => cases (ih hcontained hunfed hscope).1
  | coil _ _ => cases hscope
  | @block _ branches rest hne _ _ _ ih =>
      simp only [isSelfContained, Bool.or_eq_true, Bool.and_eq_true, Bool.not_eq_true']
        at hcontained
      rcases hcontained with ⟨⟨hsome, hfed⟩, hrest⟩ | hbare
      · rw [isFed, hsome, hfed] at hunfed
        cases (ih hrest hunfed hscope).1
      · exact hbare

end Bare

section Rungs

variable {w : Wire} {scope : Scope} {fed : Bool} {m : Nat}

/-- A self-contained wire finds its operands. -/
theorem exists_depth?_of_isSelfContained
    (h : w.isSelfContained fed = true) :
    ∃ m, depth? fed.toNat (w.codeFrom fed) = some m := by
  induction w generalizing fed with
  | finish => exact ⟨_, rfl⟩
  | contact name negated rest ih =>
      obtain ⟨m, hm⟩ := ih h
      exact ⟨m, (startsWith_contact name negated rest).depth?_toNat_eq_some_iff.mpr hm⟩
  | call tokens rest ih =>
      obtain ⟨m, hm⟩ := ih h
      exact ⟨m, (startsWith_call tokens rest).depth?_toNat_eq_some_iff.mpr hm⟩
  | coil name negated rest ih =>
      simp only [isSelfContained, Bool.and_eq_true] at h
      obtain ⟨rfl, hrest⟩ := h
      obtain ⟨m, hm⟩ := ih hrest
      exact ⟨m, depth?_coil_eq_some_iff.mpr ⟨Nat.le_refl 1, hm⟩⟩
  | block branches rest _ ih =>
      simp only [isSelfContained, Bool.or_eq_true, Bool.and_eq_true, Bool.not_eq_true'] at h
      rcases h with ⟨⟨hne, hbranches⟩, hrest⟩ | ⟨rfl, hbare⟩
      · obtain ⟨operand, hblock⟩ :=
          exists_startsWith_of_areFed (by simpa using hne) hbranches rest
        obtain ⟨m, hm⟩ := ih hrest
        exact ⟨m, hblock.depth?_toNat_eq_some_iff.mpr hm⟩
      · exact ⟨0, by rw [codeFrom_of_isBare hbare]; rfl⟩

/-- A block that finds its operands has fed branches, or it is bare and the first thing on the
wire. -/
theorem areFed_or_isBare
    {branches : List Wire} {rest : Wire}
    (h : Placed scope (block branches rest))
    (htop : ∀ b ∈ branches, ∀ k, depth? 0 (b.codeFrom false) = some k →
      b.isSelfContained false = true)
    (hdepth : depth? fed.toNat ((block branches rest).codeFrom fed) = some m) :
    areFed branches = true ∨ fed = false ∧ (block branches rest).isBare = true := by
  obtain _ | _ | _ | _ | ⟨hne, hbranches, hrest⟩ := h
  cases hfed : areFed branches with
  | true => exact .inl rfl
  | false =>
      obtain ⟨k, hk, htwo, hafter⟩ := depth?_block_eq_some_iff.mp hdepth
      have hnone : k ≤ fed.toNat :=
        (le_of_depth?_blockCode (fun b hb => (hbranches b hb).meagre) hk).2 hfed
      -- An operand to the left would be joined with one that is missing.
      obtain rfl : fed = false := by
        cases fed with
        | false => rfl
        | true => simp only [Bool.toNat_true] at htwo hnone; omega
      obtain rfl : k = 0 := Nat.le_zero.mp hnone
      refine .inr ⟨rfl, isBare_block_iff.mpr ?_⟩
      obtain ⟨top, below, rfl⟩ := List.exists_cons_of_ne_nil hne
      obtain ⟨l, hl, hbelow⟩ := depth?_append_eq_some_iff.mp hk
      have hmeagre : ∀ b ∈ below, Meagre b := fun b hb =>
        (hbranches b (List.mem_cons_of_mem top hb)).meagre
      obtain rfl : below = [] := by
        by_contra hbelow'
        have := (le_of_depth?_branchesCode hmeagre hbelow).2.2 hbelow'
        omega
      have hmem : top ∈ [top] := List.mem_singleton_self top
      have hunfed : top.isFed false = false := by simpa [areFed] using hfed
      exact ⟨top, rfl, hrest.eq_finish hafter,
        ((hbranches top hmem).isBare (htop top hmem l hl) hunfed).2⟩

/-- A wire that finds its operands is self-contained. -/
theorem Placed.isSelfContained
    (h : Placed scope w) (hdepth : depth? fed.toNat (w.codeFrom fed) = some m) :
    w.isSelfContained fed = true := by
  induction h generalizing fed m with
  | finish => rfl
  | @contact _ name negated rest _ ih =>
      have hrest := (startsWith_contact name negated rest).depth?_toNat_eq_some_iff.mp hdepth
      exact (ih hrest : rest.isSelfContained true = true)
  | @call _ tokens rest _ ih =>
      have hrest := (startsWith_call tokens rest).depth?_toNat_eq_some_iff.mp hdepth
      exact (ih hrest : rest.isSelfContained true = true)
  | @coil name negated rest _ ih =>
      obtain ⟨hfed, hrest⟩ := depth?_coil_eq_some_iff.mp hdepth
      cases fed with
      | false => cases hfed
      | true => exact (ih hrest : rest.isSelfContained false = true)
  | @block scope branches rest hne hbranches hrest ihs ih =>
      have htop : ∀ b ∈ branches, ∀ k, depth? 0 (b.codeFrom false) = some k →
          b.isSelfContained false = true := fun b hb k hk => ihs b hb hk
      simp only [Wire.isSelfContained, Bool.or_eq_true, Bool.and_eq_true, Bool.not_eq_true']
      rcases areFed_or_isBare (.block hne hbranches hrest) htop hdepth with hfed | hbare
      · obtain ⟨operand, hblock⟩ := exists_startsWith_of_areFed hne hfed rest
        have hcontained : rest.isSelfContained true = true :=
          ih (hblock.depth?_toNat_eq_some_iff.mp hdepth)
        exact .inl ⟨⟨by simpa using hne, hfed⟩, hcontained⟩
      · exact .inr hbare

/-- **The program of a rung finds all its operands exactly if the rung is self-contained.** -/
theorem Placed.exists_build_iff
    (h : Placed .rung w) :
    (∃ stack cs, Operands.build [] w.code = .ok (stack, cs)) ↔
      w.isSelfContained false = true := by
  constructor
  · rintro ⟨stack, cs, hbuild⟩
    have hdepth : depth? 0 (w.codeFrom false) = some stack.length :=
      Operands.depth?_of_build hbuild
    exact h.isSelfContained hdepth
  · intro hcontained
    obtain ⟨m, hm⟩ := exists_depth?_of_isSelfContained hcontained
    exact Operands.exists_build_of_depth? hm

end Rungs

end Wire
end RelayLadder
