import RelayLadder.Proofs.Depth
import RelayLadder.Proofs.Rewriting

/-!
# Which programs have coils

Whether a program has coils, and what is wrong with it if it has none, can be told
by counting operands.  The count is taken along the program as it stands, while the
operand stack sees it folded.

**Shortages.**  `Program.Lacks` is the first place at which an instruction finds too
few operands.  There are as many operands at this place whether the program is folded
or not, but a negation may be gone there: where it went into the name of a coil, the
coil lacks the operand instead (`Instruction.blamed`).

**Results.**
* `Program.depth?_eq_none_iff`: a count fails exactly if some instruction lacks operands.
* `Operands.coils_rewritten_of_lacks`: the fault of a program in which one does.
* `Coil.ofProgram_of_count`: when a program has coils, how many, and what the fault is if
  it has none.
-/

namespace RelayLadder

section Defs

/-- A program that starts with `start` operands gets to the instruction `i`, with `rest` behind it,
and finds only `n` operands there, fewer than `i` takes. -/
def Program.Lacks (start : Nat) (p : Program) (i : Instruction) (rest : Program) (n : Nat) : Prop :=
  ∃ before, p = before ++ i :: rest ∧ depth? start before = some n ∧ n < i.takes

/-- The mnemonic under which an instruction that lacks operands is reported.  A negation in front of
a `write` is reported as this `write`. -/
def Instruction.blamed (i : Instruction) (rest : Program) : String :=
  match i, rest with
  | .invert, .write name :: _ => mnemonic (.write name)
  | i, _ => i.mnemonic

/-- The name that an instruction writes to. -/
def Instruction.target? : Instruction → Option String
  | write name => some name
  | _ => none

/-- The names that a program writes to, in order. -/
def Program.targets (p : Program) : List String :=
  p.filterMap Instruction.target?

/-- The name is the other one, or it is the other one with its negation mark toggled. -/
def Names (name target : String) : Prop :=
  name = target ∨ name = toggle target

end Defs

namespace Program

section Shortages

variable {start n : Nat} {i j : Instruction} {p rest : Program}

/-- The first instruction lacks operands, or it does not and a later one does. -/
theorem lacks_cons_iff :
    Lacks start (j :: p) i rest n ↔
      (j = i ∧ p = rest ∧ start = n ∧ n < i.takes) ∨
        ∃ next, j.depth? start = some next ∧ Lacks next p i rest n := by
  constructor
  · rintro ⟨before, hp, hdepth, hfew⟩
    cases before with
    | nil =>
        cases hp
        cases hdepth
        exact Or.inl ⟨rfl, rfl, rfl, hfew⟩
    | cons k before =>
        cases hp
        rw [depth?_cons, Option.bind_eq_some_iff] at hdepth
        obtain ⟨next, hnext, hdepth⟩ := hdepth
        exact Or.inr ⟨next, hnext, before, rfl, hdepth, hfew⟩
  · rintro (⟨rfl, rfl, rfl, hfew⟩ | ⟨next, hnext, before, rfl, hdepth, hfew⟩)
    · exact ⟨[], rfl, rfl, hfew⟩
    · refine ⟨j :: before, rfl, ?_, hfew⟩
      rw [depth?_cons, hnext]
      exact hdepth

/-- **A count fails exactly if some instruction lacks operands.** -/
theorem depth?_eq_none_iff
    (start : Nat) (p : Program) :
    depth? start p = none ↔ ∃ i rest n, Lacks start p i rest n := by
  induction p generalizing start with
  | nil =>
      simp only [depth?_nil, reduceCtorEq, false_iff]
      rintro ⟨i, rest, n, before, hnil, -⟩
      simp at hnil
  | cons j p ih =>
      rw [depth?_cons]
      simp only [lacks_cons_iff]
      by_cases hfew : start < j.takes
      · have hnone : j.depth? start = none := by
          rw [Instruction.depth?, if_neg (Nat.not_le.mpr hfew)]
        simp only [hnone, Option.bind_none, true_iff]
        exact ⟨j, p, start, Or.inl ⟨rfl, rfl, rfl, hfew⟩⟩
      · have hsome : j.depth? start = some (start - j.takes + j.gives) := by
          rw [Instruction.depth?, if_pos (Nat.not_lt.mp hfew)]
        rw [hsome, Option.bind_some, ih]
        constructor
        · rintro ⟨i, rest, n, hlacks⟩
          exact ⟨i, rest, n, Or.inr ⟨_, rfl, hlacks⟩⟩
        · rintro ⟨i, rest, n, ⟨rfl, -, rfl, hfew'⟩ | ⟨next, hnext, hlacks⟩⟩
          · exact absurd hfew' hfew
          · cases hnext
            exact ⟨i, rest, n, hlacks⟩

theorem exists_depth?_iff :
    (∃ d, depth? start p = some d) ↔ ∀ i rest n, ¬ Lacks start p i rest n := by
  rw [← Option.ne_none_iff_exists', ne_eq, depth?_eq_none_iff]
  simp only [not_exists]

end Shortages

section Targets

/-- Rewriting keeps the names that are written to, apart from their negation marks. -/
theorem forall₂_targets_rewritten
    (p : Program) :
    List.Forall₂ Names p.rewritten.targets p.targets := by
  fun_induction Program.rewritten p with
  | case1 => exact .nil
  | case2 name rest ih => exact ih
  | case3 name rest ih => exact .cons (Or.inr rfl) ih
  | case4 i rest hread hwrite ih =>
      cases i with
      | write name => exact .cons (Or.inl rfl) ih
      | read name => exact ih
      | call tokens => exact ih
      | invert => exact ih
      | conj => exact ih
      | disj => exact ih

end Targets

end Program

namespace Operands

section Faults

variable {stack stack' left : List Expr} {i j : Instruction} {p rest : Program} {cs : List Coil}
  {n : Nat}

/-- Behind an accepted instruction the same instruction lacks the same operands. -/
theorem lacks_cons_of_ok
    {coil : Option Coil}
    (hstep : step stack j = .ok (stack', coil)) :
    Program.Lacks stack.length (j :: p) i rest n ↔ Program.Lacks stack'.length p i rest n := by
  have hdepth := depth?_of_step hstep
  rw [Program.lacks_cons_iff, hdepth]
  constructor
  · rintro (⟨rfl, -, rfl, hfew⟩ | ⟨_, hnext, hlacks⟩)
    · rw [Instruction.depth?, if_neg (Nat.not_le.mpr hfew)] at hdepth
      cases hdepth
    · cases hnext
      exact hlacks
  · intro hlacks
    exact Or.inr ⟨_, rfl, hlacks⟩

/-- An instruction that is refused is the one that lacks operands. -/
theorem eq_of_lacks_of_error
    {cause : Fault}
    (hstep : step stack j = .error cause) (h : Program.Lacks stack.length (j :: p) i rest n) :
    j = i ∧ p = rest ∧ stack.length = n := by
  rcases Program.lacks_cons_iff.mp h with ⟨hj, hp, hn, -⟩ | ⟨_, hdepth, -⟩
  · exact ⟨hj, hp, hn⟩
  · rw [Instruction.depth?, if_neg (Nat.not_le.mpr (step_eq_error_iff.mp hstep).1)] at hdepth
    cases hdepth

/-- **The fault of a program that lacks operands.**  The instruction that lacks them keeps its place
when the program is rewritten, and so does the number of operands. -/
theorem coils_rewritten_of_lacks
    (h : p.Lacks stack.length i rest n) :
    coils stack p.rewritten = .error (.underflow (i.blamed rest) i.takes n) := by
  fun_induction Program.rewritten p generalizing stack with
  | case1 =>
      obtain ⟨before, hnil, -⟩ := h
      simp at hnil
  | case2 name p ih =>
      -- The contact and the negation behind it lack nothing.
      have hrest := (lacks_cons_of_ok rfl).mp ((lacks_cons_of_ok rfl).mp h)
      rw [coils_cons_of_ok rfl, @ih (.contact (toggle name) :: stack) hrest]
      rfl
  | case3 name p ih =>
      cases stack with
      | nil =>
          obtain ⟨rfl, rfl, rfl⟩ := eq_of_lacks_of_error rfl h
          rfl
      | cons e stack =>
          have hrest := (lacks_cons_of_ok rfl).mp ((lacks_cons_of_ok rfl).mp h)
          rw [coils_cons_of_ok rfl, ih hrest]
          rfl
  | case4 j p hread hwrite ih =>
      cases hstep : step stack j with
      | error cause =>
          obtain ⟨rfl, rfl, rfl⟩ := eq_of_lacks_of_error hstep h
          obtain ⟨-, rfl⟩ := step_eq_error_iff.mp hstep
          have hblamed : j.blamed p = j.mnemonic := by
            rw [Instruction.blamed]
            rintro name p' rfl rfl
            exact hwrite name p' rfl rfl
          rw [coils_cons_of_error hstep, hblamed]
      | ok next =>
          rw [coils_cons_of_ok hstep, ih ((lacks_cons_of_ok hstep).mp h)]
          rfl

/-- A program that is built has its coils unless operands are left. -/
theorem coils_of_build
    (h : build stack p = .ok (left, cs)) :
    coils stack p = if left = [] then .ok cs else .error (.danglingOperands left.length) := by
  induction p generalizing stack cs with
  | nil =>
      cases h
      cases left with
      | nil => rfl
      | cons e left => rfl
  | cons j p ih =>
      obtain ⟨stack', coil, others, hstep, hrest, rfl⟩ := build_cons_eq_ok_iff.mp h
      rw [coils_cons_of_ok hstep, ih hrest]
      split
      · rfl
      · rfl

/-- A program that is built has one coil for each of its targets. -/
theorem map_name_of_build
    (h : build stack p = .ok (left, cs)) :
    cs.map Coil.name = p.targets := by
  induction p generalizing stack cs with
  | nil =>
      cases h
      rfl
  | cons j p ih =>
      obtain ⟨stack', coil, others, hstep, hrest, rfl⟩ := build_cons_eq_ok_iff.mp h
      rw [List.map_append, ih hrest]
      rcases step_cases hstep with
        ⟨name, rfl, -, rfl⟩ | ⟨tokens, rfl, -, rfl⟩ | ⟨_, _, rfl, -, -, rfl⟩ |
        ⟨_, _, _, rfl, -, -, rfl⟩ | ⟨_, _, _, rfl, -, -, rfl⟩ | ⟨name, e, rfl, -, rfl⟩
      all_goals rfl

end Faults

end Operands

namespace Coil

section Counts

open Program (depth? Lacks)

/-- **When a program has coils.**  Operands are counted along the program as it stands.  If an
instruction lacks operands, the first one that does is reported with the number that it takes and
the number that it finds, and under its own mnemonic, unless it is a negation in front of a `write`:
then it is reported as the `write`.  If no instruction does, the operands that are left are
reported.  If none are left, there is one coil for each `write`, in order. -/
theorem ofProgram_of_count
    (p : Program) :
    (∀ i rest n, Lacks 0 p i rest n →
      ofProgram p = .error (.underflow (i.blamed rest) i.takes n)) ∧
    ((∀ i rest n, ¬ Lacks 0 p i rest n) → ∃ d, depth? 0 p = some d ∧
      (0 < d → ofProgram p = .error (.danglingOperands d)) ∧
      (d = 0 → ∃ cs, ofProgram p = .ok cs ∧ cs.map Coil.name = p.folded.targets ∧
        List.Forall₂ (fun c name => Names c.name name) cs p.targets)) := by
  constructor
  · intro i rest n hlacks
    have hlacks : Lacks ([] : List Expr).length p i rest n := hlacks
    rw [ofProgram, p.folded_eq_rewritten, Operands.coils_rewritten_of_lacks hlacks]
  · intro hno
    obtain ⟨d, hd⟩ := Program.exists_depth?_iff.mpr hno
    have hfolded : depth? ([] : List Expr).length p.folded = some d :=
      (Program.depth?_folded 0 p).trans hd
    obtain ⟨left, cs, hbuild, hleft⟩ := Operands.exists_build_iff.mpr hfolded
    have hcoils := Operands.coils_of_build hbuild
    refine ⟨d, hd, ?_, ?_⟩
    · intro hpos
      have hne : left ≠ [] := List.ne_nil_of_length_pos (hleft ▸ hpos)
      rw [ofProgram, hcoils, if_neg hne, hleft]
    · rintro rfl
      obtain rfl := List.length_eq_zero_iff.mp hleft
      have hnames := Operands.map_name_of_build hbuild
      refine ⟨cs, hcoils, hnames, List.forall₂_map_left_iff.mp ?_⟩
      rw [hnames, p.folded_eq_rewritten]
      exact p.forall₂_targets_rewritten

/-- A negation in front of a `write` lacks an operand behind the first coil, two of three operands
are left, and two negations in a row go into a contact and into a coil. -/
theorem ofProgram_of_count_cases :
    (Lacks 0 [.read "A", .write "X", .invert, .write "Y"] .invert [.write "Y"] 0 ∧
      ofProgram [.read "A", .write "X", .invert, .write "Y"] = .error (.underflow "out" 1 0)) ∧
    (depth? 0 [.read "A", .read "B", .read "C", .disj] = some 2 ∧
      ofProgram [.read "A", .read "B", .read "C", .disj] = .error (.danglingOperands 2)) ∧
    ∃ cs, ofProgram [.read "A", .invert, .invert, .write "X"] = .ok cs ∧
      cs.map Coil.name = ["/X"] := by
  have hlacks : Lacks 0 [.read "A", .write "X", .invert, .write "Y"] .invert [.write "Y"] 0 :=
    ⟨[.read "A", .write "X"], rfl, rfl, by decide⟩
  refine ⟨⟨hlacks, (ofProgram_of_count _).1 _ _ _ hlacks⟩, ⟨rfl, ?_⟩, ?_⟩
  · obtain ⟨d, hd, hleft, -⟩ := (ofProgram_of_count [.read "A", .read "B", .read "C", .disj]).2
      (Program.exists_depth?_iff.mp ⟨2, rfl⟩)
    cases hd
    exact hleft (by decide)
  · obtain ⟨d, hd, -, hnone⟩ := (ofProgram_of_count [.read "A", .invert, .invert, .write "X"]).2
      (Program.exists_depth?_iff.mp ⟨0, rfl⟩)
    cases hd
    obtain ⟨cs, hcs, hnames, -⟩ := hnone rfl
    exact ⟨cs, hcs, hnames⟩

end Counts

end Coil

end RelayLadder
