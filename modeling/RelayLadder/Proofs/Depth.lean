import RelayLadder.Proofs.Negation
import RelayLadder.Proofs.Operands

/-!
# Counting operands

Whether an instruction finds its operands depends on how many there are, not on
what they are.  `Program.depth?` follows the number of operands through a program;
it gives none when an instruction finds too few.

**Results.**
* `Operands.exists_build_iff`: the operand stack accepts a program exactly if the
  count does, and holds as many operands as were counted.
* `Operands.step_eq_error_iff`: which instructions the operand stack refuses, and why.
* `Program.depth?_folded`: folding negations into names changes no count.
-/

namespace RelayLadder

section Defs

/-- The number of operands that an instruction takes from the stack. -/
def Instruction.takes : Instruction → Nat
  | read _ => 0
  | call _ => 0
  | invert => 1
  | write _ => 1
  | conj => 2
  | disj => 2

/-- The number of operands that an instruction puts on the stack. -/
def Instruction.gives : Instruction → Nat
  | write _ => 0
  | _ => 1

/-- The number of operands after an instruction that finds `n` of them. -/
def Instruction.depth? (n : Nat) (i : Instruction) : Option Nat :=
  if i.takes ≤ n then some (n - i.takes + i.gives) else none

/-- The number of operands after a program that finds `n` of them. -/
def Program.depth? (n : Nat) (p : Program) : Option Nat :=
  p.foldlM Instruction.depth? n

end Defs

namespace Program

section Counts

variable {n m : Nat} {i : Instruction} {p q : Program}

@[simp] theorem depth?_nil
    (n : Nat) :
    depth? n [] = some n :=
  rfl

theorem depth?_cons
    (n : Nat) (i : Instruction) (p : Program) :
    depth? n (i :: p) = (i.depth? n).bind fun m => depth? m p :=
  rfl

theorem depth?_append
    (n : Nat) (p q : Program) :
    depth? n (p ++ q) = (depth? n p).bind fun m => depth? m q :=
  List.foldlM_append

/-- The count after an instruction, as an equation of numbers. -/
theorem depth?_cons_eq_some_iff :
    depth? n (i :: p) = some m ↔
      i.takes ≤ n ∧ depth? (n - i.takes + i.gives) p = some m := by
  rw [depth?_cons, Instruction.depth?]
  by_cases h : i.takes ≤ n
  · simp [h]
  · simp [h]

theorem depth?_append_eq_some_iff :
    depth? n (p ++ q) = some m ↔ ∃ k, depth? n p = some k ∧ depth? k q = some m := by
  rw [depth?_append, Option.bind_eq_some_iff]

end Counts

section Programs

/-- The program of an expression leaves one operand more. -/
theorem depth?_program
    (e : Expr) (n : Nat) :
    depth? n e.program = some (n + 1) := by
  induction e generalizing n with
  | contact name => rfl
  | call tokens => rfl
  | not operand ih => exact depth?_append_eq_some_iff.mpr ⟨n + 1, ih n, rfl⟩
  | and left right ihl ihr =>
      have hoperands := depth?_append_eq_some_iff.mpr ⟨n + 1, ihl n, ihr (n + 1)⟩
      exact depth?_append_eq_some_iff.mpr ⟨n + 2, hoperands, rfl⟩
  | or left right ihl ihr =>
      have hoperands := depth?_append_eq_some_iff.mpr ⟨n + 1, ihl n, ihr (n + 1)⟩
      exact depth?_append_eq_some_iff.mpr ⟨n + 2, hoperands, rfl⟩

/-- **Folding negations into names changes no count.** -/
theorem depth?_folded
    (n : Nat) (p : Program) :
    depth? n p.folded = depth? n p := by
  have hwrite : ∀ n name, Instruction.depth? n (.write (toggle name)) =
      Instruction.depth? n .invert >>= (Instruction.depth? · (.write name)) := by
    intro n name
    cases n with
    | zero => rfl
    | succ n => rfl
  exact Folding.foldlM_run (fun _ _ => rfl) hwrite none p n

end Programs

end Program

namespace Operands

open Program (depth?)

section Stacks

variable {stack stack' left : List Expr} {i : Instruction} {p : Program} {cs : List Coil} {m : Nat}

/-- An accepted instruction leaves as many operands as are counted. -/
theorem depth?_of_step
    {coil : Option Coil}
    (h : step stack i = .ok (stack', coil)) :
    i.depth? stack.length = some stack'.length := by
  rcases step_cases h with
    ⟨name, rfl, rfl, -⟩ | ⟨tokens, rfl, rfl, -⟩ | ⟨e, rest, rfl, rfl, rfl, -⟩ |
    ⟨right, left, rest, rfl, rfl, rfl, -⟩ | ⟨right, left, rest, rfl, rfl, rfl, -⟩ |
    ⟨name, e, rfl, rfl, -⟩
  all_goals simp [Instruction.depth?, Instruction.takes, Instruction.gives]

/-- An instruction is refused exactly if there are too few operands.  The fault says how many there
are and how many are needed. -/
theorem step_eq_error_iff
    {cause : Fault} :
    step stack i = .error cause ↔
      stack.length < i.takes ∧ cause = .underflow i.mnemonic i.takes stack.length := by
  cases i with
  | read name => simp [step, Instruction.takes]
  | call tokens => simp [step, Instruction.takes]
  | invert =>
      obtain _ | ⟨e, rest⟩ := stack
      · simp [step, shortage, Instruction.takes, eq_comm]
      · simp [step, Instruction.takes]
  | write name =>
      obtain _ | ⟨e, rest⟩ := stack
      · simp [step, shortage, Instruction.takes, eq_comm]
      · simp [step, Instruction.takes]
  | conj =>
      obtain _ | ⟨right, _ | ⟨left, rest⟩⟩ := stack
      · simp [step, shortage, Instruction.takes, eq_comm]
      · simp [step, shortage, Instruction.takes, eq_comm]
      · simp [step, Instruction.takes, Nat.not_lt.mpr (Nat.le_add_left 2 rest.length)]
  | disj =>
      obtain _ | ⟨right, _ | ⟨left, rest⟩⟩ := stack
      · simp [step, shortage, Instruction.takes, eq_comm]
      · simp [step, shortage, Instruction.takes, eq_comm]
      · simp [step, Instruction.takes, Nat.not_lt.mpr (Nat.le_add_left 2 rest.length)]

theorem exists_step_of_takes
    (h : i.takes ≤ stack.length) :
    ∃ stack' coil, step stack i = .ok (stack', coil) := by
  cases hstep : step stack i with
  | ok next => exact ⟨next.1, next.2, rfl⟩
  | error cause => exact absurd (step_eq_error_iff.mp hstep).1 (Nat.not_lt.mpr h)

/-- A program that has no coils lacks an operand of one of its instructions, or leaves some
operands. -/
theorem cases_of_coils_eq_error
    {cause : Fault}
    (h : coils stack p = .error cause) :
    (∃ i ∈ p, ∃ available < i.takes, cause = .underflow i.mnemonic i.takes available) ∨
      ∃ count, 0 < count ∧ cause = .danglingOperands count := by
  induction p generalizing stack with
  | nil =>
      cases stack with
      | nil => cases h
      | cons e stack =>
          cases h
          exact Or.inr ⟨stack.length + 1, Nat.succ_pos _, rfl⟩
  | cons i p ih =>
      rw [coils] at h
      rcases bind_eq_error_iff.mp h with hstep | ⟨next, -, hrest⟩
      · obtain ⟨hfew, rfl⟩ := step_eq_error_iff.mp hstep
        exact Or.inl ⟨i, List.mem_cons_self, stack.length, hfew, rfl⟩
      · rcases bind_eq_error_iff.mp hrest with hrest | ⟨_, -, hdone⟩
        · rcases ih hrest with ⟨j, hj, hfault⟩ | hcount
          · exact Or.inl ⟨j, List.mem_cons_of_mem i hj, hfault⟩
          · exact Or.inr hcount
        · cases hdone

theorem depth?_of_build
    (h : build stack p = .ok (left, cs)) :
    depth? stack.length p = some left.length := by
  induction p generalizing stack cs with
  | nil =>
      cases h
      rfl
  | cons i p ih =>
      obtain ⟨stack', coil, others, hstep, hrest, -⟩ := build_cons_eq_ok_iff.mp h
      rw [Program.depth?_cons, depth?_of_step hstep]
      exact ih hrest

theorem exists_build_of_depth?
    (h : depth? stack.length p = some m) :
    ∃ left cs, build stack p = .ok (left, cs) := by
  induction p generalizing stack with
  | nil => exact ⟨stack, [], rfl⟩
  | cons i p ih =>
      obtain ⟨stack', coil, hstep⟩ :=
        exists_step_of_takes (Program.depth?_cons_eq_some_iff.mp h).1
      rw [Program.depth?_cons, depth?_of_step hstep] at h
      obtain ⟨left, cs, hrest⟩ := ih h
      exact ⟨left, _, build_cons_eq_ok_iff.mpr ⟨stack', coil, cs, hstep, hrest, rfl⟩⟩

/-- **The operand stack accepts a program exactly if the count does.** -/
theorem exists_build_iff :
    (∃ left cs, build stack p = .ok (left, cs) ∧ left.length = m) ↔
      depth? stack.length p = some m := by
  constructor
  · rintro ⟨left, cs, hbuild, rfl⟩
    exact depth?_of_build hbuild
  · intro h
    obtain ⟨left, cs, hbuild⟩ := exists_build_of_depth? h
    rw [depth?_of_build hbuild, Option.some.injEq] at h
    exact ⟨left, cs, hbuild, h⟩

/-- A program has coils if it has coils when it is folded. -/
theorem exists_build_of_ofProgram
    (h : Coil.ofProgram p = .ok cs) :
    ∃ cs', build [] p = .ok ([], cs') := by
  have hdepth := depth?_of_build (coils_eq_ok_iff.mp h)
  rw [Program.depth?_folded] at hdepth
  obtain ⟨left, cs', hbuild, hleft⟩ := exists_build_iff.mpr hdepth
  obtain rfl := List.length_eq_zero_iff.mp hleft
  exact ⟨cs', hbuild⟩

end Stacks

end Operands

end RelayLadder
