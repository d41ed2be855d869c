import RelayLadder.Proofs.Machine.Trees

/-!
# Programs made of coils

A program in which no operand waits across a coil is the programs of its coils, one
after the other.  Folding works on each of them alone: an `invert` behind a contact
goes into the name of the contact, and an `invert` behind any other value of a coil
goes into the name of the coil.

**Results.**
* `eq_flatMap_program_of_alone`: a program without waiting operands is the programs of its
  coils.
* `Coil.ofProgram_flatMap_program`: the coils of such a program are the folded coils.
* `Coil.driveAll_folded`: folded coils write what the coils write.
-/

namespace RelayLadder

open Operands (build)

namespace Expr

/-- The expression with the negations of its contacts in their names. -/
def folded : Expr → Expr
  | contact name => contact name
  | call tokens => call tokens
  | not (contact name) => contact (toggle name)
  | not operand => not operand.folded
  | and left right => and left.folded right.folded
  | or left right => or left.folded right.folded

section Folding

theorem folded_not
    {operand : Expr}
    (h : ∀ name, operand ≠ contact name) :
    (not operand).folded = not operand.folded := by
  cases operand with
  | contact name => exact absurd rfl (h name)
  | call _ => rfl
  | not _ => rfl
  | and _ _ => rfl
  | or _ _ => rfl

/-- The program of an expression starts by pushing an operand. -/
theorem exists_program_eq_cons
    (e : Expr) :
    ∃ i p, e.program = i :: p ∧ i ≠ .invert ∧ ∀ name, i ≠ .write name := by
  induction e with
  | contact name => exact ⟨_, [], rfl, nofun, nofun⟩
  | call tokens => exact ⟨_, [], rfl, nofun, nofun⟩
  | not operand ih =>
      obtain ⟨i, p, hp, hi⟩ := ih
      exact ⟨i, p ++ [.invert], by rw [program, hp, List.cons_append], hi⟩
  | and left right ihl _ =>
      obtain ⟨i, p, hp, hi⟩ := ihl
      exact ⟨i, p ++ right.program ++ [.conj],
        by rw [program, hp, List.cons_append, List.cons_append], hi⟩
  | or left right ihl _ =>
      obtain ⟨i, p, hp, hi⟩ := ihl
      exact ⟨i, p ++ right.program ++ [.disj],
        by rw [program, hp, List.cons_append, List.cons_append], hi⟩

theorem head?_program
    (e : Expr) (rest : Program) :
    (e.program ++ rest).head? ≠ some .invert ∧
      ∀ name, (e.program ++ rest).head? ≠ some (.write name) := by
  obtain ⟨i, p, hp, hinvert, hwrite⟩ := e.exists_program_eq_cons
  rw [hp]
  exact ⟨fun h => hinvert (Option.some.inj h), fun name h => hwrite name (Option.some.inj h)⟩

/-- Folding the program of an expression folds the expression, unless what follows is folded with
its last instruction. -/
theorem run_program
    (e : Expr) (rest : Program)
    (hcontact : ∀ name, e = contact name → rest.head? ≠ some .invert)
    (hnot : ∀ operand, e = not operand → (∀ name, operand ≠ contact name) →
      ∀ name, rest.head? ≠ some (.write name)) :
    Folding.run none (e.program ++ rest) = e.folded.program ++ Folding.run none rest := by
  induction e generalizing rest with
  | contact name =>
      exact Folding.run_cons_of_settled (fun _ _ => hcontact name rfl) (fun h => by cases h)
  | call tokens =>
      exact Folding.run_cons_of_settled (fun _ h => by cases h) (fun h => by cases h)
  | not operand ih =>
      by_cases h : ∃ name, operand = contact name
      · obtain ⟨name, rfl⟩ := h
        exact Folding.run_read_invert name rest
      · have hne : ∀ name, operand ≠ contact name := fun name heq => h ⟨name, heq⟩
        have hinvert : Folding.run none (.invert :: rest) = .invert :: Folding.run none rest :=
          Folding.run_cons_of_settled (fun _ h => by cases h) fun _ => hnot operand rfl hne
        have hoperand := ih (.invert :: rest) (fun name heq => absurd heq (hne name))
          (fun _ _ _ _ => by simp)
        rw [hinvert] at hoperand
        rw [folded_not hne, program, program]
        simpa using hoperand
  | and left right ihl ihr =>
      have hconj : Folding.run none (.conj :: rest) = .conj :: Folding.run none rest :=
        Folding.run_cons_of_settled (fun _ h => by cases h) (fun h => by cases h)
      have hright := ihr (.conj :: rest) (fun _ _ => by simp) (fun _ _ _ _ => by simp)
      have hleft := ihl (right.program ++ .conj :: rest)
        (fun _ _ => (right.head?_program _).1) (fun _ _ _ => (right.head?_program _).2)
      rw [hright, hconj] at hleft
      rw [folded, program, program]
      simpa using hleft
  | or left right ihl ihr =>
      have hdisj : Folding.run none (.disj :: rest) = .disj :: Folding.run none rest :=
        Folding.run_cons_of_settled (fun _ h => by cases h) (fun h => by cases h)
      have hright := ihr (.disj :: rest) (fun _ _ => by simp) (fun _ _ _ _ => by simp)
      have hleft := ihl (right.program ++ .disj :: rest)
        (fun _ _ => (right.head?_program _).1) (fun _ _ _ => (right.head?_program _).2)
      rw [hright, hdisj] at hleft
      rw [folded, program, program]
      simpa using hleft

theorem eval_folded
    (calls : Calls) (σ : Store) (e : Expr) :
    e.folded.eval calls σ = e.eval calls σ := by
  induction e with
  | contact name => rfl
  | call tokens => rfl
  | not operand ih =>
      by_cases h : ∃ name, operand = contact name
      · obtain ⟨name, rfl⟩ := h
        exact σ.get_toggle name
      · rw [folded_not fun name heq => h ⟨name, heq⟩, eval, eval, ih]
  | and left right ihl ihr => rw [folded, eval, eval, ihl, ihr]
  | or left right ihl ihr => rw [folded, eval, eval, ihl, ihr]

end Folding

end Expr

namespace Coil

/-- The coil with the negations of its contacts and of its value in the names. -/
def folded (c : Coil) : Coil :=
  match c.value with
  | .not (.contact name) => ⟨c.name, .contact (toggle name)⟩
  | .not operand => ⟨toggle c.name, operand.folded⟩
  | value => ⟨c.name, value.folded⟩

section Folding

variable {c : Coil}

/-- The negation of a value that is not a contact goes to the name of the coil, and everything else
stays in the value. -/
theorem folded_cases
    (c : Coil) :
    (∃ operand, c.value = .not operand ∧ (∀ name, operand ≠ .contact name) ∧
      c.folded = ⟨toggle c.name, operand.folded⟩) ∨
    ((∀ operand, c.value = .not operand → ∃ name, operand = .contact name) ∧
      c.folded = ⟨c.name, c.value.folded⟩) := by
  obtain ⟨name, value⟩ := c
  cases value with
  | not operand =>
      cases operand with
      | contact contact =>
          exact Or.inr ⟨fun operand h => ⟨contact, (Expr.not.inj h).symm⟩, rfl⟩
      | call _ => exact Or.inl ⟨_, rfl, nofun, rfl⟩
      | not _ => exact Or.inl ⟨_, rfl, nofun, rfl⟩
      | and _ _ => exact Or.inl ⟨_, rfl, nofun, rfl⟩
      | or _ _ => exact Or.inl ⟨_, rfl, nofun, rfl⟩
  | contact _ => exact Or.inr ⟨nofun, rfl⟩
  | call _ => exact Or.inr ⟨nofun, rfl⟩
  | and _ _ => exact Or.inr ⟨nofun, rfl⟩
  | or _ _ => exact Or.inr ⟨nofun, rfl⟩

/-- Folding the program of a coil folds the coil, whatever follows. -/
theorem run_program
    (c : Coil) (rest : Program) :
    Folding.run none (c.program ++ rest) = c.folded.program ++ Folding.run none rest := by
  rcases c.folded_cases with ⟨operand, hvalue, hne, hfolded⟩ | ⟨hvalue, hfolded⟩
  · have hoperand := operand.run_program (.invert :: .write c.name :: rest)
      (fun name heq => absurd heq (hne name)) (fun _ _ _ _ => by simp)
    rw [Folding.run_invert_write] at hoperand
    rw [hfolded, program, program, hvalue, Expr.program]
    simpa using hoperand
  · have hwrite : Folding.run none (.write c.name :: rest) =
        .write c.name :: Folding.run none rest :=
      Folding.run_cons_of_settled (fun _ h => by cases h) (fun h => by cases h)
    have hoperand := c.value.run_program (.write c.name :: rest) (fun _ _ => by simp)
      (fun operand heq hne => by
        obtain ⟨name, rfl⟩ := hvalue operand heq
        exact absurd rfl (hne name))
    rw [hwrite] at hoperand
    rw [hfolded, program, program]
    simpa using hoperand

theorem folded_flatMap_program
    (cs : List Coil) :
    Program.folded (cs.flatMap program) = (cs.map folded).flatMap program := by
  induction cs with
  | nil => rfl
  | cons c cs ih =>
      rw [List.flatMap_cons, Program.folded, run_program, ← Program.folded, ih]
      rfl

/-- **The coils of the programs of coils are the folded coils.** -/
theorem ofProgram_flatMap_program
    (cs : List Coil) :
    ofProgram (cs.flatMap program) = .ok (cs.map folded) := by
  rw [ofProgram, folded_flatMap_program, Operands.coils_flatMap_program]

/-- A folded coil writes what the coil writes. -/
theorem drive_folded
    (calls : Calls) (σ : Store) (c : Coil) :
    c.folded.drive calls σ = c.drive calls σ := by
  rcases c.folded_cases with ⟨operand, hvalue, -, hfolded⟩ | ⟨-, hfolded⟩
  · rw [hfolded, drive, drive, hvalue, Expr.eval_folded, Store.set_toggle, Expr.eval]
  · rw [hfolded, drive, drive, Expr.eval_folded]

theorem driveAll_folded
    (calls : Calls) (σ : Store) (cs : List Coil) :
    driveAll calls σ (cs.map folded) = driveAll calls σ cs := by
  rw [driveAll, driveAll, List.foldl_map]
  simp only [drive_folded]

/-- A folded coil writes to the same variable. -/
theorem variable_folded
    (c : Coil) :
    Store.variable c.folded.name = Store.variable c.name := by
  have htoggle : Store.variable (toggle c.name) = Store.variable c.name := by
    rcases toggle_cases c.name with hmark | hmark
    · rw [Store.variable, Store.variable, hmark]
      simp
    · rw [Store.variable, Store.variable, hmark]
      simp
  rcases c.folded_cases with ⟨operand, -, -, hfolded⟩ | ⟨-, hfolded⟩
  · rw [hfolded, htoggle]
  · rw [hfolded]

end Folding

end Coil

section Alone

/-- Without waiting operands, a program is the programs of its coils and of the operands that are
left. -/
theorem eq_flatMap_program_of_alone
    {p : Program} {stack : List Expr} {cs : List Coil}
    (halone : Alone p) (h : build [] p = .ok (stack, cs)) :
    p = cs.flatMap Coil.program ++ stack.reverse.flatMap Expr.program := by
  induction p using List.reverseRecOn generalizing stack cs with
  | nil =>
      cases h
      rfl
  | append_singleton q i ih =>
      have hq : Alone q := fun q' name hpre =>
        halone q' name (hpre.trans (List.prefix_append q [i]))
      obtain ⟨stack', cs₁, cs₂, hbuild, hi, rfl⟩ := Operands.build_append_eq_ok_iff.mp h
      obtain ⟨stack'', coil, others, hstep, hnil, rfl⟩ := Operands.build_cons_eq_ok_iff.mp hi
      cases hnil
      have hprogram := ih hq hbuild
      rcases Operands.step_cases hstep with
        ⟨name, rfl, rfl, rfl⟩ | ⟨tokens, rfl, rfl, rfl⟩ | ⟨e, rest, rfl, rfl, rfl, rfl⟩ |
        ⟨right, left, rest, rfl, rfl, rfl, rfl⟩ | ⟨right, left, rest, rfl, rfl, rfl, rfl⟩ |
        ⟨name, e, rfl, rfl, rfl⟩
      · simp [hprogram, Expr.program]
      · simp [hprogram, Expr.program]
      · simp [hprogram, Expr.program]
      · simp [hprogram, Expr.program]
      · simp [hprogram, Expr.program]
      · -- The operand that is written is the only one, so it stands behind all coils.
        have hone := halone q name List.prefix_rfl _ _ hbuild
        have hstack : stack = [] := by simpa using hone
        subst hstack
        simp [hprogram, Coil.program]

end Alone

end RelayLadder
