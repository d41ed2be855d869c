import RelayLadder.Expr.Basic
import RelayLadder.Proofs.Except
import RelayLadder.Wire.Basic

/-!
# The operand stack

`Operands.build` follows a program that is not finished yet: it gives the
operands that wait on the stack together with the coils completed so far.
`step_cases` says once what an accepted instruction does.

**Building programs.**  `Expr.program` pushes one expression, and `Coil.program` drives
one coil.  The coils of such programs in a row are the coils they were made of
(`coils_flatMap_program`).
-/

namespace RelayLadder

/-- The program that pushes an expression. -/
def Expr.program : Expr → Program
  | contact name => [.read name]
  | call tokens => [.call tokens]
  | not operand => operand.program ++ [.invert]
  | and left right => left.program ++ right.program ++ [.conj]
  | or left right => left.program ++ right.program ++ [.disj]

/-- The program that pushes the value of a coil and drives the coil. -/
def Coil.program (c : Coil) : Program :=
  c.value.program ++ [.write c.name]

namespace Expr

section Series

/-- The conjunction of what stands before an expression, if anything does, with it. -/
def after : Option Expr → Expr → Expr
  | none, e => e
  | some left, e => and left e

theorem program_after
    (before : Option Expr) (e : Expr) :
    (after before e).program =
      before.elim [] program ++ (e.program ++ Wire.join before.isSome) := by
  cases before with
  | none => simp [after, Wire.join]
  | some left => simp [after, program, Wire.join]

end Series

end Expr

namespace Operands

section Actions

variable {stack stack' : List Expr} {i : Instruction} {coil : Option Coil}

/-- The six things that an accepted instruction can do to the operands. -/
theorem step_cases
    (h : step stack i = .ok (stack', coil)) :
    (∃ name, i = .read name ∧ stack' = .contact name :: stack ∧ coil = none) ∨
    (∃ tokens, i = .call tokens ∧ stack' = .call tokens :: stack ∧ coil = none) ∨
    (∃ e rest, i = .invert ∧ stack = e :: rest ∧ stack' = .not e :: rest ∧ coil = none) ∨
    (∃ right left rest, i = .conj ∧ stack = right :: left :: rest ∧
      stack' = .and left right :: rest ∧ coil = none) ∨
    (∃ right left rest, i = .disj ∧ stack = right :: left :: rest ∧
      stack' = .or left right :: rest ∧ coil = none) ∨
    (∃ name e, i = .write name ∧ stack = e :: stack' ∧ coil = some ⟨name, e⟩) := by
  cases i with
  | read name =>
      cases h
      exact Or.inl ⟨name, rfl, rfl, rfl⟩
  | call tokens =>
      cases h
      exact Or.inr (Or.inl ⟨tokens, rfl, rfl, rfl⟩)
  | invert =>
      cases stack with
      | nil => cases h
      | cons e rest =>
          cases h
          exact Or.inr (Or.inr (Or.inl ⟨e, rest, rfl, rfl, rfl, rfl⟩))
  | conj =>
      cases stack with
      | nil => cases h
      | cons right stack =>
          cases stack with
          | nil => cases h
          | cons left rest =>
              cases h
              exact Or.inr (Or.inr (Or.inr (Or.inl ⟨right, left, rest, rfl, rfl, rfl, rfl⟩)))
  | disj =>
      cases stack with
      | nil => cases h
      | cons right stack =>
          cases stack with
          | nil => cases h
          | cons left rest =>
              cases h
              exact Or.inr (Or.inr (Or.inr (Or.inr (Or.inl
                ⟨right, left, rest, rfl, rfl, rfl, rfl⟩))))
  | write name =>
      cases stack with
      | nil => cases h
      | cons e rest =>
          cases h
          exact Or.inr (Or.inr (Or.inr (Or.inr (Or.inr ⟨name, e, rfl, rfl, rfl⟩))))

/-- An instruction that is refused leaves the stack as it was. -/
theorem run_act_of_error
    {cause : Fault}
    (h : step stack i = .error cause) :
    (act i).run stack = .error cause stack := by
  cases i with
  | read name => cases h
  | call tokens => cases h
  | invert =>
      obtain _ | ⟨e, rest⟩ := stack
      all_goals cases h
      rfl
  | write name =>
      obtain _ | ⟨e, rest⟩ := stack
      all_goals cases h
      rfl
  | conj =>
      obtain _ | ⟨right, _ | ⟨left, rest⟩⟩ := stack
      all_goals cases h
      all_goals rfl
  | disj =>
      obtain _ | ⟨right, _ | ⟨left, rest⟩⟩ := stack
      all_goals cases h
      all_goals rfl

/-- An instruction that is accepted leaves the stack that it gives. -/
theorem run_act_of_ok
    (h : step stack i = .ok (stack', coil)) :
    (act i).run stack = .ok coil stack' := by
  rcases step_cases h with
    ⟨name, rfl, rfl, rfl⟩ | ⟨tokens, rfl, rfl, rfl⟩ | ⟨e, rest, rfl, rfl, rfl, rfl⟩ |
    ⟨right, left, rest, rfl, rfl, rfl, rfl⟩ | ⟨right, left, rest, rfl, rfl, rfl, rfl⟩ |
    ⟨name, e, rfl, rfl, rfl⟩
  all_goals rfl

end Actions

section Build

/-- The operands left by a program that starts with the given stack, and its coils. -/
def build (stack : List Expr) : Program → Except Fault (List Expr × List Coil)
  | [] => .ok (stack, [])
  | i :: rest => do
    let (stack, coil) ← step stack i
    let (stack, others) ← build stack rest
    return (stack, coil.toList ++ others)

theorem build_cons_eq_ok_iff
    {stack left : List Expr} {i : Instruction} {rest : Program} {cs : List Coil} :
    build stack (i :: rest) = .ok (left, cs) ↔
      ∃ stack' coil others, step stack i = .ok (stack', coil) ∧
        build stack' rest = .ok (left, others) ∧ cs = coil.toList ++ others := by
  rw [build]
  constructor
  · intro h
    obtain ⟨⟨stack', coil⟩, hstep, h⟩ := bind_eq_ok h
    obtain ⟨⟨left', others⟩, hrest, h⟩ := bind_eq_ok h
    cases h
    exact ⟨stack', coil, others, hstep, hrest, rfl⟩
  · rintro ⟨stack', coil, others, hstep, hrest, rfl⟩
    rw [hstep]
    change (build stack' rest >>= fun next => pure (next.1, coil.toList ++ next.2)) = _
    rw [hrest]
    rfl

theorem coils_cons_eq_ok_iff
    {stack : List Expr} {i : Instruction} {rest : Program} {cs : List Coil} :
    coils stack (i :: rest) = .ok cs ↔
      ∃ stack' coil others, step stack i = .ok (stack', coil) ∧
        coils stack' rest = .ok others ∧ cs = coil.toList ++ others := by
  rw [coils]
  constructor
  · intro h
    obtain ⟨⟨stack', coil⟩, hstep, h⟩ := bind_eq_ok h
    obtain ⟨others, hrest, h⟩ := bind_eq_ok h
    cases h
    exact ⟨stack', coil, others, hstep, hrest, rfl⟩
  · rintro ⟨stack', coil, others, hstep, hrest, rfl⟩
    rw [hstep]
    change (coils stack' rest >>= fun others => pure (coil.toList ++ others)) = _
    rw [hrest]
    rfl

/-- The coils of a program are what is built when no operand is left. -/
theorem coils_eq_ok_iff
    {stack : List Expr} {p : Program} {cs : List Coil} :
    coils stack p = .ok cs ↔ build stack p = .ok ([], cs) := by
  induction p generalizing stack cs with
  | nil =>
      cases stack with
      | nil => simp [coils, build]
      | cons e stack => simp [coils, build]
  | cons i rest ih =>
      rw [coils_cons_eq_ok_iff, build_cons_eq_ok_iff]
      simp only [ih]

/-- A program is built from its beginning on. -/
theorem build_append_eq_ok_iff
    {stack left : List Expr} {p q : Program} {cs : List Coil} :
    build stack (p ++ q) = .ok (left, cs) ↔
      ∃ stack' cs₁ cs₂, build stack p = .ok (stack', cs₁) ∧
        build stack' q = .ok (left, cs₂) ∧ cs = cs₁ ++ cs₂ := by
  induction p generalizing stack cs with
  | nil =>
      constructor
      · intro h
        exact ⟨stack, [], cs, rfl, h, rfl⟩
      · rintro ⟨stack', cs₁, cs₂, h, hq, rfl⟩
        cases h
        exact hq
  | cons i rest ih =>
      rw [List.cons_append, build_cons_eq_ok_iff]
      constructor
      · rintro ⟨stack', coil, others, hstep, hrest, rfl⟩
        obtain ⟨stack'', cs₁, cs₂, hp, hq, rfl⟩ := ih.mp hrest
        refine ⟨stack'', coil.toList ++ cs₁, cs₂, ?_, hq, (List.append_assoc _ _ _).symm⟩
        exact build_cons_eq_ok_iff.mpr ⟨stack', coil, cs₁, hstep, hp, rfl⟩
      · rintro ⟨stack'', cs₁, cs₂, hp, hq, rfl⟩
        obtain ⟨stack', coil, others, hstep, hrest, rfl⟩ := build_cons_eq_ok_iff.mp hp
        refine ⟨stack', coil, others ++ cs₂, hstep, ?_, List.append_assoc _ _ _⟩
        exact ih.mpr ⟨stack'', others, cs₂, hrest, hq, rfl⟩

end Build

section Programs

/-- A program that pushes an expression does nothing else. -/
theorem build_program
    (e : Expr) (stack : List Expr) :
    build stack e.program = .ok (e :: stack, []) := by
  induction e generalizing stack with
  | contact name => rfl
  | call tokens => rfl
  | not operand ih =>
      exact build_append_eq_ok_iff.mpr ⟨operand :: stack, [], [], ih stack, rfl, rfl⟩
  | and left right ihl ihr =>
      have hoperands := build_append_eq_ok_iff.mpr
        ⟨left :: stack, [], [], ihl stack, ihr (left :: stack), rfl⟩
      exact build_append_eq_ok_iff.mpr ⟨right :: left :: stack, [], [], hoperands, rfl, rfl⟩
  | or left right ihl ihr =>
      have hoperands := build_append_eq_ok_iff.mpr
        ⟨left :: stack, [], [], ihl stack, ihr (left :: stack), rfl⟩
      exact build_append_eq_ok_iff.mpr ⟨right :: left :: stack, [], [], hoperands, rfl, rfl⟩

/-- The program of a coil completes the coil and leaves the operands below it. -/
theorem build_coil
    (c : Coil) (stack : List Expr) :
    build stack c.program = .ok (stack, [c]) :=
  build_append_eq_ok_iff.mpr ⟨c.value :: stack, [], [c], build_program c.value stack, rfl, rfl⟩

theorem coils_flatMap_program
    (cs : List Coil) :
    coils [] (cs.flatMap Coil.program) = .ok cs := by
  rw [coils_eq_ok_iff]
  induction cs with
  | nil => rfl
  | cons c cs ih => exact build_append_eq_ok_iff.mpr ⟨[], [c], cs, build_coil c [], ih, rfl⟩

end Programs

end Operands

end RelayLadder
