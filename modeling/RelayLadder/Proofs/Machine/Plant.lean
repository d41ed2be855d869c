import RelayLadder.Proofs.Machine.Basic

/-!
# Machines in a plant

Calls reach out of a program.  A `Plant` says what they do there: a call sees the state
of the plant and the variables, can change both, and gives the value that is pushed.
So the same call can give another value the next time.

**Results.**
* `Machine.runIn_ofCalls`: where calls only look at the variables, the machine in the
  plant is the machine alone.
* `Machine.runIn_folded`: folding negations into names changes no run in any plant, so
  none of the machine alone (`Machine.run_folded`).
* `Machine.folded_same_outcome`: what this says of the variables, the stack and a
  shortage of operands.
-/

namespace RelayLadder

/-- What every call gives, and how it changes the state of the plant and the variables. -/
abbrev Plant (ω : Type) := List String → ω → Store → Bool × ω × Store

/-- The plant of calls that look at the variables and change nothing. -/
def Plant.ofCalls (calls : Calls) : Plant Unit := fun tokens w σ =>
  (calls σ tokens, w, σ)

namespace Machine

section Defs

variable {ω : Type}

/-- One instruction of a machine in a plant. -/
def stepIn (plant : Plant ω) : ω × Machine → Instruction → Option (ω × Machine)
  | (w, ⟨σ, vs⟩), .call tokens =>
    match plant tokens w σ with
    | (v, w, σ) => some (w, ⟨σ, v :: vs⟩)
  -- No call is left, so it does not matter what calls would give.
  | (w, m), i => (m.step (fun _ _ => false) i).map fun m => (w, m)

/-- The state of the plant and of the machine after a program, if no operand was ever missing. -/
def runIn (plant : Plant ω) (s : ω × Machine) (p : Program) : Option (ω × Machine) :=
  p.foldlM (stepIn plant) s

end Defs

section Runs

variable {ω : Type} {plant : Plant ω}

theorem stepIn_read_toggle
    (s : ω × Machine) (name : String) :
    stepIn plant s (.read (toggle name)) =
      stepIn plant s (.read name) >>= (stepIn plant · .invert) := by
  obtain ⟨w, m⟩ := s
  simp only [stepIn, step_read_toggle]
  rfl

theorem stepIn_write_toggle
    (s : ω × Machine) (name : String) :
    stepIn plant s (.write (toggle name)) =
      stepIn plant s .invert >>= (stepIn plant · (.write name)) := by
  obtain ⟨w, σ, vs⟩ := s
  simp only [stepIn, step_write_toggle]
  cases vs with
  | nil => rfl
  | cons v vs => rfl

/-- **Folding negations into names changes no run in any plant.** -/
theorem runIn_folded
    (s : ω × Machine) (p : Program) :
    runIn plant s p.folded = runIn plant s p :=
  Folding.foldlM_run stepIn_read_toggle stepIn_write_toggle none p s

theorem stepIn_ofCalls
    (calls : Calls) (w : Unit) (m : Machine) (i : Instruction) :
    stepIn (.ofCalls calls) (w, m) i = (m.step calls i).map fun m => (w, m) := by
  obtain ⟨σ, vs⟩ := m
  cases i with
  | read name => rfl
  | call tokens => rfl
  | invert => cases vs <;> rfl
  | write name => cases vs <;> rfl
  | conj => obtain _ | ⟨v, _ | ⟨u, vs⟩⟩ := vs <;> rfl
  | disj => obtain _ | ⟨v, _ | ⟨u, vs⟩⟩ := vs <;> rfl

/-- Where calls only look at the variables, the machine in the plant is the machine alone. -/
theorem runIn_ofCalls
    (calls : Calls) (w : Unit) (m : Machine) (p : Program) :
    runIn (.ofCalls calls) (w, m) p = (m.run calls p).map fun m => (w, m) := by
  induction p generalizing m with
  | nil => rfl
  | cons i p ih =>
      rw [runIn, List.foldlM_cons, stepIn_ofCalls, run_cons]
      cases m.step calls i with
      | none => rfl
      | some m' => exact ih m'

/-- Folding negations into names changes no run of the machine alone. -/
theorem run_folded
    (calls : Calls) (m : Machine) (p : Program) :
    m.run calls p.folded = m.run calls p := by
  have h : runIn (.ofCalls calls) ((), m) p.folded = runIn (.ofCalls calls) ((), m) p :=
    runIn_folded _ p
  rw [runIn_ofCalls, runIn_ofCalls] at h
  exact Option.map_injective (fun _ _ hm => congrArg Prod.snd hm) h

/-- **Folding negations into names preserves the meaning of every program.**  A leading `/`
inverts the rest of a name, when it is read and when it is written.  In every plant and from every
state, a program and its folded form both find an operand missing, or both end with the same
variables, the same stack and the same state of the plant. -/
theorem folded_same_outcome :
    (∀ (σ : Store) (name : String), σ.get ("/" ++ name) = !σ.get name) ∧
    (∀ (σ : Store) (name : String) (v : Bool), σ.set ("/" ++ name) v = σ.set name (!v)) ∧
    ∀ {ω : Type} (plant : Plant ω) (w : ω) (σ : Store) (stack : List Bool) (p : Program),
      (runIn plant (w, ⟨σ, stack⟩) p = none ∧ runIn plant (w, ⟨σ, stack⟩) p.folded = none) ∨
      ∃ w' σ' stack',
        runIn plant (w, ⟨σ, stack⟩) p = some (w', ⟨σ', stack'⟩) ∧
        runIn plant (w, ⟨σ, stack⟩) p.folded = some (w', ⟨σ', stack'⟩) := by
  refine ⟨Store.get_mark, Store.set_mark, fun plant w σ stack p => ?_⟩
  rw [runIn_folded]
  cases runIn plant (w, ⟨σ, stack⟩) p with
  | none => exact Or.inl ⟨rfl, rfl⟩
  | some s =>
      obtain ⟨w', σ', stack'⟩ := s
      exact Or.inr ⟨w', σ', stack', rfl, rfl⟩

end Runs

end Machine
end RelayLadder
