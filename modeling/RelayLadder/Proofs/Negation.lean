import Mathlib.Tactic.Common
import RelayLadder.Negation

/-!
# Toggled names and folded programs

What `toggle` does to the characters of a name, and what one step of folding
settles.

**Equations.**  Folding goes through a program from left to right: `read`, `invert`
becomes one `read`, `invert`, `write` becomes one `write`, and every other
instruction stays (`run_read_invert`, `run_invert_write`, `run_cons_of_settled`).

**Meanings.**  A machine on which a toggled name stands for the name and the negation
next to it runs a folded program like the program itself (`foldlM_run`).

**Tame programs.**  In a `Tame` program every `invert` stands behind a `read` or before
a `write`.  Nothing is left of it when the program is folded.
-/

namespace RelayLadder

section Names

/-- The negation mark of a name is removed. -/
theorem toList_toggle_of_mark
    {name : String} {rest : List Char}
    (h : name.toList = '/' :: rest) :
    (toggle name).toList = rest := by
  simp [toggle, h]

/-- A name without a negation mark gets one. -/
theorem toList_toggle_of_plain
    {name : String}
    (h : name.toList.head? ≠ some '/') :
    (toggle name).toList = '/' :: name.toList := by
  rw [toggle]
  split
  · rename_i hmark
    rw [hmark] at h
    exact absurd rfl h
  · exact String.toList_ofList

/-- A name either has a negation mark or gets one. -/
theorem toggle_cases
    (name : String) :
    name.toList = '/' :: (toggle name).toList ∨ (toggle name).toList = '/' :: name.toList := by
  cases hname : name.toList with
  | nil => exact Or.inr (hname ▸ toList_toggle_of_plain (by simp [hname]))
  | cons ch rest =>
      by_cases hch : ch = '/'
      · subst hch
        rw [toList_toggle_of_mark hname]
        exact Or.inl rfl
      · exact Or.inr (hname ▸ toList_toggle_of_plain (by simp [hname, hch]))

end Names

namespace Folding

section Steps

/-- The four things that folding can do with the next instruction. -/
theorem step_cases
    (held : Option Instruction) (next : Instruction) :
    (∃ name, held = some (.read name) ∧ next = .invert ∧
      step held next = ([.read (toggle name)], none)) ∨
    (∃ name, held = some .invert ∧ next = .write name ∧
      step held next = ([.write (toggle name)], none)) ∨
    (∃ i name, held = some i ∧ next = .write name ∧
      step held next = ([i, .write name], none)) ∨
    step held next = (held.toList, some next) := by
  cases held with
  | none =>
      exact Or.inr (Or.inr (Or.inr (by cases next <;> rfl)))
  | some i =>
      cases next with
      | invert =>
          cases i with
          | read name => exact Or.inl ⟨name, rfl, rfl, rfl⟩
          | invert => exact Or.inr (Or.inr (Or.inr rfl))
          | conj => exact Or.inr (Or.inr (Or.inr rfl))
          | disj => exact Or.inr (Or.inr (Or.inr rfl))
          | write _ => exact Or.inr (Or.inr (Or.inr rfl))
          | call _ => exact Or.inr (Or.inr (Or.inr rfl))
      | write name =>
          cases i with
          | invert => exact Or.inr (Or.inl ⟨name, rfl, rfl, rfl⟩)
          | read _ => exact Or.inr (Or.inr (Or.inl ⟨_, name, rfl, rfl, rfl⟩))
          | conj => exact Or.inr (Or.inr (Or.inl ⟨_, name, rfl, rfl, rfl⟩))
          | disj => exact Or.inr (Or.inr (Or.inl ⟨_, name, rfl, rfl, rfl⟩))
          | write _ => exact Or.inr (Or.inr (Or.inl ⟨_, name, rfl, rfl, rfl⟩))
          | call _ => exact Or.inr (Or.inr (Or.inl ⟨_, name, rfl, rfl, rfl⟩))
      | read _ => exact Or.inr (Or.inr (Or.inr (by cases i <;> rfl)))
      | conj => exact Or.inr (Or.inr (Or.inr (by cases i <;> rfl)))
      | disj => exact Or.inr (Or.inr (Or.inr (by cases i <;> rfl)))
      | call _ => exact Or.inr (Or.inr (Or.inr (by cases i <;> rfl)))

theorem run_cons
    (held : Option Instruction) (next : Instruction) (rest : Program) :
    run held (next :: rest) =
      (step held next).1 ++ run (step held next).2 rest :=
  rfl

end Steps

section Equations

variable {i : Instruction} {rest : Program}

theorem run_read_invert
    (name : String) (rest : Program) :
    run none (.read name :: .invert :: rest) = .read (toggle name) :: run none rest :=
  rfl

theorem run_invert_write
    (name : String) (rest : Program) :
    run none (.invert :: .write name :: rest) = .write (toggle name) :: run none rest :=
  rfl

theorem run_none_cons
    (i : Instruction) (rest : Program) :
    run none (i :: rest) = run (some i) rest := by
  cases i <;> rfl

/-- An instruction that is held back stays unless the next one is folded with it. -/
theorem run_some_of_settled
    (hread : ∀ name, i = .read name → rest.head? ≠ some .invert)
    (hinvert : i = .invert → ∀ name, rest.head? ≠ some (.write name)) :
    run (some i) rest = i :: run none rest := by
  induction rest generalizing i with
  | nil => rfl
  | cons next rest ih =>
      rw [run_cons]
      rcases step_cases (some i) next with
        ⟨name, hheld, rfl, -⟩ | ⟨name, hheld, rfl, -⟩ | ⟨held, name, hheld, rfl, hstep⟩ | hstep
      · exact absurd rfl (hread name (Option.some.inj hheld))
      · exact absurd rfl (hinvert (Option.some.inj hheld) name)
      · cases hheld
        have hwrite : run (some (.write name)) rest = .write name :: run none rest :=
          ih (fun _ h => by cases h) (fun h => by cases h)
        rw [hstep, run_none_cons, hwrite]
        rfl
      · rw [hstep, run_none_cons]
        rfl

theorem run_cons_of_settled
    (hread : ∀ name, i = .read name → rest.head? ≠ some .invert)
    (hinvert : i = .invert → ∀ name, rest.head? ≠ some (.write name)) :
    run none (i :: rest) = i :: run none rest := by
  rw [run_none_cons, run_some_of_settled hread hinvert]

end Equations

section Meanings

variable {σ : Type} {m : Type → Type} [Monad m] [LawfulMonad m] {exec : σ → Instruction → m σ}

/-- **Folding changes no run** of a machine on which a toggled name stands for the name and the
negation next to it. -/
theorem foldlM_run
    (hread : ∀ s name, exec s (.read (toggle name)) = exec s (.read name) >>= (exec · .invert))
    (hwrite : ∀ s name, exec s (.write (toggle name)) = exec s .invert >>= (exec · (.write name)))
    (held : Option Instruction) (p : Program) (s : σ) :
    (run held p).foldlM exec s = (held.toList ++ p).foldlM exec s := by
  induction p generalizing held s with
  | nil => rw [run, List.append_nil]
  | cons next rest ih =>
      rw [run_cons, List.foldlM_append]
      simp only [ih]
      rcases step_cases held next with
        ⟨name, rfl, rfl, hstep⟩ | ⟨name, rfl, rfl, hstep⟩ | ⟨i, name, rfl, rfl, hstep⟩ | hstep
      · simp [hstep, hread]
      · simp [hstep, hwrite]
      · simp [hstep]
      · simp [hstep, List.foldlM_append]

end Meanings

section Members

/-- What holds of all instructions, and is kept when a name is toggled, holds of the folded
program. -/
theorem forall_mem_run
    {Q : Instruction → Prop}
    (hread : ∀ name, Q (.read name) → Q (.read (toggle name)))
    (hwrite : ∀ name, Q (.write name) → Q (.write (toggle name)))
    {held : Option Instruction} {p : Program}
    (hheld : ∀ i ∈ held, Q i) (hp : ∀ i ∈ p, Q i) :
    ∀ i ∈ run held p, Q i := by
  induction p generalizing held with
  | nil =>
      intro i hi
      exact hheld i (Option.mem_toList.mp hi)
  | cons next rest ih =>
      have hnext := hp next List.mem_cons_self
      have hrest := fun i hi => hp i (List.mem_cons_of_mem next hi)
      intro i hi
      rw [run_cons] at hi
      rcases step_cases held next with
        ⟨name, rfl, rfl, hstep⟩ | ⟨name, rfl, rfl, hstep⟩ | ⟨held', name, rfl, rfl, hstep⟩ | hstep
      · rw [hstep] at hi
        rcases List.mem_cons.mp hi with rfl | hi
        · exact hread name (hheld _ rfl)
        · exact ih (fun _ h => by cases h) hrest i hi
      · rw [hstep] at hi
        rcases List.mem_cons.mp hi with rfl | hi
        · exact hwrite name hnext
        · exact ih (fun _ h => by cases h) hrest i hi
      · rw [hstep] at hi
        rcases List.mem_cons.mp hi with rfl | hi
        · exact hheld _ rfl
        · rcases List.mem_cons.mp hi with rfl | hi
          · exact hnext
          · exact ih (fun _ h => by cases h) hrest i hi
      · rw [hstep] at hi
        rcases List.mem_append.mp hi with hi | hi
        · exact hheld i (Option.mem_toList.mp hi)
        · exact ih (fun _ h => by cases h; exact hnext) hrest i hi

/-- Every `invert` stands behind a `read` or before a `write`. -/
inductive Tame : Program → Prop
  | nil : Tame []
  | cons {i : Instruction} {p : Program} : i ≠ .invert → Tame p → Tame (i :: p)
  | read {name : String} {p : Program} : Tame p → Tame (.read name :: .invert :: p)
  | write {name : String} {p : Program} : Tame p → Tame (.invert :: .write name :: p)

theorem Tame.append
    {p q : Program}
    (hp : Tame p) (hq : Tame q) :
    Tame (p ++ q) := by
  induction hp with
  | nil => exact hq
  | cons hi _ ih => exact .cons hi ih
  | read _ ih => exact .read ih
  | write _ ih => exact .write ih

/-- No `invert` is left of a tame program. -/
theorem Tame.invert_notMem
    {p : Program} {held : Option Instruction}
    (hp : Tame p) (hheld : held ≠ some .invert) :
    .invert ∉ run held p := by
  induction hp generalizing held with
  | nil =>
      intro hmem
      exact hheld (Option.mem_toList.mp hmem)
  | @cons i p hi _ ih =>
      rw [run_cons]
      rcases step_cases held i with
        ⟨name, -, rfl, -⟩ | ⟨name, rfl, -, -⟩ | ⟨held', name, rfl, rfl, hstep⟩ | hstep
      · exact absurd rfl hi
      · exact absurd rfl hheld
      · rw [hstep]
        have hne : held' ≠ .invert := fun h => hheld (congrArg some h)
        have hrest : .invert ∉ run none p := ih fun h => by cases h
        simp [hne.symm, hrest]
      · rw [hstep]
        have hne : ∀ h, h ∈ held → h ≠ .invert := by
          rintro h rfl rfl
          exact hheld rfl
        intro hmem
        rcases List.mem_append.mp hmem with hmem | hmem
        · exact hne _ (Option.mem_toList.mp hmem) rfl
        · exact ih (fun h => hi (Option.some.inj h)) hmem
  | @read name p _ ih =>
      have hrun : run held (.read name :: .invert :: p) =
          held.toList ++ .read (toggle name) :: run none p := by
        cases held with
        | none => rfl
        | some h => cases h <;> rfl
      intro hmem
      rw [hrun] at hmem
      rcases List.mem_append.mp hmem with hmem | hmem
      · exact hheld (Option.mem_toList.mp hmem)
      · rcases List.mem_cons.mp hmem with hmem | hmem
        · cases hmem
        · exact ih (fun h => by cases h) hmem
  | @write name p _ ih =>
      -- The `invert` goes with a `read` that is held back, or else with the `write`.
      have hrun : (∃ name', run held (.invert :: .write name :: p) =
            .read (toggle name') :: run (some (.write name)) p) ∨
          run held (.invert :: .write name :: p) =
            held.toList ++ .write (toggle name) :: run none p := by
        cases held with
        | none => exact Or.inr rfl
        | some h =>
            cases h with
            | read name' => exact Or.inl ⟨name', rfl⟩
            | invert => exact absurd rfl hheld
            | conj => exact Or.inr rfl
            | disj => exact Or.inr rfl
            | write _ => exact Or.inr rfl
            | call _ => exact Or.inr rfl
      intro hmem
      rcases hrun with ⟨name', hrun⟩ | hrun
      · rw [hrun] at hmem
        rcases List.mem_cons.mp hmem with hmem | hmem
        · cases hmem
        · exact ih (fun h => by cases h) hmem
      · rw [hrun] at hmem
        rcases List.mem_append.mp hmem with hmem | hmem
        · exact hheld (Option.mem_toList.mp hmem)
        · rcases List.mem_cons.mp hmem with hmem | hmem
          · cases hmem
          · exact ih (fun h => by cases h) hmem

end Members

end Folding
end RelayLadder
