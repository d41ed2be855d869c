import Mathlib.Logic.Function.Basic
import Mathlib.Tactic.Common
import RelayLadder.Expr.Basic
import RelayLadder.Proofs.Negation

/-!
# The boolean stack machine

The meaning of programs and of coils over boolean variables.

**Names.**  A leading `/` inverts what the rest of the name stands for, also when
the rest starts with `/` again.  Reading `/n` gives the inverse of `n`, and
writing to `/n` writes the inverse to `n`.

**Calls.**  What a call gives is a parameter.  It may depend on the variables at
the moment of the call.
-/

namespace RelayLadder

/-- The values of the variables. -/
abbrev Store := String → Bool

/-- The result of every call, given the variables. -/
abbrev Calls := Store → List String → Bool

namespace Store

/-- What a name stands for, as a list of characters. -/
def lookup (σ : Store) : List Char → Bool
  | '/' :: rest => !σ.lookup rest
  | name => σ (String.ofList name)

/-- The variables after a value is written to a name. -/
def assign (σ : Store) : List Char → Bool → Store
  | '/' :: rest, v => σ.assign rest (!v)
  | name, v => Function.update σ (String.ofList name) v

/-- What a name stands for. -/
def get (σ : Store) (name : String) : Bool :=
  σ.lookup name.toList

/-- The variables after a value is written to a name. -/
def set (σ : Store) (name : String) (v : Bool) : Store :=
  σ.assign name.toList v

end Store

/-- The variables and the operand stack, top first. -/
@[ext]
structure Machine where
  store : Store
  stack : List Bool

namespace Machine

/-- One instruction.  There is no next state when operands are missing. -/
def step (calls : Calls) : Machine → Instruction → Option Machine
  | ⟨σ, vs⟩, .read name => some ⟨σ, σ.get name :: vs⟩
  | ⟨σ, vs⟩, .call tokens => some ⟨σ, calls σ tokens :: vs⟩
  | ⟨σ, v :: vs⟩, .invert => some ⟨σ, (!v) :: vs⟩
  | ⟨σ, v :: u :: vs⟩, .conj => some ⟨σ, (u && v) :: vs⟩
  | ⟨σ, v :: u :: vs⟩, .disj => some ⟨σ, (u || v) :: vs⟩
  | ⟨σ, v :: vs⟩, .write name => some ⟨σ.set name v, vs⟩
  | _, _ => none

/-- The state after a program, if no operand was ever missing. -/
def run (calls : Calls) (m : Machine) : Program → Option Machine
  | [] => some m
  | i :: p => (m.step calls i).bind fun m => m.run calls p

end Machine

/-- The value of an expression. -/
def Expr.eval (calls : Calls) (σ : Store) : Expr → Bool
  | contact name => σ.get name
  | call tokens => calls σ tokens
  | not operand => !operand.eval calls σ
  | and left right => left.eval calls σ && right.eval calls σ
  | or left right => left.eval calls σ || right.eval calls σ

/-- The variables after a coil is driven by its value. -/
def Coil.drive (calls : Calls) (σ : Store) (c : Coil) : Store :=
  σ.set c.name (c.value.eval calls σ)

/-- The variables after coils in order, each value being computed after the coils before it. -/
def Coil.driveAll (calls : Calls) (σ : Store) (cs : List Coil) : Store :=
  cs.foldl (Coil.drive calls) σ

section Names

theorem Store.get_mark
    (σ : Store) (name : String) :
    σ.get ("/" ++ name) = !σ.get name := by
  have hname : ("/" ++ name).toList = '/' :: name.toList := String.toList_append
  rw [Store.get, hname, Store.lookup, Store.get]

theorem Store.set_mark
    (σ : Store) (name : String) (v : Bool) :
    σ.set ("/" ++ name) v = σ.set name (!v) := by
  have hname : ("/" ++ name).toList = '/' :: name.toList := String.toList_append
  rw [Store.set, hname, Store.assign, Store.set]

theorem Store.get_toggle
    (σ : Store) (name : String) :
    σ.get (toggle name) = !σ.get name := by
  rcases toggle_cases name with hmark | hplain
  · rw [Store.get, Store.get, hmark, Store.lookup, Bool.not_not]
  · rw [Store.get, Store.get, hplain, Store.lookup]

theorem Store.set_toggle
    (σ : Store) (name : String) (v : Bool) :
    σ.set (toggle name) v = σ.set name (!v) := by
  rcases toggle_cases name with hmark | hplain
  · rw [Store.set, Store.set, hmark, Store.assign, Bool.not_not]
  · rw [Store.set, Store.set, hplain, Store.assign]

/-- The variable behind a name: what is left without its negation marks. -/
def Store.variable (name : String) : String :=
  String.ofList (name.toList.dropWhile (· == '/'))

/-- A write changes one variable, and different values change it differently. -/
theorem Store.exists_set_eq_update
    (name : String) :
    ∃ f : Bool → Bool, Function.Injective f ∧
      ∀ (σ : Store) (v : Bool), σ.set name v = Function.update σ (Store.variable name) (f v) := by
  have hassign : ∀ text : List Char, ∃ f : Bool → Bool, Function.Injective f ∧
      ∀ (σ : Store) (v : Bool),
        σ.assign text v =
          Function.update σ (String.ofList (text.dropWhile (· == '/'))) (f v) := by
    intro text
    induction text with
    | nil => exact ⟨id, Function.injective_id, fun σ v => rfl⟩
    | cons ch rest ih =>
        by_cases hch : ch = '/'
        · subst hch
          obtain ⟨f, hf, heq⟩ := ih
          refine ⟨fun v => f (!v), fun u v huv => Bool.not_inj (hf huv), fun σ v => ?_⟩
          rw [Store.assign, heq]
          simp
        · refine ⟨id, Function.injective_id, fun σ v => ?_⟩
          rw [Store.assign]
          · simp [hch]
          · rintro rest' heq
            cases heq
            exact hch rfl
  exact hassign name.toList

/-- Different values leave different variables. -/
theorem Store.set_injective
    (σ : Store) (name : String) {u v : Bool}
    (h : σ.set name u = σ.set name v) :
    u = v := by
  obtain ⟨f, hf, hset⟩ := Store.exists_set_eq_update name
  rw [hset, hset] at h
  apply hf
  simpa using congrFun h (Store.variable name)

end Names

namespace Machine

section Runs

variable {calls : Calls}

@[simp] theorem run_nil
    (m : Machine) :
    m.run calls [] = some m :=
  rfl

@[simp] theorem run_cons
    (m : Machine) (i : Instruction) (p : Program) :
    m.run calls (i :: p) = (m.step calls i).bind fun m => m.run calls p :=
  rfl

theorem run_append
    (m : Machine) (p q : Program) :
    m.run calls (p ++ q) = (m.run calls p).bind fun m => m.run calls q := by
  induction p generalizing m with
  | nil => rfl
  | cons i p ih =>
      rw [List.cons_append, run_cons, run_cons]
      cases m.step calls i with
      | none => rfl
      | some m' => exact ih m'

/-- Reading a negated name is reading and inverting. -/
theorem step_read_toggle
    (m : Machine) (name : String) :
    m.step calls (.read (toggle name)) = m.step calls (.read name) >>= (step calls · .invert) := by
  simp [step, Store.get_toggle]

/-- Writing to a negated name is inverting and writing; both need an operand. -/
theorem step_write_toggle
    (m : Machine) (name : String) :
    m.step calls (.write (toggle name)) =
      m.step calls .invert >>= (step calls · (.write name)) := by
  obtain ⟨σ, vs⟩ := m
  cases vs with
  | nil => rfl
  | cons v vs => simp [step, Store.set_toggle]

end Runs

end Machine
end RelayLadder
