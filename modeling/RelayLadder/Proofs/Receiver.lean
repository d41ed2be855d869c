import RelayLadder.Proofs.Negation
import RelayLadder.Proofs.Operands
import RelayLadder.Schematic

/-!
# Drawing a stream of instructions

A receiver works one instruction at a time.  What it does with a whole program can be
said stage by stage, whether the program is accepted or refused.

**Stages.**  A receiver that folds does with a program what the receiver behind it does
with the folded program.  A receiver that builds hands out the coils that are completed
before the program ends or is refused, and a refusal of one of them comes first.

**Results.**
* `run_folding_send`, `outcome_building_send`: what one stage does with a whole program.
* `decompile_eq`: a program is drawn by drawing the completed coils, and then looking
  for a fault of the operands.
* `decompile_eq_ok_iff`: a program is drawn exactly when it has coils and these are
  drawn, and the schematic is theirs.
-/

namespace RelayLadder

namespace Operands

section Completed

/-- The coils that a program completes before it ends or is refused. -/
def completed (stack : List Expr) : Program → List Coil
  | [] => []
  | i :: rest =>
    match step stack i with
    | .error _ => []
    | .ok (stack, coil) => coil.toList ++ completed stack rest

variable {stack stack' : List Expr} {i : Instruction} {coil : Option Coil} {cause : Fault}

theorem completed_cons_of_error
    (h : step stack i = .error cause) (p : Program) :
    completed stack (i :: p) = [] := by
  rw [completed, h]

theorem completed_cons_of_ok
    (h : step stack i = .ok (stack', coil)) (p : Program) :
    completed stack (i :: p) = coil.toList ++ completed stack' p := by
  rw [completed, h]

theorem coils_cons_of_error
    (h : step stack i = .error cause) (p : Program) :
    coils stack (i :: p) = .error cause := by
  rw [coils, h]
  rfl

theorem coils_cons_of_ok
    (h : step stack i = .ok (stack', coil)) (p : Program) :
    coils stack (i :: p) = (coils stack' p).map (coil.toList ++ ·) := by
  rw [coils, h]
  change (coils stack' p >>= _) = _
  cases coils stack' p with
  | error cause => rfl
  | ok others => rfl

theorem completed_eq_of_coils
    {p : Program} {cs : List Coil}
    (h : coils stack p = .ok cs) :
    completed stack p = cs := by
  induction p generalizing stack cs with
  | nil =>
      cases stack with
      | nil =>
          cases h
          rfl
      | cons e stack => cases h
  | cons i p ih =>
      obtain ⟨stack', coil, others, hstep, hothers, rfl⟩ := coils_cons_eq_ok_iff.mp h
      rw [completed_cons_of_ok hstep, ih hothers]

end Completed

end Operands

namespace Receiver

section Runs

variable {σ τ α β : Type}

theorem run_bind
    (act : EStateM Stop σ α) (next : α → EStateM Stop σ β) (s : σ) :
    (act >>= next).run s =
      match act.run s with
      | .ok a s' => (next a).run s'
      | .error stop s' => .error stop s' := by
  simp only [EStateM.run, Bind.bind, EStateM.bind]
  cases act s with
  | ok a s' => rfl
  | error stop s' => rfl

theorem onSecond_bind
    (act : EStateM Stop τ α) (next : α → EStateM Stop τ β) :
    (onSecond (act >>= next) : EStateM Stop (σ × τ) β) =
      onSecond act >>= fun a => onSecond (next a) := by
  funext s
  obtain ⟨s, t⟩ := s
  simp only [onSecond, Bind.bind, EStateM.bind]
  cases act t with
  | ok a t' => rfl
  | error stop t' => rfl

theorem send_append
    (r : Receiver σ) (p q : Program) :
    r.send (p ++ q) = p.forM r.push >>= fun _ => r.send q := by
  have happend : (p ++ q).forM r.push = p.forM r.push >>= fun _ => q.forM r.push :=
    List.forM_append
  rw [send, happend, bind_assoc]
  rfl

theorem send_cons
    (r : Receiver σ) (i : Instruction) (p : Program) :
    r.send (i :: p) = r.push i >>= fun _ => r.send p := by
  change (r.push i >>= fun _ => p.forM r.push) >>= (fun _ => r.finish) = _
  rw [bind_assoc]
  rfl

end Runs

section Folding

variable {τ : Type} {r : Receiver τ}

/-- A whole program is sent on as it is folded, and nothing is held back after it. -/
theorem run_folding_send
    (held : Option Instruction) (t : τ) (p : Program) :
    ((folding r).send p).run (held, t) =
      (onSecond (r.send (Folding.run held p))).run (none, t) := by
  induction p generalizing held t with
  | nil =>
      change (onSecond (held.toList.forM r.push) >>= fun _ => onSecond r.finish).run (none, t) = _
      rw [← onSecond_bind]
      rfl
  | cons i p ih =>
      have hpush : ((folding r).push i).run (held, t) =
          (onSecond ((Folding.step held i).1.forM r.push) >>= fun _ =>
            setFirst (Folding.step held i).2).run (none, t) :=
        rfl
      rw [send_cons, run_bind, hpush, run_bind, Folding.run_cons, send_append, onSecond_bind,
        run_bind]
      simp only [EStateM.run, onSecond]
      cases (Folding.step held i).1.forM r.push t with
      | error stop t' => rfl
      | ok u t' => exact ih _ t'

end Folding

section Building

variable {σ τ : Type} {accept : Coil → EStateM Stop σ Unit}

/-- What is left of a run: the part of the state that is looked at, or the stop. -/
def outcome (view : σ → τ) : EStateM.Result Stop σ Unit → Except Stop τ
  | .ok _ s => .ok (view s)
  | .error stop _ => .error stop

/-- One instruction is refused, or the coil that it completes is accepted. -/
theorem run_building_push
    (stack : List Expr) (i : Instruction) (c : σ) :
    ((building accept).push i).run (stack, c) =
      match Operands.step stack i with
      | .error cause => .error (.fault cause) (stack, c)
      | .ok (stack', coil) => (onSecond (coil.toList.forM accept)).run (stack', c) := by
  change (onFirst (Operands.act i) >>= fun coil => onSecond (coil.toList.forM accept)).run
    (stack, c) = _
  cases hstep : Operands.step stack i with
  | error cause =>
      have hact : Operands.act i stack = .error cause stack := Operands.run_act_of_error hstep
      simp only [EStateM.run, bind, EStateM.bind, onFirst, hact]
  | ok next =>
      have hact : Operands.act i stack = .ok next.2 next.1 := Operands.run_act_of_ok hstep
      simp only [EStateM.run, bind, EStateM.bind, onFirst, hact]

/-- The completed coils are accepted in order, and then a fault of the operands is reported. -/
theorem outcome_building_send
    (stack : List Expr) (c : σ) (p : Program) :
    outcome Prod.snd (((building accept).send p).run (stack, c)) = (do
      let c' ← outcome id (((Operands.completed stack p).forM accept).run c)
      let _ ← (Operands.coils stack p).mapError Stop.fault
      return c') := by
  induction p generalizing stack c with
  | nil =>
      cases stack with
      | nil => rfl
      | cons e stack => rfl
  | cons i p ih =>
      rw [send_cons, run_bind, run_building_push]
      cases hstep : Operands.step stack i with
      | error cause =>
          rw [Operands.completed_cons_of_error hstep, Operands.coils_cons_of_error hstep]
          rfl
      | ok next =>
          obtain ⟨stack', coil⟩ := next
          have happend : (coil.toList ++ Operands.completed stack' p).forM accept =
              coil.toList.forM accept >>= fun _ => (Operands.completed stack' p).forM accept :=
            List.forM_append
          rw [Operands.completed_cons_of_ok hstep, Operands.coils_cons_of_ok hstep, happend,
            run_bind]
          simp only [EStateM.run, onSecond]
          cases coil.toList.forM accept c with
          | error stop c' => rfl
          | ok u c' =>
              refine (ih stack' c').trans ?_
              cases Operands.coils stack' p with
              | error cause => rfl
              | ok others => rfl

end Building

end Receiver

section Decompile

open Receiver (outcome)

theorem Schematic.ofResult_eq
    {σ : Type} (canvas : σ → Canvas) (x : EStateM.Result Stop σ Unit) :
    ofResult canvas x = outcome canvas x >>= Canvas.finish := by
  cases x with
  | ok u s => rfl
  | error stop s => rfl

/-- The completed coils are drawn, and then a fault of the operands is reported. -/
theorem decompile_eq
    (p : Program) (width : Nat) :
    decompile p width = (do
      let c ← outcome id
        (((Operands.completed [] p.folded).forM Drawing.coil).run (.blank width))
      let _ ← (Coil.ofProgram p).mapError Stop.fault
      c.finish) := by
  have hfold : outcome Schematic.Stream.canvas
      ((Schematic.Stream.receiver.send p).run (.start width)) =
        outcome Prod.snd
          (((Receiver.building Drawing.coil).send p.folded).run ([], .blank width)) := by
    rw [Schematic.Stream.receiver, Schematic.Stream.start, Receiver.run_folding_send,
      ← Program.folded]
    simp only [EStateM.run, Receiver.onSecond]
    cases (Receiver.building Drawing.coil).send p.folded ([], .blank width) with
    | ok u s => rfl
    | error stop s => rfl
  rw [decompile, Schematic.ofResult_eq, hfold, Receiver.outcome_building_send, ← Coil.ofProgram]
  cases outcome id (((Operands.completed [] p.folded).forM Drawing.coil).run (.blank width)) with
  | error stop => rfl
  | ok c =>
      cases Coil.ofProgram p with
      | error cause => rfl
      | ok cs => rfl

theorem decompile_of_ok
    {p : Program} {cs : List Coil}
    (h : Coil.ofProgram p = .ok cs) (width : Nat) :
    decompile p width = Schematic.ofCoils cs width := by
  rw [decompile_eq, h, Operands.completed_eq_of_coils h, Schematic.ofCoils, Schematic.ofResult_eq]
  cases outcome id ((cs.forM Drawing.coil).run (.blank width)) with
  | error stop => rfl
  | ok c => rfl

/-- A program is drawn exactly when it has coils and these are drawn. -/
theorem decompile_eq_ok_iff
    {p : Program} {width : Nat} {text : String} :
    decompile p width = .ok text ↔
      ∃ cs, Coil.ofProgram p = .ok cs ∧ Schematic.ofCoils cs width = .ok text := by
  cases h : Coil.ofProgram p with
  | ok cs =>
      rw [decompile_of_ok h]
      simp
  | error cause =>
      rw [decompile_eq, h]
      cases outcome id
          (((Operands.completed [] p.folded).forM Drawing.coil).run (.blank width)) with
      | error stop => simp [Bind.bind, Except.bind]
      | ok c => simp [Bind.bind, Except.bind, Except.mapError]

end Decompile

end RelayLadder
