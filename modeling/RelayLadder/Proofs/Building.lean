import RelayLadder.Proofs.Machine.Postfix
import RelayLadder.Proofs.Rewriting

/-!
# Building coils from a stream

A receiver that builds keeps operands on a stack and hands each completed coil on.
This module follows it one signal at a time.

**Programs of coils.**  `Receiver.collect` keeps the coils that are handed on.  A program
in which every `write` finds one operand can be told from the coils that are kept: it
is their programs, one after the other (`building_send_iff`).

**Refusals.**  `Receiver.follow` goes on after a refusal and notes what is answered to
every signal.  A receiver that keeps its state when it refuses a signal answers the
others as if it had not been told that signal (`follow_filter`).  One that builds does so
for every instruction that lacks operands.

**Results.**
* `Receiver.building_send_iff`: which programs are built, and from which coils.
* `Receiver.building_without_shortages`: instructions that lack operands can be left out,
  and a program that ends with operands left is forgotten.
-/

namespace RelayLadder

open Operands (build)

section Programs

theorem Expr.write_notMem_program
    (e : Expr) (name : String) :
    .write name ∉ e.program := by
  induction e with
  | contact _ => simp [program]
  | call _ => simp [program]
  | not operand ih => simp [program, ih]
  | and left right ihl ihr => simp [program, ihl, ihr]
  | or left right ihl ihr => simp [program, ihl, ihr]

/-- In the program of a coil, only the value stands before the `write`. -/
theorem Coil.program_eq_append_iff
    {c : Coil} {before rest tail : Program} {name : String} :
    before ++ .write name :: rest = c.program ++ tail ↔
      (before = c.value.program ∧ name = c.name ∧ rest = tail) ∨
        ∃ between, before = c.program ++ between ∧ tail = between ++ .write name :: rest := by
  have hassoc : c.program ++ tail = c.value.program ++ .write c.name :: tail := by
    simp [program]
  rw [hassoc, List.append_eq_append_iff]
  constructor
  · rintro (⟨value, hvalue, htail⟩ | ⟨behind, rfl, htail⟩)
    · -- The `write` stands behind the value, for there is none in it.
      cases value with
      | nil =>
          cases htail
          exact Or.inl ⟨by simpa using hvalue.symm, rfl, rfl⟩
      | cons i value =>
          cases htail
          refine absurd ?_ (c.value.write_notMem_program name)
          rw [hvalue]
          simp
    · cases behind with
      | nil =>
          cases htail
          exact Or.inl ⟨by simp, rfl, rfl⟩
      | cons i behind =>
          cases htail
          exact Or.inr ⟨behind, by simp [program], rfl⟩
  · rintro (⟨rfl, rfl, rfl⟩ | ⟨between, rfl, rfl⟩)
    · exact Or.inl ⟨[], by simp, rfl⟩
    · exact Or.inr ⟨.write c.name :: between, by simp [program], rfl⟩

/-- In the programs of coils no operand waits across a coil. -/
theorem alone_flatMap_program
    (cs : List Coil) :
    Alone (cs.flatMap Coil.program) := by
  rintro q name ⟨rest, hrest⟩ stack built hbuild
  rw [List.append_assoc] at hrest
  induction cs generalizing q built with
  | nil => simp at hrest
  | cons c cs ih =>
      rcases Coil.program_eq_append_iff.mp hrest with ⟨rfl, -, -⟩ | ⟨between, rfl, htail⟩
      · rw [Operands.build_program] at hbuild
        cases hbuild
        rfl
      · obtain ⟨stack', _, others, hc, hbetween, -⟩ := Operands.build_append_eq_ok_iff.mp hbuild
        rw [Operands.build_coil] at hc
        cases hc
        exact ih between htail.symm others hbetween

end Programs

namespace Receiver

section Collecting

variable {σ : Type} {accept : Coil → EStateM Stop σ Unit} {stack left : List Expr} {p : Program}
  {cs : List Coil} {s s' : σ}

/-- Keeps the coils in the order in which they are handed on. -/
def collect (c : Coil) : EStateM Stop (List Coil) Unit :=
  modify (· ++ [c])

theorem run_forM_cons_of_ok
    {α : Type} {act : α → EStateM Stop σ Unit} {a : α}
    (h : (act a).run s = .ok () s') (l : List α) :
    ((a :: l).forM act).run s = (l.forM act).run s' := by
  change (act a >>= fun _ => l.forM act).run s = _
  rw [run_bind, h]

theorem run_forM_collect
    (cs log : List Coil) :
    (cs.forM collect).run log = .ok () (log ++ cs) := by
  induction cs generalizing log with
  | nil => simp [EStateM.run, pure, EStateM.pure]
  | cons c cs ih =>
      have hcollect : (collect c).run log = .ok () (log ++ [c]) := rfl
      rw [run_forM_cons_of_ok hcollect, ih, List.append_assoc]
      rfl

theorem run_onSecond_of_ok
    {ρ : Type} {act : EStateM Stop σ Unit}
    (h : act.run s = .ok () s') (first : ρ) :
    (onSecond act).run (first, s) = .ok () (first, s') := by
  simp only [EStateM.run, onSecond] at h ⊢
  rw [h]

/-- The coils of a program that is built are accepted one after the other. -/
theorem run_building_pushes
    (hbuild : build stack p = .ok (left, cs)) (haccept : (cs.forM accept).run s = .ok () s') :
    (p.forM (building accept).push).run (stack, s) = .ok () (left, s') := by
  induction p generalizing stack cs s with
  | nil =>
      cases hbuild
      cases haccept
      rfl
  | cons i p ih =>
      obtain ⟨stack', coil, others, hstep, hrest, rfl⟩ := Operands.build_cons_eq_ok_iff.mp hbuild
      have happend : (coil.toList ++ others).forM accept =
          coil.toList.forM accept >>= fun _ => others.forM accept :=
        List.forM_append
      rw [happend, run_bind] at haccept
      cases hcoil : (coil.toList.forM accept).run s with
      | error stop s₁ =>
          rw [hcoil] at haccept
          cases haccept
      | ok u s₁ =>
          rw [hcoil] at haccept
          have hpush : ((building accept).push i).run (stack, s) = .ok () (stack', s₁) := by
            rw [run_building_push, hstep]
            exact run_onSecond_of_ok hcoil stack'
          rw [run_forM_cons_of_ok hpush]
          exact ih hrest haccept

/-- The programs of coils are built from them, whatever accepts them. -/
theorem run_building_programs
    (haccept : (cs.forM accept).run s = .ok () s') :
    ((building accept).send (cs.flatMap Coil.program)).run ([], s) = .ok () ([], s') := by
  have hbuild := Operands.coils_eq_ok_iff.mp (Operands.coils_flatMap_program cs)
  rw [send, run_bind, run_building_pushes hbuild haccept]
  rfl

/-- What is kept of a program that is accepted are its coils. -/
theorem coils_of_outcome_send
    (h : outcome Prod.snd (((building collect).send p).run ([], [])) = .ok cs) :
    Operands.coils [] p = .ok cs := by
  rw [outcome_building_send, run_forM_collect, List.nil_append] at h
  cases hcoils : Operands.coils [] p with
  | error cause =>
      rw [hcoils] at h
      cases h
  | ok cs' =>
      rw [hcoils, Operands.completed_eq_of_coils hcoils] at h
      cases h
      rfl

/-- **Building undoes postfix order.**  A receiver that builds hands on exactly the given coils, and
finds one operand at every `write`, just in case it is sent their programs, one after the
other. -/
theorem building_send_iff
    (p : Program) (cs : List Coil) :
    (outcome Prod.snd (((building collect).send p).run ([], [])) = .ok cs ∧
      ∀ before name rest, p = before ++ .write name :: rest →
        ∃ e log, (before.forM (building collect).push).run ([], []) = .ok () ([e], log)) ↔
      p = cs.flatMap Coil.program := by
  constructor
  · rintro ⟨hsend, hone⟩
    have halone : Alone p := by
      rintro q name ⟨rest, hrest⟩ stack log hbuild
      obtain ⟨e, log', hrun⟩ := hone q name rest (by rw [← hrest]; simp)
      rw [run_building_pushes hbuild (run_forM_collect log [])] at hrun
      cases hrun
      rfl
    have hbuild := Operands.coils_eq_ok_iff.mp (coils_of_outcome_send hsend)
    simpa using eq_flatMap_program_of_alone halone hbuild
  · rintro rfl
    refine ⟨by rw [run_building_programs (run_forM_collect cs [])]; rfl, ?_⟩
    intro before name rest hp
    have hbuild := Operands.coils_eq_ok_iff.mp (Operands.coils_flatMap_program cs)
    rw [hp] at hbuild
    obtain ⟨stack, log, -, hbefore, -, -⟩ := Operands.build_append_eq_ok_iff.mp hbuild
    have hlength := alone_flatMap_program cs before name ⟨rest, by rw [hp]; simp⟩ _ _ hbefore
    obtain ⟨e, rfl⟩ := List.length_eq_one_iff.mp hlength
    exact ⟨e, log, run_building_pushes hbefore (run_forM_collect log [])⟩

end Collecting

section Following

variable {σ : Type}

/-- What a receiver answers to a signal: nothing, or why it refuses it.  Its state goes on in both
cases. -/
def hear (r : Receiver σ) (signal : Signal) (s : σ) : Option Stop × σ :=
  match (r.tell signal).run s with
  | .ok _ s' => (none, s')
  | .error stop s' => (some stop, s')

/-- The answers to signals in order, each with the signal, and the state after the last one. -/
def follow (r : Receiver σ) : List Signal → σ → List (Signal × Option Stop) × σ
  | [], s => ([], s)
  | signal :: rest, s =>
    let (answer, s) := r.hear signal s
    let (answers, s) := follow r rest s
    ((signal, answer) :: answers, s)

theorem follow_cons
    (r : Receiver σ) (signal : Signal) (rest : List Signal) (s : σ) :
    r.follow (signal :: rest) s =
      ((signal, (r.hear signal s).1) :: (r.follow rest (r.hear signal s).2).1,
        (r.follow rest (r.hear signal s).2).2) :=
  rfl

/-- Signals that leave the state as it was can be left out.  The others are answered as before, and
the state at the end is the same. -/
theorem follow_filter
    {r : Receiver σ} {idle : Signal × Option Stop → Bool}
    (hidle : ∀ signal s, idle (signal, (r.hear signal s).1) = true → (r.hear signal s).2 = s)
    {signals : List Signal} {s final : σ} {answers : List (Signal × Option Stop)}
    (h : r.follow signals s = (answers, final)) :
    r.follow ((answers.filter (!idle ·)).map Prod.fst) s = (answers.filter (!idle ·), final) := by
  induction signals generalizing s answers with
  | nil =>
      cases h
      rfl
  | cons signal rest ih =>
      rw [follow_cons] at h
      cases h
      by_cases hsignal : idle (signal, (r.hear signal s).1) = true
      · have hrest := @ih (r.hear signal s).2 _ rfl
        rw [hidle signal s hsignal] at hrest
        simpa [hsignal, hidle signal s hsignal] using hrest
      · simp only [hsignal, List.filter_cons, Bool.not_false, if_true, List.map_cons, follow_cons,
          @ih (r.hear signal s).2 _ rfl]

end Following

section Shortages

variable {σ : Type} {accept : Coil → EStateM Stop σ Unit}

/-- The answer refuses an instruction that lacks operands. -/
def isShortage : Signal × Option Stop → Bool
  | (.push _, some (.fault (.underflow _ _ _))) => true
  | _ => false

/-- Where every coil is accepted, coils in order are. -/
theorem exists_run_forM
    (haccept : ∀ c s, ∃ s', (accept c).run s = .ok () s') (cs : List Coil) (s : σ) :
    ∃ s', (cs.forM accept).run s = .ok () s' := by
  induction cs generalizing s with
  | nil => exact ⟨s, rfl⟩
  | cons c cs ih =>
      obtain ⟨s₁, hc⟩ := haccept c s
      obtain ⟨s', hcs⟩ := ih s₁
      exact ⟨s', (run_forM_cons_of_ok hc cs).trans hcs⟩

/-- Where every coil is accepted, an instruction is accepted or leaves everything as it was. -/
theorem hear_building_push
    (haccept : ∀ c s, ∃ s', (accept c).run s = .ok () s') (i : Instruction)
    (state : List Expr × σ) :
    ((building accept).hear (.push i) state).1 = none ∨
      ((building accept).hear (.push i) state).2 = state := by
  obtain ⟨stack, s⟩ := state
  rw [hear, tell, run_building_push]
  cases Operands.step stack i with
  | error cause => exact Or.inr rfl
  | ok next =>
      obtain ⟨s', hs'⟩ := exists_run_forM haccept next.2.toList s
      left
      simp only [run_onSecond_of_ok hs' next.1]

/-- Operands that are left at the end of a program are dropped. -/
theorem hear_building_finish
    {state : List Expr × σ} {stop : Stop}
    (h : ((building accept).hear .finish state).1 = some stop) :
    ((building accept).hear .finish state).2 = ([], state.2) := by
  obtain ⟨stack, s⟩ := state
  cases stack with
  | nil => cases h
  | cons e stack => rfl

/-- **An instruction that lacks operands leaves no trace.**  Let signals be told to a receiver that
builds, also after refusals.  When the instructions that lacked operands are left out, the other
signals are answered as before, and the operands and what was made of the coils are the same at the
end.  After a program that ends with operands left, the receiver goes on like a new one. -/
theorem building_without_shortages
    (haccept : ∀ c s, ∃ s', (accept c).run s = .ok () s')
    {signals : List Signal} {state final : List Expr × σ} {answers : List (Signal × Option Stop)}
    (h : (building accept).follow signals state = (answers, final)) :
    (building accept).follow ((answers.filter (!isShortage ·)).map Prod.fst) state =
      (answers.filter (!isShortage ·), final) ∧
    ∀ n, ((building accept).hear .finish final).1 = some (.fault (.danglingOperands n)) →
      ∀ later, (building accept).follow later ((building accept).hear .finish final).2 =
        (building accept).follow later ([], final.2) := by
  refine ⟨follow_filter ?_ h, ?_⟩
  · intro signal s hshortage
    cases signal with
    | finish => cases hshortage
    | push i =>
        rcases hear_building_push haccept i s with hnone | hsame
        · rw [hnone] at hshortage
          cases hshortage
        · exact hsame
  · intro n hleft later
    rw [hear_building_finish hleft]

/-- Behind a coil, two instructions lack operands.  Without them the receiver has the same two
operands, which are dropped at the end. -/
theorem building_without_shortages_collected :
    (building collect).follow
        [.push (.read "A"), .push (.write "X"), .push (.write "Y"), .push (.read "B"),
          .push .conj, .push (.read "C")] ([], []) =
      ([(.push (.read "A"), none), (.push (.write "X"), none),
          (.push (.write "Y"), some (.fault (.underflow "out" 1 0))), (.push (.read "B"), none),
          (.push .conj, some (.fault (.underflow "and" 2 1))), (.push (.read "C"), none)],
        ([.contact "C", .contact "B"], [⟨"X", .contact "A"⟩])) ∧
    (building collect).follow
        [.push (.read "A"), .push (.write "X"), .push (.read "B"), .push (.read "C")] ([], []) =
      ([(.push (.read "A"), none), (.push (.write "X"), none), (.push (.read "B"), none),
          (.push (.read "C"), none)],
        ([.contact "C", .contact "B"], [⟨"X", .contact "A"⟩])) ∧
    ∀ later, (building collect).follow later
        ((building collect).hear .finish
          ([.contact "C", .contact "B"], [⟨"X", .contact "A"⟩])).2 =
      (building collect).follow later ([], [⟨"X", .contact "A"⟩]) := by
  have hcollect : ∀ c s, ∃ s', (collect c).run s = .ok () s' := fun c s => ⟨s ++ [c], rfl⟩
  refine (and_iff_left_of_imp fun hheard => ?_).mpr rfl
  obtain ⟨hkept, hfinish⟩ := building_without_shortages hcollect hheard
  exact ⟨hkept, hfinish 2 rfl⟩

end Shortages

end Receiver

end RelayLadder
