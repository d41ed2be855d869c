import Mathlib.Data.List.Infix
import RelayLadder.Proofs.Receiver

/-!
# Folding a stream by rewriting

A receiver that folds sees one signal at a time, an instruction or the end of the
program, and may be told of further programs after the end of one.

**Rewriting.**  `Program.rewritten` goes through a program from the left.  Where a
negation stands behind a contact or before a coil, the two become one instruction;
any other instruction stays.  What was written is not looked at again.

**Transcripts.**  Every list of signals consists of programs that were finished and of
one that goes on (`Signal.exists_transcript`).

**Results.**
* `Program.folded_eq_rewritten`: folding a program is rewriting it.
* `Program.rewritten_eq_self_iff`: which programs are not changed by it.
* `folding_eq_rewriting`: what reaches the receiver behind one that folds, and what is
  held back.
-/

namespace RelayLadder

section Rewriting

/-- The program rewritten from the left: a negation goes into the name next to it. -/
def Program.rewritten : Program → Program
  | [] => []
  | .read name :: .invert :: rest => .read (toggle name) :: rewritten rest
  | .invert :: .write name :: rest => .write (toggle name) :: rewritten rest
  | i :: rest => i :: rewritten rest

theorem Folding.run_none_eq_rewritten
    (p : Program) :
    run none p = p.rewritten := by
  fun_induction Program.rewritten p with
  | case1 => rfl
  | case2 name rest ih => rw [run_read_invert, ih]
  | case3 name rest ih => rw [run_invert_write, ih]
  | case4 i rest hread hwrite ih =>
      have hheld : ∀ name, i = .read name → rest.head? ≠ some .invert := by
        intro name hi hhead
        obtain ⟨rest', rfl⟩ := List.head?_eq_some_iff.mp hhead
        exact hread name rest' hi rfl
      have hnext : i = .invert → ∀ name, rest.head? ≠ some (.write name) := by
        intro hi name hhead
        obtain ⟨rest', rfl⟩ := List.head?_eq_some_iff.mp hhead
        exact hwrite name rest' hi rfl
      rw [run_cons_of_settled hheld hnext, ih]

/-- **Folding a program is rewriting it from the left.** -/
theorem Program.folded_eq_rewritten
    (p : Program) :
    p.folded = p.rewritten :=
  Folding.run_none_eq_rewritten p

theorem Program.length_rewritten_le
    (p : Program) :
    p.rewritten.length ≤ p.length := by
  fun_induction Program.rewritten p with
  | case1 => exact le_rfl
  | case2 name rest ih => simp only [List.length_cons]; omega
  | case3 name rest ih => simp only [List.length_cons]; omega
  | case4 i rest hread hwrite ih => simp only [List.length_cons]; omega

/-- Where two instructions became one, the program is shorter. -/
theorem Program.cons_rewritten_ne
    (i j k : Instruction) (rest : Program) :
    i :: rest.rewritten ≠ j :: k :: rest := by
  intro h
  have hlength := congrArg List.length h
  have hrest := Program.length_rewritten_le rest
  simp only [List.length_cons] at hlength
  omega

/-- No negation of the program stands next to a name that it applies to. -/
def Program.Normal (p : Program) : Prop :=
  ∀ name, ¬ [.read name, .invert] <:+: p ∧ ¬ [.invert, .write name] <:+: p

theorem Program.Normal.tail
    {i : Instruction} {rest : Program}
    (h : Program.Normal (i :: rest)) :
    Program.Normal rest := fun name =>
  ⟨fun hin => (h name).1 (List.infix_cons hin), fun hin => (h name).2 (List.infix_cons hin)⟩

/-- Rewriting leaves a program as it is exactly if there is nothing to rewrite. -/
theorem Program.rewritten_eq_self_iff
    (p : Program) :
    p.rewritten = p ↔ p.Normal := by
  fun_induction Program.rewritten p with
  | case1 => simp [Program.Normal]
  | case2 name rest ih =>
      refine iff_of_false (Program.cons_rewritten_ne _ _ _ rest) fun h => ?_
      exact (h name).1 ⟨[], rest, rfl⟩
  | case3 name rest ih =>
      refine iff_of_false (Program.cons_rewritten_ne _ _ _ rest) fun h => ?_
      exact (h name).2 ⟨[], rest, rfl⟩
  | case4 i rest hread hwrite ih =>
      rw [List.cons.injEq, ih]
      refine ⟨?_, fun h => ⟨rfl, h.tail⟩⟩
      rintro ⟨-, h⟩ name
      constructor
      · intro hin
        rcases List.infix_cons_iff.mp hin with ⟨rest', hpre⟩ | hin
        · cases hpre
          exact hread name rest' rfl rfl
        · exact (h name).1 hin
      · intro hin
        rcases List.infix_cons_iff.mp hin with ⟨rest', hpre⟩ | hin
        · cases hpre
          exact hwrite name rest' rfl rfl
        · exact (h name).2 hin

end Rewriting

section Signals

/-- What a receiver is told: the next instruction, or the end of the program. -/
inductive Signal
  | push (i : Instruction)
  | finish
  deriving DecidableEq, Repr

/-- The signals of programs that are finished one after the other, and of one that goes on. -/
def Signal.transcript (finished : List Program) (last : Program) : List Signal :=
  finished.flatMap (fun p => p.map push ++ [finish]) ++ last.map push

theorem Signal.transcript_cons
    (p : Program) (finished : List Program) (last : Program) :
    transcript (p :: finished) last = p.map push ++ [finish] ++ transcript finished last := by
  simp [transcript]

/-- Every list of signals is the transcript of some programs. -/
theorem Signal.exists_transcript
    (signals : List Signal) :
    ∃ finished last, signals = transcript finished last := by
  induction signals with
  | nil => exact ⟨[], [], rfl⟩
  | cons signal signals ih =>
      obtain ⟨finished, last, rfl⟩ := ih
      cases signal with
      | finish => exact ⟨[] :: finished, last, rfl⟩
      | push i =>
          -- The instruction belongs to the first program, finished or not.
          cases finished with
          | nil => exact ⟨[], i :: last, rfl⟩
          | cons p finished => exact ⟨(i :: p) :: finished, last, rfl⟩

end Signals

namespace Receiver

section Takes

variable {σ : Type} {r : Receiver σ} {s s' s'' : σ} {signals signals' : List Signal}

/-- What a receiver does with a signal. -/
def tell (r : Receiver σ) : Signal → EStateM Stop σ Unit
  | .push i => r.push i
  | .finish => r.finish

/-- The receiver accepts all signals, and they take it from the first state to the second. -/
def Takes (r : Receiver σ) (signals : List Signal) (s s' : σ) : Prop :=
  (signals.forM r.tell).run s = .ok () s'

/-- A receiver that refuses no signal. -/
def Accepting (r : Receiver σ) : Prop :=
  ∀ signal s, ∃ s', r.Takes [signal] s s'

theorem takes_nil
    (s : σ) :
    r.Takes [] s s :=
  rfl

theorem takes_append_iff :
    r.Takes (signals ++ signals') s s'' ↔
      ∃ s', r.Takes signals s s' ∧ r.Takes signals' s' s'' := by
  have happend : (signals ++ signals').forM r.tell =
      signals.forM r.tell >>= fun _ => signals'.forM r.tell :=
    List.forM_append
  simp only [Takes]
  rw [happend, run_bind]
  cases (signals.forM r.tell).run s with
  | ok _ s' => simp
  | error stop s' => simp

theorem Takes.append
    (h : r.Takes signals s s') (h' : r.Takes signals' s' s'') :
    r.Takes (signals ++ signals') s s'' :=
  takes_append_iff.mpr ⟨s', h, h'⟩

theorem Accepting.exists_takes
    (hr : r.Accepting) (signals : List Signal) (s : σ) :
    ∃ s', r.Takes signals s s' := by
  induction signals generalizing s with
  | nil => exact ⟨s, takes_nil s⟩
  | cons signal signals ih =>
      obtain ⟨s₁, hsignal⟩ := hr signal s
      obtain ⟨s', hrest⟩ := ih s₁
      exact ⟨s', hsignal.append hrest⟩

end Takes

section Folding

variable {τ : Type} {r : Receiver τ} {held : Option Instruction} {t t' : τ}

/-- A receiver takes instructions by taking each of them. -/
theorem takes_map_push_iff
    {p : Program} :
    r.Takes (p.map .push) t t' ↔ p.forM r.push t = .ok () t' := by
  rw [Takes, List.forM_eq_forM, List.forM_map]
  rfl

/-- One instruction: what it settles is sent on, and the rest is held back. -/
theorem Takes.folding_push
    {i : Instruction}
    (h : r.Takes ((Folding.step held i).1.map .push) t t') :
    (folding r).Takes [.push i] (held, t) ((Folding.step held i).2, t') := by
  change ((onSecond ((Folding.step held i).1.forM r.push) >>= fun _ =>
    setFirst (Folding.step held i).2) >>= fun _ => pure ()).run (none, t) = _
  rw [run_bind, run_bind]
  simp only [EStateM.run, onSecond, takes_map_push_iff.mp h]
  rfl

/-- The end of a program: what was held back is sent on, and then the end is. -/
theorem Takes.folding_finish
    (h : r.Takes (held.toList.map .push ++ [.finish]) t t') :
    (folding r).Takes [.finish] (held, t) (none, t') := by
  obtain ⟨t₁, hheld, hfinish⟩ := takes_append_iff.mp h
  have hend : r.finish t₁ = .ok () t' := by
    rw [← hfinish]
    change _ = (r.finish >>= fun _ => pure ()).run t₁
    rw [bind_pure]
    rfl
  change ((onSecond (held.toList.forM r.push) >>= fun _ => onSecond r.finish) >>= fun _ =>
    pure ()).run (none, t) = _
  rw [run_bind, run_bind]
  simp only [EStateM.run, onSecond, takes_map_push_iff.mp hheld, hend]
  rfl

/-- Of an instruction and the one before it, only the later one can be held back. -/
theorem held_suffix
    (held : Option Instruction) (i : Instruction) :
    (Folding.step held i).2.toList <:+ [i] := by
  rcases Folding.step_cases held i with
    ⟨_, -, -, hstep⟩ | ⟨_, -, -, hstep⟩ | ⟨_, _, -, -, hstep⟩ | hstep
  all_goals
    rw [hstep]
    simp

/-- The instructions of a program that goes on: what is sent on and what is held back is the
folded program so far, and only the last instruction can be held back. -/
theorem exists_sent
    (r : Receiver τ) (held : Option Instruction) (p : Program) :
    ∃ sent held', sent ++ held'.toList = Folding.run held p ∧
      held'.toList <:+ held.toList ++ p ∧
      ∀ t t', r.Takes (sent.map .push) t t' →
        (folding r).Takes (p.map .push) (held, t) (held', t') := by
  induction p generalizing held with
  | nil =>
      refine ⟨[], held, rfl, ?_, ?_⟩
      · rw [List.append_nil]
      · rintro t t' h
        cases h
        exact takes_nil _
  | cons i p ih =>
      obtain ⟨sent, held', hrun, hsuffix, htakes⟩ := ih (Folding.step held i).2
      refine ⟨(Folding.step held i).1 ++ sent, held', ?_, ?_, ?_⟩
      · rw [List.append_assoc, hrun, Folding.run_cons]
      · calc held'.toList
            <:+ (Folding.step held i).2.toList ++ p := hsuffix
          _ <:+ [i] ++ p := List.suffix_append_self_iff.mpr (held_suffix held i)
          _ <:+ held.toList ++ i :: p := List.suffix_append _ _
      · intro t t' h
        rw [List.map_append] at h
        obtain ⟨t₁, hsettled, hsent⟩ := takes_append_iff.mp h
        exact hsettled.folding_push.append (htakes t₁ t' hsent)

/-- A program that is finished is sent on as it is rewritten, and nothing is held back. -/
theorem Takes.folding_program
    {p : Program}
    (h : r.Takes (p.rewritten.map .push ++ [.finish]) t t') :
    (folding r).Takes (p.map .push ++ [.finish]) (none, t) (none, t') := by
  obtain ⟨sent, held, hrun, -, htakes⟩ := exists_sent r none p
  rw [← Folding.run_none_eq_rewritten, ← hrun, List.map_append, List.append_assoc] at h
  obtain ⟨t₁, hsent, hheld⟩ := takes_append_iff.mp h
  exact (htakes t t₁ hsent).append hheld.folding_finish

/-- Each program of a transcript is sent on as it is rewritten. -/
theorem exists_sent_transcript
    (r : Receiver τ) (finished : List Program) (last : Program) :
    ∃ sent held, sent ++ held.toList = last.rewritten ∧ held.toList <:+ last ∧
      ∀ t t', r.Takes (Signal.transcript (finished.map Program.rewritten) sent) t t' →
        (folding r).Takes (Signal.transcript finished last) (none, t) (held, t') := by
  obtain ⟨sent, held, hrun, hsuffix, htakes⟩ := exists_sent r none last
  rw [Folding.run_none_eq_rewritten] at hrun
  refine ⟨sent, held, hrun, hsuffix, ?_⟩
  induction finished with
  | nil => exact htakes
  | cons p finished ih =>
      intro t t' h
      rw [List.map_cons, Signal.transcript_cons] at h
      obtain ⟨t₁, hp, hrest⟩ := takes_append_iff.mp h
      rw [Signal.transcript_cons]
      exact hp.folding_program.append (ih t₁ t' hrest)

end Folding

section Recording

/-- A receiver that keeps the signals in the order in which it is told them. -/
def recorder : Receiver (List Signal) where
  push i := modify (· ++ [.push i])
  finish := modify (· ++ [.finish])

theorem takes_recorder
    (signals log : List Signal) :
    recorder.Takes signals log (log ++ signals) := by
  induction signals generalizing log with
  | nil =>
      rw [List.append_nil]
      exact takes_nil log
  | cons signal signals ih =>
      have hsignal : recorder.Takes [signal] log (log ++ [signal]) := by
        cases signal <;> rfl
      have htakes := hsignal.append (ih (log ++ [signal]))
      rwa [List.append_assoc] at htakes

theorem accepting_recorder :
    recorder.Accepting := fun signal log =>
  ⟨log ++ [signal], takes_recorder [signal] log⟩

end Recording

end Receiver

section Streams

/-- **A stream is folded by rewriting each of its programs from the left.**  Every list of signals
is a transcript of programs.  Behind a receiver that folds, one that refuses nothing is told, for
every program that was finished, the rewritten program and its end; of the program that goes on it
is told all but at most the last instruction, which is held back.  So a program is not changed
exactly if no negation in it stands next to a name that it applies to. -/
theorem folding_eq_rewriting
    {τ : Type} {r : Receiver τ} (hr : r.Accepting) :
    (∀ signals : List Signal, ∃ finished last, signals = Signal.transcript finished last) ∧
    (∀ (finished : List Program) (last : Program) (t : τ), ∃ sent held t',
      (Receiver.folding r).Takes (Signal.transcript finished last) (none, t) (held, t') ∧
      r.Takes (Signal.transcript (finished.map Program.rewritten) sent) t t' ∧
      sent ++ held.toList = last.rewritten ∧
      ∀ i ∈ held, last.getLast? = some i) ∧
    ∀ p : Program, p.folded = p.rewritten ∧
      (p.folded = p ↔
        ∀ name, ¬ [.read name, .invert] <:+: p ∧ ¬ [.invert, .write name] <:+: p) := by
  refine ⟨Signal.exists_transcript, fun finished last t => ?_, fun p => ?_⟩
  · obtain ⟨sent, held, hsent, hsuffix, htakes⟩ :=
      Receiver.exists_sent_transcript r finished last
    obtain ⟨t', ht'⟩ :=
      hr.exists_takes (Signal.transcript (finished.map Program.rewritten) sent) t
    refine ⟨sent, held, t', htakes t t' ht', ht', hsent, ?_⟩
    rintro i rfl
    exact List.singleton_suffix_iff_getLast?_eq_some.mp hsuffix
  · rw [p.folded_eq_rewritten]
    exact ⟨rfl, p.rewritten_eq_self_iff⟩

/-- Two programs that were finished and one that goes on: what was recorded and what is held back
are the rewritten programs.  The contact takes the first of two negations, and the coil the
second one. -/
theorem folding_eq_rewriting_recorded :
    ∃ held log,
      (Receiver.folding Receiver.recorder).Takes
        (Signal.transcript [[.read "A", .invert, .invert, .write "X"], [.invert]]
          [.invert, .read "B"]) (none, []) (held, log) ∧
      log ++ held.toList.map .push =
        [.push (.read "/A"), .push (.write "/X"), .finish, .push .invert, .finish,
          .push .invert, .push (.read "B")] := by
  obtain ⟨sent, held, log, htakes, hlog, hsent, -⟩ :=
    (folding_eq_rewriting Receiver.accepting_recorder).2.1
      [[.read "A", .invert, .invert, .write "X"], [.invert]] [.invert, .read "B"] []
  cases hlog.symm.trans (Receiver.takes_recorder _ [])
  refine ⟨held, _, htakes, ?_⟩
  rw [List.nil_append, Signal.transcript, List.append_assoc, ← List.map_append, hsent]
  rfl

end Streams

end RelayLadder
