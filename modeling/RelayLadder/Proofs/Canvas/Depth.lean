import RelayLadder.Proofs.Canvas.Operation

/-!
# Nested depths

**Runs.**  `Canvas.steps` records what operations do one after the other: each step is an
operation with the canvas that it was done to.  A step that stops is over, and the next one
goes on with the canvas as it was left.  Any canvas will do, and any position may be gone to.

**Brackets.**  A depth is started and ended by two steps, and the second is handed what the
first gave.  In a matched run every depth that is started is ended, and in a bracketed run
some may still be open at the end.

**Rows.**  A step downward reaches a row, and so does a step that starts a depth.  No other step
counts, wherever the cursor goes by it.

**Results.**
* `Step.deepest_after`: what one step does to the depth.
* `Matched.deepest_afterAll`: to the depth around it, a matched run adds the rows that it
  reaches.
* `Bracketed.exists_opening`: every end of a depth in a bracketed run has its start.
* `answer_closeDepth_of_bracketed`: the end of a depth gives the lowest row reached since its
  start.
-/

namespace RelayLadder
namespace Canvas

section Defs

/-- The canvas that an action leaves, whether it ends or stops. -/
def Action.leaves {α : Type} (act : Action α) (c : Canvas) : Canvas :=
  match act.run c with
  | .ok _ c' => c'
  | .error _ c' => c'

/-- What an action gives, if it ends. -/
def Action.gives? {α : Type} (act : Action α) (c : Canvas) : Option α :=
  match act.run c with
  | .ok a _ => some a
  | .error _ _ => none

/-- An operation, and the canvas that it is done to. -/
structure Step where
  canvas : Canvas
  op : Operation

namespace Step

/-- The canvas after a step. -/
def after (s : Step) : Canvas :=
  s.op.act.leaves s.canvas

/-- The answer of a step, unless it stops. -/
def answer? (s : Step) : Option Answer :=
  s.op.act.gives? s.canvas

/-- The row that a step reaches: the one it goes down to, or the one in which it starts a depth. -/
def reached (s : Step) : List Nat :=
  match s.op with
  | .down => [s.after.row]
  | .newline => [s.after.row]
  | .openDepth => [s.canvas.row]
  | _ => []

/-- The step neither starts nor ends a depth. -/
def IsPlain (s : Step) : Prop :=
  s.op ≠ .openDepth ∧ ∀ outer, s.op ≠ .closeDepth outer

end Step

/-- Operations done to a canvas one after the other. -/
def steps (c : Canvas) : List Operation → List Step
  | [] => []
  | op :: ops => ⟨c, op⟩ :: steps (Step.mk c op).after ops

/-- The canvas after operations. -/
def afterAll (c : Canvas) : List Operation → Canvas
  | [] => c
  | op :: ops => afterAll (Step.mk c op).after ops

/-- Every depth that is started is ended, in the reverse order, and each end is handed what its
start gave. -/
inductive Matched : List Step → Prop
  | nil : Matched []
  | plain {s : Step} {run : List Step} (hs : s.IsPlain) (hrun : Matched run) : Matched (s :: run)
  | nest {first last : Step} {inner rest : List Step} {outer : Nat}
      (hopen : first.op = .openDepth) (houter : first.answer? = some (.depth outer))
      (hinner : Matched inner) (hclose : last.op = .closeDepth outer) (hrest : Matched rest) :
      Matched (first :: (inner ++ last :: rest))

/-- A matched run, but some depths may still be open at its end. -/
inductive Bracketed : List Step → Prop
  | matched {run : List Step} (h : Matched run) : Bracketed run
  | pending {earlier inner : List Step} {first : Step} (hearlier : Bracketed earlier)
      (hopen : first.op = .openDepth) (hinner : Matched inner) :
      Bracketed (earlier ++ first :: inner)

end Defs

section Keeping

variable {α β : Type} {d : Nat} {act : Action α} {next : α → Action β}

/-- The action leaves the depth at `d`, also if it stops. -/
def Action.KeepsDepth (d : Nat) (act : Action α) : Prop :=
  ∀ c : Canvas, c.deepest = d → (act.leaves c).deepest = d

theorem keepsDepth_pure (a : α) : Action.KeepsDepth d (pure a) :=
  fun _ hc => hc

theorem keepsDepth_throw (stop : Stop) : Action.KeepsDepth d (throw stop : Action α) :=
  fun _ hc => hc

theorem keepsDepth_set
    {c' : Canvas}
    (h : c'.deepest = d) :
    Action.KeepsDepth d (set c' : Action PUnit) :=
  fun _ _ => h

theorem keepsDepth_modify
    {f : Canvas → Canvas}
    (h : ∀ c, (f c).deepest = c.deepest) :
    Action.KeepsDepth d (modify f : Action PUnit) :=
  fun c hc => (h c).trans hc

theorem Action.KeepsDepth.bind
    (h : act.KeepsDepth d) (hnext : ∀ a, (next a).KeepsDepth d) :
    Action.KeepsDepth d (act >>= next) := by
  intro c hc
  have hact := h c hc
  rw [leaves] at hact ⊢
  cases hrun : act.run c with
  | ok a c' =>
      rw [hrun] at hact
      rw [run_bind_of_ok hrun]
      exact hnext a c' hact
  | error stop c' =>
      rw [hrun] at hact
      rw [run_bind_of_error hrun]
      exact hact

theorem Action.KeepsDepth.bind_pure
    (h : act.KeepsDepth d) (f : α → β) :
    Action.KeepsDepth d (act >>= fun a => pure (f a)) :=
  h.bind fun a => keepsDepth_pure (f a)

/-- An action that looks at the canvas first. -/
theorem keepsDepth_get_bind
    {next : Canvas → Action β}
    (hnext : ∀ c : Canvas, c.deepest = d → (next c).KeepsDepth d) :
    Action.KeepsDepth d (get >>= next) :=
  fun c hc => hnext c hc c hc

theorem keepsDepth_left : Action.left.KeepsDepth d := by
  refine keepsDepth_get_bind fun c hc => ?_
  split
  · exact keepsDepth_throw _
  · exact keepsDepth_set hc

theorem keepsDepth_rowAt
    (i : Nat) :
    (Action.rowAt i).KeepsDepth d := by
  refine keepsDepth_get_bind fun c _ => ?_
  split
  · exact keepsDepth_pure _
  · exact keepsDepth_throw _

theorem keepsDepth_currentRow : Action.currentRow.KeepsDepth d :=
  keepsDepth_get_bind fun c _ => keepsDepth_rowAt c.row

theorem keepsDepth_gridWidth : Action.gridWidth.KeepsDepth d :=
  (keepsDepth_rowAt 0).bind_pure List.length

theorem keepsDepth_difference
    (m n : Nat) :
    (Action.difference m n).KeepsDepth d := by
  rw [Action.difference]
  split
  · exact keepsDepth_pure _
  · exact keepsDepth_throw _

theorem keepsDepth_reach : Action.reach.KeepsDepth d := by
  refine keepsDepth_gridWidth.bind fun width => keepsDepth_get_bind fun c hc => ?_
  split
  · exact keepsDepth_set hc
  · exact keepsDepth_pure _

theorem keepsDepth_right : Action.right.KeepsDepth d := by
  have hcol : Action.KeepsDepth d (modify fun c : Canvas => { c with col := c.col + 1 }) :=
    keepsDepth_modify fun _ => rfl
  exact hcol.bind fun _ => keepsDepth_reach

theorem keepsDepth_up : Action.up.KeepsDepth d := by
  refine keepsDepth_get_bind fun c hc => ?_
  split
  · exact keepsDepth_throw _
  · exact keepsDepth_set hc

theorem keepsDepth_goto
    (m : Marker) :
    (Action.goto m).KeepsDepth d :=
  keepsDepth_modify fun _ => rfl

theorem keepsDepth_bottom : Action.bottom.KeepsDepth d :=
  keepsDepth_get_bind fun _ _ => (keepsDepth_difference _ 1).bind fun _ =>
    keepsDepth_modify fun _ => rfl

theorem keepsDepth_lineEnd : Action.lineEnd.KeepsDepth d :=
  keepsDepth_gridWidth.bind fun _ => keepsDepth_modify fun _ => rfl

theorem keepsDepth_peek : Action.peek.KeepsDepth d :=
  keepsDepth_currentRow.bind fun _ => keepsDepth_get_bind fun _ _ => keepsDepth_pure _

theorem keepsDepth_setCell
    (ch : Char) :
    (Action.setCell ch).KeepsDepth d := by
  refine keepsDepth_currentRow.bind fun row => keepsDepth_get_bind fun c hc => ?_
  split
  · exact keepsDepth_set hc
  · exact keepsDepth_throw _

theorem keepsDepth_put
    (ch : Char) :
    (Action.put ch).KeepsDepth d :=
  keepsDepth_reach.bind fun _ => keepsDepth_setCell ch

theorem keepsDepth_forM_putNext
    (rest : List Char) :
    Action.KeepsDepth d (rest.forM Action.putNext) := by
  induction rest with
  | nil => exact keepsDepth_pure _
  | cons ch rest ih =>
      have hnext : (Action.putNext ch).KeepsDepth d :=
        keepsDepth_right.bind fun _ => keepsDepth_put ch
      exact hnext.bind fun _ => ih

theorem keepsDepth_draw
    (text : String) :
    (Action.draw text).KeepsDepth d := by
  rw [Action.draw]
  split
  · exact keepsDepth_pure _
  · exact (keepsDepth_put _).bind fun _ => keepsDepth_forM_putNext _

theorem keepsDepth_fill
    (ch : Char) :
    (Action.fill ch).KeepsDepth d := by
  have hcells : (Action.setCells ch).KeepsDepth d := by
    refine keepsDepth_currentRow.bind fun row => keepsDepth_get_bind fun c hc => ?_
    split
    · exact keepsDepth_set hc
    · exact keepsDepth_throw _
  refine keepsDepth_gridWidth.bind fun width => keepsDepth_get_bind fun c _ => ?_
  split
  · exact hcells.bind fun _ => (keepsDepth_difference width 1).bind fun _ =>
      keepsDepth_modify fun _ => rfl
  · exact keepsDepth_pure _

theorem keepsDepth_redrawUp
    (table : Char → Option String) (n : Nat) :
    (Action.redrawUp table n).KeepsDepth d := by
  induction n with
  | zero => exact keepsDepth_pure _
  | succ n ih =>
      have hback : ∀ m, Action.KeepsDepth d (do
          Action.goto m
          Action.up
          Action.redrawUp table n) :=
        fun m => (keepsDepth_goto m).bind fun _ => keepsDepth_up.bind fun _ => ih
      refine keepsDepth_get_bind fun c _ => keepsDepth_peek.bind fun ch => ?_
      cases table ch with
      | none => exact hback c.marker
      | some text => exact (keepsDepth_draw text).bind fun _ => hback c.marker

theorem keepsDepth_redrawUpTo
    (top : Nat) (table : Char → Option String) :
    (Action.redrawUpTo top table).KeepsDepth d :=
  keepsDepth_get_bind fun _ _ => keepsDepth_redrawUp table _

end Keeping

section Steps

theorem after_openDepth (c : Canvas) :
    (Step.mk c .openDepth).after = { c with deepest := c.row } :=
  rfl

theorem answer?_openDepth (c : Canvas) :
    (Step.mk c .openDepth).answer? = some (.depth c.deepest) :=
  rfl

theorem after_closeDepth (c : Canvas) (outer : Nat) :
    (Step.mk c (.closeDepth outer)).after = { c with deepest := max outer c.deepest } :=
  rfl

theorem answer?_closeDepth (c : Canvas) (outer : Nat) :
    (Step.mk c (.closeDepth outer)).answer? = some (.depth c.deepest) :=
  rfl

theorem reached_openDepth (c : Canvas) : (Step.mk c .openDepth).reached = [c.row] :=
  rfl

theorem reached_closeDepth (c : Canvas) (outer : Nat) :
    (Step.mk c (.closeDepth outer)).reached = [] :=
  rfl

/-- A step down always ends, and adds the row that it goes to. -/
theorem deepest_down
    (c : Canvas) :
    (Step.mk c .down).after.deepest = max c.deepest (Step.mk c .down).after.row := by
  rw [Step.after, Operation.act, Action.leaves]
  by_cases hlast : c.row + 1 = c.height
  · rw [run_bind_of_ok (run_down_of_eq hlast)]
    rfl
  · rw [run_bind_of_ok (run_down_of_ne hlast)]
    rfl

/-- **One step** that neither starts nor ends a depth adds the row that it reaches, if any. -/
theorem Step.deepest_after
    {s : Step}
    (hs : s.IsPlain) :
    s.after.deepest = s.reached.foldl max s.canvas.deepest := by
  obtain ⟨c, op⟩ := s
  cases op with
  | left => exact keepsDepth_left.bind_pure _ c rfl
  | right => exact keepsDepth_right.bind_pure _ c rfl
  | up => exact keepsDepth_up.bind_pure _ c rfl
  | down => exact deepest_down c
  | peek => exact keepsDepth_peek.bind_pure _ c rfl
  | put ch => exact (keepsDepth_put ch).bind_pure _ c rfl
  | draw text => exact (keepsDepth_draw text).bind_pure _ c rfl
  | fill ch => exact (keepsDepth_fill ch).bind_pure _ c rfl
  | bottom => exact keepsDepth_bottom.bind_pure _ c rfl
  | lineEnd => exact keepsDepth_lineEnd.bind_pure _ c rfl
  | newline => exact deepest_down { c with col := 0 }
  | openDepth => exact absurd rfl hs.1
  | closeDepth outer => exact absurd rfl (hs.2 outer)
  | mark => rfl
  | goto m => rfl
  | redrawUpTo m table => exact (keepsDepth_redrawUpTo m.row table).bind_pure _ c rfl

end Steps

section Runs

variable {c : Canvas} {ops : List Operation} {run run' : List Step} {outer : Nat}

theorem exists_of_steps_eq_cons
    {s : Step}
    (h : c.steps ops = s :: run) :
    ∃ op ops', s = ⟨c, op⟩ ∧ s.after.steps ops' = run ∧
      c.afterAll ops = s.after.afterAll ops' := by
  cases ops with
  | nil => cases h
  | cons op ops =>
      cases h
      exact ⟨op, ops, rfl, rfl, rfl⟩

/-- The second part of a run starts with the canvas that the first part leaves. -/
theorem exists_of_steps_eq_append
    (h : c.steps ops = run ++ run') :
    ∃ ops₁ ops₂, c.steps ops₁ = run ∧ (c.afterAll ops₁).steps ops₂ = run' ∧
      c.afterAll ops = (c.afterAll ops₁).afterAll ops₂ := by
  induction run generalizing c ops with
  | nil => exact ⟨[], ops, rfl, h, rfl⟩
  | cons s run ih =>
      obtain ⟨op, ops', rfl, hrest, hafter⟩ := exists_of_steps_eq_cons h
      obtain ⟨ops₁, ops₂, hrun, hrun', hafter'⟩ := ih hrest
      refine ⟨op :: ops₁, ops₂, ?_, hrun', hafter.trans hafter'⟩
      rw [steps, hrun]

/-- **A matched run** adds the rows that it reaches to the depth around it. -/
theorem Matched.deepest_afterAll
    (h : Matched run) (hrun : c.steps ops = run) :
    (c.afterAll ops).deepest = (run.flatMap Step.reached).foldl max c.deepest := by
  induction h generalizing c ops with
  | nil =>
      cases ops with
      | nil => rfl
      | cons _ _ => cases hrun
  | @plain s run hs _ ih =>
      obtain ⟨op, ops', rfl, hrest, hafter⟩ := exists_of_steps_eq_cons hrun
      rw [hafter, ih hrest, Step.deepest_after hs, List.flatMap_cons, List.foldl_append]
  | @nest first last inner rest outer hopen houter _ hclose _ ihinner ihrest =>
      obtain ⟨op, ops', rfl, hrest, hafter⟩ := exists_of_steps_eq_cons hrun
      obtain ⟨ops₁, ops₂, hinner, htail, hafter'⟩ := exists_of_steps_eq_append hrest
      obtain ⟨op', ops₃, rfl, hrest', hafter''⟩ := exists_of_steps_eq_cons htail
      cases hopen
      cases hclose
      rw [answer?_openDepth] at houter
      cases houter
      -- The inner depth starts anew in the cursor's row; its end merges it into the outer one.
      have hdepth := ihinner hinner
      rw [after_openDepth] at hdepth
      rw [List.flatMap_cons, List.flatMap_append, List.flatMap_cons, reached_openDepth,
        reached_closeDepth, List.nil_append, List.foldl_append, List.foldl_append, List.foldl_cons,
        List.foldl_nil, List.foldl_assoc, hafter, hafter', hafter'', ihrest hrest',
        after_closeDepth, after_openDepth, hdepth]

end Runs

section Openings

variable {run before later : List Step} {last : Step} {outer : Nat}

/-- Of two elements of a list, one comes before the other unless they are the same. -/
theorem append_cons_cases
    {α : Type} {l l' m m' : List α} {x y : α}
    (h : l ++ x :: l' = m ++ y :: m') :
    (∃ k, l = m ++ y :: k) ∨ (l = m ∧ x = y) ∨ ∃ k, m = l ++ x :: k ∧ l' = k ++ y :: m' := by
  rcases List.append_eq_append_iff.mp h with ⟨k, rfl, hk⟩ | ⟨k, rfl, hk⟩
  · cases k with
    | nil => exact Or.inr (Or.inl ⟨(List.append_nil l).symm, (List.cons.inj hk).1⟩)
    | cons z k =>
        obtain ⟨rfl, rfl⟩ := List.cons.inj hk
        exact Or.inr (Or.inr ⟨k, rfl, rfl⟩)
  · cases k with
    | nil => exact Or.inr (Or.inl ⟨List.append_nil m, (List.cons.inj hk).1.symm⟩)
    | cons z k =>
        obtain ⟨rfl, -⟩ := List.cons.inj hk
        exact Or.inl ⟨k, rfl⟩

/-- A depth is started in the run, `outer` is the depth around it so far, and everything that is
started after it is ended. -/
structure IsOpening (before earlier : List Step) (first : Step) (inner : List Step) (outer : Nat) :
    Prop where
  split : before = earlier ++ first :: inner
  opens : first.op = .openDepth
  answers : first.answer? = some (.depth outer)
  matched : Matched inner

theorem IsOpening.append_left
    {earlier inner : List Step} {first : Step}
    (h : IsOpening before earlier first inner outer) (front : List Step) :
    IsOpening (front ++ before) (front ++ earlier) first inner outer :=
  ⟨by rw [h.split, List.append_assoc], h.opens, h.answers, h.matched⟩

/-- The end of a depth in a matched run has its start in it. -/
theorem Matched.exists_opening
    (h : Matched run) (hrun : run = before ++ last :: later)
    (hclose : last.op = .closeDepth outer) :
    ∃ earlier first inner, IsOpening before earlier first inner outer := by
  induction h generalizing before later with
  | nil => simp at hrun
  | @plain s run hs _ ih =>
      cases before with
      | nil =>
          cases hrun
          exact absurd hclose (hs.2 outer)
      | cons s' before =>
          obtain ⟨rfl, hrest⟩ := List.cons.inj hrun
          obtain ⟨earlier, first, inner, hopening⟩ := ih hrest
          exact ⟨_, first, inner, hopening.append_left [s]⟩
  | @nest first last' inner rest outer' hopen houter hinner hclose' _ ihinner ihrest =>
      cases before with
      | nil =>
          cases hrun
          rw [hopen] at hclose
          cases hclose
      | cons s before =>
          obtain ⟨rfl, hrest⟩ := List.cons.inj hrun
          rcases append_cons_cases hrest with ⟨k, hk⟩ | ⟨rfl, rfl⟩ | ⟨k, rfl, hk⟩
          · obtain ⟨earlier, first', inner', hopening⟩ := ihinner hk
            exact ⟨_, first', inner', hopening.append_left [first]⟩
          · cases hclose'.symm.trans hclose
            exact ⟨[], first, inner, rfl, hopen, houter, hinner⟩
          · obtain ⟨earlier, first', inner', hopening⟩ := ihrest hk
            rw [List.append_cons inner]
            exact ⟨_, first', inner', hopening.append_left (first :: (inner ++ [last']))⟩

theorem Bracketed.exists_opening
    (h : Bracketed run) (hrun : run = before ++ last :: later)
    (hclose : last.op = .closeDepth outer) :
    ∃ earlier first inner, IsOpening before earlier first inner outer := by
  induction h generalizing before later with
  | matched h => exact h.exists_opening hrun hclose
  | @pending earlier inner first _ hopen hinner ih =>
      rcases append_cons_cases hrun with ⟨k, hk⟩ | ⟨-, rfl⟩ | ⟨k, rfl, hk⟩
      · exact ih hk
      · rw [hopen] at hclose
        cases hclose
      · obtain ⟨earlier', first', inner', hopening⟩ := hinner.exists_opening hk hclose
        rw [List.append_cons earlier]
        exact ⟨_, first', inner', hopening.append_left (earlier ++ [first])⟩

end Openings

/-- **Depths nest.**  Whatever operations are done to a canvas, if every end of a depth is handed
what the matching start gave, then it gives the lowest of these rows: the one in which the depth
started, those that were gone down to since then, and those in which further depths were started. -/
theorem answer_closeDepth_of_bracketed
    {c : Canvas} {ops : List Operation} {before later : List Step} {last : Step} {outer : Nat}
    (h : Bracketed (c.steps ops)) (hrun : c.steps ops = before ++ last :: later)
    (hclose : last.op = .closeDepth outer) :
    ∃ earlier first inner, before = earlier ++ first :: inner ∧ first.op = .openDepth ∧
      first.answer? = some (.depth outer) ∧ Matched inner ∧
      last.answer? = (first.canvas.row :: inner.flatMap Step.reached).max?.map .depth := by
  obtain ⟨earlier, first, inner, rfl, hopen, houter, hinner⟩ := h.exists_opening hrun hclose
  refine ⟨earlier, first, inner, rfl, hopen, houter, hinner, ?_⟩
  rw [List.append_assoc, List.cons_append] at hrun
  obtain ⟨ops₁, ops₂, -, hbracket, -⟩ := exists_of_steps_eq_append hrun
  obtain ⟨op, ops₃, rfl, hrest, -⟩ := exists_of_steps_eq_cons hbracket
  obtain ⟨ops₄, ops₅, hsteps, hend, -⟩ := exists_of_steps_eq_append hrest
  obtain ⟨op', ops₆, rfl, -, -⟩ := exists_of_steps_eq_cons hend
  cases hopen
  cases hclose
  rw [answer?_closeDepth, hinner.deepest_afterAll hsteps, after_openDepth]
  rfl

/-- A depth starts in the first of four rows.  The cursor goes down once and then jumps to the last
row, which does not count.  In the third row another depth is started and ended, so this row
counts. -/
theorem answer_closeDepth_nested :
    ∃ before last, (blank 1).steps [.down, .down, .down, .goto ⟨0, 0⟩, .openDepth, .down, .left,
        .bottom, .goto ⟨2, 0⟩, .openDepth, .up, .closeDepth 1, .closeDepth 3] = before ++ [last] ∧
      last.op = .closeDepth 3 ∧ last.answer? = some (.depth 2) ∧
      ∃ earlier first inner, before = earlier ++ first :: inner ∧ first.op = .openDepth ∧
        first.answer? = some (.depth 3) ∧ Matched inner ∧
        last.answer? = (first.canvas.row :: inner.flatMap Step.reached).max?.map .depth := by
  obtain ⟨four, hfour⟩ : ∃ four, four = List.replicate 4 [' '] := ⟨_, rfl⟩
  have hrun : (blank 1).steps [.down, .down, .down, .goto ⟨0, 0⟩, .openDepth, .down, .left,
      .bottom, .goto ⟨2, 0⟩, .openDepth, .up, .closeDepth 1, .closeDepth 3] =
      [⟨blank 1, .down⟩, ⟨⟨four.take 2, 1, 0, 1⟩, .down⟩, ⟨⟨four.take 3, 2, 0, 2⟩, .down⟩,
        ⟨⟨four, 3, 0, 3⟩, .goto ⟨0, 0⟩⟩, ⟨⟨four, 0, 0, 3⟩, .openDepth⟩,
        ⟨⟨four, 0, 0, 0⟩, .down⟩, ⟨⟨four, 1, 0, 1⟩, .left⟩, ⟨⟨four, 1, 0, 1⟩, .bottom⟩,
        ⟨⟨four, 3, 0, 1⟩, .goto ⟨2, 0⟩⟩, ⟨⟨four, 2, 0, 1⟩, .openDepth⟩,
        ⟨⟨four, 2, 0, 2⟩, .up⟩, ⟨⟨four, 1, 0, 2⟩, .closeDepth 1⟩] ++
      [⟨⟨four, 1, 0, 2⟩, .closeDepth 3⟩] := by
    rw [hfour]
    rfl
  have hnested : Matched [⟨⟨four, 2, 0, 1⟩, .openDepth⟩, ⟨⟨four, 2, 0, 2⟩, .up⟩,
      ⟨⟨four, 1, 0, 2⟩, .closeDepth 1⟩] :=
    @Matched.nest _ _ [⟨⟨four, 2, 0, 2⟩, .up⟩] [] _ rfl rfl (.plain ⟨nofun, nofun⟩ .nil) rfl .nil
  have hinner : Matched [⟨⟨four, 0, 0, 0⟩, .down⟩, ⟨⟨four, 1, 0, 1⟩, .left⟩,
      ⟨⟨four, 1, 0, 1⟩, .bottom⟩, ⟨⟨four, 3, 0, 1⟩, .goto ⟨2, 0⟩⟩,
      ⟨⟨four, 2, 0, 1⟩, .openDepth⟩, ⟨⟨four, 2, 0, 2⟩, .up⟩,
      ⟨⟨four, 1, 0, 2⟩, .closeDepth 1⟩] :=
    .plain ⟨nofun, nofun⟩ (.plain ⟨nofun, nofun⟩ (.plain ⟨nofun, nofun⟩
      (.plain ⟨nofun, nofun⟩ hnested)))
  have hmatched := @Matched.nest ⟨⟨four, 0, 0, 3⟩, .openDepth⟩ ⟨⟨four, 1, 0, 2⟩, .closeDepth 3⟩ _ []
    _ rfl rfl hinner rfl .nil
  refine ⟨_, _, hrun, rfl, rfl, answer_closeDepth_of_bracketed (.matched ?_) hrun rfl⟩
  rw [hrun]
  exact .plain ⟨nofun, nofun⟩ (.plain ⟨nofun, nofun⟩ (.plain ⟨nofun, nofun⟩
    (.plain ⟨nofun, nofun⟩ hmatched)))

end Canvas
end RelayLadder
