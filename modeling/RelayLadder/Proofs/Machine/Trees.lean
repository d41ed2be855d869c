import Mathlib.Data.List.Induction
import RelayLadder.Proofs.Machine.Plant
import RelayLadder.Proofs.Operands

/-!
# Coils and the programs they are built from

The machine reads a contact when its instruction is met.  A coil is built from
expressions, and `Coil.driveAll` reads the contacts of a coil when the coil is
driven.  The two moments differ for an operand that waits on the stack while
another coil is written.

**Condition.**  `UpToDate` says that whenever a coil is written, the value on top
of the stack is the value that its expression has at that moment.  `Alone` says
that no operand waits on the stack when a coil is written.

**Results.**
* `agrees_iff_upToDate`: a run leaves the variables of the coils at each of its
  steps iff all its coils are up to date.
* `upToDate_of_alone`: without waiting operands all coils are up to date.
* `ofProgram_driveAll_iff`: when the coils of a program leave the variables that the
  program leaves; `driveAll_ne_run_waiting` is a program where they do not.
-/

namespace RelayLadder

open Operands (build)

section Conditions

/-- After a program the variables are those that its coils leave. -/
def Agrees (calls : Calls) (σ : Store) (p : Program) : Prop :=
  ∀ stack cs, build [] p = .ok (stack, cs) →
    ((Machine.mk σ []).run calls p).map Machine.store = some (Coil.driveAll calls σ cs)

/-- Whenever a coil is written, the value on top of the stack is the value that its expression
has at that moment. -/
def UpToDate (calls : Calls) (σ : Store) (p : Program) : Prop :=
  ∀ q name, q ++ [.write name] <+: p →
    ∀ e stack cs, build [] q = .ok (e :: stack, cs) →
      ∀ m v vs, (Machine.mk σ []).run calls q = some m → m.stack = v :: vs →
        v = e.eval calls m.store

/-- Whenever a coil is written, no other operand waits on the stack. -/
def Alone (p : Program) : Prop :=
  ∀ q name, q ++ [.write name] <+: p →
    ∀ stack cs, build [] q = .ok (stack, cs) → stack.length = 1

end Conditions

section Steps

variable (calls : Calls)

/-- An instruction that the operands accept is accepted by the machine.  Either it completes no
coil and keeps the variables, or it writes the top of the stack. -/
theorem Machine.step_of_operands
    {stack stack' : List Expr} {i : Instruction} {coil : Option Coil}
    (h : Operands.step stack i = .ok (stack', coil))
    (m : Machine) (hlen : m.stack.length = stack.length) :
    ∃ m', m.step calls i = some m' ∧ m'.stack.length = stack'.length ∧
      ((coil = none ∧ (∀ name, i ≠ .write name) ∧ m'.store = m.store ∧
          (m.stack = stack.map (Expr.eval calls m.store) →
            m'.stack = stack'.map (Expr.eval calls m.store))) ∨
        ∃ name e v, i = .write name ∧ coil = some ⟨name, e⟩ ∧ stack = e :: stack' ∧
          m.stack = v :: m'.stack ∧ m'.store = m.store.set name v) := by
  obtain ⟨σ, vs⟩ := m
  rcases Operands.step_cases h with
    ⟨name, rfl, rfl, rfl⟩ | ⟨tokens, rfl, rfl, rfl⟩ | ⟨e, rest, rfl, rfl, rfl, rfl⟩ |
    ⟨right, left, rest, rfl, rfl, rfl, rfl⟩ | ⟨right, left, rest, rfl, rfl, rfl, rfl⟩ |
    ⟨name, e, rfl, rfl, rfl⟩
  · refine ⟨_, rfl, by simpa using hlen, Or.inl ⟨rfl, nofun, rfl, ?_⟩⟩
    intro heq
    dsimp only at heq
    rw [heq]
    rfl
  · refine ⟨_, rfl, by simpa using hlen, Or.inl ⟨rfl, nofun, rfl, ?_⟩⟩
    intro heq
    dsimp only at heq
    rw [heq]
    rfl
  · obtain _ | ⟨v, vs⟩ := vs
    · simp at hlen
    · refine ⟨_, rfl, by simpa using hlen, Or.inl ⟨rfl, nofun, rfl, ?_⟩⟩
      intro heq
      simp only [List.map_cons, List.cons.injEq] at heq
      simp [heq, Expr.eval]
  · obtain _ | ⟨v, _ | ⟨u, vs⟩⟩ := vs
    · simp at hlen
    · simp at hlen
    · refine ⟨_, rfl, by simpa using hlen, Or.inl ⟨rfl, nofun, rfl, ?_⟩⟩
      intro heq
      simp only [List.map_cons, List.cons.injEq] at heq
      simp [heq, Expr.eval]
  · obtain _ | ⟨v, _ | ⟨u, vs⟩⟩ := vs
    · simp at hlen
    · simp at hlen
    · refine ⟨_, rfl, by simpa using hlen, Or.inl ⟨rfl, nofun, rfl, ?_⟩⟩
      intro heq
      simp only [List.map_cons, List.cons.injEq] at heq
      simp [heq, Expr.eval]
  · obtain _ | ⟨v, vs⟩ := vs
    · simp at hlen
    · exact ⟨_, rfl, by simpa using hlen, Or.inr ⟨name, e, v, rfl, rfl, rfl, rfl, rfl⟩⟩

/-- A program that the operands accept is run to its end, with as many values as operands. -/
theorem Machine.run_of_build
    {p : Program} {stack : List Expr} {cs : List Coil}
    (h : build [] p = .ok (stack, cs)) (σ : Store) :
    ∃ m, (Machine.mk σ []).run calls p = some m ∧ m.stack.length = stack.length := by
  induction p using List.reverseRecOn generalizing stack cs with
  | nil =>
      cases h
      exact ⟨_, rfl, rfl⟩
  | append_singleton p i ih =>
      obtain ⟨stack', cs₁, cs₂, hp, hi, rfl⟩ := Operands.build_append_eq_ok_iff.mp h
      obtain ⟨stack'', coil, others, hstep, hnil, rfl⟩ := Operands.build_cons_eq_ok_iff.mp hi
      cases hnil
      obtain ⟨m, hrun, hlen⟩ := ih hp
      obtain ⟨m', hm', hlen', _⟩ := Machine.step_of_operands calls hstep m hlen
      refine ⟨m', ?_, hlen'⟩
      rw [Machine.run_append, hrun]
      simp [hm']

end Steps

section Agreement

variable {calls : Calls} {σ : Store}

/-- One more accepted instruction, with the states of the machine before and after it. -/
theorem Machine.run_append_singleton
    (calls : Calls) {q : Program} {i : Instruction} {stack : List Expr} {cs : List Coil}
    (h : build [] (q ++ [i]) = .ok (stack, cs)) (σ : Store) :
    ∃ stack' cs' coil m m',
      build [] q = .ok (stack', cs') ∧
      Operands.step stack' i = .ok (stack, coil) ∧
      cs = cs' ++ coil.toList ∧
      (Machine.mk σ []).run calls q = some m ∧
      m.stack.length = stack'.length ∧
      m.step calls i = some m' ∧
      (Machine.mk σ []).run calls (q ++ [i]) = some m' := by
  obtain ⟨stack', cs₁, cs₂, hq, hi, rfl⟩ := Operands.build_append_eq_ok_iff.mp h
  obtain ⟨stack'', coil, others, hstep, hnil, rfl⟩ := Operands.build_cons_eq_ok_iff.mp hi
  cases hnil
  obtain ⟨m, hrun, hlen⟩ := Machine.run_of_build calls hq σ
  obtain ⟨m', hm', _⟩ := Machine.step_of_operands calls hstep m hlen
  refine ⟨stack', cs₁, coil, m, m', hq, hstep, by simp, hrun, hlen, hm', ?_⟩
  rw [Machine.run_append, hrun]
  simp [hm']

theorem Coil.driveAll_append
    (cs : List Coil) (c : Coil) :
    Coil.driveAll calls σ (cs ++ [c]) = c.drive calls (Coil.driveAll calls σ cs) := by
  simp [Coil.driveAll]

/-- A coil that leaves the variables of its expression was up to date. -/
theorem upToDate_of_agrees
    {p : Program}
    (hagrees : ∀ q, q <+: p → Agrees calls σ q) :
    UpToDate calls σ p := by
  intro q name hpre e stack cs hbuild m v vs hrun hstack
  have hq : q <+: p := (List.prefix_append q [.write name]).trans hpre
  have hwrite : build [] (q ++ [.write name]) = .ok (stack, cs ++ [⟨name, e⟩]) :=
    Operands.build_append_eq_ok_iff.mpr ⟨e :: stack, cs, [⟨name, e⟩], hbuild, rfl, rfl⟩
  have hbefore := hagrees q hq _ _ hbuild
  have hafter := hagrees _ hpre _ _ hwrite
  rw [hrun] at hbefore
  have hstore : m.store = Coil.driveAll calls σ cs := by
    simpa using hbefore
  obtain ⟨τ, us⟩ := m
  dsimp only at hstack hstore
  subst hstack
  have hrun' : (Machine.mk σ []).run calls (q ++ [.write name]) = some ⟨τ.set name v, vs⟩ := by
    rw [Machine.run_append, hrun]
    rfl
  rw [hrun', Coil.driveAll_append, ← hstore] at hafter
  have hset : τ.set name v = τ.set name (e.eval calls τ) := by
    simpa [Coil.drive] using hafter
  exact Store.set_injective τ name hset

/-- While all coils are up to date, the variables are those of the coils. -/
theorem agrees_of_upToDate
    {p : Program}
    (hup : UpToDate calls σ p) :
    ∀ q, q <+: p → Agrees calls σ q := by
  intro q
  induction q using List.reverseRecOn with
  | nil =>
      intro _ stack cs h
      cases h
      rfl
  | append_singleton q i ih =>
      intro hpre stack cs h
      have hq : q <+: p := (List.prefix_append q [i]).trans hpre
      obtain ⟨stack', cs', coil, m, m', hbuild, hstep, rfl, hrun, hlen, hm', hrun'⟩ :=
        Machine.run_append_singleton calls h σ
      have hstore : m.store = Coil.driveAll calls σ cs' := by
        have hbefore := ih hq _ _ hbuild
        rw [hrun] at hbefore
        simpa using hbefore
      obtain ⟨m'', hm'', _, hcases⟩ := Machine.step_of_operands calls hstep m hlen
      rw [hm'] at hm''
      cases hm''
      rw [hrun', Option.map_some]
      rcases hcases with ⟨rfl, _, hsame, _⟩ | ⟨name, e, v, rfl, rfl, rfl, hstack, hwritten⟩
      · simp [hsame, hstore]
      · have hv : v = e.eval calls m.store :=
          hup q name hpre e stack cs' hbuild m v m'.stack hrun hstack
        rw [hwritten, hv, hstore]
        simp [Coil.driveAll_append, Coil.drive]

/-- **A run leaves the variables of the coils at each of its steps iff every coil is up to
date.** -/
theorem agrees_iff_upToDate
    (p : Program) :
    (∀ q, q <+: p → Agrees calls σ q) ↔ UpToDate calls σ p :=
  ⟨upToDate_of_agrees, agrees_of_upToDate⟩

/-- Without waiting operands, the stack holds the present values of the operands. -/
theorem stack_eq_of_alone
    {p : Program}
    (halone : Alone p) :
    ∀ q, q <+: p → ∀ stack cs m, build [] q = .ok (stack, cs) →
      (Machine.mk σ []).run calls q = some m →
      m.stack = stack.map (Expr.eval calls m.store) := by
  intro q
  induction q using List.reverseRecOn with
  | nil =>
      intro _ stack cs m h hrun
      cases h
      cases hrun
      rfl
  | append_singleton q i ih =>
      intro hpre stack cs m' h hrun'
      have hq : q <+: p := (List.prefix_append q [i]).trans hpre
      obtain ⟨stack', cs', coil, m, m'', hbuild, hstep, rfl, hrun, hlen, hm', hrun''⟩ :=
        Machine.run_append_singleton calls h σ
      rw [hrun''] at hrun'
      cases hrun'
      have hvalues := ih hq _ _ _ hbuild hrun
      obtain ⟨m₁, hm₁, _, hcases⟩ := Machine.step_of_operands calls hstep m hlen
      rw [hm'] at hm₁
      cases hm₁
      rcases hcases with ⟨rfl, _, hsame, hkeep⟩ | ⟨name, e, v, rfl, rfl, rfl, hstack, _⟩
      · rw [hsame]
        exact hkeep hvalues
      · have hone := halone q name hpre _ _ hbuild
        have hnil : stack = [] := by
          simpa using hone
        subst hnil
        rw [hstack] at hlen
        simpa using hlen

/-- Without waiting operands every coil is up to date. -/
theorem upToDate_of_alone
    {p : Program}
    (halone : Alone p) :
    UpToDate calls σ p := by
  intro q name hpre e stack cs hbuild m v vs hrun hstack
  have hq : q <+: p := (List.prefix_append q [.write name]).trans hpre
  have hvalues := stack_eq_of_alone halone q hq _ _ m hbuild hrun
  rw [hstack] at hvalues
  simp only [List.map_cons, List.cons.injEq] at hvalues
  exact hvalues.1

end Agreement

section Writes

/-- The writes of a run: the names, as they stand in the program, and the values. -/
def Machine.writes (calls : Calls) (m : Machine) : Program → List (String × Bool)
  | [] => []
  | i :: p =>
    match i, m with
    | .write name, ⟨σ, v :: vs⟩ => (name, v) :: Machine.writes calls ⟨σ.set name v, vs⟩ p
    | _, _ => (m.step calls i).elim [] fun m => m.writes calls p

/-- The writes of coils in order: each value is computed after the coils before it. -/
def Coil.writes (calls : Calls) (σ : Store) : List Coil → List (String × Bool)
  | [] => []
  | c :: cs => (c.name, c.value.eval calls σ) :: Coil.writes calls (c.drive calls σ) cs

/-- The variables after writes in order. -/
def Store.setAll (σ : Store) (ws : List (String × Bool)) : Store :=
  ws.foldl (fun σ w => σ.set w.1 w.2) σ

/-- Two lists of writes have the same values wherever a value lasts, that is, where no later
write goes to the same variable. -/
def SameLasting : List (String × Bool) → List (String × Bool) → Prop
  | (name, v) :: ws, (_, v') :: ws' =>
      ((∀ w ∈ ws, Store.variable w.1 ≠ Store.variable name) → v = v') ∧ SameLasting ws ws'
  | _, _ => True

/-- Writes to the same names leave the same variables iff the values that last are the same and
nothing else differed before. -/
theorem Store.setAll_eq_iff
    (ws ws' : List (String × Bool))
    (hnames : ws.map Prod.fst = ws'.map Prod.fst) :
    ∀ σ σ' : Store, σ.setAll ws = σ'.setAll ws' ↔
      (∀ x, (∀ w ∈ ws, Store.variable w.1 ≠ x) → σ x = σ' x) ∧ SameLasting ws ws' := by
  induction ws generalizing ws' with
  | nil =>
      intro σ σ'
      cases ws' with
      | nil =>
          simp only [Store.setAll, List.foldl_nil, SameLasting, List.not_mem_nil, and_true]
          exact ⟨fun h x _ => congrFun h x, fun h => funext fun x => h x (by simp)⟩
      | cons w' ws' => simp at hnames
  | cons w ws ih =>
      intro σ σ'
      cases ws' with
      | nil => simp at hnames
      | cons w' ws' =>
          obtain ⟨name, v⟩ := w
          obtain ⟨name', v'⟩ := w'
          simp only [List.map_cons, List.cons.injEq] at hnames
          obtain ⟨rfl, hnames⟩ := hnames
          obtain ⟨f, hf, hset⟩ := Store.exists_set_eq_update name
          have hrest := ih ws' hnames (σ.set name v) (σ'.set name v')
          change (σ.set name v).setAll ws = (σ'.set name v').setAll ws' ↔ _
          rw [hrest, SameLasting, hset, hset]
          -- The variable of the first write is told apart from the others.
          constructor
          · rintro ⟨hsame, hlast⟩
            refine ⟨fun x hx => ?_, fun hno => ?_, hlast⟩
            · have hne : Store.variable name ≠ x := hx (name, v) (by simp)
              have heq := hsame x fun w hw => hx w (List.mem_cons_of_mem _ hw)
              simpa [Function.update_of_ne hne.symm] using heq
            · apply hf
              simpa using hsame (Store.variable name) hno
          · rintro ⟨hsame, hfirst, hlast⟩
            refine ⟨fun x hx => ?_, hlast⟩
            by_cases hxname : x = Store.variable name
            · subst hxname
              rw [hfirst hx]
              simp
            · rw [Function.update_of_ne hxname, Function.update_of_ne hxname]
              apply hsame
              intro w hw
              rcases List.mem_cons.mp hw with rfl | hw
              · exact fun h => hxname h.symm
              · exact hx w hw

/-- Coils leave what they write. -/
theorem Coil.driveAll_eq_setAll
    (calls : Calls) (cs : List Coil) :
    ∀ σ : Store, Coil.driveAll calls σ cs = σ.setAll (Coil.writes calls σ cs) := by
  induction cs with
  | nil =>
      intro σ
      rfl
  | cons c cs ih =>
      intro σ
      exact ih (c.drive calls σ)

theorem Coil.writes_names
    (calls : Calls) (cs : List Coil) :
    ∀ σ : Store, (Coil.writes calls σ cs).map Prod.fst = cs.map Coil.name := by
  induction cs with
  | nil =>
      intro σ
      rfl
  | cons c cs ih =>
      intro σ
      simp [Coil.writes, ih]

/-- An accepted run leaves what it writes, and it writes to the names of the coils. -/
theorem Machine.run_eq_setAll
    (calls : Calls) (p : Program) :
    ∀ (stack left : List Expr) (cs : List Coil) (m : Machine),
      build stack p = .ok (left, cs) → m.stack.length = stack.length →
      (m.run calls p).map Machine.store = some (m.store.setAll (m.writes calls p)) ∧
        (m.writes calls p).map Prod.fst = cs.map Coil.name := by
  induction p with
  | nil =>
      intro stack left cs m h _
      cases h
      exact ⟨rfl, rfl⟩
  | cons i p ih =>
      intro stack left cs m h hlen
      obtain ⟨stack', coil, others, hstep, hrest, rfl⟩ := Operands.build_cons_eq_ok_iff.mp h
      obtain ⟨m', hm', hlen', hcases⟩ := Machine.step_of_operands calls hstep m hlen
      have hnext := ih stack' left others m' hrest hlen'
      rw [Machine.run_cons, hm', Option.bind_some]
      rcases hcases with ⟨rfl, hno, hsame, _⟩ | ⟨name, e, v, rfl, rfl, rfl, hstack, hwritten⟩
      · have hwrites : m.writes calls (i :: p) = m'.writes calls p := by
          rw [Machine.writes, hm']
          · rfl
          · rintro name σ v vs rfl
            exact absurd rfl (hno name)
        rw [hwrites, ← hsame]
        exact hnext
      · have hwrites : m.writes calls (.write name :: p) = (name, v) :: m'.writes calls p := by
          obtain ⟨σ, us⟩ := m
          obtain ⟨τ, ws⟩ := m'
          dsimp only at hstack hwritten
          subst hstack hwritten
          rfl
        rw [hwrites]
        refine ⟨?_, by simp [hnext.2]⟩
        rw [hnext.1, hwritten]
        rfl

end Writes

section Programs

variable {p : Program} {cs : List Coil}

/-- The variables after a program and after its coils are compared by what each writes. -/
theorem run_eq_driveAll_iff_sameLasting
    (h : Coil.ofProgram p = .ok cs) (calls : Calls) (σ : Store) :
    ((Machine.mk σ []).run calls p).map Machine.store = some (Coil.driveAll calls σ cs) ↔
      SameLasting ((Machine.mk σ []).writes calls p.folded) (Coil.writes calls σ cs) := by
  have hbuild : build [] p.folded = .ok ([], cs) := Operands.coils_eq_ok_iff.mp h
  obtain ⟨hrun, hnames⟩ := Machine.run_eq_setAll calls p.folded [] [] cs ⟨σ, []⟩ hbuild rfl
  rw [← Machine.run_folded, hrun, Coil.driveAll_eq_setAll, Option.some.injEq]
  rw [Store.setAll_eq_iff _ _ (hnames.trans (Coil.writes_names calls cs σ).symm)]
  simp

/-- **When the coils of a program mean what the program means.**  The variables at the end agree
exactly when the values that last agree.  They agree at every step exactly when every coil is up
to date, and they do so for all variables and calls when no operand waits at any coil. -/
theorem ofProgram_driveAll_iff
    (h : Coil.ofProgram p = .ok cs) :
    (∀ calls σ,
      ((Machine.mk σ []).run calls p).map Machine.store = some (Coil.driveAll calls σ cs) ↔
        SameLasting ((Machine.mk σ []).writes calls p.folded) (Coil.writes calls σ cs)) ∧
    (∀ calls σ, (∀ q, q <+: p.folded → Agrees calls σ q) ↔ UpToDate calls σ p.folded) ∧
    (Alone p.folded → ∀ calls σ,
      ((Machine.mk σ []).run calls p).map Machine.store = some (Coil.driveAll calls σ cs)) := by
  refine ⟨run_eq_driveAll_iff_sameLasting h, fun calls σ => agrees_iff_upToDate p.folded, ?_⟩
  intro halone calls σ
  have hbuild : build [] p.folded = .ok ([], cs) := Operands.coils_eq_ok_iff.mp h
  rw [← Machine.run_folded]
  exact agrees_of_upToDate (upToDate_of_alone halone) _ List.prefix_rfl _ _ hbuild

theorem alone_two_coils :
    Alone (Program.folded [.read "A", .invert, .write "X", .read "X", .write "Y"]) := by
  rintro q name ⟨rest, hrest⟩ stack cs hbuild
  change q ++ [.write name] ++ rest = [.read "/A", .write "X", .read "X", .write "Y"] at hrest
  obtain _ | ⟨_, _ | ⟨_, _ | ⟨_, _ | ⟨_, q⟩⟩⟩⟩ := q
  · simp at hrest
  · simp at hrest
    obtain ⟨rfl, -⟩ := hrest
    cases hbuild
    rfl
  · simp at hrest
  · simp at hrest
    obtain ⟨rfl, rfl, rfl, -⟩ := hrest
    cases hbuild
    rfl
  · simp at hrest

/-- Two coils in a row, the second of which reads the first. -/
theorem driveAll_two_coils :
    Coil.ofProgram [.read "A", .invert, .write "X", .read "X", .write "Y"] =
      .ok [⟨"X", .contact "/A"⟩, ⟨"Y", .contact "X"⟩] ∧
    ∀ calls σ,
      ((Machine.mk σ []).run calls
          [.read "A", .invert, .write "X", .read "X", .write "Y"]).map Machine.store =
        some (Coil.driveAll calls σ [⟨"X", .contact "/A"⟩, ⟨"Y", .contact "X"⟩]) :=
  ⟨rfl, (ofProgram_driveAll_iff rfl).2.2 alone_two_coils⟩

/-- The operand `A` waits while the coil `A` is written, and the second coil gets its old
value from the machine but its new one from the coils. -/
theorem driveAll_ne_run_waiting :
    Coil.ofProgram [.read "A", .read "B", .write "A", .write "C"] =
      .ok [⟨"A", .contact "B"⟩, ⟨"C", .contact "A"⟩] ∧
    ((Machine.mk (fun x => x == "A") []).run (fun _ _ => false)
        [.read "A", .read "B", .write "A", .write "C"]).map Machine.store ≠
      some (Coil.driveAll (fun _ _ => false) (fun x => x == "A")
        [⟨"A", .contact "B"⟩, ⟨"C", .contact "A"⟩]) := by
  refine ⟨rfl, fun h => ?_⟩
  have hc := congrArg (Option.map fun σ : Store => σ "C") h
  revert hc
  decide

end Programs

end RelayLadder
