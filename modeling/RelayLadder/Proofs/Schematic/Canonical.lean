import RelayLadder.Proofs.Operands
import RelayLadder.Proofs.Schematic.Linear

/-!
# Coils that come back from their drawing

A drawn coil is read as its linear program, and folding puts the negations back
into the names.  The result is the program of a coil again, though not always of
the same one: blanks around a name and doubled negation marks are lost, a series
comes back leaning to the left, and the negation of a coil goes to its value if
that is a single contact.

**Results.**
* `redrawn_eq_iff`, `Expr.regroup_eq_iff`: the names and values that come back.
* `Coil.exists_folded`: the linear program of a coil folds to the program of a coil,
  which is the same one exactly if the coil is canonical.
-/

namespace RelayLadder

open Figure (Named)
open Program (chain conjFrom conjFrom_append conjFrom_singleton)
open Wire (inversion join nameOf)

section Names

variable {name : String}

/-- The name that a label is folded to. -/
def foldedName (label : String × Bool) : String :=
  if label.2 then toggle label.1 else label.1

/-- The name that comes back from the drawing of a name. -/
def redrawn (name : String) : String :=
  foldedName (drawnLabel name)

/-- A name that is trimmed and has at most one negation mark. -/
structure CanonicalName (name : String) : Prop extends TrimmedName name where
  single : ∀ rest, name.toList ≠ '/' :: '/' :: rest

instance : DecidablePred CanonicalName := fun name =>
  decidable_of_iff (TrimmedName name ∧ ¬ ['/', '/'] <+: name.toList)
    ⟨fun h => ⟨h.1, fun rest hname => h.2 ⟨rest, hname.symm⟩⟩,
      fun h => ⟨h.toTrimmedName, fun ⟨rest, hname⟩ => h.single rest hname.symm⟩⟩

theorem drawnLabel_cases
    (name : String) :
    (∃ rest, Text.trim name.toList = '/' :: rest ∧
      drawnLabel name = (String.ofList (Text.trim rest), true)) ∨
    ((∀ rest, Text.trim name.toList ≠ '/' :: rest) ∧
      drawnLabel name = (String.ofList (Text.trim name.toList), false)) := by
  rw [drawnLabel, nameOf]
  split
  · rename_i rest htrim
    exact Or.inl ⟨rest, htrim, rfl⟩
  · rename_i hplain
    exact Or.inr ⟨hplain, rfl⟩

/-- A negated name is read shorter than it is written. -/
theorem length_drawnLabel_lt
    (h : (drawnLabel name).2 = true) :
    (drawnLabel name).1.toList.length < name.toList.length := by
  rcases drawnLabel_cases name with ⟨rest, htrim, hlabel⟩ | ⟨-, hlabel⟩
  · have hname := (Text.trim_sublist name.toList).length_le
    have hrest := (Text.trim_sublist rest).length_le
    rw [htrim, List.length_cons] at hname
    rw [hlabel, String.toList_ofList]
    omega
  · rw [hlabel] at h
    cases h

theorem Figure.Named.ne_nil
    (h : Named name) :
    (drawnLabel name).1.toList ≠ [] := by
  intro hnil
  rw [Named, Wire.isNameless, ← drawnLabel, String.toList_eq_nil_iff.mp hnil] at h
  cases h

theorem CanonicalName.redrawn_eq
    (h : CanonicalName name) :
    redrawn name = name := by
  rw [redrawn, h.drawnLabel_eq]
  rcases unmark_cases name with ⟨plain, hname, hlabel⟩ | ⟨-, hlabel⟩
  · have hplain : (String.ofList plain).toList.head? ≠ some '/' := by
      rw [String.toList_ofList]
      intro hhead
      obtain ⟨rest, rfl⟩ := List.head?_eq_some_iff.mp hhead
      exact h.single rest hname
    rw [hlabel, foldedName, if_pos rfl, ← String.toList_inj, toList_toggle_of_plain hplain,
      String.toList_ofList, hname]
  · rw [hlabel]
    rfl

/-- Exactly the canonical names come back from their drawing. -/
theorem redrawn_eq_iff
    (hname : Named name) :
    redrawn name = name ↔ CanonicalName name := by
  refine ⟨fun h => ?_, CanonicalName.redrawn_eq⟩
  have hne := hname.ne_nil
  rw [redrawn] at h
  rcases drawnLabel_cases name with ⟨rest, htrim, hlabel⟩ | ⟨hplain, hlabel⟩
  · have hlt := length_drawnLabel_lt (congrArg Prod.snd hlabel)
    rw [hlabel, foldedName, if_pos rfl] at h
    rw [hlabel] at hlt hne
    rcases toggle_cases (String.ofList (Text.trim rest)) with hmark | hmark
    · -- A mark that is removed makes the name shorter still.
      rw [h] at hmark
      rw [hmark, List.length_cons] at hlt
      omega
    · rw [h, String.toList_ofList] at hmark
      rw [String.toList_ofList] at hne
      have htrimmed := Text.trimmed_trim hne
      refine ⟨⟨?_, fun plain hplain => ?_⟩, fun rest' hdouble => ?_⟩
      · rw [hmark]
        exact Text.Trimmed.append (s := ['/']) (by decide) htrimmed []
      · rw [hmark] at hplain
        cases hplain
        exact htrimmed
      · -- A second mark would have been removed instead of adding the first.
        rw [hmark] at hdouble
        have htail := List.tail_eq_of_cons_eq hdouble
        have hshort : (toggle (String.ofList (Text.trim rest))).toList = rest' :=
          toList_toggle_of_mark (by rw [String.toList_ofList, htail])
        rw [h, hmark, htail] at hshort
        have hlength := congrArg List.length hshort
        simp only [List.length_cons] at hlength
        omega
  · rw [hlabel, foldedName, if_neg (by simp)] at h
    rw [hlabel, String.toList_ofList] at hne
    have htrim : Text.trim name.toList = name.toList := by
      rw [← String.toList_inj, String.toList_ofList] at h
      exact h
    rw [htrim] at hplain
    refine ⟨⟨?_, fun plain hmark => absurd hmark (hplain plain)⟩,
      fun rest hdouble => absurd hdouble (hplain _)⟩
    rw [← htrim]
    exact Text.trimmed_trim hne

end Names

namespace Expr

section Defs

/-- The expression whose series lean to the left and whose contacts bear the given names for what
is drawn, behind the operand that it is joined to. -/
def regroup (rename : String → String) : Option Expr → Expr → Expr
  | before, contact name => after before (contact (rename name))
  | before, call tokens => after before (call tokens)
  | before, not (contact name) => after before (contact (rename (toggle name)))
  | before, not e => after before (not e)
  | before, and left right => regroup rename (some (regroup rename before left)) right
  | before, or left right =>
    after before (or (regroup rename none left) (regroup rename none right))

/-- Whether the expression is a conjunction. -/
def isSeries : Expr → Bool
  | and _ _ => true
  | _ => false

/-- A contact with an unmarked name. -/
def Lone (label : String → String × Bool) : Expr → Prop
  | contact name => (label name).2 = false
  | not (contact name) => (label (toggle name)).2 = false
  | _ => False

/-- An expression with canonical names, without negations and with series that lean to the left. -/
def Canonical : Expr → Prop
  | contact name => CanonicalName name
  | call _ => True
  | not _ => False
  | and left right => left.Canonical ∧ right.Canonical ∧ right.isSeries = false
  | or left right => left.Canonical ∧ right.Canonical

instance Lone.decidable
    (label : String → String × Bool) :
    DecidablePred (Lone label)
  | contact name => inferInstanceAs (Decidable ((label name).2 = false))
  | not (contact name) => inferInstanceAs (Decidable ((label (toggle name)).2 = false))
  | call _ => inferInstanceAs (Decidable False)
  | not (call _) => inferInstanceAs (Decidable False)
  | not (not _) => inferInstanceAs (Decidable False)
  | not (and _ _) => inferInstanceAs (Decidable False)
  | not (or _ _) => inferInstanceAs (Decidable False)
  | and _ _ => inferInstanceAs (Decidable False)
  | or _ _ => inferInstanceAs (Decidable False)

instance Canonical.decidable : DecidablePred Canonical
  | contact name => inferInstanceAs (Decidable (CanonicalName name))
  | call _ => inferInstanceAs (Decidable True)
  | not _ => inferInstanceAs (Decidable False)
  | and left right =>
    have := Canonical.decidable left
    have := Canonical.decidable right
    inferInstanceAs (Decidable (left.Canonical ∧ right.Canonical ∧ right.isSeries = false))
  | or left right =>
    have := Canonical.decidable left
    have := Canonical.decidable right
    inferInstanceAs (Decidable (left.Canonical ∧ right.Canonical))

end Defs

section Regroup

variable {p : String → Prop} {q : List String → Prop}

/-- A regrouped expression has the linear program of the expression. -/
theorem program_regroup
    (rename : String → String) :
    ∀ (before : Option Expr) {e : Expr}, e.Bears p q →
      (regroup rename before e).program =
        before.elim [] program ++
          conjFrom before.isSome (e.factors fun name => (rename name, false))
  | before, contact name, _ => by
      rw [regroup, program_after, factors, conjFrom_singleton]
      rfl
  | before, call tokens, _ => by
      rw [regroup, program_after, factors, conjFrom_singleton]
      rfl
  | before, not (contact name), _ => by
      rw [regroup, program_after, factors, conjFrom_singleton]
      rfl
  | before, and left right, h => by
      rw [regroup, program_regroup rename _ h.2, factors,
        conjFrom_append before.isSome left.factors_ne_nil, ← List.append_assoc]
      exact congrArg (· ++ _) (program_regroup rename before h.1)
  | before, or left right, h => by
      rw [regroup, program_after, factors, conjFrom_singleton, program,
        program_regroup rename none h.1, program_regroup rename none h.2]
      rfl

theorem regroup_some_of_isSeries_eq_false
    (rename : String → String) (left : Expr) {e : Expr}
    (h : e.isSeries = false) :
    regroup rename (some left) e = and left (regroup rename none e) := by
  cases e with
  | contact name => rfl
  | call tokens => rfl
  | not operand => cases operand <;> rfl
  | and _ _ => cases h
  | or _ _ => rfl

/-- The last operand of a regrouped series is not a series. -/
theorem exists_regroup_some
    (rename : String → String) (left e : Expr) :
    ∃ left' right', regroup rename (some left) e = and left' right' ∧ right'.isSeries = false := by
  induction e generalizing left with
  | contact name => exact ⟨_, _, rfl, rfl⟩
  | call tokens => exact ⟨_, _, rfl, rfl⟩
  | not operand _ => cases operand <;> exact ⟨_, _, rfl, rfl⟩
  | and _ _ _ ihr => exact ihr _
  | or _ _ _ _ => exact ⟨_, _, rfl, rfl⟩

/-- Exactly the canonical expressions come back from their drawing. -/
theorem regroup_eq_iff :
    ∀ {e : Expr}, e.Bears Named q → (regroup redrawn none e = e ↔ e.Canonical)
  | contact name, h => by
      rw [regroup, after, contact.injEq]
      exact redrawn_eq_iff h
  | call tokens, _ => iff_of_true rfl trivial
  | not (contact name), _ => iff_of_false (fun heq => by cases heq) id
  | and left right, h => by
      rw [regroup, Canonical]
      cases hright : right.isSeries with
      | true =>
          refine iff_of_false (fun heq => ?_) (fun hcanonical => Bool.noConfusion hcanonical.2.2)
          obtain ⟨left', right', hregroup, hright'⟩ :=
            exists_regroup_some redrawn (regroup redrawn none left) right
          rw [hregroup, and.injEq] at heq
          rw [heq.2, hright] at hright'
          cases hright'
      | false =>
          rw [regroup_some_of_isSeries_eq_false redrawn _ hright, and.injEq, regroup_eq_iff h.1,
            regroup_eq_iff h.2]
          simp
  | or left right, h => by
      rw [regroup, after, or.injEq, regroup_eq_iff h.1, regroup_eq_iff h.2, Canonical]

theorem Lone.exists_linear
    {label : String → String × Bool} :
    ∀ {e : Expr}, e.Lone label → ∃ name, e.linear label = [.read name]
  | contact name, h => ⟨(label name).1, by
      rw [linear, factors, contactCode, show (label name).2 = false from h]
      rfl⟩
  | not (contact name), h => ⟨(label (toggle name)).1, by
      rw [linear, factors, contactCode, show (label (toggle name)).2 = false from h]
      rfl⟩

/-- A single contact is read with the mark that it is drawn with. -/
theorem Bears.lone_iff :
    ∀ {e : Expr}, e.Bears CanonicalName q → (e.Lone drawnLabel ↔ e.Lone unmark)
  | contact _, h => by rw [Lone, Lone, (CanonicalName.toTrimmedName h).drawnLabel_eq]
  | call _, _ => Iff.rfl
  | not (contact _), h => by rw [Lone, Lone, (CanonicalName.toTrimmedName h).drawnLabel_eq]
  | and _ _, _ => Iff.rfl
  | or _ _, _ => Iff.rfl

theorem Canonical.bears
    {e : Expr}
    (h : e.Canonical) (hcalls : e.Bears p q) :
    e.Bears CanonicalName q := by
  induction e with
  | contact name => exact h
  | call tokens => exact hcalls
  | not operand _ => exact absurd h id
  | and left right ihl ihr => exact ⟨ihl h.1 hcalls.1, ihr h.2.1 hcalls.2⟩
  | or left right ihl ihr => exact ⟨ihl h.1 hcalls.1, ihr h.2 hcalls.2⟩

end Regroup

section Folding

variable {p : String → Prop} {q : List String → Prop} {label : String → String × Bool}

/-- The program of an expression starts with an operand. -/
theorem exists_factors_eq_cons :
    ∀ {e : Expr}, e.Bears p q →
      ∃ i first others, e.factors label = (i :: first) :: others ∧ i ≠ .invert
  | contact name, _ => ⟨_, _, [], rfl, by simp⟩
  | call tokens, _ => ⟨_, _, [], rfl, by simp⟩
  | not (contact name), _ => ⟨_, _, [], rfl, by simp⟩
  | and left right, h => by
      obtain ⟨i, first, others, hfactors, hi⟩ := exists_factors_eq_cons h.1
      refine ⟨i, first, others ++ right.factors label, ?_, hi⟩
      rw [factors, hfactors, List.cons_append]
  | or left right, h => by
      obtain ⟨i, first, others, hfactors, hi⟩ := exists_factors_eq_cons h.1
      refine ⟨i, first ++ others.flatMap (· ++ [.conj]) ++
        chain .conj (right.factors label) ++ [.disj], [], ?_, hi⟩
      rw [factors, hfactors]
      simp [chain]

theorem head?_conjFrom_ne_invert
    {e : Expr}
    (h : e.Bears p q) (joined : Bool) (rest : Program) :
    (conjFrom joined (e.factors label) ++ rest).head? ≠ some .invert := by
  obtain ⟨i, first, others, hfactors, hi⟩ := exists_factors_eq_cons h
  rw [hfactors]
  cases joined <;> simpa [conjFrom, chain] using hi

theorem run_join
    (joined : Bool) (rest : Program) :
    Folding.run none (join joined ++ rest) = join joined ++ Folding.run none rest := by
  cases joined with
  | false => rfl
  | true => exact Folding.run_cons_of_settled (fun _ h => by cases h) (fun h => by cases h)

theorem run_contactCode
    (joined : Bool) (l : String × Bool) {rest : Program}
    (hrest : joined = false → l.2 = false → rest.head? ≠ some .invert) :
    Folding.run none (conjFrom joined [contactCode l] ++ rest) =
      conjFrom joined [contactCode (foldedName l, false)] ++ Folding.run none rest := by
  rw [conjFrom_singleton, conjFrom_singleton, List.append_assoc, List.append_assoc, ← run_join]
  obtain ⟨name, negated⟩ := l
  cases negated with
  | true => exact Folding.run_read_invert name _
  | false =>
      refine Folding.run_cons_of_settled (fun _ _ => ?_) (fun h => by cases h)
      cases joined with
      | false => exact hrest rfl rfl
      | true => simp [join, inversion]

/-- Folding puts the negations of an expression into its names.  A negation that follows must not
find a single contact without one. -/
theorem run_factors
    (label : String → String × Bool) :
    ∀ (joined : Bool) {e : Expr} (rest : Program), e.Bears p q →
      (joined = false → e.Lone label → rest.head? ≠ some .invert) →
      Folding.run none (conjFrom joined (e.factors label) ++ rest) =
        conjFrom joined (e.factors fun name => (foldedName (label name), false)) ++
          Folding.run none rest
  | joined, contact name, _, _, hrest => run_contactCode joined (label name) hrest
  | joined, call tokens, rest, _, _ => by
      rw [factors, factors, conjFrom_singleton, List.append_assoc, List.append_assoc, ← run_join]
      exact Folding.run_cons_of_settled (fun _ h => by cases h) (fun h => by cases h)
  | joined, not (contact name), _, _, hrest => run_contactCode joined (label (toggle name)) hrest
  | joined, and left right, rest, h, _ => by
      rw [factors, factors, conjFrom_append joined left.factors_ne_nil,
        conjFrom_append joined left.factors_ne_nil, List.append_assoc, List.append_assoc,
        run_factors label joined _ h.1 (fun _ _ => head?_conjFrom_ne_invert h.2 true rest),
        run_factors label true rest h.2 (fun hjoined => by cases hjoined)]
  | joined, or left right, rest, h, _ => by
      have hdisj : Folding.run none (.disj :: (join joined ++ rest)) =
          .disj :: (join joined ++ Folding.run none rest) := by
        rw [← run_join]
        exact Folding.run_cons_of_settled (fun _ h => by cases h) (fun h => by cases h)
      have hright := run_factors label false (.disj :: (join joined ++ rest)) h.2
        (fun _ _ => by simp)
      have hleft := run_factors label false
        (conjFrom false (right.factors label) ++ .disj :: (join joined ++ rest)) h.1
        (fun _ _ => head?_conjFrom_ne_invert h.2 false _)
      rw [hright, hdisj] at hleft
      rw [factors, factors, conjFrom_singleton, conjFrom_singleton]
      simpa [conjFrom] using hleft

end Folding

end Expr

namespace Coil

/-- A coil that comes back from its drawing: its name and its value do, and a negated coil is not
driven by a single contact without a negation mark. -/
structure Canonical (c : Coil) : Prop where
  name : CanonicalName c.name
  value : c.value.Canonical
  marked : (unmark c.name).2 = true → ¬ c.value.Lone unmark

instance : DecidablePred Canonical := fun c =>
  decidable_of_iff
    (CanonicalName c.name ∧ c.value.Canonical ∧
      ((unmark c.name).2 = true → ¬ c.value.Lone unmark))
    ⟨fun h => ⟨h.1, h.2.1, h.2.2⟩, fun h => ⟨h.name, h.value, h.marked⟩⟩

section Folding

variable {c : Coil} {q : List String → Prop}

theorem run_coilCode
    (l : String × Bool) (rest : Program) :
    Folding.run none (coilCode l ++ rest) = .write (foldedName l) :: Folding.run none rest := by
  obtain ⟨name, negated⟩ := l
  cases negated with
  | false => exact Folding.run_cons_of_settled (fun _ h => by cases h) (fun h => by cases h)
  | true => exact Folding.run_invert_write name rest

/-- The coil that comes back from the drawing of a coil, where the negation of the coil cannot go to
its value. -/
def redrawn (c : Coil) : Coil :=
  ⟨RelayLadder.redrawn c.name, c.value.regroup RelayLadder.redrawn none⟩

/-- Folding puts the negations of a coil into its names. -/
theorem run_linear
    (hvalue : c.value.Bears Named q)
    (h : (drawnLabel c.name).2 = true → ¬ c.value.Lone drawnLabel) (rest : Program) :
    Folding.run none (c.linear drawnLabel ++ rest) =
      c.redrawn.program ++ Folding.run none rest := by
  have hcode : c.value.Lone drawnLabel →
      (coilCode (drawnLabel c.name) ++ rest).head? ≠ some .invert := by
    intro hlone
    have hplain : (drawnLabel c.name).2 = false := Bool.eq_false_iff.mpr fun hmark => h hmark hlone
    simp [coilCode, inversion, hplain]
  have hfactors := Expr.run_factors drawnLabel false (coilCode (drawnLabel c.name) ++ rest) hvalue
    (fun _ => hcode)
  have hvalue' := Expr.program_regroup RelayLadder.redrawn none hvalue
  rw [run_coilCode] at hfactors
  rw [linear, List.append_assoc, program, redrawn, hvalue', List.append_assoc]
  exact hfactors

/-- The negation of a coil that follows a single contact goes to that contact. -/
theorem exists_run_linear_of_lone
    (hmark : (drawnLabel c.name).2 = true) (hlone : c.value.Lone drawnLabel) :
    ∃ name, ∀ rest, Folding.run none (c.linear drawnLabel ++ rest) =
      (Coil.mk (drawnLabel c.name).1 (.contact name)).program ++ Folding.run none rest := by
  obtain ⟨name, hvalue⟩ := hlone.exists_linear
  refine ⟨toggle name, fun rest => ?_⟩
  have hwrite : Folding.run none (.write (drawnLabel c.name).1 :: rest) =
      .write (drawnLabel c.name).1 :: Folding.run none rest :=
    Folding.run_cons_of_settled (fun _ h => by cases h) (fun h => by cases h)
  rw [linear, hvalue, coilCode, hmark]
  exact (Folding.run_read_invert name _).trans (congrArg (.read (toggle name) :: ·) hwrite)

theorem redrawn_eq_iff
    (hname : Named c.name) (hvalue : c.value.Bears Named q) :
    c.redrawn = c ↔ CanonicalName c.name ∧ c.value.Canonical := by
  rw [← RelayLadder.redrawn_eq_iff hname, ← Expr.regroup_eq_iff hvalue]
  cases c
  rw [redrawn, Coil.mk.injEq]

/-- The linear program of a coil folds to the program of a coil, and exactly the canonical coils
come back. -/
theorem exists_folded
    (hname : Named c.name) (hvalue : c.value.Bears Named q) :
    ∃ c' : Coil, (∀ rest, Folding.run none (c.linear drawnLabel ++ rest) =
      c'.program ++ Folding.run none rest) ∧ (c' = c ↔ c.Canonical) := by
  by_cases hlone : (drawnLabel c.name).2 = true ∧ c.value.Lone drawnLabel
  · obtain ⟨name, hrun⟩ := exists_run_linear_of_lone hlone.1 hlone.2
    refine ⟨_, hrun, iff_of_false (fun heq => ?_) (fun hc => ?_)⟩
    · have hlt := length_drawnLabel_lt hlone.1
      rw [show (drawnLabel c.name).1 = c.name from congrArg Coil.name heq] at hlt
      exact absurd hlt (lt_irrefl _)
    · refine hc.marked ?_ ((hc.value.bears hvalue).lone_iff.mp hlone.2)
      rw [← hc.name.drawnLabel_eq]
      exact hlone.1
  · refine ⟨c.redrawn, run_linear hvalue fun hmark hl => hlone ⟨hmark, hl⟩, ?_⟩
    rw [redrawn_eq_iff hname hvalue]
    refine ⟨fun h => ⟨h.1, h.2, fun hmark hl => ?_⟩, fun h => ⟨h.name, h.value⟩⟩
    rw [← h.1.drawnLabel_eq] at hmark
    exact hlone ⟨hmark, (h.2.bears hvalue).lone_iff.mpr hl⟩

end Folding

end Coil

end RelayLadder
