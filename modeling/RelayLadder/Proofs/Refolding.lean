import RelayLadder.Proofs.Drawing.Refusal
import RelayLadder.Proofs.Receiver

/-!
# Folding a folded program

**Folding as a relation.**  `Folds p q` says how the folded program `q` comes from `p`.
Folding once more changes nothing when no `invert` follows on another one
(`folded_folded`).  Otherwise an `invert` that is left can stand behind a `read` or
before a `write`, and folding goes on.

**Coils as they are shown.**  The negation of a contact is drawn as a contact with a
toggled name.  `Expr.shown` puts this contact in its place.

**Results.**
* `alike_of_folds`: folding the program of drawable coils changes how they are shown
  in one way only.  A coil that is driven by a negated contact can lose this negation
  and be negated itself.
-/

namespace RelayLadder
namespace Folding

section Relation

variable {i : Instruction} {p q : Program}

/-- An instruction is not folded with the first one behind it. -/
def Settled (i : Instruction) (rest : Program) : Prop :=
  (∀ name, i = .read name → rest.head? ≠ some .invert) ∧
    (i = .invert → ∀ name, rest.head? ≠ some (.write name))

/-- The second program is the first one with its negations folded. -/
inductive Folds : Program → Program → Prop
  | nil : Folds [] []
  | read {name : String} {p q : Program} :
      Folds p q → Folds (.read name :: .invert :: p) (.read (toggle name) :: q)
  | write {name : String} {p q : Program} :
      Folds p q → Folds (.invert :: .write name :: p) (.write (toggle name) :: q)
  | cons {i : Instruction} {p q : Program} : Settled i p → Folds p q → Folds (i :: p) (i :: q)

theorem exists_of_not_settled
    (h : ¬ Settled i p) :
    (∃ name rest, i = .read name ∧ p = .invert :: rest) ∨
      ∃ name rest, i = .invert ∧ p = .write name :: rest := by
  rw [Settled, not_and_or] at h
  push Not at h
  rcases h with ⟨name, hi, hhead⟩ | ⟨hi, name, hhead⟩
  · obtain ⟨rest, hp⟩ := List.head?_eq_some_iff.mp hhead
    exact Or.inl ⟨name, rest, hi, hp⟩
  · obtain ⟨rest, hp⟩ := List.head?_eq_some_iff.mp hhead
    exact Or.inr ⟨name, rest, hi, hp⟩

theorem folds_run :
    ∀ p : Program, Folds p (run none p)
  | [] => .nil
  | i :: p => by
      by_cases h : Settled i p
      · rw [run_cons_of_settled h.1 h.2]
        exact .cons h (folds_run p)
      · rcases exists_of_not_settled h with ⟨name, rest, rfl, rfl⟩ | ⟨name, rest, rfl, rfl⟩
        · exact .read (folds_run rest)
        · exact .write (folds_run rest)

theorem Folds.head_invert
    (h : Folds p q) (hq : q.head? = some .invert) :
    p.head? = some .invert := by
  cases h with
  | nil => cases hq
  | read _ => cases hq
  | write _ => cases hq
  | cons _ _ => exact hq

theorem Folds.head_write
    {name : String}
    (h : Folds p q) (hq : q.head? = some (.write name)) :
    p.head? = some (.write name) ∨ p.head? = some .invert := by
  cases h with
  | nil => cases hq
  | read _ => cases hq
  | write _ => exact Or.inr rfl
  | cons _ _ => exact Or.inl hq

theorem infix_of_head
    (hp : p.head? = some .invert) :
    [.invert, .invert] <:+: .invert :: p := by
  obtain ⟨rest, rfl⟩ := List.head?_eq_some_iff.mp hp
  exact ⟨[], rest, rfl⟩

/-- Where no `invert` follows on another one, the folded program is settled throughout. -/
theorem Folds.run_eq
    (h : Folds p q) (hp : ¬ [.invert, .invert] <:+: p) :
    run none q = q := by
  induction h with
  | nil => rfl
  | @read name p q h ih =>
      have hhead : q.head? ≠ some .invert := fun hq =>
        hp (List.infix_cons (infix_of_head (h.head_invert hq)))
      rw [run_cons_of_settled (fun _ _ => hhead) (fun hi => by cases hi),
        ih fun hin => hp (List.infix_cons (List.infix_cons hin))]
  | @write name p q h ih =>
      rw [run_cons_of_settled (fun _ hi => by cases hi) (fun hi => by cases hi),
        ih fun hin => hp (List.infix_cons (List.infix_cons hin))]
  | @cons i p q hsettled h ih =>
      have hread : ∀ name, i = .read name → q.head? ≠ some .invert := fun name hi hq =>
        hsettled.1 name hi (h.head_invert hq)
      have hinvert : i = .invert → ∀ name, q.head? ≠ some (.write name) := by
        rintro rfl name hq
        rcases h.head_write hq with hhead | hhead
        · exact hsettled.2 rfl name hhead
        · exact hp (infix_of_head hhead)
      rw [run_cons_of_settled hread hinvert, ih fun hin => hp (List.infix_cons hin)]

/-- Folding once more changes nothing if no `invert` follows on another one. -/
theorem folded_folded
    (hp : ¬ [.invert, .invert] <:+: p) :
    p.folded.folded = p.folded :=
  (folds_run p).run_eq hp

end Relation

end Folding

section Shown

/-- The expression with every negation of a contact replaced by the contact that is drawn. -/
def Expr.shown : Expr → Expr
  | .not (.contact name) => .contact (toggle name)
  | .and left right => .and left.shown right.shown
  | .or left right => .or left.shown right.shown
  | e => e

/-- The coil with its value as it is drawn. -/
def Coil.shown (c : Coil) : Coil :=
  ⟨c.name, c.value.shown⟩

theorem Drawing.branchesOf_shown
    (e : Expr) :
    branchesOf e.shown = branchesOf e := by
  induction e with
  | contact name => rfl
  | call tokens => rfl
  | not operand _ => cases operand <;> rfl
  | and left right ihl ihr => simp only [Expr.shown, branchesOf, ihl, ihr]
  | or left right ihl ihr => simp only [Expr.shown, branchesOf, ihl, ihr]

theorem Coil.undrawable?_shown
    (c : Coil) :
    c.shown.undrawable? = c.undrawable? := by
  have hexpr : ∀ e : Expr, e.shown.undrawable? = e.undrawable? := by
    intro e
    induction e with
    | contact name => rfl
    | call tokens => rfl
    | not operand _ => cases operand <;> rfl
    | and left right ihl ihr => simp only [Expr.shown, Expr.undrawable?, ihl, ihr]
    | or left right ihl ihr => simp only [Expr.shown, Expr.undrawable?, ihl, ihr]
  exact hexpr c.value

theorem Drawing.coil_shown
    (c : Coil) :
    coil c.shown = coil c := by
  have hexpr : expr c.value.shown = expr c.value :=
    congrArg drawBranches (branchesOf_shown c.value)
  rw [coil, coil, Coil.shown, hexpr]

theorem Drawing.forM_map_shown
    (cs : List Coil) :
    (cs.map Coil.shown).forM coil = cs.forM coil := by
  induction cs with
  | nil => rfl
  | cons c cs ih =>
      change (coil c.shown >>= fun _ => (cs.map Coil.shown).forM coil) = _
      rw [coil_shown, ih]
      rfl

/-- Two expressions are shown alike, unless one of them cannot be drawn. -/
def Expr.Alike (e e' : Expr) : Prop :=
  e.undrawable? = none → e'.undrawable? = none → e.shown = e'.shown

/-- The coils are equal, or the first is driven by a negated contact and the second by the contact
itself, and is negated for that. -/
def Coil.Moved (c c' : Coil) : Prop :=
  c = c' ∨ ∃ name input, c = ⟨name, .contact (toggle input)⟩ ∧ c' = ⟨toggle name, .contact input⟩

/-- Two coils are shown alike, up to a moved negation, unless one of them cannot be drawn. -/
def Coil.Alike (c c' : Coil) : Prop :=
  c.undrawable? = none → c'.undrawable? = none → c.shown.Moved c'.shown

end Shown

namespace Expr

section Alike

variable {e e' f f' : Expr}

/-- A negation can be drawn on a contact only. -/
theorem exists_of_undrawable?_not
    (h : (not e).undrawable? = none) :
    ∃ name, e = contact name := by
  cases e with
  | contact name => exact ⟨name, rfl⟩
  | call _ => cases h
  | not _ => cases h
  | and _ _ => cases h
  | or _ _ => cases h

theorem alike_refl (e : Expr) : Alike e e :=
  fun _ _ => rfl

/-- A negated contact is shown as the contact of the toggled name. -/
theorem alike_toggle (name : String) : Alike (not (contact name)) (contact (toggle name)) :=
  fun _ _ => rfl

theorem Alike.not
    (h : Alike e e') :
    Alike (not e) (not e') := by
  intro he he'
  obtain ⟨name, rfl⟩ := exists_of_undrawable?_not he
  obtain ⟨name', rfl⟩ := exists_of_undrawable?_not he'
  cases h rfl rfl
  rfl

theorem Alike.and
    (h : Alike e e') (hf : Alike f f') :
    Alike (and e f) (and e' f') := by
  intro hef hef'
  obtain ⟨he, hf₁⟩ := Option.or_eq_none_iff.mp hef
  obtain ⟨he', hf₁'⟩ := Option.or_eq_none_iff.mp hef'
  exact congrArg₂ Expr.and (h he he') (hf hf₁ hf₁')

theorem Alike.or
    (h : Alike e e') (hf : Alike f f') :
    Alike (or e f) (or e' f') := by
  intro hef hef'
  obtain ⟨he, hf₁⟩ := Option.or_eq_none_iff.mp hef
  obtain ⟨he', hf₁'⟩ := Option.or_eq_none_iff.mp hef'
  exact congrArg₂ Expr.or (h he he') (hf hf₁ hf₁')

/-- Coils of one name are alike if their values are. -/
theorem Alike.coil
    (h : Alike e e') (name : String) :
    Coil.Alike ⟨name, e⟩ ⟨name, e'⟩ :=
  fun he he' => Or.inl (congrArg (Coil.mk name) (h he he'))

/-- A negation that goes from the value of a coil to its name. -/
theorem Alike.negated
    (h : Alike e e') (name : String) :
    Coil.Alike ⟨name, .not e⟩ ⟨toggle name, e'⟩ := by
  intro he he'
  obtain ⟨input, rfl⟩ := exists_of_undrawable?_not he
  exact Or.inr ⟨name, input, rfl, congrArg (Coil.mk (toggle name)) (h rfl he').symm⟩

end Alike

end Expr

namespace Operands

section Alike

variable {stack stack' left left' : List Expr} {i : Instruction} {coil coil' : Option Coil}
variable {p q : Program} {cs cs' : List Coil}

/-- One instruction on stacks whose operands are alike. -/
theorem alike_step
    (hstack : List.Forall₂ Expr.Alike stack stack')
    (h : step stack i = .ok (left, coil)) (h' : step stack' i = .ok (left', coil')) :
    List.Forall₂ Expr.Alike left left' ∧
      List.Forall₂ Coil.Alike coil.toList coil'.toList := by
  rcases step_cases h with ⟨name, rfl, rfl, rfl⟩ | ⟨tokens, rfl, rfl, rfl⟩ |
    ⟨e, rest, rfl, rfl, rfl, rfl⟩ | ⟨right, left, rest, rfl, rfl, rfl, rfl⟩ |
    ⟨right, left, rest, rfl, rfl, rfl, rfl⟩ | ⟨name, e, rfl, rfl, rfl⟩
  · cases h'
    exact ⟨.cons (Expr.alike_refl _) hstack, .nil⟩
  · cases h'
    exact ⟨.cons (Expr.alike_refl _) hstack, .nil⟩
  · cases hstack with
    | cons he hrest =>
        cases h'
        exact ⟨.cons he.not hrest, .nil⟩
  · cases hstack with
    | cons hright hstack =>
        cases hstack with
        | cons hleft hrest =>
            cases h'
            exact ⟨.cons (hleft.and hright) hrest, .nil⟩
  · cases hstack with
    | cons hright hstack =>
        cases hstack with
        | cons hleft hrest =>
            cases h'
            exact ⟨.cons (hleft.or hright) hrest, .nil⟩
  · cases hstack with
    | cons he hrest =>
        cases h'
        exact ⟨hrest, .cons (he.coil name) .nil⟩

/-- The coils of a program and of the folded program. -/
theorem alike_of_folds
    (h : Folding.Folds p q) (hstack : List.Forall₂ Expr.Alike stack stack')
    (hcs : coils stack p = .ok cs) (hcs' : coils stack' q = .ok cs') :
    List.Forall₂ Coil.Alike cs cs' := by
  induction h generalizing stack stack' cs cs' with
  | nil =>
      cases hstack with
      | nil =>
          cases hcs
          cases hcs'
          exact .nil
      | cons _ _ => cases hcs
  | read _ ih =>
      obtain ⟨_, _, _, hread, hcs₁, rfl⟩ := coils_cons_eq_ok_iff.mp hcs
      cases hread
      obtain ⟨_, _, _, hinvert, hcs₂, rfl⟩ := coils_cons_eq_ok_iff.mp hcs₁
      cases hinvert
      obtain ⟨_, _, _, hread', hcs₁', rfl⟩ := coils_cons_eq_ok_iff.mp hcs'
      cases hread'
      exact ih (.cons (Expr.alike_toggle _) hstack) hcs₂ hcs₁'
  | @write name _ _ _ ih =>
      obtain ⟨_, _, _, hinvert, hcs₁, rfl⟩ := coils_cons_eq_ok_iff.mp hcs
      cases hstack with
      | nil => cases hinvert
      | cons he hrest =>
          cases hinvert
          obtain ⟨_, _, _, hwrite, hcs₂, rfl⟩ := coils_cons_eq_ok_iff.mp hcs₁
          cases hwrite
          obtain ⟨_, _, _, hwrite', hcs₁', rfl⟩ := coils_cons_eq_ok_iff.mp hcs'
          cases hwrite'
          exact .cons (he.negated name) (ih hrest hcs₂ hcs₁')
  | @cons i p q _ _ ih =>
      obtain ⟨left, coil, others, hstep, hothers, rfl⟩ := coils_cons_eq_ok_iff.mp hcs
      obtain ⟨left', coil', others', hstep', hothers', rfl⟩ := coils_cons_eq_ok_iff.mp hcs'
      obtain ⟨hleft, hcoil⟩ := alike_step hstack hstep hstep'
      exact List.rel_append hcoil (ih hleft hothers hothers')

end Alike

end Operands

end RelayLadder
