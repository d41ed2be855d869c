import Mathlib.Data.List.Forall2
import Mathlib.Tactic.Common

/-!
# Computations that can fail

Binds and maps of `Except`, with the fault kept or forgotten.
-/

namespace RelayLadder

section Bind

variable {ε α β : Type}

theorem toOption_bind
    (x : Except ε α) (f : α → Except ε β) :
    (x >>= f).toOption = x.toOption.bind fun a => (f a).toOption := by
  cases x with
  | error _ => rfl
  | ok _ => rfl

theorem toOption_mapM
    (f : α → Except ε β) (l : List α) :
    (l.mapM f).toOption = l.mapM fun a => (f a).toOption := by
  induction l with
  | nil => rfl
  | cons a l ih =>
      rw [List.mapM_cons, List.mapM_cons, toOption_bind]
      cases (f a).toOption with
      | none => rfl
      | some b =>
          change ((l.mapM f >>= fun bs => pure (b :: bs)).toOption) = _
          rw [toOption_bind, ih]
          rfl

theorem mapM_eq_of_forall₂
    {γ : Type} {m : Type → Type} [Monad m] [LawfulMonad m] {f : α → m β} {g : γ → m β}
    {l : List α} {l' : List γ}
    (h : List.Forall₂ (fun a b => f a = g b) l l') :
    l.mapM f = l'.mapM g := by
  induction h with
  | nil => rfl
  | cons hab _ ih => rw [List.mapM_cons, List.mapM_cons, hab, ih]

theorem mapM_eq_some_attach
    {f : α → Option β} {l : List α} {g : {a // a ∈ l} → β}
    (h : ∀ a, f a.1 = some (g a)) :
    l.mapM f = some (l.attach.map g) := by
  calc l.mapM f = (l.attach.map Subtype.val).mapM f := by rw [List.attach_map_subtype_val]
    _ = l.attach.mapM fun a => f a.1 := List.mapM_map
    _ = l.attach.mapM fun a => pure (g a) := by simp only [h, Option.pure_def]
    _ = some (l.attach.map g) := List.mapM_pure

theorem toOption_eq_some_iff
    {x : Except ε α} {a : α} :
    x.toOption = some a ↔ x = .ok a := by
  cases x with
  | error _ => simp [Except.toOption]
  | ok _ => simp [Except.toOption]

/-- A bind that gives a result has results on both sides. -/
theorem bind_eq_ok
    {x : Except ε α} {f : α → Except ε β} {b : β}
    (h : x >>= f = .ok b) :
    ∃ a, x = .ok a ∧ f a = .ok b := by
  cases x with
  | error _ => cases h
  | ok a => exact ⟨a, rfl, h⟩

theorem mapM_eq_some_iff
    {f : α → Option β} {l : List α} {bs : List β} :
    l.mapM f = some bs ↔ List.Forall₂ (fun a b => f a = some b) l bs := by
  induction l generalizing bs with
  | nil => simp [eq_comm]
  | cons a l ih =>
      simp only [List.mapM_cons, Option.pure_def, Option.bind_eq_bind, Option.bind_eq_some_iff,
        Option.some.injEq, ih, List.forall₂_cons_left_iff]
      constructor
      · rintro ⟨b, hb, bs', hbs', rfl⟩
        exact ⟨b, bs', hb, hbs', rfl⟩
      · rintro ⟨b, bs', hb, hbs', rfl⟩
        exact ⟨b, hb, bs', hbs', rfl⟩

theorem mapM_eq_ok_iff
    {f : α → Except ε β} {l : List α} {bs : List β} :
    l.mapM f = .ok bs ↔ List.Forall₂ (fun a b => f a = .ok b) l bs := by
  rw [← toOption_eq_some_iff, toOption_mapM, mapM_eq_some_iff]
  simp only [toOption_eq_some_iff]

/-- A bind that fails does so on one of its sides. -/
theorem bind_eq_error_iff
    {x : Except ε α} {f : α → Except ε β} {e : ε} :
    x >>= f = .error e ↔ x = .error e ∨ ∃ a, x = .ok a ∧ f a = .error e := by
  cases x with
  | error e' =>
      change Except.error e' = .error e ↔ _
      simp
  | ok a =>
      change f a = .error e ↔ _
      simp

/-- Two continuations are compared only at the result of what goes before. -/
theorem bind_congr_of_ok
    {x : Except ε α} {f g : α → Except ε β}
    (h : ∀ a, x = .ok a → f a = g a) :
    x >>= f = x >>= g := by
  cases x with
  | error _ => rfl
  | ok a => exact h a rfl

/-- A list that fails does so at one of its elements. -/
theorem exists_of_mapM_eq_error
    {f : α → Except ε β} {l : List α} {e : ε}
    (h : l.mapM f = .error e) :
    ∃ a ∈ l, f a = .error e := by
  induction l with
  | nil => cases h
  | cons a l ih =>
      rw [List.mapM_cons] at h
      rcases bind_eq_error_iff.mp h with ha | ⟨b, -, h⟩
      · exact ⟨a, List.mem_cons_self, ha⟩
      · rcases bind_eq_error_iff.mp h with hl | ⟨bs, -, h⟩
        · obtain ⟨a', ha', hfa'⟩ := ih hl
          exact ⟨a', List.mem_cons_of_mem a ha', hfa'⟩
        · cases h

/-- An element of a list corresponds to one of the other list. -/
theorem exists_of_mem_left
    {R : α → β → Prop} {l : List α} {bs : List β} {a : α}
    (h : List.Forall₂ R l bs) (ha : a ∈ l) :
    ∃ b ∈ bs, R a b := by
  induction h with
  | nil => cases ha
  | cons hab _ ih =>
      rcases List.mem_cons.mp ha with rfl | ha
      · exact ⟨_, List.mem_cons_self, hab⟩
      · obtain ⟨b, hb, hab'⟩ := ih ha
        exact ⟨b, List.mem_cons_of_mem _ hb, hab'⟩

/-- A list is made from another one whose elements all have a property. -/
theorem forall₂_eq_and_iff
    {f : β → α} {P : β → Prop} {as : List α} {bs : List β} :
    List.Forall₂ (fun a b => a = f b ∧ P b) as bs ↔ as = bs.map f ∧ ∀ b ∈ bs, P b := by
  induction bs generalizing as with
  | nil => simp
  | cons b bs ih =>
      simp only [List.forall₂_cons_right_iff, ih, List.map_cons, List.forall_mem_cons]
      constructor
      · rintro ⟨_, _, ⟨rfl, hb⟩, ⟨rfl, hbs⟩, rfl⟩
        exact ⟨rfl, hb, hbs⟩
      · rintro ⟨rfl, hb, hbs⟩
        exact ⟨_, _, ⟨rfl, hb⟩, ⟨rfl, hbs⟩, rfl⟩

end Bind

section MapError

variable {ε ε' α β : Type} {g : ε → ε'}

theorem mapError_bind
    (x : Except ε α) (f : α → Except ε β) :
    (x >>= f).mapError g = x.mapError g >>= fun a => (f a).mapError g := by
  cases x with
  | error _ => rfl
  | ok _ => rfl

theorem mapError_bind_congr
    {g' : ε → ε'} {x x' : Except ε α} {f f' : α → Except ε β}
    (h : x.mapError g = x'.mapError g') (hf : ∀ a, (f a).mapError g = (f' a).mapError g') :
    (x >>= f).mapError g = (x' >>= f').mapError g' := by
  rw [mapError_bind, mapError_bind, h]
  congr 1
  funext a
  exact hf a

theorem mapError_id
    (x : Except ε α) :
    x.mapError id = x := by
  cases x with
  | error _ => rfl
  | ok _ => rfl

theorem mapError_map
    (f : α → β) (x : Except ε α) :
    (x.map f).mapError g = (x.mapError g).map f := by
  cases x with
  | error _ => rfl
  | ok _ => rfl

/-- Two computations that agree up to the kind of their errors. -/
theorem cases_of_mapError_eq
    {x y : Except ε α}
    (h : x.mapError g = y.mapError g) :
    (∃ a, x = .ok a ∧ y = .ok a) ∨ ∃ e e', x = .error e ∧ y = .error e' ∧ g e = g e' := by
  cases x with
  | error e =>
      cases y with
      | error e' => exact Or.inr ⟨e, e', rfl, rfl, Except.error.inj h⟩
      | ok _ => cases h
  | ok a =>
      cases y with
      | error _ => cases h
      | ok a' =>
          cases h
          exact Or.inl ⟨a, rfl, rfl⟩

theorem mapError_mapM
    (f : α → Except ε β) (l : List α) :
    (l.mapM f).mapError g = l.mapM fun a => (f a).mapError g := by
  induction l with
  | nil => rfl
  | cons a l ih =>
      rw [List.mapM_cons, List.mapM_cons, mapError_bind, ← ih]
      congr 1
      funext b
      exact mapError_bind _ _

end MapError

end RelayLadder
