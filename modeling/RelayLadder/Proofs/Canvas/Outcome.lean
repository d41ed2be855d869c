import RelayLadder.Proofs.Canvas.Sheet

/-!
# How drawing actions end

An action on a canvas ends with a sheet of which something is known, or it stops
because a negation is refused; nothing else can stop a drawing.  `Ends` says both how
an action ends and for which negation it stops.

**Results.**
* `Does.bind_ends`, `Ends.bind`, `Ends.bind_does`: actions in a row.  The first refusal
  counts.
-/

namespace RelayLadder
namespace Canvas

section Outcomes

variable {α β : Type} {refusal refusal' : Option String} {s s' : Sheet}
variable {act : Action α} {next : α → Action β}
variable {post : α → Sheet → Prop} {post' : β → Sheet → Prop}

/-- The action stops for the negation that is refused.  If none is, it ends, and the postcondition
holds of its result and of the sheet that it leaves. -/
def Ends (refusal : Option String) (act : Action α) (s : Sheet) (post : α → Sheet → Prop) : Prop :=
  match refusal with
  | none => ∃ a s', Does act s a s' ∧ post a s'
  | some kind => ∀ c : Canvas, c.Uniform → c.sheet = s →
      ∃ c', act.run c = .error (.fault (.undrawableNegation kind)) c'

theorem Does.bind_ends
    {a : α}
    (h : Does act s a s') (hnext : Ends refusal (next a) s' post') :
    Ends refusal (act >>= next) s post' := by
  cases refusal with
  | none =>
      obtain ⟨b, s'', hdoes, hpost⟩ := hnext
      exact ⟨b, s'', h.bind hdoes, hpost⟩
  | some kind =>
      intro c hc hs
      obtain ⟨c', hact, hc', hs'⟩ := h c hc hs
      obtain ⟨c'', hstop⟩ := hnext c' hc' hs'
      exact ⟨c'', (run_bind_of_ok hact).trans hstop⟩

/-- Of two actions in a row, the refusal of the first one counts. -/
theorem Ends.bind
    (h : Ends refusal act s post)
    (hnext : ∀ a s', post a s' → Ends refusal' (next a) s' post') :
    Ends (refusal.or refusal') (act >>= next) s post' := by
  cases refusal with
  | none =>
      obtain ⟨a, s', hdoes, hpost⟩ := h
      exact hdoes.bind_ends (hnext a s' hpost)
  | some kind =>
      intro c hc hs
      obtain ⟨c', hstop⟩ := h c hc hs
      exact ⟨c', run_bind_of_error hstop⟩

theorem Ends.mono
    {post' : α → Sheet → Prop}
    (h : Ends refusal act s post) (hpost : ∀ a s', post a s' → post' a s') :
    Ends refusal act s post' := by
  cases refusal with
  | none =>
      obtain ⟨a, s', hdoes, hs'⟩ := h
      exact ⟨a, s', hdoes, hpost a s' hs'⟩
  | some kind => exact h

/-- Nothing is refused after an action. -/
theorem Ends.bind_does
    (h : Ends refusal act s post)
    (hnext : ∀ a s', post a s' → ∃ b s'', Does (next a) s' b s'' ∧ post' b s'') :
    Ends refusal (act >>= next) s post' := by
  have hends : ∀ a s', post a s' → Ends none (next a) s' post' := hnext
  simpa only [Option.or_none] using h.bind hends

/-- An action that looks at the canvas first, for something that the sheet shows as well. -/
theorem ends_get_bind
    {next : Canvas → Action β} {rest : Action β}
    (hnext : ∀ c : Canvas, c.sheet = s → next c = rest) (h : Ends refusal rest s post') :
    Ends refusal (get >>= next) s post' := by
  cases refusal with
  | none =>
      obtain ⟨b, s', hdoes, hpost⟩ := h
      refine ⟨b, s', does_get_bind fun c hs => ?_, hpost⟩
      rw [hnext c hs]
      exact hdoes
  | some kind =>
      intro c hc hs
      obtain ⟨c', hstop⟩ := h c hc hs
      refine ⟨c', ?_⟩
      change (next c).run c = _
      rw [hnext c hs]
      exact hstop

end Outcomes

end Canvas
end RelayLadder
