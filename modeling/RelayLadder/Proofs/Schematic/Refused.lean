import RelayLadder.Proofs.Schematic.Stream

/-!
# Coils that cannot be drawn

A negation in front of a contact is part of the contact's name.  No other negation can
be drawn, and what stands inside it is not looked at.  Before anything is drawn, a canvas
has to be made, and this fails if it is too wide.

**Results.**
* `mem_negated_iff`: the list of negated expressions has every negation that is outside
  other negations.
* `undrawable?_eq`: of this list, drawing refuses the first one that is not a contact.
* `findSome?_refusal?_eq_some_iff`: which one that is.
* `emit_eq`, `emit_of_le`: on which canvases coils are drawn.
* `emit_refused`: nothing but a negation can go wrong when coils are drawn on a canvas that
  is not too wide.
-/

namespace RelayLadder
namespace Expr

section Negations

/-- The expression `e` occurs in another one, outside the negations of that one. -/
inductive Exposed (e : Expr) : Expr → Prop
  | here : Exposed e e
  | andLeft {left : Expr} (right : Expr) (h : Exposed e left) : Exposed e (.and left right)
  | andRight {right : Expr} (left : Expr) (h : Exposed e right) : Exposed e (.and left right)
  | orLeft {left : Expr} (right : Expr) (h : Exposed e left) : Exposed e (.or left right)
  | orRight {right : Expr} (left : Expr) (h : Exposed e right) : Exposed e (.or left right)

/-- The operands of the negations that are outside other negations, in drawing order: a series from
left to right, branches from top to bottom. -/
def negated : Expr → List Expr
  | .contact _ => []
  | .call _ => []
  | .not operand => [operand]
  | .and left right => left.negated ++ right.negated
  | .or left right => left.negated ++ right.negated

def IsContact (e : Expr) : Prop :=
  ∃ name, e = .contact name

/-- What the refusal to negate an expression says; a contact is not refused. -/
def refusal? : Expr → Option String
  | .contact _ => none
  | e => some e.kind

theorem mem_negated_iff
    {operand e : Expr} :
    operand ∈ e.negated ↔ Exposed (.not operand) e := by
  constructor
  · intro hmem
    induction e with
    | contact name => cases hmem
    | call tokens => cases hmem
    | not e _ =>
        rw [List.mem_singleton.mp hmem]
        exact .here
    | and left right ihl ihr =>
        rcases List.mem_append.mp hmem with hmem | hmem
        · exact .andLeft right (ihl hmem)
        · exact .andRight left (ihr hmem)
    | or left right ihl ihr =>
        rcases List.mem_append.mp hmem with hmem | hmem
        · exact .orLeft right (ihl hmem)
        · exact .orRight left (ihr hmem)
  · intro hexposed
    induction hexposed with
    | here => exact List.mem_cons_self
    | andLeft right _ ih => exact List.mem_append_left _ ih
    | andRight left _ ih => exact List.mem_append_right _ ih
    | orLeft right _ ih => exact List.mem_append_left _ ih
    | orRight left _ ih => exact List.mem_append_right _ ih

theorem refusal?_eq_none_iff
    {e : Expr} :
    e.refusal? = none ↔ e.IsContact := by
  cases e <;> simp [refusal?, IsContact]

theorem refusal?_eq_some_iff
    {e : Expr} {kind : String} :
    e.refusal? = some kind ↔ ¬ e.IsContact ∧ kind = e.kind := by
  cases e <;> simp [refusal?, IsContact, eq_comm]

/-- Drawing refuses the first negated expression that is not a contact. -/
theorem undrawable?_eq
    (e : Expr) :
    e.undrawable? = e.negated.findSome? refusal? := by
  induction e with
  | contact name => rfl
  | call tokens => rfl
  | not operand _ => cases operand <;> rfl
  | and left right ihl ihr => rw [undrawable?, negated, List.findSome?_append, ihl, ihr]
  | or left right ihl ihr => rw [undrawable?, negated, List.findSome?_append, ihl, ihr]

theorem undrawable?_eq_none_iff
    {e : Expr} :
    e.undrawable? = none ↔ ∀ operand, Exposed (.not operand) e → operand.IsContact := by
  rw [undrawable?_eq, List.findSome?_eq_none_iff]
  refine forall_congr' fun operand => ?_
  rw [mem_negated_iff, refusal?_eq_none_iff]

/-- The first expression that is refused: those before it are contacts. -/
theorem findSome?_refusal?_eq_some_iff
    {operands : List Expr} {kind : String} :
    operands.findSome? refusal? = some kind ↔
      ∃ before operand after, operands = before ++ operand :: after ∧
        (∀ e ∈ before, e.IsContact) ∧ ¬ operand.IsContact ∧ kind = operand.kind := by
  rw [List.findSome?_eq_some_iff]
  constructor
  · rintro ⟨before, operand, after, hsplit, hrefused, hbefore⟩
    obtain ⟨hoperand, hkind⟩ := refusal?_eq_some_iff.mp hrefused
    refine ⟨before, operand, after, hsplit, fun e he => ?_, hoperand, hkind⟩
    exact refusal?_eq_none_iff.mp (hbefore e he)
  · rintro ⟨before, operand, after, hsplit, hbefore, hoperand, hkind⟩
    refine ⟨before, operand, after, hsplit, refusal?_eq_some_iff.mpr ⟨hoperand, hkind⟩, ?_⟩
    exact fun e he => refusal?_eq_none_iff.mpr (hbefore e he)

end Negations

end Expr

namespace Coil

theorem findSome?_undrawable?
    (cs : List Coil) :
    cs.findSome? Coil.undrawable? = (cs.flatMap (·.value.negated)).findSome? Expr.refusal? := by
  induction cs with
  | nil => rfl
  | cons c cs ih =>
      rw [Drawing.findSome?_cons_eq_or, List.flatMap_cons, List.findSome?_append, ih, undrawable?,
        Expr.undrawable?_eq]

end Coil

namespace Schematic

section Canvases

variable {width : Nat}

/-- On a canvas that is not too wide, coils are drawn as on a blank one. -/
theorem emit_eq
    (h : width < Canvas.widthLimit) (cs : List Coil) :
    emit cs width = ofCoils cs width := by
  rw [emit, Canvas.ofWidth, if_pos h]
  rfl

/-- A canvas that is too wide is not made, whatever the coils are. -/
theorem emit_of_le
    (h : Canvas.widthLimit ≤ width) (cs : List Coil) :
    emit cs width = .error (.tooWide width) := by
  rw [emit, Canvas.ofWidth, if_neg (Nat.not_lt.mpr h)]
  rfl

end Canvases

/-- **Only negations can be refused.**  On a canvas that is not too wide, drawing coils stops for
faults only: every row, cell and part of a row that it looks up is there, and no number of rows or
columns becomes negative.  It never leaves the canvas.  It gives a schematic exactly when every
negation outside other negations is that of a contact; otherwise it stops for the first one, in
drawing order, that is not. -/
theorem emit_refused
    (cs : List Coil) (width : Nat) (hwidth : width < Canvas.widthLimit) :
    (∀ stop, emit cs width = .error stop → ∃ cause, stop = .fault cause) ∧
    (∀ edge row col, emit cs width ≠ .error (.fault (.canvasEdge edge row col))) ∧
    ((∃ text, emit cs width = .ok text) ↔
      ∀ c ∈ cs, ∀ operand, Expr.Exposed (.not operand) c.value → operand.IsContact) ∧
    ∀ stop, emit cs width = .error stop ↔
      ∃ before operand after, cs.flatMap (·.value.negated) = before ++ operand :: after ∧
        (∀ e ∈ before, e.IsContact) ∧ ¬ operand.IsContact ∧
        stop = .fault (.undrawableNegation operand.kind) := by
  rw [emit_eq hwidth]
  refine ⟨?_, ?_, ?_, ?_⟩
  · intro stop hstop
    obtain ⟨kind, -, rfl⟩ := ofCoils_eq_error_iff.mp hstop
    exact ⟨_, rfl⟩
  · intro edge row col hstop
    obtain ⟨kind, -, heq⟩ := ofCoils_eq_error_iff.mp hstop
    cases heq
  · rw [exists_ofCoils_iff]
    exact forall₂_congr fun c _ => Expr.undrawable?_eq_none_iff
  · intro stop
    rw [ofCoils_eq_error_iff, Coil.findSome?_undrawable?]
    constructor
    · rintro ⟨kind, hkind, rfl⟩
      obtain ⟨before, operand, after, hsplit, hbefore, hoperand, rfl⟩ :=
        Expr.findSome?_refusal?_eq_some_iff.mp hkind
      exact ⟨before, operand, after, hsplit, hbefore, hoperand, rfl⟩
    · rintro ⟨before, operand, after, hsplit, hbefore, hoperand, rfl⟩
      refine ⟨operand.kind, Expr.findSome?_refusal?_eq_some_iff.mpr ?_, rfl⟩
      exact ⟨before, operand, after, hsplit, hbefore, hoperand, rfl⟩

/-- A negated contact is drawn; of the two other negations, the one on the left is reported. -/
theorem emit_refused_left :
    emit [⟨"P", .not (.contact "A")⟩, ⟨"Q", .or (.contact "B")
      (.and (.not (.call ["T"])) (.not (.not (.contact "C"))))⟩] 80 =
      .error (.fault (.undrawableNegation "call")) := by
  refine ((emit_refused _ 80 (by decide)).2.2.2 _).mpr
    ⟨[.contact "A"], .call ["T"], [.not (.contact "C")], rfl, ?_, ?_, rfl⟩
  · exact List.forall_mem_singleton.mpr ⟨"A", rfl⟩
  · rintro ⟨name, hname⟩
    cases hname

/-- On the narrowest canvas that is too wide, a negation is not even looked at. -/
theorem emit_tooWide :
    emit [⟨"X", .not (.call ["f"])⟩] 2305843009213693952 =
      .error (.tooWide 2305843009213693952) :=
  emit_of_le (by decide) _

end Schematic
end RelayLadder
