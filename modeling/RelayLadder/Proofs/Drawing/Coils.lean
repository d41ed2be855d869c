import RelayLadder.Proofs.Drawing.Block

/-!
# Drawing coils

**Expressions.**  `Expr.figures` gives the figures of the branches of an expression,
in the way in which `Drawing.branchesOf` draws them.

**Names.**  `Expr.Bears p q` says that a negation stands on a contact only, that
every name, as it is drawn, satisfies `p`, and that the tokens of every call
satisfy `q`.

**Results.**
* `draws_expr`: an expression is drawn as its figure.
* `exists_coil`, `exists_coils`: each coil is drawn as a rung of its own, from which
  it can be read.
-/

namespace RelayLadder

open Canvas (Action Sheet Does)
open Rung (wired)

namespace Expr

section Defs

/-- The figures of the branches of an expression. -/
def figures : Expr → List Figure
  | contact name => [.contact name]
  | call tokens => [.call tokens]
  | not (contact name) => [.contact (toggle name)]
  | not _ => []
  | and left right => [(Figure.join left.figures).series (Figure.join right.figures)]
  | or left right => left.figures ++ [Figure.join right.figures]

/-- The figure of an expression. -/
def figure (e : Expr) : Figure :=
  Figure.join e.figures

/-- Negations stand on contacts only, every name, as it is drawn, satisfies `p`, and the tokens
of every call satisfy `q`. -/
def Bears (p : String → Prop) (q : List String → Prop) : Expr → Prop
  | contact name => p name
  | call tokens => q tokens
  | not (contact name) => p (toggle name)
  | not _ => False
  | and left right => left.Bears p q ∧ right.Bears p q
  | or left right => left.Bears p q ∧ right.Bears p q

instance Bears.decidable
    (p : String → Prop) (q : List String → Prop) [DecidablePred p] [DecidablePred q] :
    DecidablePred (Bears p q)
  | contact name => inferInstanceAs (Decidable (p name))
  | call tokens => inferInstanceAs (Decidable (q tokens))
  | not (contact name) => inferInstanceAs (Decidable (p (toggle name)))
  | not (call _) => inferInstanceAs (Decidable False)
  | not (not _) => inferInstanceAs (Decidable False)
  | not (and _ _) => inferInstanceAs (Decidable False)
  | not (or _ _) => inferInstanceAs (Decidable False)
  | and left right =>
    have := Bears.decidable p q left
    have := Bears.decidable p q right
    inferInstanceAs (Decidable (left.Bears p q ∧ right.Bears p q))
  | or left right =>
    have := Bears.decidable p q left
    have := Bears.decidable p q right
    inferInstanceAs (Decidable (left.Bears p q ∧ right.Bears p q))

theorem Bears.imp
    {p p' : String → Prop} {q q' : List String → Prop}
    (hp : ∀ name, p name → p' name) (hq : ∀ tokens, q tokens → q' tokens) :
    ∀ {e : Expr}, e.Bears p q → e.Bears p' q'
  | contact name, h => hp name h
  | call tokens, h => hq tokens h
  | not (contact name), h => hp (toggle name) h
  | and _ _, h => ⟨h.1.imp hp hq, h.2.imp hp hq⟩
  | or _ _, h => ⟨h.1.imp hp hq, h.2.imp hp hq⟩

end Defs

end Expr

namespace Drawing

section Expressions

/-- A text stands on one line and does not hold the character that closes it. -/
def Enclosable (closer : Char) (text : List Char) : Prop :=
  '\n' ∉ text ∧ closer ∉ text

/-- A name that can be drawn in a contact. -/
def ContactName (name : String) : Prop :=
  Enclosable ']' name.toList

/-- Tokens that can be drawn in a call. -/
def CallTokens (tokens : List String) : Prop :=
  Enclosable '\x7d' (" ".intercalate tokens).toList

/-- A name that can be drawn in a coil. -/
def CoilName (name : String) : Prop :=
  Enclosable ')' name.toList

theorem branchesOf_ne_nil
    (e : Expr) :
    branchesOf e ≠ [] := by
  cases e with
  | contact name => simp [branchesOf]
  | call tokens => simp [branchesOf]
  | not operand => cases operand <;> simp [branchesOf]
  | and left right => simp [branchesOf]
  | or left right => simp [branchesOf]

/-- Branches are drawn as a block if there is more than one. -/
theorem draws_drawBranches
    {bodies : List (Action Unit)} {figs : List Figure}
    (h : List.Forall₂ Draws bodies figs) (hne : bodies ≠ []) :
    Draws (drawBranches bodies) (Figure.join figs) := by
  cases h with
  | nil => exact absurd rfl hne
  | cons htop hbelow =>
      cases hbelow with
      | nil => exact htop
      | cons hnext hrest => exact htop.block (.cons hnext hrest) (List.cons_ne_nil _ _)

theorem draws_branchesOf
    {e : Expr}
    (h : e.Bears ContactName CallTokens) :
    List.Forall₂ Draws (branchesOf e) e.figures := by
  induction e with
  | contact name => exact .cons (draws_contact h.1 h.2) .nil
  | call tokens => exact .cons (draws_call h.1 h.2) .nil
  | not operand _ =>
      cases operand with
      | contact name => exact .cons (draws_contact h.1 h.2) .nil
      | call _ => exact absurd h id
      | not _ => exact absurd h id
      | and _ _ => exact absurd h id
      | or _ _ => exact absurd h id
  | and left right ihl ihr =>
      have hleft := draws_drawBranches (ihl h.1) (branchesOf_ne_nil left)
      have hright := draws_drawBranches (ihr h.2) (branchesOf_ne_nil right)
      exact .cons (hleft.bind hright) .nil
  | or left right ihl ihr =>
      have hright := draws_drawBranches (ihr h.2) (branchesOf_ne_nil right)
      exact List.rel_append (ihl h.1) (.cons hright .nil)

/-- An expression is drawn as its figure. -/
theorem draws_expr
    {e : Expr}
    (h : e.Bears ContactName CallTokens) :
    Draws (expr e) e.figure :=
  draws_drawBranches (draws_branchesOf h) (branchesOf_ne_nil e)

end Expressions

end Drawing

/-- The wire that the rung of a coil is read as, if it can be read. -/
def Coil.wire? (c : Coil) : Option Wire :=
  (Figure.labelled .coil c.name.toList .finish).bind c.value.figure.onto

/-- The texts of a coil can be drawn. -/
def Coil.Drawable (c : Coil) : Prop :=
  Drawing.CoilName c.name ∧ c.value.Bears Drawing.ContactName Drawing.CallTokens

namespace Drawing

section Coils

variable {s s' : Sheet} {c : Coil}

/-- The cursor is at the start of the last row, which is blank. -/
structure Fresh (s : Sheet) : Prop where
  col_eq : s.col = 0
  row_eq : s.row + 1 = s.height
  row_le : s.row ≤ s.deepest
  blank : ∀ i k, s.row ≤ i → s.look i k = ' '
  clean : ∀ i k, s.look i k ≠ '\n'

/-- The rows from `t` up to, and without, `u` of a plane that is `w` columns wide are a rung from
which the coil is read. -/
structure Page (P : Nat → Nat → Char) (w : Nat) (c : Coil) (t u : Nat) : Prop where
  lt : t < u
  width_pos : 0 < w
  opens : P t 0 = '-'
  hangs : ∀ i, t < i → i < u → P i 0 = ' '
  reads : ∀ rung : Rung,
    (∀ i k, t + i < u → k < w → rung.cell? i k = some (P (t + i) k)) →
    rung.read? .rung 0 0 w = c.wire?

/-- The last row is wired to the right edge, and the cursor is at its start. -/
structure Wired (s s₁ : Sheet) : Prop where
  ready : Ready s₁
  row_eq : s₁.row = s.row
  col_eq : s₁.col = 0
  width_eq : s₁.width = s.width
  height_eq : s₁.height = s.height
  frame : ∀ i k, i ≠ s.row → s₁.look i k = s.look i k
  wire : s₁.col < s₁.width → ∀ k, s₁.look s₁.row k = '-'

/-- The wire under a coil is drawn to the right edge. -/
theorem exists_wired
    (hs : Fresh s) :
    ∃ s₀, Does (Canvas.Action.fill '-') s () s₀ ∧ Wired s (s₀.goto s.marker) := by
  have hrow : s.row < s.height := by
    have := hs.row_eq
    omega
  by_cases hwidth : s.col < s.width
  · have hlook : ∀ i k, (s.fill '-').look i k =
        if i = s.row ∧ s.col ≤ k then '-' else s.look i k := fun _ _ => rfl
    refine ⟨s.fill '-', Canvas.does_fill '-' hrow hwidth, ⟨hrow, hs.row_le, ?_, ?_⟩, rfl,
      hs.col_eq, rfl, rfl, ?_, ?_⟩
    · intro i k hi _
      change s.row < i at hi
      change (s.fill '-').look i k = ' '
      rw [hlook, if_neg (by omega)]
      exact hs.blank i k hi.le
    · intro i k
      change (s.fill '-').look i k ≠ '\n'
      rw [hlook]
      split
      · decide
      · exact hs.clean i k
    · intro i k hi
      change (s.fill '-').look i k = _
      rw [hlook, if_neg (by omega)]
    · intro _ k
      have := hs.col_eq
      change (s.fill '-').look s.row k = '-'
      rw [hlook, if_pos (by omega)]
  · exact ⟨s, Canvas.does_fill_of_le '-' hrow (Nat.not_lt.mp hwidth),
      ⟨hrow, hs.row_le, fun i k hi _ => hs.blank i k (Nat.le_of_lt hi), hs.clean⟩, rfl, hs.col_eq,
      rfl, rfl, fun _ _ _ => rfl, fun h => absurd h hwidth⟩

/-- The rung of a coil is read from the drawing of its value and the coil behind it. -/
theorem page_of_drawn
    {s₁ s₂ : Sheet} {P : Nat → Nat → Char} {w : Nat}
    (hname : CoilName c.name)
    (hcol : s₁.col = 0)
    (hdrawn : Drawn c.value.figure s₁ s₂)
    (hwire : s₁.col < s₁.width → ∀ k, s₁.look s₁.row k = '-')
    (hP : ∀ i k, i ≤ s₁.row + c.value.figure.height →
      P i k = s₂.written (wired '(' ')' c.name.toList) i k)
    (hbelow : ∀ k, s₁.look (s₁.row + c.value.figure.height) k = ' ')
    (hw : s₂.col + c.name.toList.length + 6 ≤ w) :
    Page P w c s₁.row (s₁.row + c.value.figure.height + 1) := by
  have hrow₂ := hdrawn.row_eq
  have hpos := hdrawn.height_pos
  have hlen := Rung.length_wired '(' ')' c.name.toList
  have hfront : ∀ i k, i ≤ s₁.row + c.value.figure.height → k < s₂.col → P i k = s₂.look i k := by
    intro i k hi hk
    rw [hP i k hi, written_frame (Or.inr hk)]
  have hcol₂ : 0 < s₂.col := by
    have := hdrawn.col_lt
    omega
  refine ⟨by omega, by omega, ?_, ?_, ?_⟩
  · rw [hfront _ _ (by omega) hcol₂, ← hcol]
    exact hdrawn.lead
  · intro i hi hi'
    rw [hfront _ _ (by omega) hcol₂, ← hcol]
    exact hdrawn.margin i hi
  · intro rung hcells
    have hvalue : rung.Shows 0 s₂.look s₁.row c.value.figure.height s₁.col s₂.col := by
      refine ⟨?_, ?_⟩
      · intro i k hi _ hk
        rw [Nat.zero_add, hcells i k (by omega) (by omega), hfront _ k (by omega) hk]
      · intro k _ hk
        rw [Nat.zero_add, hcells _ k (by omega) (by omega), hfront _ k (by omega) hk,
          hdrawn.frame _ k (Or.inr (Or.inl (Nat.le_refl _))), hbelow]
        decide
    have hspelled : rung.Spelled 0 s₂.col (wired '(' ')' c.name.toList) := by
      intro n hn
      rw [hcells 0 _ (by omega) (by omega), hP _ _ (by omega), Nat.add_zero, ← hrow₂]
      exact written_of_lt s₂ _ hn
    obtain ⟨stop, hstop⟩ : ∃ stop, stop = s₂.col + c.name.toList.length + 6 := ⟨_, rfl⟩
    have hdash : ∀ k, stop ≤ k → k < stop + (w - stop) → rung.cell? 0 k = some '-' := by
      intro k hk hkw
      rw [hcells 0 k (by omega) (by omega), hP _ _ (by omega), Nat.add_zero, ← hrow₂,
        written_wire (Rung.getLast?_wired '(' ')' c.name.toList) ?_ k (by omega)]
      intro _ k' hk'
      rw [hrow₂]
      exact hdrawn.wire (fun hlt k _ => hwire hlt k) k' hk'
    have hread := hdrawn.reads rung 0 hvalue .rung w (by omega)
    rw [hcol] at hread
    rw [hread, hspelled.read?_coil hname.2 hw, ← hstop,
      Rung.read?_dashes (w - stop) hdash (by omega), show stop + (w - stop) = w by omega,
      Rung.read?_finish fun i hi hiw => absurd hi (by omega)]
    rfl

/-- The end of a rung: the coil, and the start of the row below the next one. -/
def finished (c : Coil) (s : Sheet) : Sheet :=
  (s.draw (wired '(' ')' c.name.toList)).bottom.down.newline

section Finished

variable {s₁ s₂ : Sheet}

theorem does_finished
    (hrow : s.row < s.height) :
    Does (do
      Canvas.Action.draw ("--(" ++ c.name ++ ")--")
      Canvas.Action.bottom
      Canvas.Action.down
      Canvas.Action.newline) s () (finished c s) := by
  have hlabel : ("--(" ++ c.name ++ ")--").toList = wired '(' ')' c.name.toList := by
    simp [wired]
  have hdraw : Does (Canvas.Action.draw ("--(" ++ c.name ++ ")--")) s ()
      (s.draw (wired '(' ')' c.name.toList)) := by
    rw [← hlabel]
    exact Canvas.does_draw hrow (Rung.ne_empty_of_wired hlabel)
  have hbottom : Does Canvas.Action.bottom (s.draw (wired '(' ')' c.name.toList)) () _ :=
    Canvas.does_bottom (Nat.zero_lt_of_lt hrow)
  have hlast : s.height - 1 < s.height := by omega
  have hdown : s.height - 1 + 1 < max s.height (s.height - 1 + 2) := by omega
  exact hdraw.bind (hbottom.bind ((Canvas.does_down hlast).bind (Canvas.does_newline hdown)))

/-- The next rung starts one row below the drawing of the value. -/
theorem Drawn.row_finished
    {fig : Figure}
    (h : Drawn fig s₁ s₂) (hwired : Wired s s₁) (hs : Fresh s) :
    (finished c s₂).row = s.row + fig.height + 1 := by
  have hpos := h.height_pos
  have hheight : s₂.height = s.row + fig.height := by
    rw [h.height_eq, hwired.height_eq, hwired.row_eq, ← hs.row_eq]
    omega
  change s₂.height - 1 + 1 + 1 = _
  omega

/-- Above the rung of a coil, and from its last row on, nothing changes. -/
theorem Drawn.look_finished
    {fig : Figure}
    (h : Drawn fig s₁ s₂) (hwired : Wired s s₁) {i : Nat}
    (hi : i < s.row ∨ s.row + fig.height ≤ i) (k : Nat) :
    (finished c s₂).look i k = s.look i k := by
  have hpos := h.height_pos
  have hrow₁ := hwired.row_eq
  have hrow₂ := h.row_eq
  change s₂.written _ i k = s.look i k
  rw [written_frame (by omega), h.frame i k (by omega), hwired.frame i k (by omega)]

theorem Drawn.fresh_finished
    {fig : Figure}
    (h : Drawn fig s₁ s₂) (hwired : Wired s s₁) (hs : Fresh s) (hname : CoilName c.name) :
    Fresh (finished c s₂) := by
  refine ⟨rfl, ?_, Nat.le_max_right _ _, ?_, ?_⟩
  · simp only [finished, Sheet.newline, Sheet.down, Sheet.bottom]
    omega
  · intro i k hi
    rw [h.row_finished hwired hs] at hi
    rw [h.look_finished hwired (by omega)]
    exact hs.blank i k (by omega)
  · refine written_clean (by simp [wired]) ?_ h.clean
    simp [wired, hname.1]

theorem width_finished
    (c : Coil) (s : Sheet) :
    s.width ≤ (finished c s).width ∧
      s.col + c.name.toList.length + 6 ≤ (finished c s).width := by
  simp only [finished, Sheet.newline, Sheet.down, Sheet.bottom, Sheet.draw, Sheet.write,
    Rung.length_wired]
  omega

end Finished

/-- A coil is drawn as a rung of its own. -/
theorem exists_coil
    (hc : c.Drawable) (hs : Fresh s) :
    ∃ s', Does (coil c) s () s' ∧ Fresh s' ∧ s.width ≤ s'.width ∧
      (∀ i k, i < s.row → s'.look i k = s.look i k) ∧
      ∀ P w, (∀ i k, i < s'.row → P i k = s'.look i k) → s'.width ≤ w →
        Page P w c s.row s'.row := by
  obtain ⟨s₀, hdoes₀, hwired⟩ := exists_wired hs
  obtain ⟨s₂, hdoes₂, hdrawn⟩ := draws_expr hc.2 _ hwired.ready
  have hrow := hdrawn.row_finished (c := c) hwired hs
  have hwidth := width_finished c s₂
  refine ⟨finished c s₂, ?_, hdrawn.fresh_finished hwired hs hc.1, ?_,
    fun i k hi => hdrawn.look_finished hwired (Or.inl hi) k, ?_⟩
  · rw [coil]
    refine Canvas.does_get_bind fun canvas hcanvas => ?_
    rw [Canvas.marker_of_sheet hcanvas]
    exact hdoes₀.bind ((Canvas.does_goto _).bind
      (hdoes₂.bind (does_finished (hdrawn.ready hwired.ready).row_lt)))
  · have hle := hdrawn.width_le
    rw [hwired.width_eq] at hle
    exact hle.trans hwidth.1
  · intro P w hP hw
    rw [hrow, ← hwired.row_eq] at hP ⊢
    refine page_of_drawn hc.1 hwired.col_eq hdrawn hwired.wire ?_ ?_ (hwidth.2.trans hw)
    · intro i k hi
      exact hP i k (Nat.lt_succ_of_le hi)
    · intro k
      have hpos := hdrawn.height_pos
      have hrow₁ := hwired.row_eq
      rw [hwired.frame _ k (by omega)]
      exact hs.blank _ k (by omega)

/-- The rows from `t` up to, and without, `u` are the rungs of the coils, in order. -/
def Pages (P : Nat → Nat → Char) (w : Nat) : Nat → List Coil → Nat → Prop
  | t, [], u => t = u
  | t, c :: cs, u => ∃ m, Page P w c t m ∧ Pages P w m cs u

/-- Coils are drawn one below the other. -/
theorem exists_coils
    {cs : List Coil}
    (hcs : ∀ c ∈ cs, c.Drawable) (hs : Fresh s) :
    ∃ s', Does (cs.forM coil) s () s' ∧ Fresh s' ∧ s.width ≤ s'.width ∧ s.row ≤ s'.row ∧
      (∀ i k, i < s.row → s'.look i k = s.look i k) ∧
      Pages s'.look s'.width s.row cs s'.row := by
  induction cs generalizing s with
  | nil =>
      exact ⟨s, Canvas.does_pure (), hs, Nat.le_refl _, Nat.le_refl _, fun _ _ _ => rfl, rfl⟩
  | cons c cs ih =>
      obtain ⟨s₁, hdoes₁, hs₁, hwidth₁, hframe₁, hpage⟩ :=
        exists_coil (hcs c List.mem_cons_self) hs
      obtain ⟨s₂, hdoes₂, hs₂, hwidth₂, hrow₂, hframe₂, hpages⟩ :=
        ih (fun c' hc' => hcs c' (List.mem_cons_of_mem c hc')) hs₁
      have hfirst := hpage s₂.look s₂.width hframe₂ hwidth₂
      have hlt := hfirst.lt
      refine ⟨s₂, hdoes₁.bind hdoes₂, hs₂, hwidth₁.trans hwidth₂, by omega, ?_, s₁.row, hfirst,
        hpages⟩
      intro i k hi
      rw [hframe₂ i k (by omega), hframe₁ i k hi]

end Coils

end Drawing
end RelayLadder
