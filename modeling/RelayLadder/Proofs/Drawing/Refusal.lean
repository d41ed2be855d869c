import RelayLadder.Proofs.Drawing.Box
import RelayLadder.Proofs.Negation
import RelayLadder.Proofs.Text.Trim

/-!
# What a drawing refuses, and its size

**Outcomes.**  Whatever its names are, an expression is drawn unless it negates
something other than a contact.  What is drawn has the height of the expression.

**Frame.**  Drawing goes to the right and down.  `Keeps top s s'` says that from the
sheet `s` to the sheet `s'` nothing above row `top` has changed and that the grid
has not become smaller.

**Results.**
* `boxing_expr`: an expression is drawn in a box of its height, or stopped at the first
  negation that has no form.
* `ends_coil`, `ends_rungs`: the same for a coil, which takes a row more than its value,
  and for a list of coils.
-/

namespace RelayLadder

open Canvas (Action Sheet Does)

namespace Expr

/-- The kind of the first expression, in drawing order, that is negated and is not a contact. -/
def undrawable? : Expr → Option String
  | .contact _ => none
  | .call _ => none
  | .not (.contact _) => none
  | .not operand => some operand.kind
  | .and left right => left.undrawable?.or right.undrawable?
  | .or left right => left.undrawable?.or right.undrawable?

/-- The number of rows that an expression takes when it is drawn. -/
def height : Expr → Nat
  | .contact _ => 1
  | .call _ => 1
  | .not _ => 1
  | .and left right => max left.height right.height
  | .or left right => left.height + 1 + right.height

/-- The names and tokens in an expression. -/
def labels : Expr → List String
  | .contact name => [name]
  | .call tokens => tokens
  | .not operand => operand.labels
  | .and left right => left.labels ++ right.labels
  | .or left right => left.labels ++ right.labels

theorem length_branches_pos (e : Expr) : 0 < e.branches.length := by
  cases e with
  | or left right => simp [branches]
  | _ => exact Nat.one_pos

/-- The branches of a block stand one below the other, with a row between neighbours. -/
theorem height_eq_sum_branches
    (e : Expr) :
    e.height = (e.branches.map height).sum + (e.branches.length - 1) := by
  have hone : ∀ e : Expr, e.branches = [e] →
      e.height = (e.branches.map height).sum + (e.branches.length - 1) :=
    fun e h => by simp [h]
  induction e with
  | or left right ihl _ =>
      have hpos := left.length_branches_pos
      simp only [branches, height, List.map_append, List.sum_append, List.map_cons, List.map_nil,
        List.sum_singleton, List.length_append, List.length_singleton]
      omega
  | _ => exact hone _ rfl

end Expr

namespace Coil

/-- The kind of the first expression in a coil that is negated and is not a contact. -/
def undrawable? (c : Coil) : Option String :=
  c.value.undrawable?

/-- The names and tokens in a coil. -/
def labels (c : Coil) : List String :=
  c.name :: c.value.labels

end Coil

namespace Drawing

section Frame

variable {top : Nat} {s s' s'' : Sheet}

/-- Nothing above row `top` and below the grid has changed, the grid is not smaller, and the cursor
is on a row of the grid from `top` on. -/
structure Keeps (top : Nat) (s s' : Sheet) : Prop where
  frame : ∀ i k, i < top ∨ s'.height ≤ i → s'.look i k = s.look i k
  width_le : s.width ≤ s'.width
  height_le : s.height ≤ s'.height
  top_le : top ≤ s'.row
  row_lt : s'.row < s'.height

theorem Keeps.trans
    (h : Keeps top s s') (h' : Keeps top s' s'') :
    Keeps top s s'' := by
  refine ⟨?_, h.width_le.trans h'.width_le, h.height_le.trans h'.height_le, h'.top_le, h'.row_lt⟩
  intro i k hi
  have := h'.height_le
  rw [h'.frame i k hi, h.frame i k (by omega)]

theorem Keeps.mono
    {top' : Nat}
    (h : Keeps top s s') (hle : top' ≤ top) :
    Keeps top' s s' :=
  ⟨fun i k hi => h.frame i k (by omega), h.width_le, h.height_le, hle.trans h.top_le, h.row_lt⟩

/-- A next action that keeps what is above its own row. -/
theorem Keeps.next
    (h : Keeps top s s') (h' : Keeps s'.row s' s'') :
    Keeps top s s'' :=
  h.trans (h'.mono h.top_le)

/-- The cursor goes back to a row of the grid. -/
theorem Keeps.goto
    {m : Marker}
    (h : Keeps top s s') (hm : top ≤ m.row) (hm' : m.row < s'.height) :
    Keeps top s (s'.goto m) :=
  ⟨h.frame, h.width_le, h.height_le, hm, hm'⟩

theorem keeps_refl (hrow : s.row < s.height) : Keeps s.row s s :=
  ⟨fun _ _ _ => rfl, Nat.le_refl _, Nat.le_refl _, Nat.le_refl _, hrow⟩

theorem keeps_right (hrow : s.row < s.height) : Keeps s.row s s.right :=
  ⟨fun _ _ _ => rfl, Nat.le_max_left _ _, Nat.le_refl _, Nat.le_refl _, hrow⟩

theorem keeps_write
    (hrow : s.row < s.height) (text : List Char) :
    Keeps s.row s (s.write text) := by
  refine ⟨?_, Nat.le_max_left _ _, Nat.le_refl _, Nat.le_refl _, hrow⟩
  intro i k hi
  change i < s.row ∨ s.height ≤ i at hi
  exact written_frame (Or.inl (by omega))

theorem keeps_draw
    (hrow : s.row < s.height) (text : List Char) :
    Keeps s.row s (s.draw text) :=
  (keeps_write hrow text).goto (m := ⟨s.row, s.col + text.length - 1⟩) (Nat.le_refl _) hrow

theorem keeps_element
    (hrow : s.row < s.height) (text : List Char) :
    Keeps s.row s (s.element text) :=
  (keeps_draw hrow text).next (keeps_right hrow)

/-- What is drawn in a box is drawn from its first row downward. -/
theorem Within.keeps
    {ink : Char → Prop} {r c b : Nat}
    (h : Within ink r c b s s') (hr : r ≤ s'.row) (hrow : s'.row < s'.height) :
    Keeps r s s' := by
  have hheight := h.height_eq
  exact ⟨fun i k hi => h.frame i k (by omega), h.width_le, by omega, hr, hrow⟩

end Frame

section Expressions

variable {ink : Char → Prop}

theorem forall_ink_enclosed
    {opener text closer : String}
    (hink : ∀ ch ∈ glyphs, ink ch)
    (hopener : opener.toList ⊆ glyphs) (hcloser : closer.toList ⊆ glyphs)
    (htext : ∀ ch ∈ text.toList, ink ch) :
    ∀ ch ∈ (opener ++ text ++ closer).toList, ink ch := by
  intro ch hch
  rw [String.toList_append, String.toList_append, List.mem_append, List.mem_append] at hch
  rcases hch with (hch | hch) | hch
  · exact hink ch (hopener hch)
  · exact htext ch hch
  · exact hink ch (hcloser hch)

theorem boxing_contact
    {name : String}
    (hink : ∀ ch ∈ glyphs, ink ch) (hname : ∀ ch ∈ name.toList, ink ch) :
    Boxing ink none 1 (contact name) :=
  boxing_element _ (by simp) (forall_ink_enclosed hink (by decide) (by decide) hname)

theorem boxing_call
    {tokens : List String}
    (hink : ∀ ch ∈ glyphs, ink ch) (htokens : ∀ token ∈ tokens, ∀ ch ∈ token.toList, ink ch) :
    Boxing ink none 1 (call tokens) := by
  refine boxing_element _ (by simp)
    (forall_ink_enclosed hink (by decide) (by decide) fun ch hch => ?_)
  rcases Text.mem_toList_intercalate hch with rfl | ⟨token, htoken, hch⟩
  · exact hink ' ' (by decide)
  · exact htokens token htoken ch hch

theorem forall_ink_toggle
    {name : String}
    (hink : ∀ ch ∈ glyphs, ink ch) (hname : ∀ ch ∈ name.toList, ink ch) :
    ∀ ch ∈ (toggle name).toList, ink ch := by
  intro ch hch
  rcases toggle_cases name with hmark | hmark
  · exact hname ch (hmark ▸ List.mem_cons_of_mem _ hch)
  · rw [hmark] at hch
    rcases List.mem_cons.mp hch with rfl | hch
    · exact hink '/' (by decide)
    · exact hname ch hch

/-- An expression is drawn as its branches are. -/
theorem boxing_expr_of_branches
    {e : Expr} {plans : List (Option String × Nat)}
    (hink : ∀ ch ∈ glyphs, ink ch)
    (hplans : List.Forall₂ (fun plan body => Boxing ink plan.1 plan.2 body) plans (branchesOf e))
    (hrefusal : plans.findSome? Prod.fst = e.undrawable?)
    (hheights : plans.map Prod.snd = e.branches.map Expr.height) :
    Boxing ink e.undrawable? e.height (expr e) := by
  have hlength : plans.length = e.branches.length := by
    simpa using congrArg List.length hheights
  have hne : plans ≠ [] := List.ne_nil_of_length_pos (hlength ▸ e.length_branches_pos)
  rw [← hrefusal, e.height_eq_sum_branches, ← hheights, ← hlength]
  exact boxing_drawBranches hink hne hplans

/-- The branches of an expression are drawn at their heights, up to the first refusal. -/
theorem exists_branchesOf
    (hink : ∀ ch ∈ glyphs, ink ch) (e : Expr)
    (hlabels : ∀ label ∈ e.labels, ∀ ch ∈ label.toList, ink ch) :
    ∃ plans : List (Option String × Nat),
      List.Forall₂ (fun plan body => Boxing ink plan.1 plan.2 body) plans (branchesOf e) ∧
      plans.findSome? Prod.fst = e.undrawable? ∧
      plans.map Prod.snd = e.branches.map Expr.height := by
  have hone : ∀ {refusal : Option String} {h : Nat} {body : Action Unit},
      Boxing ink refusal h body →
      ∃ plans : List (Option String × Nat),
        List.Forall₂ (fun plan body => Boxing ink plan.1 plan.2 body) plans [body] ∧
        plans.findSome? Prod.fst = refusal ∧ plans.map Prod.snd = [h] :=
    fun {refusal h} _ hbody => ⟨[(refusal, h)], .cons hbody .nil, by cases refusal <;> rfl, rfl⟩
  induction e with
  | contact name => exact hone (boxing_contact hink (hlabels name List.mem_cons_self))
  | call tokens => exact hone (boxing_call hink hlabels)
  | not operand _ =>
      cases operand with
      | contact name =>
          have hname := hlabels name List.mem_cons_self
          exact hone (boxing_contact hink (forall_ink_toggle hink hname))
      -- Any other negation stops before anything is drawn.
      | call _ => exact hone fun _ _ c _ _ => ⟨c, rfl⟩
      | not _ => exact hone fun _ _ c _ _ => ⟨c, rfl⟩
      | and _ _ => exact hone fun _ _ c _ _ => ⟨c, rfl⟩
      | or _ _ => exact hone fun _ _ c _ _ => ⟨c, rfl⟩
  | and left right ihl ihr =>
      obtain ⟨_, hplans, hrefusal, hheights⟩ :=
        ihl fun label hlabel => hlabels label (List.mem_append_left _ hlabel)
      obtain ⟨_, hplans', hrefusal', hheights'⟩ :=
        ihr fun label hlabel => hlabels label (List.mem_append_right _ hlabel)
      have hleft := boxing_expr_of_branches hink hplans hrefusal hheights
      have hright := boxing_expr_of_branches hink hplans' hrefusal' hheights'
      refine hone fun s hrow => (hleft s hrow).bind fun _ s₁ hboxed => ?_
      exact (hright s₁ (hboxed.row_lt hrow)).mono fun _ s₂ hboxed' => hboxed.series hboxed'
  | or left right ihl ihr =>
      obtain ⟨plans, hplans, hrefusal, hheights⟩ :=
        ihl fun label hlabel => hlabels label (List.mem_append_left _ hlabel)
      obtain ⟨_, hplans', hrefusal', hheights'⟩ :=
        ihr fun label hlabel => hlabels label (List.mem_append_right _ hlabel)
      have hright := boxing_expr_of_branches hink hplans' hrefusal' hheights'
      refine ⟨plans ++ [(right.undrawable?, right.height)], ?_, ?_, ?_⟩
      · exact List.rel_append hplans (.cons hright .nil)
      · rw [List.findSome?_append, hrefusal, findSome?_cons_eq_or, List.findSome?_nil,
          Option.or_none]
        rfl
      · rw [List.map_append, hheights, Expr.branches, List.map_append]
        rfl

/-- An expression is drawn in a box of its height, unless a negation is refused. -/
theorem boxing_expr
    (hink : ∀ ch ∈ glyphs, ink ch) (e : Expr)
    (hlabels : ∀ label ∈ e.labels, ∀ ch ∈ label.toList, ink ch) :
    Boxing ink e.undrawable? e.height (expr e) := by
  obtain ⟨plans, hplans, hrefusal, hheights⟩ := exists_branchesOf hink e hlabels
  exact boxing_expr_of_branches hink hplans hrefusal hheights

end Expressions

section Coils

variable {s : Sheet} {refusal : Option String} {c : Coil}

/-- The row of the cursor made a wire from the cursor on. -/
def wireRow (s : Sheet) : Sheet :=
  if s.col < s.width then (s.fill '-').goto s.marker else s

/-- A coil drawn at the cursor, which ends at the start of a new row. -/
def endRung (name : String) (s : Sheet) : Sheet :=
  (s.draw ("--(" ++ name ++ ")--").toList).bottom.down.newline

/-- The cursor is at the start of the last row, which is blank. -/
structure OnNewRow (s : Sheet) : Prop where
  col_eq : s.col = 0
  row_eq : s.row + 1 = s.height
  blank : ∀ i k, s.row ≤ i → s.look i k = ' '

theorem OnNewRow.row_lt
    (hs : OnNewRow s) :
    s.row < s.height :=
  hs.row_eq ▸ Nat.lt_succ_self s.row

theorem exists_wireRow
    (hrow : s.row < s.height) :
    ∃ s₁, Does (Canvas.Action.fill '-') s () s₁ ∧ s₁.goto s.marker = wireRow s := by
  rw [wireRow]
  split
  · rename_i hcol
    exact ⟨_, Canvas.does_fill '-' hrow hcol, rfl⟩
  · rename_i hcol
    exact ⟨s, Canvas.does_fill_of_le '-' hrow (Nat.not_lt.mp hcol), rfl⟩

@[simp] theorem row_wireRow (s : Sheet) : (wireRow s).row = s.row := by
  rw [wireRow]
  split <;> rfl

@[simp] theorem col_wireRow (s : Sheet) : (wireRow s).col = s.col := by
  rw [wireRow]
  split <;> rfl

@[simp] theorem width_wireRow (s : Sheet) : (wireRow s).width = s.width := by
  rw [wireRow]
  split <;> rfl

theorem look_wireRow
    (hcol : s.col < s.width) {k : Nat} (hk : s.col ≤ k) :
    (wireRow s).look s.row k = '-' := by
  rw [wireRow, if_pos hcol]
  exact if_pos ⟨rfl, hk⟩

theorem within_wireRow
    {ink : Char → Prop}
    (hwire : ink '-') (hrow : s.row < s.height) :
    Within ink s.row s.col (s.row + 1) s (wireRow s) := by
  rw [wireRow]
  split
  · exact (within_fill hrow hwire).withCursor _ _ _
  · exact within_refl hrow

theorem keeps_wireRow
    (hrow : s.row < s.height) :
    Keeps s.row s (wireRow s) := by
  have hwire : Within (fun _ => True) s.row s.col (s.row + 1) s (wireRow s) :=
    within_wireRow trivial hrow
  have hle := (row_wireRow s).ge
  exact hwire.keeps hle (hwire.row_lt (Or.inl ((row_wireRow s).trans_lt hrow)))

theorem row_endRung
    (name : String) (hrow : s.row < s.height) :
    (endRung name s).row = s.height + 1 := by
  change s.height - 1 + 1 + 1 = s.height + 1
  omega

theorem height_endRung
    (name : String) (hrow : s.row < s.height) :
    (endRung name s).height = s.height + 2 := by
  change max (max s.height (s.height - 1 + 2)) (s.height - 1 + 1 + 2) = s.height + 2
  omega

theorem keeps_endRung
    (name : String) (hrow : s.row < s.height) :
    Keeps s.row s (endRung name s) := by
  have hheight := height_endRung name hrow
  have hdraw := keeps_draw hrow ("--(" ++ name ++ ")--").toList
  refine ⟨fun i k hi => hdraw.frame i k ?_, hdraw.width_le, ?_, ?_, ?_⟩
  · change i < s.row ∨ s.height ≤ i
    omega
  · omega
  · rw [row_endRung name hrow]
    omega
  · rw [row_endRung name hrow]
    omega

theorem does_endRung
    (name : String) (hrow : s.row < s.height) :
    Does (do
      Canvas.Action.draw ("--(" ++ name ++ ")--")
      Canvas.Action.bottom
      Canvas.Action.down
      Canvas.Action.newline) s () (endRung name s) := by
  have hbottom : Does Canvas.Action.bottom (s.draw ("--(" ++ name ++ ")--").toList) () _ :=
    Canvas.does_bottom (Nat.zero_lt_of_lt hrow)
  have hlast : s.height - 1 < s.height := Nat.sub_one_lt_of_lt hrow
  have hdown : s.height - 1 + 1 < max s.height (s.height - 1 + 2) := by omega
  exact (Canvas.does_draw hrow (by simp)).bind
    (hbottom.bind ((Canvas.does_down hlast).bind (Canvas.does_newline hdown)))

/-- The outcome of drawing a coil is that of drawing its value on a wire. -/
theorem ends_coil_of
    {post : Unit → Sheet → Prop}
    (hrow : s.row < s.height) (h : Canvas.Ends refusal (expr c.value) (wireRow s) post)
    (hpost : ∀ s₁, post () s₁ → s₁.row < s₁.height) :
    Canvas.Ends refusal (coil c) s fun _ s' => ∃ s₁, post () s₁ ∧ s' = endRung c.name s₁ := by
  obtain ⟨s₀, hfill, hwire⟩ := exists_wireRow hrow
  rw [← hwire] at h
  have hrest : Canvas.Ends refusal
      (do
        Canvas.Action.fill '-'
        Canvas.Action.goto s.marker
        expr c.value
        Canvas.Action.draw ("--(" ++ c.name ++ ")--")
        Canvas.Action.bottom
        Canvas.Action.down
        Canvas.Action.newline)
      s fun _ s' => ∃ s₁, post () s₁ ∧ s' = endRung c.name s₁ := by
    refine hfill.bind_ends ((Canvas.does_goto s.marker).bind_ends (h.bind_does fun _ s₁ hs₁ => ?_))
    exact ⟨(), endRung c.name s₁, does_endRung c.name (hpost s₁ hs₁), s₁, hs₁, rfl⟩
  refine Canvas.ends_get_bind (fun d hd => ?_) hrest
  rw [Canvas.marker_of_sheet hd]

/-- A rung has been drawn: nothing above it has changed, and the cursor is on a new row below
it. -/
structure AddsRung (s s' : Sheet) : Prop where
  keeps : Keeps s.row s s'
  row_lt : s.row < s'.row
  onNewRow : OnNewRow s'

theorem addsRung_endRung
    {s₁ : Sheet}
    (hs : OnNewRow s) (h : Keeps s.row s s₁) (name : String) :
    AddsRung s (endRung name s₁) := by
  have hheight := height_endRung name h.row_lt
  have hrow := row_endRung name h.row_lt
  have hgrown := hs.row_lt.trans_le h.height_le
  refine ⟨h.next (keeps_endRung name h.row_lt), by omega, rfl, by omega, fun i k hi => ?_⟩
  have hbelow : s₁.height ≤ i := by omega
  calc (endRung name s₁).look i k
      = s₁.look i k := (keeps_draw h.row_lt _).frame i k (Or.inr hbelow)
    _ = s.look i k := h.frame i k (Or.inr hbelow)
    _ = ' ' := hs.blank i k (by omega)

/-- A rung of `h` rows has been drawn, and below it a row was left blank. -/
structure AddsRows (ink : Char → Prop) (h : Nat) (s s' : Sheet) : Prop extends AddsRung s s' where
  row_eq : s'.row = s.row + h + 1
  blank : ∀ k, s'.look (s.row + h) k = ' '
  cells : ∀ i k, s'.look i k = s.look i k ∨ ink (s'.look i k)

/-- A coil is drawn as a rung of its own, unless a negation is refused. -/
theorem ends_coil
    {ink : Char → Prop}
    (hink : ∀ ch ∈ glyphs, ink ch) (c : Coil)
    (hlabels : ∀ label ∈ c.labels, ∀ ch ∈ label.toList, ink ch) (hs : OnNewRow s) :
    Canvas.Ends c.undrawable? (coil c) s fun _ s' => AddsRows ink c.value.height s s' := by
  obtain ⟨hname, hvalue⟩ := List.forall_mem_cons.mp hlabels
  have hwire : Within ink s.row s.col (s.row + 1) s (wireRow s) :=
    within_wireRow (hink '-' (by decide)) hs.row_lt
  have hrow : (wireRow s).row < (wireRow s).height :=
    hwire.row_lt (Or.inl ((row_wireRow s).trans_lt hs.row_lt))
  refine (ends_coil_of hs.row_lt (boxing_expr hink c.value hvalue _ hrow)
    fun s₁ hboxed => hboxed.row_lt hrow).mono ?_
  rintro - s' ⟨s₁, hboxed, rfl⟩
  have hpos := hboxed.height_pos
  have hrow₁ : s₁.row = s.row := hboxed.row_eq.trans (row_wireRow s)
  have hin₁ := hboxed.row_lt hrow
  have hbox := hboxed.toWithin
  rw [row_wireRow, col_wireRow] at hbox
  have hvalue : Within ink s.row s.col (s.row + c.value.height) s s₁ :=
    hwire.trans hbox (Nat.le_refl _) (Nat.le_refl _) (by omega)
  have hheight₁ : s₁.height = s.row + c.value.height := by
    have := hs.row_eq
    rw [hvalue.height_eq]
    omega
  have hcoil : Within ink s₁.row s₁.col (s₁.row + 1) s₁
      (s₁.draw ("--(" ++ c.name ++ ")--").toList) :=
    within_draw hin₁ (by simp) (forall_ink_enclosed hink (by decide) (by decide) hname)
  have hcol : s.col ≤ s₁.col := (col_wireRow s).ge.trans hboxed.col_lt.le
  have hrung : Within ink s.row s.col (s.row + c.value.height) s
      (s₁.draw ("--(" ++ c.name ++ ")--").toList) :=
    hvalue.trans hcoil hrow₁.ge hcol (by omega)
  refine
    { addsRung_endRung hs (hvalue.keeps hrow₁.ge hin₁) c.name with
      row_eq := (row_endRung c.name hin₁).trans (congrArg (· + 1) hheight₁)
      blank := fun k => ?_
      cells := hrung.cells }
  calc (endRung c.name s₁).look (s.row + c.value.height) k
      = s.look (s.row + c.value.height) k := hrung.frame _ k (Or.inr (Or.inl (Nat.le_refl _)))
    _ = ' ' := hs.blank _ k (Nat.le_add_right _ _)

/-- Rungs have been drawn, and below each of them a row was left blank. -/
structure AddsRungs (ink : Char → Prop) (cs : List Coil) (s s' : Sheet) : Prop where
  keeps : Keeps s.row s s'
  onNewRow : OnNewRow s'
  row_eq : s'.row = s.row + (cs.map (·.value.height + 1)).sum
  blank : cs ≠ [] → ∀ k, s'.look (s'.row - 1) k = ' '
  cells : ∀ i k, s'.look i k = s.look i k ∨ ink (s'.look i k)

theorem AddsRows.cons
    {ink : Char → Prop} {cs : List Coil} {s₁ s₂ : Sheet}
    (h : AddsRows ink c.value.height s s₁) (hrest : AddsRungs ink cs s₁ s₂) :
    AddsRungs ink (c :: cs) s s₂ := by
  have hrow := h.row_eq
  have hrow' := hrest.row_eq
  refine ⟨h.keeps.next hrest.keeps, hrest.onNewRow, ?_, fun _ k => ?_, fun i k => ?_⟩
  · rw [List.map_cons, List.sum_cons]
    omega
  · by_cases hcs : cs = []
    · have hlast : s₂.row - 1 = s.row + c.value.height := by
        rw [hcs, List.map_nil, List.sum_nil] at hrow'
        omega
      rw [hrest.keeps.frame _ k (Or.inl (by omega)), hlast]
      exact h.blank k
    · exact hrest.blank hcs k
  · rcases hrest.cells i k with heq | hink
    · rw [heq]
      exact h.cells i k
    · exact Or.inr hink

/-- Coils are drawn in order as rungs of their heights, unless a negation is refused. -/
theorem ends_rungs
    {ink : Char → Prop}
    (hink : ∀ ch ∈ glyphs, ink ch) (cs : List Coil)
    (hlabels : ∀ c ∈ cs, ∀ label ∈ c.labels, ∀ ch ∈ label.toList, ink ch) (hs : OnNewRow s) :
    Canvas.Ends (cs.findSome? Coil.undrawable?) (cs.forM coil) s fun _ s' =>
      AddsRungs ink cs s s' := by
  induction cs generalizing s with
  | nil =>
      refine ⟨(), s, Canvas.does_pure (), keeps_refl hs.row_lt, hs, rfl, ?_, fun _ _ => Or.inl rfl⟩
      exact fun hne => absurd rfl hne
  | cons c cs ih =>
      obtain ⟨hc, hcs⟩ := List.forall_mem_cons.mp hlabels
      rw [findSome?_cons_eq_or]
      change Canvas.Ends _ (coil c >>= fun _ => cs.forM coil) s _
      refine (ends_coil hink c hc hs).bind fun _ s₁ h => ?_
      exact (ih hcs h.onNewRow).mono fun _ s₂ hrest => h.cons hrest

/-- Coils are drawn in order, whatever their names are, unless a negation is refused. -/
theorem ends_coils
    (cs : List Coil) (hs : OnNewRow s) :
    Canvas.Ends (cs.findSome? Coil.undrawable?) (cs.forM coil) s fun _ s' =>
      Keeps s.row s s' ∧ OnNewRow s' := by
  have hrungs : Canvas.Ends (cs.findSome? Coil.undrawable?) (cs.forM coil) s fun _ s' =>
      AddsRungs (fun _ => True) cs s s' :=
    ends_rungs (fun _ _ => trivial) cs (fun _ _ _ _ _ _ => trivial) hs
  exact hrungs.mono fun _ _ h => ⟨h.keeps, h.onNewRow⟩

end Coils

end Drawing
end RelayLadder
