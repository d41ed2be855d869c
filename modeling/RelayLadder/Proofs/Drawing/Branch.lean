import Mathlib.Data.List.Forall2
import RelayLadder.Proofs.Drawing.Basic

/-!
# Drawing the branches of a block

**Branches.**  A branch starts at a junction, and behind its body it is wired to the
right edge.  `Limb P c x r fig` says that such a branch stands on the plane: from
column `x` on its row shows nothing but wire, and the rows below it are blank.

**Ladders.**  `Ladder P c x r top below` says that branches stand one below the
other, joined by bars in column `c`, with a blank row above each lower branch.

**Results.**
* `Draws.branch`: a drawn branch is a limb.
* `does_lowerBranches`: branches drawn one by one form a ladder.
-/

namespace RelayLadder
namespace Drawing

open Canvas (Action Sheet Does)

section Limbs

variable {P P' : Nat → Nat → Char} {c x r : Nat} {fig : Figure}

/-- A branch that is wired to the right edge, which lies before column `x`. -/
structure Limb (P : Nat → Nat → Char) (c x r : Nat) (fig : Figure) : Prop where
  height_pos : 0 < fig.height
  junction : P r c = '+'
  wire : ∀ k, x ≤ k → P r k = '-'
  blank : ∀ i k, r < i → i < r + fig.height → x ≤ k → P i k = ' '
  reads : ∀ y, x ≤ y → ∀ (rung : Rung) (r₀ : Nat),
    rung.Shows r₀ P r fig.height (c + 1) y →
    rung.read? .branch r₀ (c + 1) y = fig.onto .finish

/-- A branch stays when the right edge moves and other cells change. -/
theorem Limb.mono
    {x' : Nat}
    (h : Limb P c x r fig)
    (hx : x ≤ x') (hjunction : P' r c = P r c)
    (hP : ∀ i k, r ≤ i → i < r + fig.height → c < k → P' i k = P i k)
    (hcx : c < x) :
    Limb P' c x' r fig := by
  refine ⟨h.height_pos, hjunction.trans h.junction, ?_, ?_, ?_⟩
  · intro k hk
    rw [hP r k (Nat.le_refl r) (Nat.lt_add_of_pos_right h.height_pos) (by omega)]
    exact h.wire k (by omega)
  · intro i k hri hi hk
    rw [hP i k hri.le hi (by omega)]
    exact h.blank i k hri hi (by omega)
  · intro y hy rung r₀ hshows
    refine h.reads y (by omega) rung r₀ (hshows.congr fun i j hi hj _ => ?_)
    exact (hP (r + i) j (by omega) (by omega) (by omega)).symm

/-- What drawing a branch at the cursor changes. -/
structure Branched (fig : Figure) (s s' : Sheet) : Prop where
  col_lt : s.col + 2 < s'.width
  width_le : s.width ≤ s'.width
  height_eq : s'.height = max s.height (s.row + fig.height)
  deepest_eq : s'.deepest = max s.deepest (s.row + fig.height - 1)
  clean : ∀ i k, s'.look i k ≠ '\n'
  frame : ∀ i k,
    i < s.row ∨ s.row + fig.height ≤ i ∨ k < s.col ∨ (s.row < i ∧ k ≤ s.col) →
    s'.look i k = s.look i k
  limb : Limb s'.look s.col (s'.width - 1) s.row fig

variable {s : Sheet} {body : Action Unit}

/-- A junction with a piece of depth of its own is ready for a body. -/
theorem ready_junction
    (hs : Ready s) :
    Ready ((s.write ['+']).right.openDepth) := by
  refine ⟨hs.row_lt, Nat.le_refl _, ?_, ?_⟩
  · intro i k hi hk
    change s.row < i at hi
    change s.col + 1 ≤ k at hk
    change s.written ['+'] i k = ' '
    rw [written_frame (by omega)]
    exact hs.blank i k hi (by omega)
  · exact written_clean (List.cons_ne_nil '+' []) (by decide) hs.clean

/-- A figure behind a junction, wired to the right edge, is a limb. -/
theorem Drawn.limb
    {s₁ s₂ : Sheet}
    (h : Drawn fig s₁ s₂)
    (hcol : s₁.col = c + 1)
    (hjunction : P s₁.row c = '+')
    (hP : ∀ i k, c < k → P i k = if i = s₁.row ∧ s₂.col ≤ k then '-' else s₂.look i k) :
    Limb P c (s₂.width - 1) s₁.row fig := by
  have hpos := h.height_pos
  have hlt := h.col_lt
  have hedge := h.col_lt_width
  refine ⟨hpos, hjunction, ?_, ?_, ?_⟩
  · intro k hk
    rw [hP _ k (by omega), if_pos (by omega)]
  · intro i k hri hi hk
    rw [hP i k (by omega), if_neg (by omega)]
    exact h.blank i k hri hi (by omega)
  · intro y hy rung r₀ hshows
    have hbody : rung.Shows r₀ s₂.look s₁.row fig.height s₁.col s₂.col := by
      rw [hcol]
      refine (hshows.part (Nat.le_refl _) (Nat.le_refl _) (by omega)
        (fun hlt => absurd hlt (Nat.lt_irrefl _))).congr fun i j _ hj hj' => ?_
      rw [hP _ j (by omega), if_neg (by omega)]
    have hwire : ∀ j, s₂.col ≤ j → j < s₂.col + (y - s₂.col) → rung.cell? r₀ j = some '-' := by
      intro j hj hjy
      have hcell := hshows.cells 0 j hpos (by omega) (by omega)
      rw [hP _ j (by omega), if_pos (by omega)] at hcell
      exact hcell
    have hread := h.reads rung r₀ hbody .branch y (by omega)
    rw [hcol] at hread
    rw [hread, Rung.read?_dashes (y - s₂.col) hwire (by omega),
      show s₂.col + (y - s₂.col) = y by omega,
      Rung.read?_finish fun i hi hiy => absurd hi (by omega)]
    rfl

theorem Draws.branch
    (h : Draws body fig) (hs : Ready s) :
    ∃ s', Does (branch body) s (s.row + fig.height - 1) s' ∧ Branched fig s s' := by
  obtain ⟨s₁, hs₁⟩ : ∃ s₁, s₁ = (s.write ['+']).right.openDepth := ⟨_, rfl⟩
  have hrow₁ : s₁.row = s.row := by rw [hs₁]; rfl
  have hcol₁ : s₁.col = s.col + 1 := by rw [hs₁]; rfl
  have hlook₁ : s₁.look = s.written ['+'] := by rw [hs₁]; rfl
  have hwidth₁ : s.width ≤ s₁.width := by
    rw [hs₁]
    simp only [Sheet.openDepth, Sheet.right, Sheet.write]
    omega
  have hheight₁ : s₁.height = s.height := by rw [hs₁]; rfl
  have hdeepest₁ : s₁.deepest = s.row := by rw [hs₁]; rfl
  have hready : Ready s₁ := hs₁ ▸ ready_junction hs
  obtain ⟨s₂, hdoes, hdrawn⟩ := h s₁ hready
  have hrow₂ : s₂.row = s.row := hdrawn.row_eq.trans hrow₁
  have hcol₂ := hdrawn.col_lt
  have hedge := hdrawn.col_lt_width
  have hpos := hdrawn.height_pos
  have hdeepest₂ : s₂.deepest = s.row + fig.height - 1 := by
    rw [hdrawn.deepest_eq, hdeepest₁, hrow₁]
    omega
  have hin : s₂.row < s₂.height := (hdrawn.ready hready).row_lt
  refine ⟨(s₂.closeDepth s.deepest).fill '-', ?_, ?_⟩
  · refine (Canvas.does_put '+' hs.row_lt).bind ?_
    refine (Canvas.does_right (s := s.write ['+']) hs.row_lt).bind ?_
    refine Canvas.does_openDepth.bind ?_
    rw [← hs₁]
    refine hdoes.bind ((Canvas.does_closeDepth s.deepest).bind ?_)
    refine (Canvas.does_fill (s := s₂.closeDepth s.deepest) '-' hin hedge).bind ?_
    rw [hdeepest₂]
    exact Canvas.does_pure _
  · obtain ⟨P, hP⟩ : ∃ P, P = ((s₂.closeDepth s.deepest).fill '-').look := ⟨_, rfl⟩
    have hlook : ∀ i k, P i k = if i = s.row ∧ s₂.col ≤ k then '-' else s₂.look i k := by
      intro i k
      rw [hP, ← hrow₂]
      rfl
    have hfront : ∀ i k, k < s₂.col → P i k = s₂.look i k := by
      intro i k hk
      rw [hlook, if_neg (by omega)]
    have hother : ∀ i k, i ≠ s.row → P i k = s₂.look i k := by
      intro i k hi
      rw [hlook, if_neg (by omega)]
    refine ⟨?_, hwidth₁.trans hdrawn.width_le, ?_, ?_, ?_, ?_, ?_⟩
    · change s.col + 2 < s₂.width
      omega
    · change s₂.height = _
      rw [hdrawn.height_eq, hheight₁, hrow₁]
    · change max s.deepest s₂.deepest = _
      rw [hdeepest₂]
    · rw [← hP]
      intro i k
      rw [hlook]
      split
      · decide
      · exact hdrawn.clean i k
    · rw [← hP]
      intro i k hik
      have hside : s₂.look i k = s.look i k := by
        rw [hdrawn.frame i k (by omega), hlook₁, written_frame (by omega)]
      by_cases hi : i = s.row
      · rw [hfront i k (by omega), hside]
      · rw [hother i k hi, hside]
    · change Limb _ s.col (s₂.width - 1) s.row fig
      rw [← hP, ← hrow₁]
      refine hdrawn.limb hcol₁ ?_ fun i k _ => ?_
      · rw [hrow₁, hfront _ _ (by omega), hdrawn.frame _ _ (by omega), hlook₁]
        have hplus := written_of_lt s ['+'] (n := 0) (by decide)
        exact Option.some.inj hplus
      · rw [hrow₁]
        exact hlook i k

end Limbs

section Ladders

variable {P : Nat → Nat → Char} {c x r : Nat} {top : Figure} {below : List Figure}

/-- Branches one below the other, the first of which is in row `r`, joined by bars in column
`c`. -/
def Ladder (P : Nat → Nat → Char) (c x : Nat) : Nat → Figure → List Figure → Prop
  | r, top, [] =>
    Limb P c x r top ∧ ∀ i, r < i → i < r + top.height → P i c = ' '
  | r, top, next :: rest =>
    Limb P c x r top ∧
    (∀ i, r < i → i ≤ r + top.height → P i c = '|') ∧
    (∀ k, c < k → P (r + top.height) k = ' ') ∧
    Ladder P c x (r + top.height + 1) next rest

/-- The row of the last branch. -/
def lastJunction : Nat → Figure → List Figure → Nat
  | r, _, [] => r
  | r, top, next :: rest => lastJunction (r + top.height + 1) next rest

theorem le_lastJunction
    (r : Nat) (top : Figure) (below : List Figure) :
    r ≤ lastJunction r top below := by
  induction below generalizing r top with
  | nil => exact Nat.le_refl r
  | cons next rest ih =>
      have := ih (r + top.height + 1) next
      rw [lastJunction]
      omega

theorem lt_lastJunction
    (hbelow : below ≠ []) :
    r < lastJunction r top below := by
  cases below with
  | nil => exact absurd rfl hbelow
  | cons next rest =>
      have := le_lastJunction (r + top.height + 1) next rest
      rw [lastJunction]
      omega

@[simp] theorem height_block_nil (top : Figure) : (top.block []).height = top.height := rfl

@[simp] theorem height_block_cons
    (top next : Figure) (rest : List Figure) :
    (top.block (next :: rest)).height = top.height + 1 + (next.block rest).height := by
  simp only [Figure.block, List.foldr_cons]
  omega

theorem Ladder.limb
    (h : Ladder P c x r top below) :
    Limb P c x r top := by
  cases below with
  | nil => exact h.1
  | cons next rest => exact h.1

theorem Ladder.lastJunction_lt
    (h : Ladder P c x r top below) :
    lastJunction r top below < r + (top.block below).height := by
  induction below generalizing r top with
  | nil => exact Nat.lt_add_of_pos_right h.limb.height_pos
  | cons next rest ih =>
      have := ih h.2.2.2
      rw [lastJunction, height_block_cons]
      omega

/-- At the right edge a ladder shows wires and blanks down to its last branch. -/
theorem Ladder.edge
    (h : Ladder P c x r top below) (hcx : c < x) :
    ∀ i, r ≤ i → i ≤ lastJunction r top below → P i x = ' ' ∨ P i x = '-' := by
  induction below generalizing r top with
  | nil =>
      intro i hri hi
      have hir : i = r := Nat.le_antisymm hi hri
      exact Or.inr (hir ▸ h.limb.wire x (Nat.le_refl x))
  | cons next rest ih =>
      intro i hri hi
      obtain ⟨hlimb, -, hblank, hrest⟩ := h
      rcases Nat.lt_trichotomy i (r + top.height) with hlt | heq | hgt
      · rcases Nat.eq_or_lt_of_le hri with rfl | hgt
        · exact Or.inr (hlimb.wire x (Nat.le_refl x))
        · exact Or.inl (hlimb.blank i x hgt hlt (Nat.le_refl x))
      · exact Or.inl (heq ▸ hblank x hcx)
      · exact ih hrest i hgt hi

/-- Below its last branch a ladder is blank from the right edge on. -/
theorem Ladder.blank
    (h : Ladder P c x r top below) :
    ∀ i k, lastJunction r top below < i → i < r + (top.block below).height → x ≤ k →
      P i k = ' ' := by
  induction below generalizing r top with
  | nil => exact h.limb.blank
  | cons next rest ih =>
      intro i k hi hi' hk
      rw [height_block_cons] at hi'
      exact ih h.2.2.2 i k hi (by omega) hk

end Ladders

section Bars

variable {s : Sheet}

/-- A left rail of `n` cells below the cursor, which ends on its last cell. -/
def bars (s : Sheet) (n : Nat) : Sheet :=
  { s with
    look := fun i k => if k = s.col ∧ s.row < i ∧ i ≤ s.row + n then '|' else s.look i k
    height := max s.height (s.row + n + 1)
    row := s.row + n
    deepest := max s.deepest (s.row + n) }

theorem bars_zero
    (hrow : s.row < s.height) (hdeep : s.row ≤ s.deepest) :
    bars s 0 = s := by
  apply Sheet.ext
  · funext i k
    simp only [bars]
    rw [if_neg (by omega)]
  · rfl
  · simp only [bars]
    omega
  · rfl
  · rfl
  · simp only [bars]
    omega

theorem look_bar
    (hcol : s.col + 1 < s.width) (i k : Nat) :
    (s.down.write ['|']).look i k = if k = s.col ∧ i = s.row + 1 then '|' else s.look i k := by
  simp only [Sheet.write, Sheet.down, Sheet.written, List.length_singleton]
  by_cases hi : i = s.row + 1
  · by_cases hk : s.col ≤ k
    · by_cases hk' : k = s.col
      · simp [hi, hk']
      · simp [hi, hk, hk', hcol, show ¬ k < s.col + 1 by omega]
    · simp [hi, hk, show k ≠ s.col by omega]
  · simp [hi]

/-- A left rail is drawn cell by cell. -/
theorem bars_bar
    (n : Nat) (hcol : s.col + 1 < s.width) :
    bars (s.down.write ['|']) n = bars s (n + 1) := by
  have hrow₁ : (s.down.write ['|']).row = s.row + 1 := rfl
  have hcol₁ : (s.down.write ['|']).col = s.col := rfl
  apply Sheet.ext
  · funext i k
    simp only [bars, look_bar hcol, hrow₁, hcol₁]
    by_cases hk : k = s.col
    · simp only [hk, true_and]
      by_cases hi : i = s.row + 1
      · rw [if_neg (by omega), if_pos hi, if_pos (by omega)]
      · rw [if_neg (c := i = s.row + 1) hi]
        by_cases hin : s.row + 1 < i ∧ i ≤ s.row + 1 + n
        · rw [if_pos hin, if_pos (by omega)]
        · rw [if_neg hin, if_neg (by omega)]
    · simp [hk]
  · simp only [bars, Sheet.write, Sheet.down, List.length_singleton]
    omega
  · simp only [bars, Sheet.write, Sheet.down]
    omega
  · simp only [bars, Sheet.write, Sheet.down]
    omega
  · rfl
  · simp only [bars, Sheet.write, Sheet.down]
    omega

theorem does_leftRail
    (n : Nat) (hrow : s.row < s.height) (hdeep : s.row ≤ s.deepest)
    (hcol : s.col + 1 < s.width) :
    Does (leftRail n) s () (bars s n) := by
  induction n generalizing s with
  | zero =>
      rw [bars_zero hrow hdeep]
      exact Canvas.does_pure ()
  | succ n ih =>
      have hdown : s.down.row < s.down.height := by
        simp only [Sheet.down]
        omega
      refine (Canvas.does_down hrow).bind ((Canvas.does_put '|' hdown).bind ?_)
      rw [← bars_bar n hcol]
      refine ih hdown (Nat.le_max_right _ _) ?_
      exact Nat.lt_of_lt_of_le hcol (Nat.le_max_left _ _)

end Bars

section Branches

variable {s s' : Sheet} {left : Marker} {top : Figure} {below : List Figure}

/-- A branch is drawn at the junction `left`, and nothing stands below it. -/
structure Begun (top : Figure) (left : Marker) (s : Sheet) : Prop where
  col_lt : left.col + 2 < s.width
  le_height : left.row + top.height ≤ s.height
  le_deepest : left.row + top.height ≤ s.deepest + 1
  clean : ∀ i k, s.look i k ≠ '\n'
  column : ∀ i, left.row < i → s.look i left.col = ' '
  blank : ∀ i k, left.row + top.height ≤ i → left.col ≤ k → s.look i k = ' '
  limb : Limb s.look left.col (s.width - 1) left.row top

/-- What drawing the lower branches changes. -/
structure Laddered (top : Figure) (below : List Figure) (left : Marker) (s s' : Sheet) : Prop where
  width_le : s.width ≤ s'.width
  height_eq : s'.height = max s.height (left.row + (top.block below).height)
  deepest_eq : s'.deepest = max s.deepest (left.row + (top.block below).height - 1)
  clean : ∀ i k, s'.look i k ≠ '\n'
  frame : ∀ i k,
    i ≤ left.row ∨ left.row + (top.block below).height ≤ i ∨ k < left.col →
    s'.look i k = s.look i k
  ladder : Ladder s'.look left.col (s'.width - 1) left.row top below

/-- The junction below a branch, at the lower end of the bars. -/
def nextJunction (top : Figure) (left : Marker) (s : Sheet) : Sheet :=
  (bars (s.goto left) top.height).down

theorem ready_nextJunction
    (h : Begun top left s) :
    Ready (nextJunction top left s) := by
  refine ⟨?_, ?_, ?_, ?_⟩
  · simp only [nextJunction, Sheet.down]
    omega
  · exact Nat.le_max_right _ _
  · intro i k hi hk
    change left.row + top.height + 1 < i at hi
    change (if k = left.col ∧ left.row < i ∧ i ≤ left.row + top.height then '|'
      else s.look i k) = ' '
    rw [if_neg (by omega)]
    exact h.blank i k (by omega) hk
  · intro i k
    change (if k = left.col ∧ left.row < i ∧ i ≤ left.row + top.height then '|'
      else s.look i k) ≠ '\n'
    split
    · decide
    · exact h.clean i k

theorem look_nextJunction
    (top : Figure) (left : Marker) (s : Sheet) (i k : Nat) :
    (nextJunction top left s).look i k =
      if k = left.col ∧ left.row < i ∧ i ≤ left.row + top.height then '|' else s.look i k :=
  rfl

/-- The branch drawn at the next junction begins a ladder again. -/
theorem Begun.next
    {next : Figure}
    (h : Begun top left s)
    (hbranch : Branched next (nextJunction top left s) s') :
    Begun next ⟨left.row + top.height + 1, left.col⟩ s' := by
  have hready := ready_nextJunction h
  refine ⟨hbranch.col_lt, ?_, ?_, hbranch.clean, ?_, ?_, hbranch.limb⟩
  · rw [hbranch.height_eq]
    exact Nat.le_max_right _ _
  · have hle : left.row + top.height + 1 + next.height - 1 ≤ s'.deepest := by
      rw [hbranch.deepest_eq]
      exact Nat.le_max_right _ _
    change left.row + top.height + 1 + next.height ≤ s'.deepest + 1
    omega
  · intro i hi
    change left.row + top.height + 1 < i at hi
    rw [hbranch.frame i left.col (Or.inr (Or.inr (Or.inr ⟨hi, Nat.le_refl _⟩)))]
    exact hready.blank i left.col hi (Nat.le_refl _)
  · intro i k hi hk
    change left.row + top.height + 1 + next.height ≤ i at hi
    rw [hbranch.frame i k (Or.inr (Or.inl hi))]
    exact hready.blank i k (by
      change left.row + top.height + 1 < i
      have := hbranch.limb.height_pos
      omega) hk

/-- One more branch on top of a ladder. -/
theorem Laddered.cons
    {next : Figure} {rest : List Figure} {s₁ : Sheet}
    (h : Begun top left s)
    (hbranch : Branched next (nextJunction top left s) s₁)
    (hrest : Laddered next rest ⟨left.row + top.height + 1, left.col⟩ s₁ s') :
    Laddered top (next :: rest) left s s' := by
  have hpos := h.limb.height_pos
  have hpos' := hbranch.limb.height_pos
  have hheight := height_block_cons top next rest
  have hblock : next.height ≤ (next.block rest).height := Nat.le_add_right _ _
  have hwidth₁ : s.width ≤ s₁.width := hbranch.width_le
  have hcol := h.col_lt
  -- Above the next junction only the bars are new.
  have habove : ∀ i k, i ≤ left.row + top.height →
      s'.look i k = (nextJunction top left s).look i k := by
    intro i k hi
    rw [hrest.frame i k (Or.inl (by change i ≤ left.row + top.height + 1; omega))]
    exact hbranch.frame i k (Or.inl (by change i < left.row + top.height + 1; omega))
  have hsame : ∀ i k, i ≤ left.row + top.height → k ≠ left.col ∨ i ≤ left.row →
      s'.look i k = s.look i k := by
    intro i k hi hk
    rw [habove i k hi, look_nextJunction, if_neg (by omega)]
  refine ⟨hwidth₁.trans hrest.width_le, ?_, ?_, hrest.clean, ?_, ?_⟩
  · rw [hrest.height_eq, hbranch.height_eq]
    simp only [nextJunction, bars, Sheet.down, Sheet.goto]
    omega
  · rw [hrest.deepest_eq, hbranch.deepest_eq]
    simp only [nextJunction, bars, Sheet.down, Sheet.goto]
    omega
  · intro i k hik
    have hrow : (nextJunction top left s).row = left.row + top.height + 1 := rfl
    have hcol' : (nextJunction top left s).col = left.col := rfl
    rcases Nat.lt_or_ge (left.row + top.height) i with hi | hi
    · rw [hrest.frame i k (by simp only; omega), hbranch.frame i k (by omega),
        look_nextJunction, if_neg (by omega)]
    · exact hsame i k hi (by omega)
  · refine ⟨?_, ?_, ?_, hrest.ladder⟩
    · have hwidth := hrest.width_le
      refine h.limb.mono (by omega) (hsame _ _ (by omega) (by omega)) ?_ (by omega)
      intro i k _ hi hk
      exact hsame i k (by omega) (by omega)
    · intro i hri hi
      rw [habove i _ hi, look_nextJunction, if_pos ⟨rfl, hri, hi⟩]
    · intro k hk
      rw [hsame _ k (Nat.le_refl _) (by omega)]
      exact h.blank _ k (Nat.le_refl _) hk.le

/-- Branches drawn one below the other form a ladder. -/
theorem does_lowerBranches
    {bodies : List (Action Unit)}
    (hbodies : List.Forall₂ Draws bodies below)
    (h : Begun top left s) :
    ∃ s', Does (lowerBranches left (left.row + top.height - 1) bodies) s
        ⟨lastJunction left.row top below, left.col⟩ s' ∧
      Laddered top below left s s' := by
  induction hbodies generalizing top left s with
  | nil =>
      have hpos := h.limb.height_pos
      have hdeep := h.le_deepest
      refine ⟨s, Canvas.does_pure left, Nat.le_refl _, ?_, ?_, h.clean, fun _ _ _ => rfl, ?_⟩
      · rw [height_block_nil, Nat.max_eq_left h.le_height]
      · rw [height_block_nil, Nat.max_eq_left (by omega)]
      · exact ⟨h.limb, fun i hi _ => h.column i hi⟩
  | @cons body next bodies rest hbody hbodies ih =>
      have hpos := h.limb.height_pos
      have hrow : left.row < s.height := by
        have := h.le_height
        omega
      have hdeep : left.row ≤ s.deepest := by
        have := h.le_deepest
        omega
      have hcol : left.col + 1 < s.width := by
        have := h.col_lt
        omega
      have hbar := does_leftRail (s := s.goto left) top.height hrow hdeep hcol
      have hdown := Canvas.does_down (s := bars (s.goto left) top.height) (by
        simp only [bars]
        omega)
      obtain ⟨s₁, hdoes₁, hbranch⟩ := hbody.branch (ready_nextJunction h)
      obtain ⟨s₂, hdoes₂, hladder⟩ := ih (h.next hbranch)
      refine ⟨s₂, ?_, hladder.cons h hbranch⟩
      rw [lowerBranches]
      refine (Canvas.does_goto left).bind ?_
      rw [show left.row + top.height - 1 + 1 - left.row = top.height by omega]
      refine hbar.bind (hdown.bind ?_)
      refine Canvas.does_get_bind fun c hc => ?_
      rw [Canvas.marker_of_sheet hc]
      exact hdoes₁.bind hdoes₂

end Branches

end Drawing
end RelayLadder
