import RelayLadder.Proofs.Drawing.Branch

/-!
# Drawing blocks

When the branches of a block form a ladder, the right rail is drawn upward along
the right edge: wires become junctions, gaps become bars, and everything behind
the rail becomes blank.

**Results.**
* `Ladder.railed`: a ladder with a right rail is what the reader takes for a block.
* `Draws.block`: a drawn block is read as the block of its branches.
-/

namespace RelayLadder
namespace Drawing

open Canvas (Action Sheet Does)

section Rails

variable {s : Sheet}

/-- What the right rail makes of a wire and of a gap. -/
def railed (ch : Char) : Char :=
  if ch = '-' then '+' else '|'

/-- The right rail drawn in `n` rows, upward from the cursor, which ends above it. -/
def rail (s : Sheet) (n : Nat) : Sheet :=
  { s with
    look := fun i k =>
      if s.row < i + n ∧ i ≤ s.row ∧ s.col ≤ k then
        if k = s.col then railed (s.look i k) else ' '
      else
        s.look i k
    width := if n = 0 then s.width else s.col + 2
    row := s.row - n }

theorem exists_railGlyph
    {ch : Char}
    (h : ch = ' ' ∨ ch = '-') :
    ∃ text, railGlyph ch = some text ∧ text.toList = [railed ch, ' '] := by
  rcases h with rfl | rfl
  · exact ⟨"| ", rfl, rfl⟩
  · exact ⟨"+ ", rfl, rfl⟩

theorem rail_zero
    (s : Sheet) :
    rail s 0 = s := by
  apply Sheet.ext
  · funext i k
    simp only [rail]
    rw [if_neg (by omega)]
  · rfl
  · rfl
  · rfl
  · rfl
  · rfl

/-- One cell of the right rail drawn at the cursor, which ends above it. -/
def railCell (s : Sheet) : Sheet :=
  { (s.draw [railed (s.look s.row s.col), ' ']).goto s.marker with row := s.row - 1 }

theorem width_railCell
    (hwidth : s.width ≤ s.col + 2) :
    (railCell s).width = s.col + 2 := by
  simp only [railCell, Sheet.goto, Sheet.draw, Sheet.write, List.length_cons, List.length_nil]
  omega

theorem look_railCell
    (hwidth : s.width ≤ s.col + 2) (i k : Nat) :
    (railCell s).look i k =
      if i = s.row ∧ s.col ≤ k then
        if k = s.col then railed (s.look i k) else ' '
      else
        s.look i k := by
  simp only [railCell, Sheet.goto, Sheet.draw, Sheet.write, Sheet.written, List.length_cons,
    List.length_nil]
  by_cases hik : i = s.row ∧ s.col ≤ k
  · obtain ⟨rfl, hk⟩ := hik
    simp only [hk, and_self, if_true, show ¬ s.col + (0 + 1 + 1) < s.width by omega, if_false]
    by_cases hk' : k = s.col
    · simp [hk']
    · by_cases hk'' : k = s.col + 1
      · simp [hk'']
      · simp [hk', show ¬ k < s.col + (0 + 1 + 1) by omega]
  · rw [if_neg hik, if_neg hik]

/-- A rail is drawn cell by cell. -/
theorem rail_railCell
    {n : Nat} (hn : n < s.row) (hwidth : s.width ≤ s.col + 2) :
    rail (railCell s) n = rail s (n + 1) := by
  have hrow : (railCell s).row = s.row - 1 := rfl
  have hcol : (railCell s).col = s.col := rfl
  apply Sheet.ext
  · funext i k
    simp only [rail, look_railCell hwidth, hrow, hcol]
    by_cases hi : i = s.row
    · rw [if_neg (by omega)]
      by_cases hk : s.col ≤ k
      · rw [if_pos ⟨hi, hk⟩, if_pos (c := s.row < i + (n + 1) ∧ _) (by omega)]
      · rw [if_neg (by omega), if_neg (by omega)]
    · rw [if_neg (c := i = s.row ∧ s.col ≤ k) (by omega)]
      by_cases hin : s.row - 1 < i + n ∧ i ≤ s.row - 1 ∧ s.col ≤ k
      · rw [if_pos hin, if_pos (c := s.row < i + (n + 1) ∧ _) (by omega)]
      · rw [if_neg hin, if_neg (by omega)]
  · simp only [rail, width_railCell hwidth, hcol, Nat.add_eq_zero_iff, Nat.one_ne_zero, and_false,
      if_false]
    split
    · rfl
    · rfl
  · rfl
  · simp only [rail, hrow]
    omega
  · rfl
  · rfl

theorem does_redrawUp
    (n : Nat) (hrow : s.row < s.height) (hn : n ≤ s.row)
    (hcol : s.col < s.width) (hwidth : s.width ≤ s.col + 2)
    (hedge : ∀ i, s.row < i + n → i ≤ s.row → s.look i s.col = ' ' ∨ s.look i s.col = '-') :
    Does (Canvas.Action.redrawUp railGlyph n) s () (rail s n) := by
  induction n generalizing s with
  | zero =>
      rw [rail_zero]
      exact Canvas.does_pure ()
  | succ n ih =>
      obtain ⟨text, hglyph, htext⟩ := exists_railGlyph (hedge s.row (by omega) (Nat.le_refl _))
      have hne : text ≠ "" := by
        rintro rfl
        cases htext
      have hredraw : s.redraw railGlyph (s.look s.row s.col) =
          s.draw [railed (s.look s.row s.col), ' '] := by
        rw [Sheet.redraw, hglyph, Option.getD_some, if_neg hne, htext]
      refine Canvas.does_redrawUp_succ (Canvas.does_peek hrow hcol) hrow (by omega) ?_
      rw [hredraw]
      change Does (Canvas.Action.redrawUp railGlyph n) (railCell s) () _
      rw [← rail_railCell (by omega) hwidth]
      refine ih ?_ ?_ ?_ ?_ ?_
      · exact Nat.lt_of_le_of_lt (Nat.sub_le _ _) hrow
      · exact Nat.le_sub_one_of_lt hn
      · rw [width_railCell hwidth]
        exact Nat.lt_add_of_pos_right Nat.two_pos
      · rw [width_railCell hwidth]
        exact Nat.le_refl _
      · intro i hi hi'
        change s.row - 1 < i + n at hi
        change i ≤ s.row - 1 at hi'
        rw [look_railCell hwidth, if_neg (by omega)]
        exact hedge i (by omega) (by omega)

/-- What closing a block at the right edge changes.  The rows of the block that get a rail are
those from `r` to `last`. -/
structure Closed (r last : Nat) (s s' : Sheet) : Prop where
  row_eq : s'.row = r
  col_eq : s'.col = s.width + 2
  width_eq : s'.width = s.width + 3
  height_eq : s'.height = s.height
  deepest_eq : s'.deepest = s.deepest
  front : ∀ i k, k < s.width - 1 → s'.look i k = s.look i k
  outside : ∀ i k, i < r ∨ last < i → s'.look i k = s.look i k
  edge : ∀ i, r ≤ i → i ≤ last → s'.look i (s.width - 1) = railed (s.look i (s.width - 1))
  blank : ∀ i k, r < i → i ≤ last → s.width ≤ k → s'.look i k = ' '
  wire : ∀ k, s.width ≤ k → s'.look r k = '-'

theorem Closed.clean
    {r last : Nat} {s' : Sheet}
    (h : Closed r last s s')
    (hs : ∀ i k, s.look i k ≠ '\n') :
    ∀ i k, s'.look i k ≠ '\n' := by
  intro i k
  by_cases hi : i < r ∨ last < i
  · rw [h.outside i k hi]
    exact hs i k
  · rcases Nat.lt_trichotomy k (s.width - 1) with hlt | heq | hgt
    · rw [h.front i k hlt]
      exact hs i k
    · rw [heq, h.edge i (by omega) (by omega), railed]
      split
      · decide
      · decide
    · by_cases hir : i = r
      · rw [hir, h.wire k (by omega)]
        decide
      · rw [h.blank i k (by omega) (by omega) (by omega)]
        decide

/-- The right rail at the right edge, drawn below row `r`, and the wire that goes on behind it. -/
def closing (left : Marker) (r : Nat) (s : Sheet) : Sheet :=
  (rail (s.goto left).lineEnd (left.row - r)).element ['+', '-', '-']

theorem look_closing
    {left : Marker} {r : Nat}
    (hr : r < left.row) (hwidth : 0 < s.width) (i k : Nat) :
    (closing left r s).look i k =
      if i = r ∧ s.width - 1 ≤ k then
        if k = s.width - 1 then '+' else '-'
      else if r < i ∧ i ≤ left.row ∧ s.width - 1 ≤ k then
        if k = s.width - 1 then railed (s.look i k) else ' '
      else
        s.look i k := by
  obtain ⟨s₁, hs₁⟩ : ∃ s₁, s₁ = rail (s.goto left).lineEnd (left.row - r) := ⟨_, rfl⟩
  have hrow₁ : s₁.row = r := by
    rw [hs₁]
    change left.row - (left.row - r) = r
    omega
  have hcol₁ : s₁.col = s.width - 1 := by
    rw [hs₁]
    rfl
  have hwidth₁ : s₁.width = s.width + 1 := by
    rw [hs₁]
    simp only [rail, Sheet.lineEnd, Sheet.goto, show ¬ left.row - r = 0 by omega, if_false]
    omega
  have hlook₁ : s₁.look i k =
      if r < i ∧ i ≤ left.row ∧ s.width - 1 ≤ k then
        if k = s.width - 1 then railed (s.look i k) else ' '
      else
        s.look i k := by
    have hrows : (left.row < i + (left.row - r) ∧ i ≤ left.row ∧ s.width - 1 ≤ k) ↔
        (r < i ∧ i ≤ left.row ∧ s.width - 1 ≤ k) := by
      omega
    rw [hs₁]
    exact if_congr hrows rfl rfl
  rw [closing, ← hs₁, ← hlook₁]
  change s₁.written ['+', '-', '-'] i k = _
  simp only [Sheet.written, hrow₁, hcol₁, hwidth₁, List.length_cons, List.length_nil]
  by_cases hik : i = r ∧ s.width - 1 ≤ k
  · rw [if_pos hik, if_pos hik, if_neg (c := _ < s.width + 1) (by omega)]
    by_cases hk : k = s.width - 1
    · simp [hk]
    · by_cases hk' : k = s.width
      · rw [if_pos (by omega), if_neg hk, show k - (s.width - 1) = 1 by omega]
        rfl
      · by_cases hk'' : k = s.width + 1
        · rw [if_pos (by omega), if_neg hk, show k - (s.width - 1) = 2 by omega]
          rfl
        · rw [if_neg (by omega), if_neg hk]
          rfl
  · rw [if_neg hik, if_neg hik]

theorem closed_closing
    (left : Marker) {r : Nat}
    (hr : r < left.row) (hwidth : 0 < s.width)
    (hwire : s.look r (s.width - 1) = '-') :
    Closed r left.row s (closing left r s) := by
  have hlook := look_closing hr hwidth
  refine ⟨?_, ?_, ?_, rfl, rfl, ?_, ?_, ?_, ?_, ?_⟩
  · change left.row - (left.row - r) = r
    omega
  · change s.width - 1 + 3 - 1 + 1 = s.width + 2
    omega
  · simp only [closing, rail, Sheet.element, Sheet.draw, Sheet.right, Sheet.write, Sheet.lineEnd,
      Sheet.goto, List.length_cons, List.length_nil, show ¬ left.row - r = 0 by omega, if_false]
    omega
  · intro i k hk
    rw [hlook, if_neg (by omega), if_neg (by omega)]
  · intro i k hi
    rw [hlook, if_neg (by omega), if_neg (by omega)]
  · intro i hri hi
    rw [hlook]
    by_cases hir : i = r
    · rw [if_pos ⟨hir, Nat.le_refl _⟩, if_pos rfl, hir, hwire]
      rfl
    · rw [if_neg (by omega), if_pos (by omega), if_pos rfl]
  · intro i k hri hi hk
    rw [hlook, if_neg (by omega), if_pos (by omega), if_neg (by omega)]
  · intro k hk
    rw [hlook, if_pos (by omega), if_neg (by omega)]

/-- The right rail is drawn at the right edge, upward from the row of `left`. -/
theorem does_closing
    (left : Marker) {r : Nat}
    (hr : r < left.row) (hleft : left.row < s.height) (hwidth : 0 < s.width)
    (hedge : ∀ i, r ≤ i → i ≤ left.row →
      s.look i (s.width - 1) = ' ' ∨ s.look i (s.width - 1) = '-') :
    Does (do
      Canvas.Action.goto left
      Canvas.Action.lineEnd
      Canvas.Action.redrawUpTo r railGlyph
      element "+--") s () (closing left r s) := by
  have hrail : Does (Canvas.Action.redrawUpTo r railGlyph) (s.goto left).lineEnd ()
      (rail (s.goto left).lineEnd (left.row - r)) := by
    rw [Canvas.Action.redrawUpTo]
    refine Canvas.does_get_bind fun c hc => ?_
    rw [show c.row = left.row from congrArg Sheet.row hc]
    refine does_redrawUp (left.row - r) hleft (Nat.sub_le _ _) ?_ ?_ ?_
    · exact Nat.sub_lt hwidth Nat.one_pos
    · change s.width ≤ s.width - 1 + 2
      omega
    · intro i hi hi'
      change left.row < i + (left.row - r) at hi
      exact hedge i (by omega) hi'
  have hend : (rail (s.goto left).lineEnd (left.row - r)).row < s.height :=
    Nat.lt_of_le_of_lt (Nat.sub_le _ _) hleft
  have hedge : Does Canvas.Action.lineEnd (s.goto left) () (s.goto left).lineEnd :=
    Canvas.does_lineEnd (Nat.zero_lt_of_lt hleft)
  exact (Canvas.does_goto left).bind (hedge.bind (hrail.bind (does_element hend (by decide))))

end Rails

section Reading

variable {P : Nat → Nat → Char} {c x r r₀ : Nat} {top : Figure} {below : List Figure} {rung : Rung}

/-- A limb of a rung is read between the rails. -/
theorem Limb.joins
    (h : Limb P c x r top)
    (hcx : c < x)
    (hcell : ∀ i k, i < top.height → c ≤ k → k < x →
      rung.cell? (r₀ + i) k = some (P (r + i) k))
    (hrail : rung.cell? r₀ x = some (railed (P r x)))
    (hbelow : ∀ k, c < k → k < x →
      rung.cell? (r₀ + top.height) k ≠ some '|' ∧ rung.cell? (r₀ + top.height) k ≠ some '+') :
    rung.Joins c x r₀ top := by
  refine ⟨?_, ?_, ?_⟩
  · have hjunction := hcell 0 c h.height_pos (Nat.le_refl c) hcx
    rwa [Nat.add_zero, Nat.add_zero, h.junction] at hjunction
  · rw [hrail, h.wire x (Nat.le_refl x)]
    rfl
  · refine h.reads x (Nat.le_refl x) rung r₀ ⟨?_, ?_⟩
    · intro i k hi hk hkx
      exact hcell i k hi (by omega) hkx
    · intro k hk hkx
      exact hbelow k (by omega) hkx

/-- A ladder with a right rail, seen by the reader. -/
theorem Ladder.railed
    (h : Ladder P c x r top below)
    (hcx : c < x)
    (hcell : ∀ i k, i < (top.block below).height → c ≤ k → k < x →
      rung.cell? (r₀ + i) k = some (P (r + i) k))
    (hrail : ∀ i, r + i ≤ lastJunction r top below →
      rung.cell? (r₀ + i) x = some (railed (P (r + i) x)))
    (hbelow : ∀ k, c ≤ k → k < x →
      rung.cell? (r₀ + (top.block below).height) k ≠ some '|' ∧
        rung.cell? (r₀ + (top.block below).height) k ≠ some '+') :
    rung.Railed c x r₀ top below := by
  induction below generalizing top r r₀ with
  | nil =>
      obtain ⟨hlimb, hcolumn⟩ := h
      have hpos := hlimb.height_pos
      refine ⟨hlimb.joins hcx hcell (hrail 0 (Nat.le_refl r)) fun k hk hkx =>
        hbelow k hk.le hkx, ?_⟩
      -- The column ends below the junction: with the block, or with a blank.
      rcases Nat.eq_or_lt_of_le hpos with hone | hmore
      · have hend := hbelow c (Nat.le_refl c) hcx
        rwa [height_block_nil, ← hone] at hend
      · rw [hcell 1 c hmore (Nat.le_refl c) hcx, hcolumn (r + 1) (by omega) (by omega)]
        decide
  | cons next rest ih =>
      obtain ⟨hlimb, hbars, hblank, hrest⟩ := h
      have hheight := height_block_cons top next rest
      have hlast := le_lastJunction (r + top.height + 1) next rest
      have hsep : ∀ k, c < k → k < x → rung.cell? (r₀ + top.height) k = some ' ' := by
        intro k hk hkx
        rw [hcell top.height k (by omega) hk.le hkx, hblank k hk]
      refine ⟨?_, ?_, hsep, ?_⟩
      · refine hlimb.joins hcx (fun i k hi => hcell i k (by omega))
          (hrail 0 (by rw [lastJunction]; omega)) fun k hk hkx => ?_
        rw [hsep k hk hkx]
        decide
      · intro i hri hi
        obtain ⟨n, rfl⟩ : ∃ n, i = r₀ + n := ⟨i - r₀, by omega⟩
        rw [hcell n c (by omega) (Nat.le_refl c) hcx, hrail n (by rw [lastJunction]; omega),
          hbars (r + n) (by omega) (by omega)]
        refine ⟨rfl, ?_⟩
        rcases Nat.eq_or_lt_of_le (show n ≤ top.height by omega) with rfl | hlt
        · rw [hblank x hcx]
          rfl
        · rw [hlimb.blank (r + n) x (by omega) (by omega) (Nat.le_refl x)]
          rfl
      · refine ih hrest ?_ ?_ ?_
        · intro i k hi hk hkx
          have hshift := hcell (top.height + 1 + i) k (by omega) hk hkx
          rwa [← Nat.add_assoc, ← Nat.add_assoc, ← Nat.add_assoc, ← Nat.add_assoc] at hshift
        · intro i hi
          have hshift := hrail (top.height + 1 + i) (by rw [lastJunction]; omega)
          rwa [← Nat.add_assoc, ← Nat.add_assoc, ← Nat.add_assoc, ← Nat.add_assoc] at hshift
        · rw [hheight, ← Nat.add_assoc, ← Nat.add_assoc] at hbelow
          exact hbelow

end Reading

section Blocks

variable {s s₁ s₂ s₃ s₄ : Sheet} {top : Figure} {below : List Figure}

/-- The wire before a block. -/
theorem ready_element
    (hs : Ready s) :
    Ready (s.element ['-', '-']) := by
  refine ⟨hs.row_lt, hs.row_le, ?_, ?_⟩
  · intro i k hi hk
    change s.row < i at hi
    change s.col + 2 - 1 + 1 ≤ k at hk
    change s.written ['-', '-'] i k = ' '
    rw [written_frame (by omega)]
    exact hs.blank i k hi (by omega)
  · exact written_clean (List.cons_ne_nil '-' ['-']) (by decide) hs.clean

/-- A branch drawn at a junction begins a ladder. -/
theorem Branched.begun
    (h : Branched top s s₁) (hs : Ready s) :
    Begun top s.marker s₁ := by
  refine ⟨h.col_lt, ?_, ?_, h.clean, ?_, ?_, h.limb⟩
  · rw [h.height_eq]
    exact Nat.le_max_right _ _
  · change s.row + top.height ≤ _
    have := h.deepest_eq
    omega
  · intro i hi
    change s.row < i at hi
    change s₁.look i s.col = ' '
    rw [h.frame i s.col (Or.inr (Or.inr (Or.inr ⟨hi, Nat.le_refl _⟩)))]
    exact hs.blank i s.col hi (Nat.le_refl _)
  · intro i k hi hk
    change s.row + top.height ≤ i at hi
    rw [h.frame i k (Or.inr (Or.inl hi))]
    have := h.limb.height_pos
    exact hs.blank i k (by omega) hk

/-- A ladder that is closed at the right edge is read as a block, with the wire around it. -/
theorem Closed.reads
    {c r : Nat}
    (hclosed : Closed r (lastJunction r top below) s₃ s₄) (hne : below ≠ [])
    (hladder : Ladder s₃.look (c + 2) (s₃.width - 1) r top below)
    (hedge : c + 4 < s₃.width)
    (hdash : ∀ n, n < 2 → s₄.look r (c + n) = '-') :
    Rung.Reads s₄.look r c (s₃.width + 2) (top.block below) := by
  intro rung r₀ hshows scope e he
  have hlast := hladder.lastJunction_lt
  have hpos : 0 < (top.block below).height :=
    Nat.lt_of_lt_of_le hladder.limb.height_pos (Nat.le_add_right _ _)
  have hrailed : rung.Railed (c + 2) (s₃.width - 1) r₀ top below := by
    refine hladder.railed (by omega) ?_ ?_ ?_
    · intro i k hi hk hkx
      rw [hshows.cells i k hi (by omega) (by omega), hclosed.front _ k hkx]
    · intro i hi
      rw [hshows.cells i _ (by omega) (by omega) (by omega), hclosed.edge _ (by omega) hi]
    · intro k hk hkx
      exact hshows.below k (by omega) (by omega)
  have hfront : ∀ j, c ≤ j → j < c + 2 → rung.cell? r₀ j = some '-' := by
    intro j hj hj'
    obtain ⟨n, rfl⟩ : ∃ n, j = c + n := ⟨j - c, by omega⟩
    have hcell := hshows.cells 0 (c + n) hpos hj (by omega)
    rwa [Nat.add_zero, Nat.add_zero, hdash n (by omega)] at hcell
  have hback : ∀ j, s₃.width ≤ j → j < s₃.width + 2 → rung.cell? r₀ j = some '-' := by
    intro j hj hj'
    have hcell := hshows.cells 0 j hpos (by omega) hj'
    rwa [Nat.add_zero, Nat.add_zero, hclosed.wire j hj] at hcell
  rw [Rung.read?_dashes 2 hfront (by omega),
    hrailed.read?_eq hne (by omega) (show s₃.width - 1 < e by omega),
    show s₃.width - 1 + 1 = s₃.width by omega, Rung.read?_dashes 2 hback he]

/-- A block is drawn by its first wire, its branches and its right rail. -/
theorem drawn_block
    (hs : Ready s) (hne : below ≠ [])
    (hbranch : Branched top (s.element ['-', '-']) s₂)
    (hladder : Laddered top below (s.element ['-', '-']).marker s₂ s₃)
    (hclosed : Closed s.row (lastJunction s.row top below) s₃ s₄) :
    Drawn (top.block below) s s₄ := by
  obtain ⟨s₁, hs₁⟩ : ∃ s₁, s₁ = s.element ['-', '-'] := ⟨_, rfl⟩
  rw [← hs₁] at hbranch hladder
  have hrow₁ : s₁.row = s.row := by rw [hs₁]; rfl
  have hcol₁ : s₁.col = s.col + 2 := by rw [hs₁]; rfl
  have hwidth₁ : s.width ≤ s₁.width := by
    rw [hs₁]
    simp only [Sheet.element, Sheet.right, Sheet.draw, Sheet.write]
    omega
  have hheight₁ : s₁.height = s.height := by rw [hs₁]; rfl
  have hdeepest₁ : s₁.deepest = s.deepest := by rw [hs₁]; rfl
  have hlook₁ : s₁.look = s.written ['-', '-'] := by rw [hs₁]; rfl
  have hleft : s₁.marker = ⟨s.row, s.col + 2⟩ := by rw [Sheet.marker, hrow₁, hcol₁]
  rw [hleft] at hladder
  have hpos := hbranch.limb.height_pos
  have htop : top.height ≤ (top.block below).height := Nat.le_add_right _ _
  have hedge : s.col + 4 < s₃.width := by
    have h₂ := hbranch.col_lt
    have h₃ := hladder.width_le
    omega
  have hlast : lastJunction s.row top below < s.row + (top.block below).height :=
    hladder.ladder.lastJunction_lt
  have hcol₄ := hclosed.col_eq
  -- Outside the block, and before its left rail, only the first wire is new.
  have hframe : ∀ i k, i < s.row ∨ s.row + (top.block below).height ≤ i ∨ k < s.col + 2 →
      s₄.look i k = s₁.look i k := by
    intro i k hik
    have h₄ : s₄.look i k = s₃.look i k := by
      rcases hik with hi | hi | hk
      · exact hclosed.outside i k (Or.inl hi)
      · exact hclosed.outside i k (Or.inr (by omega))
      · exact hclosed.front i k (by omega)
    rw [h₄, hladder.frame i k (by simp only; omega), hbranch.frame i k (by omega)]
  have hdash : ∀ n, n < 2 → s₄.look s.row (s.col + n) = '-' := by
    intro n hn
    have hwritten := written_of_lt s ['-', '-'] (n := n) hn
    rw [hframe _ _ (by omega), hlook₁]
    rcases Nat.lt_or_ge n 1 with h0 | h1
    · obtain rfl : n = 0 := by omega
      exact Option.some.inj hwritten
    · obtain rfl : n = 1 := by omega
      exact Option.some.inj hwritten
  refine
    { height_pos := by omega
      row_eq := hclosed.row_eq
      col_lt := by omega
      col_lt_width := by
        rw [hcol₄, hclosed.width_eq]
        omega
      width_le := ?_
      height_eq := ?_
      deepest_eq := ?_
      clean := hclosed.clean hladder.clean
      frame := ?_
      margin := ?_
      blank := ?_
      wire := fun _ k hk => hclosed.wire k (by omega)
      lead := hdash 0 (by omega)
      reads := ?_ }
  · have h₂ := hbranch.width_le
    have h₃ := hladder.width_le
    have h₄ := hclosed.width_eq
    omega
  · rw [hclosed.height_eq, hladder.height_eq, hbranch.height_eq, hheight₁, hrow₁]
    simp only
    omega
  · rw [hclosed.deepest_eq, hladder.deepest_eq, hbranch.deepest_eq, hdeepest₁, hrow₁]
    simp only
    omega
  · intro i k hik
    rw [hframe i k (by omega), hlook₁, written_frame (by omega)]
  · intro i hi
    rw [hframe i _ (by omega), hlook₁, written_frame (by omega)]
    exact hs.blank i _ hi (Nat.le_refl _)
  · intro i k hri hi hk
    rcases Nat.lt_or_ge (lastJunction s.row top below) i with hlt | hge
    · rw [hclosed.outside i k (Or.inr hlt)]
      exact hladder.ladder.blank i k hlt hi (by omega)
    · exact hclosed.blank i k hri hge (by omega)
  · rw [hcol₄]
    exact hclosed.reads hne hladder.ladder hedge hdash

/-- A drawn block is read as the block of its branches. -/
theorem Draws.block
    {head : Action Unit} {bodies : List (Action Unit)}
    (hhead : Draws head top) (hbodies : List.Forall₂ Draws bodies below)
    (hne : below ≠ []) :
    Draws (block head bodies) (top.block below) := by
  intro s hs
  have hready := ready_element hs
  obtain ⟨s₂, hdoes₂, hbranch⟩ := hhead.branch hready
  have hbegun := hbranch.begun hready
  obtain ⟨s₃, hdoes₃, hladder⟩ := does_lowerBranches hbodies hbegun
  have hlast := hladder.ladder.lastJunction_lt
  have hwidth : s.col + 4 < s₃.width := by
    have h₂ := hbranch.col_lt
    have h₃ := hladder.width_le
    change s.col + 2 - 1 + 1 + 2 < s₂.width at h₂
    omega
  have hcx : (s.element ['-', '-']).marker.col < s₃.width - 1 := by
    change s.col + 2 - 1 + 1 < _
    omega
  have hin : lastJunction s.row top below < s₃.height := by
    rw [hladder.height_eq]
    exact Nat.lt_of_lt_of_le hlast (Nat.le_max_right _ _)
  have hlow : s.row < lastJunction s.row top below := lt_lastJunction hne
  have hdoes₄ := does_closing ⟨lastJunction s.row top below, (s.element ['-', '-']).col⟩
    hlow hin (by omega) (hladder.ladder.edge hcx)
  have hclosed := closed_closing ⟨lastJunction s.row top below, (s.element ['-', '-']).col⟩
    hlow (by omega) (hladder.ladder.limb.wire _ (Nat.le_refl _))
  refine ⟨_, ?_, drawn_block hs hne hbranch hladder hclosed⟩
  have hwire : Does (element "--") s () (s.element ['-', '-']) :=
    does_element hs.row_lt (by decide)
  refine hwire.bind (Canvas.does_get_bind fun c hc => ?_)
  rw [Canvas.marker_of_sheet hc]
  exact hdoes₂.bind (hdoes₃.bind hdoes₄)

end Blocks

end Drawing
end RelayLadder
