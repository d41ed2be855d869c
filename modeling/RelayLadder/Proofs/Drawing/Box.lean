import RelayLadder.Proofs.Canvas.Outcome
import RelayLadder.Proofs.Drawing.Branch

/-!
# The box of a drawing

**Changes.**  `Within ink r c b s s'` says that from the sheet `s` to the sheet `s'`
only cells in the rows from `r` up to `b` and in the columns from `c` on have changed,
that only characters with the property `ink` were drawn there, and that the grid has
become just high enough for these rows.

**Boxes.**  `Boxed ink h s s'` says that something `h` rows high was drawn at the
cursor, which ends on the same row behind it.  Nothing is assumed about what stands on
the sheet before, and nothing about the texts that are drawn.

**Blocks.**  A branch is `Forked` and `Sprouted`, the rail to the next one is `Lowered`,
the branches are `Stacked`, and the right rail is `Railed`.  Each of these says where the
cursor is and how deep the drawing has become.

**Results.**
* `Boxed.series`: boxes side by side.
* `ends_lowerBranches`: branches one below the other, with a row above each of them.
* `boxing_block`: the height of a block.
-/

namespace RelayLadder
namespace Drawing

open Canvas (Action Sheet Does)

/-- The characters that drawings consist of, apart from names and tokens. -/
def glyphs : List Char :=
  ['-', '+', '|', ' ', '[', ']', '\x7b', '\x7d', '(', ')', '/']

/-- The rows that branches of the given heights take below another branch: above each of them there
is a row that shows only rails. -/
def rowsBelow (heights : List Nat) : Nat :=
  heights.sum + heights.length

theorem rowsBelow_cons
    (h : Nat) (heights : List Nat) :
    rowsBelow (h :: heights) = h + 1 + rowsBelow heights := by
  simp only [rowsBelow, List.sum_cons, List.length_cons]
  omega

section Changes

variable {ink : Char → Prop} {r c b : Nat} {s s' s'' : Sheet}

/-- Nothing but cells in the rows from `r` up to, and without, `b` and in the columns from `c` on
has changed, and the grid has grown as far as these rows need it. -/
structure Within (ink : Char → Prop) (r c b : Nat) (s s' : Sheet) : Prop where
  frame : ∀ i k, i < r ∨ b ≤ i ∨ k < c → s'.look i k = s.look i k
  cells : ∀ i k, s'.look i k = s.look i k ∨ ink (s'.look i k)
  width_le : s.width ≤ s'.width
  height_eq : s'.height = max s.height b

theorem Within.mono
    {r' c' : Nat}
    (h : Within ink r c b s s') (hr : r' ≤ r) (hc : c' ≤ c) :
    Within ink r' c' b s s' :=
  ⟨fun i k hik => h.frame i k (by omega), h.cells, h.width_le, h.height_eq⟩

/-- Changes in a box, and then in a box that starts inside the first one. -/
theorem Within.trans
    {r' c' b' b'' : Nat}
    (h : Within ink r c b s s') (h' : Within ink r' c' b' s' s'')
    (hr : r ≤ r') (hc : c ≤ c') (hb : max b b' = b'') :
    Within ink r c b'' s s'' := by
  refine ⟨?_, ?_, h.width_le.trans h'.width_le, ?_⟩
  · intro i k hik
    rw [h'.frame i k (by omega), h.frame i k (by omega)]
  · intro i k
    rcases h'.cells i k with heq | hink
    · rw [heq]
      exact h.cells i k
    · exact Or.inr hink
  · rw [h'.height_eq, h.height_eq]
    omega

/-- The cursor and the depth do not matter. -/
theorem Within.withCursor
    (h : Within ink r c b s s') (row col deepest : Nat) :
    Within ink r c b s { s' with row := row, col := col, deepest := deepest } :=
  ⟨h.frame, h.cells, h.width_le, h.height_eq⟩

/-- Nor does it matter where the cursor was before. -/
theorem Within.of_goto
    {m : Marker}
    (h : Within ink r c b (s.goto m) s') :
    Within ink r c b s s' :=
  ⟨h.frame, h.cells, h.width_le, h.height_eq⟩

theorem Within.row_lt
    (h : Within ink r c b s s') {i : Nat} (hi : i < s.height ∨ i < b) :
    i < s'.height := by
  rw [h.height_eq]
  omega

theorem forall_ink_of_subset
    {text : List Char}
    (hink : ∀ ch ∈ glyphs, ink ch) (htext : text ⊆ glyphs) :
    ∀ ch ∈ text, ink ch :=
  fun ch hch => hink ch (htext hch)

theorem within_refl (hb : b ≤ s.height) : Within ink r c b s s :=
  ⟨fun _ _ _ => rfl, fun _ _ => Or.inl rfl, Nat.le_refl _, (Nat.max_eq_left hb).symm⟩

theorem within_right (hrow : s.row < s.height) : Within ink s.row s.col (s.row + 1) s s.right :=
  ⟨fun _ _ _ => rfl, fun _ _ => Or.inl rfl, Nat.le_max_left _ _, (Nat.max_eq_left hrow).symm⟩

theorem within_write
    {text : List Char}
    (hrow : s.row < s.height) (htext : text ≠ []) (hink : ∀ ch ∈ text, ink ch) :
    Within ink s.row s.col (s.row + 1) s (s.write text) := by
  refine ⟨?_, ?_, Nat.le_max_left _ _, (Nat.max_eq_left hrow).symm⟩
  · intro i k hik
    exact written_frame (by omega)
  · intro i k
    rcases written_cases (s := s) htext i k with hmem | heq
    · exact Or.inr (hink _ hmem)
    · exact Or.inl heq

theorem within_draw
    {text : List Char}
    (hrow : s.row < s.height) (htext : text ≠ []) (hink : ∀ ch ∈ text, ink ch) :
    Within ink s.row s.col (s.row + 1) s (s.draw text) :=
  (within_write hrow htext hink).withCursor _ _ _

theorem within_element
    {text : List Char}
    (hrow : s.row < s.height) (htext : text ≠ []) (hink : ∀ ch ∈ text, ink ch) :
    Within ink s.row s.col (s.row + 1) s (s.element text) := by
  have hdraw := within_draw hrow htext hink
  have hright : Within ink s.row (s.draw text).col (s.row + 1) (s.draw text) (s.element text) :=
    within_right (s := s.draw text) hrow
  refine hdraw.trans hright (Nat.le_refl _) ?_ (Nat.max_self _)
  have hlength := List.length_pos_iff.mpr htext
  change s.col ≤ s.col + text.length - 1
  omega

theorem within_fill
    {ch : Char}
    (hrow : s.row < s.height) (hch : ink ch) :
    Within ink s.row s.col (s.row + 1) s (s.fill ch) := by
  refine ⟨?_, ?_, Nat.le_refl _, (Nat.max_eq_left hrow).symm⟩
  · intro i k hik
    simp only [Sheet.fill]
    rw [if_neg (by omega)]
  · intro i k
    simp only [Sheet.fill]
    split
    · exact Or.inr hch
    · exact Or.inl rfl

theorem exists_fill
    (ch : Char) (hrow : s.row < s.height) (hch : ink ch) :
    ∃ s', Does (Canvas.Action.fill ch) s () s' ∧ Within ink s.row s.col (s.row + 1) s s' ∧
      s'.deepest = s.deepest := by
  by_cases hcol : s.col < s.width
  · exact ⟨s.fill ch, Canvas.does_fill ch hrow hcol, within_fill hrow hch, rfl⟩
  · exact ⟨s, Canvas.does_fill_of_le ch hrow (Nat.not_lt.mp hcol), within_refl hrow, rfl⟩

/-- A left rail and the cell below it. -/
theorem within_bars
    (n : Nat) (hbar : ink '|') :
    Within ink s.row s.col (s.row + n + 2) s (bars s n).down := by
  refine ⟨?_, ?_, Nat.le_refl _, ?_⟩
  · intro i k hik
    simp only [bars, Sheet.down]
    rw [if_neg (by omega)]
  · intro i k
    simp only [bars, Sheet.down]
    split
    · exact Or.inr hbar
    · exact Or.inl rfl
  · simp only [bars, Sheet.down]
    omega

end Changes

section Boxes

variable {ink : Char → Prop} {refusal : Option String} {h h₁ h₂ : Nat} {s s₁ s₂ : Sheet}

/-- Something `h` rows high is drawn at the cursor, which ends behind it on the same row. -/
structure Boxed (ink : Char → Prop) (h : Nat) (s s' : Sheet) : Prop
    extends Within ink s.row s.col (s.row + h) s s' where
  height_pos : 0 < h
  row_eq : s'.row = s.row
  col_lt : s.col < s'.col
  col_lt_width : s'.col < s'.width
  deepest_eq : s.row ≤ s.deepest → s'.deepest = max s.deepest (s.row + h - 1)

/-- The action draws something `h` rows high, unless it is refused. -/
def Boxing (ink : Char → Prop) (refusal : Option String) (h : Nat) (act : Action Unit) : Prop :=
  ∀ s : Sheet, s.row < s.height → Canvas.Ends refusal act s fun _ s' => Boxed ink h s s'

theorem Boxed.row_lt
    (h₁ : Boxed ink h s s₁) (hrow : s.row < s.height) :
    s₁.row < s₁.height := by
  rw [h₁.row_eq]
  exact h₁.toWithin.row_lt (Or.inl hrow)

/-- Boxes side by side. -/
theorem Boxed.series
    (hs₁ : Boxed ink h₁ s s₁) (hs₂ : Boxed ink h₂ s₁ s₂) :
    Boxed ink (max h₁ h₂) s s₂ := by
  have hrow := hs₁.row_eq
  have hpos := hs₁.height_pos
  refine
    { hs₁.toWithin.trans hs₂.toWithin hrow.ge hs₁.col_lt.le (by omega) with
      height_pos := by omega
      row_eq := hs₂.row_eq.trans hrow
      col_lt := hs₁.col_lt.trans hs₂.col_lt
      col_lt_width := hs₂.col_lt_width
      deepest_eq := ?_ }
  intro hdeep
  have hdeep₁ := hs₁.deepest_eq hdeep
  rw [hs₂.deepest_eq (by omega), hdeep₁, hrow]
  omega

theorem boxing_element
    (text : String) (htext : text ≠ "") (hink : ∀ ch ∈ text.toList, ink ch) :
    Boxing ink none 1 (element text) := by
  intro s hrow
  have hne : text.toList ≠ [] := fun hnil => htext (String.toList_eq_nil_iff.mp hnil)
  have hlength := List.length_pos_iff.mpr hne
  refine ⟨(), _, does_element hrow htext, ?_⟩
  refine
    { within_element hrow hne hink with
      height_pos := Nat.one_pos
      row_eq := rfl
      col_lt := ?_
      col_lt_width := ?_
      deepest_eq := ?_ }
  · change s.col < s.col + text.toList.length - 1 + 1
    omega
  · simp only [Sheet.element, Sheet.right]
    omega
  · intro hdeep
    exact (Nat.max_eq_left hdeep).symm

end Boxes

section Branches

variable {ink : Char → Prop} {refusal : Option String} {n k lowest lowest' : Nat}
variable {left m : Marker} {s s₁ s₂ s₃ : Sheet} {body : Action Unit}

/-- A junction is drawn, and the cursor is behind it, with a depth of its own. -/
structure Forked (ink : Char → Prop) (s s' : Sheet) : Prop
    extends Within ink s.row s.col (s.row + 1) s s' where
  row_eq : s'.row = s.row
  col_eq : s'.col = s.col + 1
  deepest_eq : s'.deepest = s.row

/-- A branch whose body is `n` rows high is drawn at the cursor, and `lowest` is its last row. -/
structure Sprouted (ink : Char → Prop) (n : Nat) (s : Sheet) (lowest : Nat) (s' : Sheet) : Prop
    extends Within ink s.row s.col (s.row + n) s s' where
  height_pos : 0 < n
  lowest_eq : lowest = s.row + n - 1
  col_lt : s.col + 1 < s'.width
  deepest_eq : s'.deepest = max s.deepest lowest

theorem forked_junction
    (hink : ∀ ch ∈ glyphs, ink ch) (hrow : s.row < s.height) :
    Forked ink s (s.write ['+']).right.openDepth := by
  have hput : Within ink s.row s.col (s.row + 1) s (s.write ['+']) :=
    within_write hrow (List.cons_ne_nil _ _) (forall_ink_of_subset hink (by decide))
  have hright : Within ink s.row s.col (s.row + 1) s (s.write ['+']).right :=
    hput.trans (within_right (s := s.write ['+']) hrow) (Nat.le_refl _) (Nat.le_refl _)
      (Nat.max_self _)
  exact ⟨hright.withCursor _ _ _, rfl, rfl, rfl⟩

/-- A body behind a junction, with its row wired to the right edge, is a branch. -/
theorem Forked.sprouted
    (h : Forked ink s s₁) (hbody : Boxed ink n s₁ s₂)
    (hwire : Within ink s₂.row s₂.col (s₂.row + 1) (s₂.closeDepth s.deepest) s₃)
    (hdeepest : s₃.deepest = max s.deepest s₂.deepest) :
    Sprouted ink n s s₂.deepest s₃ := by
  have hrow₁ := h.row_eq
  have hcol₁ := h.col_eq
  have hdeepest₁ := h.deepest_eq
  have hpos := hbody.height_pos
  have hrow₂ : s₂.row = s.row := hbody.row_eq.trans hrow₁
  have hcol₂ := hbody.col_lt
  have hwidth₂ := hbody.col_lt_width
  have hwidth₃ : s₂.width ≤ s₃.width := hwire.width_le
  have hbox : Within ink s.row s.col (s.row + n) s (s₂.closeDepth s.deepest) :=
    (h.toWithin.trans hbody.toWithin hrow₁.ge (by omega) (by omega)).withCursor _ _ _
  refine
    { hbox.trans hwire hrow₂.ge (by omega) (by omega) with
      height_pos := hpos
      lowest_eq := ?_
      col_lt := by omega
      deepest_eq := hdeepest }
  rw [hbody.deepest_eq (by omega), hdeepest₁, hrow₁]
  omega

theorem ends_branch
    (hink : ∀ ch ∈ glyphs, ink ch) (h : Boxing ink refusal n body) (hrow : s.row < s.height) :
    Canvas.Ends refusal (branch body) s (Sprouted ink n s) := by
  have hfork := forked_junction hink hrow
  have hin : (s.write ['+']).right.openDepth.row < (s.write ['+']).right.openDepth.height := hrow
  have hright := Canvas.does_right (s := s.write ['+']) hrow
  refine (Canvas.does_put '+' hrow).bind_ends (hright.bind_ends
    (Canvas.does_openDepth.bind_ends ((h _ hin).bind_does fun _ s₂ hbody => ?_)))
  obtain ⟨s₃, hfill, hwire, hdeepest⟩ := exists_fill (s := s₂.closeDepth s.deepest) '-'
    (hbody.row_lt hin) (hink '-' (by decide))
  refine ⟨s₂.deepest, s₃, ?_, hfork.sprouted hbody hwire hdeepest⟩
  exact (Canvas.does_closeDepth s.deepest).bind (hfill.bind (Canvas.does_pure _))

/-- A branch with its junction at `left` reaches down to row `lowest`. -/
structure Rooted (left : Marker) (lowest : Nat) (s : Sheet) : Prop where
  le_lowest : left.row ≤ lowest
  lowest_lt : lowest < s.height
  le_deepest : lowest ≤ s.deepest
  col_lt : left.col + 1 < s.width

/-- A rail is drawn from the junction `left` to below row `lowest`, and the cursor is where the next
branch starts. -/
structure Lowered (ink : Char → Prop) (left : Marker) (lowest : Nat) (s s' : Sheet) : Prop
    extends Within ink left.row left.col (lowest + 3) s s' where
  row_eq : s'.row = lowest + 2
  le_row : left.row ≤ s'.row
  col_eq : s'.col = left.col
  deepest_eq : s'.deepest = max s.deepest (lowest + 2)

/-- Branches are drawn below a branch whose junction is at `left`: `bottom` is the last row of the
lowest one, and `m` is its junction. -/
structure Stacked (ink : Char → Prop) (left : Marker) (bottom : Nat) (s : Sheet) (m : Marker)
    (s' : Sheet) : Prop extends Within ink left.row left.col (bottom + 1) s s' where
  le_row : left.row ≤ m.row
  row_le : m.row ≤ bottom
  deepest_eq : s'.deepest = max s.deepest bottom

theorem Sprouted.rooted
    (h : Sprouted ink n s lowest s₁) :
    Rooted s.marker lowest s₁ := by
  have hpos := h.height_pos
  have hlowest := h.lowest_eq
  refine ⟨?_, h.toWithin.row_lt (Or.inr (by omega)), ?_, h.col_lt⟩
  · change s.row ≤ lowest
    omega
  · rw [h.deepest_eq]
    exact Nat.le_max_right _ _

theorem lowered_bars
    (hbar : ink '|') (hleft : left.row ≤ lowest) :
    Lowered ink left lowest s (bars (s.goto left) (lowest + 1 - left.row)).down := by
  have hbars := (within_bars (s := s.goto left) (lowest + 1 - left.row) hbar).of_goto
  have hend : left.row + (lowest + 1 - left.row) = lowest + 1 := by omega
  refine ⟨?_, congrArg (· + 1) hend, ?_, rfl, ?_⟩
  · change Within ink left.row left.col (left.row + (lowest + 1 - left.row) + 2) s _ at hbars
    rwa [hend] at hbars
  · change left.row ≤ left.row + (lowest + 1 - left.row) + 1
    omega
  · simp only [Sheet.down, bars, Sheet.goto, hend]
    omega

/-- One more branch on top of others. -/
theorem Stacked.cons
    (hlower : Lowered ink left lowest s s₁) (hbranch : Sprouted ink n s₁ lowest' s₂)
    (h : Stacked ink s₁.marker (lowest' + k) s₂ m s₃) :
    Stacked ink left (lowest + (n + 1 + k)) s m s₃ := by
  have hrow₁ := hlower.row_eq
  have hdeepest₁ := hlower.deepest_eq
  have hpos := hbranch.height_pos
  have hlowest := hbranch.lowest_eq
  have hdeepest₂ := hbranch.deepest_eq
  have hle := h.row_le
  have hdeepest₃ := h.deepest_eq
  have hwithin := hbranch.toWithin.trans h.toWithin (Nat.le_refl _) (Nat.le_refl _) rfl
  refine ⟨?_, hlower.le_row.trans h.le_row, by omega, by omega⟩
  exact hlower.toWithin.trans hwithin hlower.le_row hlower.col_eq.ge (by omega)

variable {plans : List (Option String × Nat)} {below : List (Action Unit)}

theorem findSome?_cons_eq_or
    {α β : Type} (f : α → Option β) (a : α) (l : List α) :
    (a :: l).findSome? f = (f a).or (l.findSome? f) := by
  rw [List.findSome?_cons]
  cases f a with
  | none => rfl
  | some b => rfl

/-- Branches one below the other.  The first refusal, from top to bottom, counts. -/
theorem ends_lowerBranches
    (hink : ∀ ch ∈ glyphs, ink ch)
    (hbelow : List.Forall₂ (fun plan body => Boxing ink plan.1 plan.2 body) plans below)
    (h : Rooted left lowest s) :
    Canvas.Ends (plans.findSome? Prod.fst) (lowerBranches left lowest below) s
      (Stacked ink left (lowest + rowsBelow (plans.map Prod.snd)) s) := by
  induction hbelow generalizing s left lowest with
  | nil =>
      refine ⟨left, s, Canvas.does_pure left, ?_⟩
      exact ⟨within_refl h.lowest_lt, Nat.le_refl _, h.le_lowest,
        (Nat.max_eq_left h.le_deepest).symm⟩
  | @cons plan body plans below hbody _ ih =>
      rw [findSome?_cons_eq_or, List.map_cons, rowsBelow_cons]
      obtain ⟨s₁, hs₁⟩ : ∃ s₁, s₁ = (bars (s.goto left) (lowest + 1 - left.row)).down := ⟨_, rfl⟩
      have hlower : Lowered ink left lowest s s₁ :=
        hs₁ ▸ lowered_bars (hink '|' (by decide)) h.le_lowest
      have hin : s₁.row < s₁.height := by
        rw [hlower.row_eq]
        exact hlower.toWithin.row_lt (Or.inr (Nat.lt_succ_self _))
      have hrail := does_leftRail (s := s.goto left) (lowest + 1 - left.row)
        (h.le_lowest.trans_lt h.lowest_lt) (h.le_lowest.trans h.le_deepest) h.col_lt
      have hdown := Canvas.does_down (s := bars (s.goto left) (lowest + 1 - left.row)) (by
        simp only [bars]
        omega)
      -- The junction of the next branch is that of the sheet, which the canvas shows as well.
      have hrest : Canvas.Ends (plan.1.or (plans.findSome? Prod.fst))
          (do
            let lowest ← branch body
            lowerBranches s₁.marker lowest below)
          s₁ (Stacked ink left (lowest + (plan.2 + 1 + rowsBelow (plans.map Prod.snd))) s) := by
        refine (ends_branch hink hbody hin).bind fun lowest' s₂ hbranch => ?_
        exact (ih hbranch.rooted).mono fun m s₃ hstack => hstack.cons hlower hbranch
      refine (Canvas.does_goto left).bind_ends (hrail.bind_ends (hdown.bind_ends ?_))
      rw [← hs₁]
      refine Canvas.ends_get_bind (fun c hc => ?_) hrest
      rw [Canvas.marker_of_sheet hc]

end Branches

section Rails

variable {ink : Char → Prop} {s : Sheet}

theorem railGlyph_subset
    {ch : Char} {text : String}
    (h : railGlyph ch = some text) :
    text.toList ⊆ glyphs := by
  unfold railGlyph at h
  split at h
  · obtain rfl := Option.some.inj h
    decide
  · obtain rfl := Option.some.inj h
    decide
  · exact absurd h (Option.some_ne_none text).symm

theorem within_redraw
    (hink : ∀ ch ∈ glyphs, ink ch) (ch : Char) (hrow : s.row < s.height) :
    Within ink s.row s.col (s.row + 1) s (s.redraw railGlyph ch) := by
  rcases Canvas.redraw_cases s railGlyph ch with hsame | ⟨text, hglyph, htext, hdrawn⟩
  · rw [hsame]
    exact within_refl hrow
  · have hne : text.toList ≠ [] := fun hnil => htext (String.toList_eq_nil_iff.mp hnil)
    rw [hdrawn]
    exact within_draw hrow hne (forall_ink_of_subset hink (railGlyph_subset hglyph))

/-- The right rail is drawn upward, and the cursor ends above it. -/
theorem exists_redrawUp
    (hink : ∀ ch ∈ glyphs, ink ch) (n : Nat)
    (hrow : s.row < s.height) (hn : n ≤ s.row) (hcol : s.col < s.width) :
    ∃ s', Does (Canvas.Action.redrawUp railGlyph n) s () s' ∧
      Within ink (s.row - n) s.col (s.row + 1) s s' ∧
      s'.marker = ⟨s.row - n, s.col⟩ ∧ s'.deepest = s.deepest := by
  induction n generalizing s with
  | zero => exact ⟨s, Canvas.does_pure (), within_refl hrow, rfl, rfl⟩
  | succ n ih =>
      obtain ⟨s₁, hs₁⟩ : ∃ s₁, s₁ = s.redraw railGlyph (s.look s.row s.col) := ⟨_, rfl⟩
      obtain ⟨s₂, hs₂⟩ : ∃ s₂, s₂ = s₁.goto ⟨s.row - 1, s.col⟩ := ⟨_, rfl⟩
      have hcell : Within ink s.row s.col (s.row + 1) s s₁ :=
        hs₁ ▸ within_redraw hink (s.look s.row s.col) hrow
      have hdeepest : s₁.deepest = s.deepest := hs₁ ▸ Canvas.deepest_redraw s railGlyph _
      have hstep : Within ink (s.row - (n + 1)) s.col (s.row + 1) s s₂ :=
        hs₂ ▸ (hcell.mono (Nat.sub_le _ _) (Nat.le_refl _)).withCursor _ _ _
      have hrow₂ : s₂.row = s.row - 1 := by rw [hs₂]; rfl
      have hcol₂ : s₂.col = s.col := by rw [hs₂]; rfl
      have hdeepest₂ : s₂.deepest = s.deepest := by rw [hs₂]; exact hdeepest
      obtain ⟨s₃, hrest, habove, hmarker, hdeepest₃⟩ := ih (s := s₂)
        (hstep.row_lt (Or.inr (by omega))) (by omega)
        (hcol₂ ▸ hcol.trans_le hstep.width_le)
      have htop : s₂.row - n = s.row - (n + 1) := by omega
      refine ⟨s₃, ?_, ?_, ?_, hdeepest₃.trans hdeepest₂⟩
      · refine Canvas.does_redrawUp_succ (Canvas.does_peek hrow hcol) hrow (by omega) ?_
        rw [← hs₁, ← hs₂]
        exact hrest
      · exact hstep.trans habove htop.ge hcol₂.ge (by omega)
      · rw [hmarker, htop, hcol₂]

/-- The right rail of a block is drawn from the row of the cursor up to row `r`, and the cursor is
behind the wire that leads out of it. -/
structure Railed (ink : Char → Prop) (r : Nat) (s s' : Sheet) : Prop
    extends Within ink r (s.width - 1) (s.row + 1) s s' where
  row_eq : s'.row = r
  width_le_col : s.width ≤ s'.col
  col_lt_width : s'.col < s'.width
  deepest_eq : s'.deepest = s.deepest

theorem exists_closing
    {r : Nat}
    (hink : ∀ ch ∈ glyphs, ink ch)
    (hr : r ≤ s.row) (hrow : s.row < s.height) (hwidth : 0 < s.width) (hdeep : r ≤ s.deepest) :
    ∃ s', Does (do
      Canvas.Action.lineEnd
      Canvas.Action.redrawUpTo r railGlyph
      element "+--") s () s' ∧ Railed ink r s s' := by
  obtain ⟨s₁, hrail, hwithin, hmarker, hdeepest₁⟩ := exists_redrawUp (s := s.lineEnd) hink
    (s.row - r) hrow (Nat.sub_le _ _) (Nat.sub_lt hwidth Nat.one_pos)
  have htop : s.row - (s.row - r) = r := Nat.sub_sub_self hr
  have hrow₁ : s₁.row = r := (congrArg Marker.row hmarker).trans htop
  have hcol₁ : s₁.col = s.width - 1 := congrArg Marker.col hmarker
  have hwithin₁ : Within ink r (s.width - 1) (s.row + 1) s s₁ := by
    rw [← htop]
    exact Within.of_goto (m := s.lineEnd.marker) hwithin
  have hredraw : Does (Canvas.Action.redrawUpTo r railGlyph) s.lineEnd () s₁ := by
    rw [Canvas.Action.redrawUpTo]
    refine Canvas.does_get_bind fun c hc => ?_
    rw [show c.row = s.row from congrArg Sheet.row hc]
    exact hrail
  have hin₁ : s₁.row < s₁.height := hwithin₁.row_lt (Or.inl (by omega))
  obtain ⟨_, s₂, helement, hboxed⟩ :=
    boxing_element "+--" (by decide) (forall_ink_of_subset hink (by decide)) s₁ hin₁
  have hend : Does Canvas.Action.lineEnd s () s.lineEnd :=
    Canvas.does_lineEnd (Nat.zero_lt_of_lt hrow)
  refine ⟨s₂, hend.bind (hredraw.bind helement), ?_⟩
  have hcol := hboxed.col_lt
  refine
    { hwithin₁.trans hboxed.toWithin hrow₁.ge hcol₁.ge (by omega) with
      row_eq := hboxed.row_eq.trans hrow₁
      width_le_col := by omega
      col_lt_width := hboxed.col_lt_width
      deepest_eq := ?_ }
  have hdeepest : s₁.deepest = s.deepest := hdeepest₁
  rw [hboxed.deepest_eq (by omega)]
  omega

end Rails

section Blocks

variable {ink : Char → Prop} {plan : Option String × Nat} {plans : List (Option String × Nat)}
variable {top : Action Unit} {bodies below : List (Action Unit)}

/-- A piece of wire, branches one below the other and the right rail make a block. -/
theorem Boxed.block
    {n k lowest : Nat} {left : Marker} {s s₁ s₂ s₃ s₄ : Sheet}
    (hlead : Boxed ink 1 s s₁) (hbranch : Sprouted ink n s₁ lowest s₂)
    (hstack : Stacked ink s₁.marker (lowest + k) s₂ left s₃)
    (hrailed : Railed ink s₁.row (s₃.goto left) s₄) :
    Boxed ink (n + k) s s₄ := by
  have hrow₁ := hlead.row_eq
  have hcol₁ := hlead.col_lt
  have hwidth₁ := hlead.col_lt_width
  have hpos := hbranch.height_pos
  have hlowest := hbranch.lowest_eq
  have hwidth₂ := hbranch.width_le
  have hwidth₃ := hstack.width_le
  have hle := hstack.row_le
  have hcol₄ : s₃.width ≤ s₄.col := hrailed.width_le_col
  have hbranches := hbranch.toWithin.trans hstack.toWithin (Nat.le_refl _) (Nat.le_refl _) rfl
  have hblock := hbranches.trans hrailed.toWithin.of_goto (Nat.le_refl _)
    (show s₁.col ≤ s₃.width - 1 by omega) rfl
  refine
    { hlead.toWithin.trans hblock hrow₁.ge hcol₁.le ?_ with
      height_pos := by omega
      row_eq := hrailed.row_eq.trans hrow₁
      col_lt := by omega
      col_lt_width := hrailed.col_lt_width
      deepest_eq := ?_ }
  · change max (s.row + 1) (max (max (s₁.row + n) _) (left.row + 1)) = _
    omega
  · intro hdeep
    have hdeepest₁ := hlead.deepest_eq hdeep
    have hdeepest₂ := hbranch.deepest_eq
    have hdeepest₃ := hstack.deepest_eq
    have hdeepest₄ : s₄.deepest = s₃.deepest := hrailed.deepest_eq
    omega

/-- The branches of a block stand one below the other, with a row between neighbours.  Of their
refusals, from top to bottom, the first one counts. -/
theorem boxing_block
    (hink : ∀ ch ∈ glyphs, ink ch) (htop : Boxing ink plan.1 plan.2 top)
    (hbelow : List.Forall₂ (fun plan body => Boxing ink plan.1 plan.2 body) plans below) :
    Boxing ink ((plan :: plans).findSome? Prod.fst)
      (plan.2 + rowsBelow (plans.map Prod.snd)) (block top below) := by
  intro s hrow
  rw [findSome?_cons_eq_or]
  obtain ⟨_, s₁, helement, hlead⟩ :=
    boxing_element "--" (by decide) (forall_ink_of_subset hink (by decide)) s hrow
  -- The rest of the block, with the corner of the sheet for the one that is read off the canvas.
  have hrest : Canvas.Ends (plan.1.or (plans.findSome? Prod.fst))
      (do
        let lowest ← branch top
        let left ← lowerBranches s₁.marker lowest below
        Canvas.Action.goto left
        Canvas.Action.lineEnd
        Canvas.Action.redrawUpTo s₁.marker.row railGlyph
        element "+--")
      s₁ fun _ s' => Boxed ink (plan.2 + rowsBelow (plans.map Prod.snd)) s s' := by
    refine (ends_branch hink htop (hlead.row_lt hrow)).bind fun lowest s₂ hbranch => ?_
    refine (ends_lowerBranches hink hbelow hbranch.rooted).bind_does fun left s₃ hstack => ?_
    have hle := hstack.row_le
    have hcol := hbranch.col_lt
    have hwidth := hstack.width_le
    have hcorner : s₁.row ≤ s₃.deepest := by
      rw [hstack.deepest_eq]
      exact (hstack.le_row.trans hle).trans (Nat.le_max_right _ _)
    obtain ⟨s₄, hclose, hrailed⟩ := exists_closing (s := s₃.goto left) hink hstack.le_row
      (hstack.toWithin.row_lt (i := left.row) (Or.inr (by omega)))
      (show 0 < s₃.width by omega) hcorner
    exact ⟨(), s₄, (Canvas.does_goto left).bind hclose, hlead.block hbranch hstack hrailed⟩
  refine helement.bind_ends (Canvas.ends_get_bind (fun c hc => ?_) hrest)
  rw [Canvas.marker_of_sheet hc]

theorem boxing_drawBranches
    (hink : ∀ ch ∈ glyphs, ink ch) (hplans : plans ≠ [])
    (h : List.Forall₂ (fun plan body => Boxing ink plan.1 plan.2 body) plans bodies) :
    Boxing ink (plans.findSome? Prod.fst) ((plans.map Prod.snd).sum + (plans.length - 1))
      (drawBranches bodies) := by
  cases h with
  | nil => exact absurd rfl hplans
  | @cons plan body _ _ hbody hbelow =>
      cases hbelow with
      | nil =>
          rw [findSome?_cons_eq_or, List.findSome?_nil, Option.or_none]
          exact hbody
      | @cons next _ rest _ hnext hrest =>
          have hblock := boxing_block hink hbody (.cons hnext hrest)
          have hheight : plan.2 + rowsBelow ((next :: rest).map Prod.snd) =
              ((plan :: next :: rest).map Prod.snd).sum + ((plan :: next :: rest).length - 1) := by
            simp only [rowsBelow, List.map_cons, List.sum_cons, List.length_cons, List.length_map]
            omega
          exact hheight ▸ hblock

end Blocks

end Drawing
end RelayLadder
