import RelayLadder.Proofs.Canvas.Outcome

/-!
# Operations on a canvas

**Operations.**  Whatever is done to a canvas from outside is one of the operations below.
Each is an action with an answer: the character under the cursor, a depth, a position, or
nothing.

**Drafts.**  A draft is a canvas with the positions that were marked on it.  Going to a
position, and redrawing upward to one, is allowed for marked positions only.  An operation
that stops is over, and the next one goes on with the canvas as it was left.

**Growth.**  A grid may be without columns, and then the cursor is at its corner.  `Grown`
says that a grid has not become smaller and that the cursor is on it.

**Results.**
* `Operation.extends`: an allowed operation ends, unless it leads over an edge.
* `Operation.run_of_blocked`: over an edge it stops at once.
* `Follows.sound`: drafts stay sound along any operations.
* `Follows.canvas_sound`: all this for every draft that starts with a blank row.
-/

namespace RelayLadder

/-- The position is a cell of a grid, or the corner of a grid without columns. -/
structure Marker.OnGrid (m : Marker) (height width : Nat) : Prop where
  row_lt : m.row < height
  col_lt : m.col < width ∨ m.col = 0 ∧ width = 0

namespace Canvas

section Defs

/-- Something to be done to a canvas. -/
inductive Operation
  | left
  | right
  | up
  | down
  | peek
  | put (ch : Char)
  | draw (text : String)
  | fill (ch : Char)
  | bottom
  | lineEnd
  | newline
  | openDepth
  | closeDepth (outer : Nat)
  | mark
  | goto (m : Marker)
  | redrawUpTo (m : Marker) (table : Char → Option String)

/-- What an operation gives. -/
inductive Answer
  | nothing
  | cell (ch : Char)
  | depth (row : Nat)
  | place (m : Marker)

namespace Operation

/-- The action of an operation. -/
def act : Operation → Action Answer
  | left => do
    Action.left
    return .nothing
  | right => do
    Action.right
    return .nothing
  | up => do
    Action.up
    return .nothing
  | down => do
    Action.down
    return .nothing
  | peek => do return .cell (← Action.peek)
  | put ch => do
    Action.put ch
    return .nothing
  | draw text => do
    Action.draw text
    return .nothing
  | fill ch => do
    Action.fill ch
    return .nothing
  | bottom => do
    Action.bottom
    return .nothing
  | lineEnd => do
    Action.lineEnd
    return .nothing
  | newline => do
    Action.newline
    return .nothing
  | openDepth => do return .depth (← Action.openDepth)
  | closeDepth outer => do return .depth (← Action.closeDepth outer)
  | mark => do return .place (← get).marker
  | goto m => do
    Action.goto m
    return .nothing
  | redrawUpTo m table => do
    Action.redrawUpTo m.row table
    return .nothing

/-- The positions that an operation goes to are among the given ones. -/
def Allowed (op : Operation) (marked : List Marker) : Prop :=
  match op with
  | goto m => m ∈ marked
  | redrawUpTo m _ => m ∈ marked
  | _ => True

/-- From the position of the cursor, the operation leads over an edge of the canvas. -/
inductive Blocked (cursor : Marker) : Operation → Direction → Prop
  | left (h : cursor.col = 0) : Blocked cursor .left .left
  | up (h : cursor.row = 0) : Blocked cursor .up .up

end Operation

/-- The position that an answer gives, if it gives one. -/
def Answer.places : Answer → List Marker
  | place m => [m]
  | _ => []

/-- A canvas and the positions that were marked on it. -/
structure Draft where
  canvas : Canvas
  marked : List Marker

namespace Draft

/-- A canvas with one blank row, on which nothing is marked. -/
def start (width : Nat) : Draft :=
  ⟨blank width, []⟩

/-- The draft after an operation. -/
def next (d : Draft) (op : Operation) : Draft :=
  match op.act.run d.canvas with
  | .ok answer c => ⟨c, answer.places ++ d.marked⟩
  | .error _ c => ⟨c, d.marked⟩

end Draft

/-- Operations lead from a draft to another one, and each of them is allowed where it comes. -/
inductive Follows : Draft → List Operation → Draft → Prop
  | nil (d : Draft) : Follows d [] d
  | cons {d d' : Draft} {op : Operation} {ops : List Operation}
      (hop : op.Allowed d.marked) (h : Follows (d.next op) ops d') :
      Follows d (op :: ops) d'

end Defs

section Growth

variable {s s' s'' : Sheet} {m : Marker}

theorem onGrid_mk
    {row col height width : Nat}
    (hrow : row < height) (hcol : col < width ∨ col = 0 ∧ width = 0) :
    Marker.OnGrid ⟨row, col⟩ height width :=
  ⟨hrow, hcol⟩

theorem onGrid_mono
    {height height' width width' : Nat}
    (h : m.OnGrid height width) (hheight : height ≤ height') (hwidth : width ≤ width') :
    m.OnGrid height' width' := by
  have hrow := h.row_lt
  have hcol := h.col_lt
  constructor
  · omega
  · omega

/-- The grid has not become smaller, and the cursor is on it. -/
structure Grown (s s' : Sheet) : Prop where
  width_le : s.width ≤ s'.width
  height_le : s.height ≤ s'.height
  cursor : s'.marker.OnGrid s'.height s'.width

theorem Grown.trans
    (h : Grown s s') (h' : Grown s' s'') :
    Grown s s'' :=
  ⟨h.width_le.trans h'.width_le, h.height_le.trans h'.height_le, h'.cursor⟩

/-- The cursor moves on a grid that stays as it is. -/
theorem grown_goto
    (hm : m.OnGrid s.height s.width) :
    Grown s (s.goto m) :=
  ⟨Nat.le_refl _, Nat.le_refl _, hm⟩

theorem grown_right
    (hs : s.marker.OnGrid s.height s.width) :
    Grown s s.right := by
  refine ⟨Nat.le_max_left _ _, Nat.le_refl _, hs.row_lt, Or.inl ?_⟩
  change s.col + 1 < max s.width (s.col + 2)
  omega

theorem grown_down
    (hs : s.marker.OnGrid s.height s.width) :
    Grown s s.down := by
  refine ⟨Nat.le_refl _, Nat.le_max_left _ _, ?_, hs.col_lt⟩
  change s.row + 1 < max s.height (s.row + 2)
  omega

theorem grown_put
    (ch : Char)
    (hs : s.marker.OnGrid s.height s.width) :
    Grown s (s.write [ch]) := by
  refine ⟨Nat.le_max_left _ _, Nat.le_refl _, hs.row_lt, Or.inl ?_⟩
  change s.col < max s.width (s.col + 1)
  omega

theorem grown_draw
    {text : List Char}
    (hs : s.marker.OnGrid s.height s.width) (htext : text ≠ []) :
    Grown s (s.draw text) := by
  have hlength := List.length_pos_iff.mpr htext
  refine ⟨Nat.le_max_left _ _, Nat.le_refl _, hs.row_lt, Or.inl ?_⟩
  change s.col + text.length - 1 < max s.width (s.col + text.length)
  omega

theorem exists_peek
    (hs : s.marker.OnGrid s.height s.width) :
    ∃ ch, Does Action.peek s ch s := by
  by_cases hcol : s.col < s.width
  · exact ⟨_, does_peek hs.row_lt hcol⟩
  · exact ⟨_, does_peek_of_le hs.row_lt (Nat.not_lt.mp hcol)⟩

theorem exists_draw
    (text : String) (hs : s.marker.OnGrid s.height s.width) :
    ∃ s', Does (Action.draw text) s () s' ∧ Grown s s' := by
  by_cases htext : text = ""
  · subst htext
    exact ⟨s, does_draw_empty, grown_goto hs⟩
  · have hne : text.toList ≠ [] := fun hnil => htext (String.toList_eq_nil_iff.mp hnil)
    exact ⟨_, does_draw hs.row_lt htext, grown_draw hs hne⟩

theorem exists_fill
    (ch : Char) (hs : s.marker.OnGrid s.height s.width) :
    ∃ s', Does (Action.fill ch) s () s' ∧ Grown s s' := by
  by_cases hcol : s.col < s.width
  · refine ⟨_, does_fill ch hs.row_lt hcol, Nat.le_refl _, Nat.le_refl _, hs.row_lt, Or.inl ?_⟩
    exact Nat.sub_one_lt_of_lt hcol
  · exact ⟨s, does_fill_of_le ch hs.row_lt (Nat.not_lt.mp hcol), grown_goto hs⟩

theorem grown_redraw
    (table : Char → Option String) (ch : Char) (hs : s.marker.OnGrid s.height s.width) :
    Grown s (s.redraw table ch) := by
  rcases redraw_cases s table ch with hsame | ⟨text, -, htext, hdrawn⟩
  · rw [hsame]
    exact grown_goto hs
  · have hne : text.toList ≠ [] := fun hnil => htext (String.toList_eq_nil_iff.mp hnil)
    rw [hdrawn]
    exact grown_draw hs hne

/-- Whatever the table is, going up to a row of the grid does not stop. -/
theorem exists_redrawUp
    (table : Char → Option String) {n : Nat}
    (hs : s.marker.OnGrid s.height s.width) (hn : n ≤ s.row) :
    ∃ s', Does (Action.redrawUp table n) s () s' ∧ Grown s s' := by
  induction n generalizing s with
  | zero => exact ⟨s, does_pure (), grown_goto hs⟩
  | succ n ih =>
      obtain ⟨ch, hpeek⟩ := exists_peek hs
      have hgrown := grown_redraw table ch hs
      have habove : Marker.OnGrid ⟨s.row - 1, s.col⟩
          (s.redraw table ch).height (s.redraw table ch).width := by
        refine onGrid_mono ⟨?_, hs.col_lt⟩ hgrown.height_le hgrown.width_le
        exact (Nat.sub_le _ _).trans_lt hs.row_lt
      obtain ⟨s', hrest, hgrown'⟩ := ih (s := (s.redraw table ch).goto ⟨s.row - 1, s.col⟩) habove
        (Nat.le_sub_one_of_lt hn)
      refine ⟨s', ?_, (hgrown.trans (grown_goto habove)).trans hgrown'⟩
      exact does_redrawUp_succ hpeek hs.row_lt (Nat.zero_lt_of_lt hn) hrest

theorem exists_redrawUpTo
    (top : Nat) (table : Char → Option String) (hs : s.marker.OnGrid s.height s.width) :
    ∃ s', Does (Action.redrawUpTo top table) s () s' ∧ Grown s s' := by
  obtain ⟨s', hup, hgrown⟩ := exists_redrawUp table hs (Nat.sub_le s.row top)
  refine ⟨s', does_get_bind fun c hc => ?_, hgrown⟩
  rw [show c.row = s.row from congrArg Sheet.row hc]
  exact hup

end Growth

section Steps

variable {s s' : Sheet} {marked : List Marker} {op : Operation}

/-- The action ends.  The grid does not become smaller, and the position that the action gives, if
it gives one, is on it. -/
def Extends (act : Action Answer) (s : Sheet) : Prop :=
  ∃ answer s', Does act s answer s' ∧ Grown s s' ∧
    ∀ m ∈ answer.places, m.OnGrid s'.height s'.width

theorem extends_of_does
    {act : Action Unit}
    (h : Does act s () s') (hgrown : Grown s s') :
    Extends (do
      act
      return .nothing) s :=
  ⟨.nothing, s', h.bind (does_pure _), hgrown, List.forall_mem_nil _⟩

/-- **One operation.**  It ends and does not make the grid smaller, unless it leads over an edge. -/
theorem Operation.extends
    (hs : s.marker.OnGrid s.height s.width)
    (hmarked : ∀ m ∈ marked, m.OnGrid s.height s.width) (hop : op.Allowed marked)
    (hfree : ∀ edge, ¬ op.Blocked s.marker edge) :
    Extends op.act s := by
  have hrow : s.row < s.height := hs.row_lt
  have hcol : s.col < s.width ∨ s.col = 0 ∧ s.width = 0 := hs.col_lt
  cases op with
  | left =>
      have hpos : 0 < s.col := Nat.pos_of_ne_zero fun h => hfree .left (.left h)
      have hm : Marker.OnGrid ⟨s.row, s.col - 1⟩ s.height s.width := onGrid_mk hrow (by omega)
      exact extends_of_does (does_left hpos) (grown_goto hm)
  | right => exact extends_of_does (does_right hrow) (grown_right hs)
  | up =>
      have hpos : 0 < s.row := Nat.pos_of_ne_zero fun h => hfree .up (.up h)
      have hm : Marker.OnGrid ⟨s.row - 1, s.col⟩ s.height s.width := onGrid_mk (by omega) hcol
      exact extends_of_does (does_up hpos) (grown_goto hm)
  | down => exact extends_of_does (does_down hrow) (grown_down hs)
  | peek =>
      obtain ⟨ch, hpeek⟩ := exists_peek hs
      exact ⟨.cell ch, s, hpeek.bind (does_pure _), grown_goto hs, List.forall_mem_nil _⟩
  | put ch => exact extends_of_does (does_put ch hrow) (grown_put ch hs)
  | draw text =>
      obtain ⟨s', hdraw, hgrown⟩ := exists_draw text hs
      exact extends_of_does hdraw hgrown
  | fill ch =>
      obtain ⟨s', hfill, hgrown⟩ := exists_fill ch hs
      exact extends_of_does hfill hgrown
  | bottom =>
      have hm : Marker.OnGrid ⟨s.height - 1, s.col⟩ s.height s.width :=
        onGrid_mk (by omega) hcol
      exact extends_of_does (does_bottom (Nat.zero_lt_of_lt hrow)) (grown_goto hm)
  | lineEnd =>
      have hm : Marker.OnGrid ⟨s.row, s.width - 1⟩ s.height s.width :=
        onGrid_mk hrow (by omega)
      exact extends_of_does (does_lineEnd (Nat.zero_lt_of_lt hrow)) (grown_goto hm)
  | newline =>
      have hm : Marker.OnGrid ⟨s.row, 0⟩ s.height s.width := onGrid_mk hrow (by omega)
      exact extends_of_does (does_newline hrow)
        ((grown_goto hm).trans (grown_down (s := s.goto ⟨s.row, 0⟩) hm))
  | openDepth =>
      exact ⟨.depth s.deepest, s.openDepth, does_openDepth.bind (does_pure _),
        ⟨Nat.le_refl _, Nat.le_refl _, hs⟩, List.forall_mem_nil _⟩
  | closeDepth outer =>
      exact ⟨.depth s.deepest, s.closeDepth outer, (does_closeDepth outer).bind (does_pure _),
        ⟨Nat.le_refl _, Nat.le_refl _, hs⟩, List.forall_mem_nil _⟩
  | mark =>
      refine ⟨.place s.marker, s, does_get_bind fun c hc => ?_, grown_goto hs, ?_⟩
      · rw [marker_of_sheet hc]
        exact does_pure _
      · exact List.forall_mem_singleton.mpr hs
  | goto m => exact extends_of_does (does_goto m) (grown_goto (hmarked m hop))
  | redrawUpTo m table =>
      obtain ⟨s', hup, hgrown⟩ := exists_redrawUpTo m.row table hs
      exact extends_of_does hup hgrown

/-- An operation that leads over an edge stops there and changes nothing. -/
theorem Operation.run_of_blocked
    {c : Canvas} {edge : Direction}
    (h : op.Blocked c.marker edge) :
    op.act.run c = .error (.fault (.canvasEdge edge c.row c.col)) c := by
  cases h with
  | left h =>
      have hcol : c.col = 0 := h
      simp [act, Action.left, EStateM.run, Bind.bind, EStateM.bind, get, getThe, MonadStateOf.get,
        EStateM.get, hcol, throw, throwThe, MonadExceptOf.throw, EStateM.throw]
  | up h =>
      have hrow : c.row = 0 := h
      simp [act, Action.up, EStateM.run, Bind.bind, EStateM.bind, get, getThe, MonadStateOf.get,
        EStateM.get, hrow, throw, throwThe, MonadExceptOf.throw, EStateM.throw]

end Steps

section Runs

variable {d d' : Draft} {op : Operation} {ops : List Operation}

/-- All rows of the canvas are equally long, and the cursor and the marked positions are on it. -/
structure Draft.Sound (d : Draft) : Prop where
  uniform : d.canvas.Uniform
  cursor : d.canvas.marker.OnGrid d.canvas.height d.canvas.width
  marked : ∀ m ∈ d.marked, m.OnGrid d.canvas.height d.canvas.width

theorem Draft.sound_start
    (width : Nat) :
    (start width).Sound := by
  have hcursor : Marker.OnGrid ⟨0, 0⟩ 1 (blank width).width := onGrid_mk Nat.one_pos (by omega)
  exact ⟨uniform_blank width, hcursor, List.forall_mem_nil _⟩

/-- An allowed operation that does not lead over an edge ends on a sound draft. -/
theorem Draft.Sound.exists_run
    (hd : d.Sound) (hop : op.Allowed d.marked)
    (hfree : ∀ edge, ¬ op.Blocked d.canvas.marker edge) :
    ∃ answer c, op.act.run d.canvas = .ok answer c ∧ c.Uniform ∧
      Grown d.canvas.sheet c.sheet ∧ ∀ m ∈ answer.places, m.OnGrid c.height c.width := by
  have hextends : Extends op.act d.canvas.sheet :=
    Operation.extends hd.cursor hd.marked hop hfree
  obtain ⟨answer, s', hdoes, hgrown, hplaces⟩ := hextends
  obtain ⟨c, hrun, hc, rfl⟩ := hdoes d.canvas hd.uniform rfl
  exact ⟨answer, c, hrun, hc, hgrown, hplaces⟩

/-- **A draft stays sound and does not become smaller** by an allowed operation. -/
theorem Draft.Sound.next
    (hd : d.Sound) (hop : op.Allowed d.marked) :
    (d.next op).Sound ∧ d.canvas.width ≤ (d.next op).canvas.width ∧
      d.canvas.height ≤ (d.next op).canvas.height := by
  by_cases hblocked : ∃ edge, op.Blocked d.canvas.marker edge
  · obtain ⟨edge, hblocked⟩ := hblocked
    have hnext : d.next op = d := by
      rw [Draft.next, Operation.run_of_blocked hblocked]
    rw [hnext]
    exact ⟨hd, Nat.le_refl _, Nat.le_refl _⟩
  · obtain ⟨answer, c, hrun, hc, hgrown, hplaces⟩ :=
      hd.exists_run hop (not_exists.mp hblocked)
    have hnext : d.next op = ⟨c, answer.places ++ d.marked⟩ := by
      rw [Draft.next, hrun]
    rw [hnext]
    refine ⟨⟨hc, hgrown.cursor, fun m hm => ?_⟩, hgrown.width_le, hgrown.height_le⟩
    rcases List.mem_append.mp hm with hm | hm
    · exact hplaces m hm
    · exact onGrid_mono (hd.marked m hm) hgrown.height_le hgrown.width_le

/-- **A draft stays sound and does not become smaller** along allowed operations. -/
theorem Follows.sound
    (h : Follows d ops d') (hd : d.Sound) :
    d'.Sound ∧ d.canvas.width ≤ d'.canvas.width ∧ d.canvas.height ≤ d'.canvas.height := by
  induction h with
  | nil d => exact ⟨hd, Nat.le_refl _, Nat.le_refl _⟩
  | cons hop _ ih =>
      obtain ⟨hnext, hwidth, hheight⟩ := hd.next hop
      obtain ⟨hd', hwidth', hheight'⟩ := ih hnext
      exact ⟨hd', hwidth.trans hwidth', hheight.trans hheight'⟩

/-- **Canvases stay sound.**  Whatever operations were done to a canvas that started with one row,
all its rows have the same width, the cursor is on a row of it, and in a column of it unless it has
no columns.  An allowed operation stops only if it goes left in the first column or up in the first
row, and then nothing has changed; in particular all rows, cells and parts of rows that it looks up
are there, no number of rows or columns becomes negative, and redrawing upward never stops.  No
operations make the canvas smaller. -/
theorem Follows.canvas_sound
    {width : Nat} (h : Follows (Draft.start width) ops d) :
    (∀ row ∈ d.canvas.rows, row.length = d.canvas.width) ∧
    0 < d.canvas.height ∧ d.canvas.row < d.canvas.height ∧
    (d.canvas.col < d.canvas.width ∨ d.canvas.col = 0 ∧ d.canvas.width = 0) ∧
    (∀ op : Operation, op.Allowed d.marked →
      (∀ edge, op.Blocked d.canvas.marker edge → op.act.run d.canvas =
        .error (.fault (.canvasEdge edge d.canvas.row d.canvas.col)) d.canvas) ∧
      ((∀ edge, ¬ op.Blocked d.canvas.marker edge) →
        ∃ answer c, op.act.run d.canvas = .ok answer c)) ∧
    ∀ more d', Follows d more d' →
      d.canvas.width ≤ d'.canvas.width ∧ d.canvas.height ≤ d'.canvas.height := by
  obtain ⟨hd, -, -⟩ := h.sound (Draft.sound_start width)
  have hrow : d.canvas.row < d.canvas.height := hd.cursor.row_lt
  refine ⟨hd.uniform, Nat.zero_lt_of_lt hrow, hrow, hd.cursor.col_lt, ?_, ?_⟩
  · intro op hop
    constructor
    · intro edge hblocked
      exact Operation.run_of_blocked hblocked
    · intro hfree
      obtain ⟨answer, c, hrun, -⟩ := hd.exists_run hop hfree
      exact ⟨answer, c, hrun⟩
  · intro more d' hmore
    exact (hmore.sound hd).2

/-- A position is marked on a canvas without columns, which has nothing to fill and on which the
cursor cannot go left.  After a text is drawn further down, the canvas is redrawn upward to that
position from its last cell, by a table with an empty text and one that is too long for the grid. -/
theorem Follows.canvas_sound_marked :
    ∃ d : Draft,
      Follows (Draft.start 0)
        [.mark, .fill '-', .left, .newline, .draw "-a", .down, .goto ⟨0, 0⟩, .lineEnd, .bottom] d ∧
      d.canvas.marker = ⟨2, 1⟩ ∧ d.marked = [⟨0, 0⟩] ∧ d.canvas.col < d.canvas.width ∧
      ∃ answer c, (Operation.redrawUpTo ⟨0, 0⟩ fun ch =>
        if ch = 'a' then some "" else some "xyz").act.run d.canvas = .ok answer c := by
  obtain ⟨drawn, hdrawn⟩ : ∃ drawn : List (List Char),
      drawn = ["  ".toList, "-a".toList, "  ".toList] := ⟨_, rfl⟩
  have hdown : ((((((Draft.start 0).next .mark).next (.fill '-')).next .left).next .newline).next
      (.draw "-a")).next .down = ⟨⟨drawn, 2, 1, 2⟩, [⟨0, 0⟩]⟩ := by
    rw [hdrawn]
    cbv
  have hbottom : (((Draft.mk ⟨drawn, 2, 1, 2⟩ [⟨0, 0⟩]).next (.goto ⟨0, 0⟩)).next
      .lineEnd).next .bottom = ⟨⟨drawn, 2, 1, 2⟩, [⟨0, 0⟩]⟩ := by
    rw [hdrawn]
    cbv
  have hfollows : Follows (Draft.start 0)
      [.mark, .fill '-', .left, .newline, .draw "-a", .down, .goto ⟨0, 0⟩, .lineEnd, .bottom]
      ⟨⟨drawn, 2, 1, 2⟩, [⟨0, 0⟩]⟩ := by
    refine .cons trivial (.cons trivial (.cons trivial (.cons trivial (.cons trivial
      (.cons trivial ?_)))))
    rw [hdown]
    refine .cons List.mem_cons_self (.cons trivial (.cons trivial ?_))
    rw [hbottom]
    exact .nil _
  obtain ⟨-, -, -, hcol, hops, -⟩ := hfollows.canvas_sound
  refine ⟨_, hfollows, rfl, rfl, hcol.resolve_right (fun h => absurd h.1 Nat.one_ne_zero), ?_⟩
  refine (hops (.redrawUpTo ⟨0, 0⟩ _) List.mem_cons_self).2 fun edge hblocked => ?_
  cases hblocked

end Runs

end Canvas
end RelayLadder
