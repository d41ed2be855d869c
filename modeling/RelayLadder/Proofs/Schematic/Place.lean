import RelayLadder.Proofs.Schematic.Rows

/-!
# Places in a schematic

**Faults.**  A text that is not compiled has a malformed row, and the span of the
fault is the rest of that row: it starts at the cell that cannot be read and ends at
the right border.

**Continued texts.**  When the second of two texts starts a rung of its own, the rungs
of the texts, one below the other, are the rungs of both.  Those of the second text
are moved by the bytes that now stand before it, and so are its faults.

**Results.**
* `compile_error_points`: faults point into the text.
* `compile_append_line`: a text that is continued is compiled part by part.
-/

namespace RelayLadder

section Spans

variable {span : Span} {text slice rest : String}

/-- The bytes of the span are the characters of `slice`, and `rest` stands behind them. -/
def Span.Covers (span : Span) (text slice rest : String) : Prop :=
  ∃ before, text = before ++ slice ++ rest ∧
    before.utf8ByteSize = span.start ∧ (before ++ slice).utf8ByteSize = span.stop

theorem Span.Covers.isValid
    (h : span.Covers text slice rest) :
    String.Pos.Raw.IsValid text ⟨span.start⟩ ∧ String.Pos.Raw.IsValid text ⟨span.stop⟩ := by
  obtain ⟨before, htext, hstart, hstop⟩ := h
  constructor
  · refine String.Pos.Raw.isValid_iff_exists_append.mpr ⟨before, slice ++ rest, ?_, ?_⟩
    · rw [htext, String.append_assoc]
    · rw [← hstart]
      rfl
  · refine String.Pos.Raw.isValid_iff_exists_append.mpr ⟨before ++ slice, rest, htext, ?_⟩
    rw [← hstop]
    rfl

theorem Span.Covers.stop_le
    (h : span.Covers text slice rest) :
    span.stop ≤ text.utf8ByteSize := by
  obtain ⟨before, htext, -, hstop⟩ := h
  rw [← hstop, htext, String.utf8ByteSize_append (s := before ++ slice)]
  exact Nat.le_add_right _ _

/-- Texts with as many bytes at the start of a text are the same. -/
theorem eq_of_append_eq_append
    {s s' t t' : String}
    (h : s ++ t = s' ++ t') (hsize : s.utf8ByteSize = s'.utf8ByteSize) :
    s = s' := by
  have hbytes : s.toByteArray.data ++ t.toByteArray.data =
      s'.toByteArray.data ++ t'.toByteArray.data := by
    rw [← ByteArray.data_append, ← ByteArray.data_append, ← String.toByteArray_append,
      ← String.toByteArray_append, h]
  exact String.toByteArray_inj.mp (ByteArray.ext (Array.append_inj hbytes hsize).1)

/-- A span covers one slice of a text only. -/
theorem Span.Covers.unique
    {slice' rest' : String}
    (h : span.Covers text slice rest) (h' : span.Covers text slice' rest') :
    slice = slice' ∧ rest = rest' := by
  obtain ⟨before, htext, hstart, hstop⟩ := h
  obtain ⟨before', htext', hstart', hstop'⟩ := h'
  have hends : before ++ slice = before' ++ slice' :=
    eq_of_append_eq_append (htext.symm.trans htext') (hstop.trans hstop'.symm)
  have hbefore : before = before' := eq_of_append_eq_append hends (hstart.trans hstart'.symm)
  have hrest := htext.symm.trans htext'
  rw [hends] at hrest
  rw [hbefore] at hends
  exact ⟨(String.append_right_inj _).mp hends, (String.append_right_inj _).mp hrest⟩

/-- The rest of a row, from any column on, is followed by the right border, which closes the
line. -/
theorem Row.FillsLine.exists_covers
    {row : Row}
    (h : row.FillsLine text.toList) (col : Nat) :
    ∃ after, (⟨row.byteAt col, row.byteAt row.length⟩ : Span).Covers text
      (String.ofList (row.cells.drop col)) ("||" ++ after) ∧ Text.ClosesLine after.toList := by
  obtain ⟨before, after, htext, hoffset, -, hcloses⟩ := h
  have hcells : row.cells.take col ++ row.cells.drop col = row.cells := List.take_append_drop _ _
  have hborder : Text.byteSize ['|', '|'] = 2 := by decide
  refine ⟨String.ofList after, ⟨String.ofList (before ++ ['|', '|'] ++ row.cells.take col),
    ?_, ?_, ?_⟩, String.toList_ofList.symm ▸ hcloses⟩
  · rw [← String.ofList_toList (s := text), htext, ← String.toList_inj]
    simp [Schematic.bordered]
  · rw [Text.utf8ByteSize_ofList, Text.byteSize_append, Text.byteSize_append, hborder, ← hoffset]
    rfl
  · rw [← String.ofList_append, Text.utf8ByteSize_ofList, List.append_assoc, hcells,
      Text.byteSize_append, Text.byteSize_append, hborder, ← hoffset]
    simp [Row.byteAt, Row.length]

end Spans

section Faults

/-- A text is not compiled if one of its rungs has no program. -/
theorem exists_rung_of_compile_error
    {text : String} {cause : Fault}
    (h : compile text = .error cause) :
    ∃ rung ∈ Rung.split text, rung.program = .error cause := by
  rw [compile, Program.ofRungs] at h
  cases hrungs : (Rung.split text).mapM Rung.program with
  | error cause' =>
      rw [hrungs] at h
      cases h
      exact exists_of_mapM_eq_error hrungs
  | ok ps =>
      rw [hrungs] at h
      cases h

/-- **A fault points into the text.**  It is a malformed row.  Its span consists of whole characters
of one line, up to the right border, behind which the line holds nothing but blanks; without the
blanks at its end it is the remainder that is reported, and its first character fits the flaw. -/
theorem compile_error_points
    {text : String} {cause : Fault}
    (h : compile text = .error cause) :
    ∃ flaw remainder span slice after,
      cause = .malformed flaw remainder span ∧
      span.start < span.stop ∧ span.stop ≤ text.utf8ByteSize ∧
      String.Pos.Raw.IsValid text ⟨span.start⟩ ∧ String.Pos.Raw.IsValid text ⟨span.stop⟩ ∧
      span.Covers text slice ("||" ++ after) ∧ Text.ClosesLine after.toList ∧
      '\n' ∉ slice.toList ∧
      remainder.toList = Text.trimEnd slice.toList ∧ remainder ≠ "" ∧
      ∃ ch, slice.toList.head? = some ch ∧ flaw.Fits ch := by
  obtain ⟨rung, hrung, hprogram⟩ := exists_rung_of_compile_error h
  obtain ⟨row, hrow, flaw, col, ch, rfl, hcell, hfits, a, ha, hblank⟩ :=
    Rung.exists_blames_of_program hprogram
  have hmem := Rung.mem_rowsOf_of_mem_split hrung hrow
  obtain ⟨after, hcovers, hcloses⟩ := (Rung.fillsLine_of_mem_rowsOf hmem).exists_covers col
  have hvalid := hcovers.isValid
  refine ⟨flaw, _, _, _, after, rfl, ?_, hcovers.stop_le, hvalid.1, hvalid.2, hcovers, hcloses, ?_,
    ?_, ?_, ch, ?_, hfits⟩
  · obtain ⟨before, -, hstart, hstop⟩ := hcovers
    rw [← hstart, ← hstop, String.utf8ByteSize_append, Text.utf8ByteSize_ofList]
    exact Nat.lt_add_of_pos_right (Text.byteSize_pos (List.ne_nil_of_mem ha))
  · intro hnewline
    rw [String.toList_ofList] at hnewline
    obtain ⟨i, hi⟩ := List.mem_iff_getElem?.mp ((List.drop_sublist col row.cells).mem hnewline)
    obtain ⟨r, hr⟩ := List.mem_iff_getElem?.mp hrow
    refine oneLine_of_mem_split hrung r i ?_
    rw [Rung.cell?, hr]
    exact hi
  · rw [Row.remainder, String.toList_ofList, String.toList_ofList]
  · intro hempty
    rw [Row.remainder, ← String.toList_eq_nil_iff, String.toList_ofList] at hempty
    exact Text.trimEnd_ne_nil ha hblank hempty
  · rw [String.toList_ofList, List.head?_drop]
    exact hcell

/-- A contact that is not closed before the right rail of its block, behind two lines that end
differently and hold longer characters.  The first border behind it is not the right one. -/
theorem compile_error_points_branch :
    ∃ text, text = "é\r\n||--+--[Ä]--+--||\n||  +--[ß|| +  || \nend" ∧
      compile text = .error (.malformed (.unterminated ']') "[ß|| +" ⟨30, 39⟩) ∧
      (⟨30, 39⟩ : Span).Covers text "[ß|| +  " ("||" ++ " \nend") ∧
      Text.ClosesLine " \nend".toList ∧ '\n' ∉ "[ß|| +  ".toList ∧
      "[ß|| +".toList = Text.trimEnd "[ß|| +  ".toList ∧ (Flaw.unterminated ']').Fits '[' := by
  have hcompile : compile "é\r\n||--+--[Ä]--+--||\n||  +--[ß|| +  || \nend" =
      .error (.malformed (.unterminated ']') "[ß|| +" ⟨30, 39⟩) := by
    cbv
  have hslice : (⟨30, 39⟩ : Span).Covers "é\r\n||--+--[Ä]--+--||\n||  +--[ß|| +  || \nend"
      "[ß|| +  " ("||" ++ " \nend") :=
    ⟨"é\r\n||--+--[Ä]--+--||\n||  +--", by decide, by decide, by decide⟩
  obtain ⟨flaw, remainder, span, slice, after, hcause, -, -, -, -, hcovers, hcloses, hline, hblank,
    -, ch, hch, hfits⟩ := compile_error_points hcompile
  cases hcause
  obtain ⟨rfl, hafter⟩ := hcovers.unique hslice
  rw [(String.append_right_inj _).mp hafter] at hcloses
  cases hch
  exact ⟨_, rfl, hcompile, hslice, hcloses, hline, hblank, hfits⟩

end Faults

section Append

theorem splitByLoop_map
    {α β : Type} (f : α → β) (r : β → β → Bool) (l : List α) (a : α) (group : List α)
    (groups : List (List α)) :
    List.splitBy.loop r (l.map f) (f a) (group.map f) (groups.map (List.map f)) =
      (List.splitBy.loop (fun a b => r (f a) (f b)) l a group groups).map (List.map f) := by
  induction l generalizing a group groups with
  | nil => simp [List.splitBy.loop]
  | cons b l ih =>
      rw [List.map_cons, List.splitBy.loop, List.splitBy.loop]
      split
      · exact ih b (a :: group) groups
      · simpa using ih b [] ((a :: group).reverse :: groups)

/-- Rows that keep their cells form the same rungs. -/
theorem Rung.group_map
    {f : Row → Row} (hf : ∀ row, (f row).cells = row.cells) (rows : List Row) :
    group (rows.map f) = (group rows).map fun rung => ⟨rung.rows.map f⟩ := by
  have hopens : ∀ row, (f row).opensRung = row.opensRung := by
    intro row
    rw [Row.opensRung, Row.opensRung, Row.get?, Row.get?, hf]
  have hsplit : (rows.map f).splitBy (fun _ next => !next.opensRung) =
      (rows.splitBy fun _ next => !next.opensRung).map (List.map f) := by
    cases rows with
    | nil => rfl
    | cons row rows =>
        have hloop := splitByLoop_map f (fun _ next => !next.opensRung) rows row [] []
        simp only [hopens] at hloop
        exact hloop
  rw [group, group, hsplit, List.map_map, List.map_map]
  rfl

variable {s t : String}

/-- A text that is continued by one that starts a rung has the rungs of both. -/
theorem Rung.split_append_line
    (hstart : ∀ ch ∈ t.toList.head?, Text.isBlank ch = false)
    (hopens : ∀ row ∈ (rowsOf t.toList).head?, row.opensRung = true) :
    split (s ++ "\n" ++ t) = split s ++ (split t).map (shift (s.utf8ByteSize + 1)) := by
  have htext : (s ++ "\n" ++ t).toList = s.toList ++ '\n' :: t.toList := by simp
  have hbytes : Text.byteSize s.toList = s.utf8ByteSize := by
    rw [← Text.utf8ByteSize_ofList, String.ofList_toList]
  have hhead : ∀ row ∈ ((rowsOf t.toList).map (Row.shift (s.utf8ByteSize + 1))).head?,
      row.opensRung = true := by
    intro row hrow
    rw [List.head?_map] at hrow
    obtain ⟨row', hrow', rfl⟩ := Option.map_eq_some_iff.mp hrow
    exact hopens row' hrow'
  rw [split, htext, rowsOf_append_line s.toList hstart, hbytes, group,
    List.splitBy_append fun _ _ row hrow => by simp [hhead row hrow], List.map_append, ← group,
    ← group, group_map (f := Row.shift _) fun _ => rfl]
  rfl

theorem Program.ofRungs_append
    (rungs rungs' : List Rung) :
    ofRungs (rungs ++ rungs') = (do
      let p ← ofRungs rungs
      let q ← ofRungs rungs'
      return p ++ q) := by
  rw [ofRungs, ofRungs, ofRungs, List.mapM_append]
  cases rungs.mapM Rung.program with
  | error _ => rfl
  | ok ps =>
      cases rungs'.mapM Rung.program with
      | error _ => rfl
      | ok qs => exact congrArg Except.ok List.flatten_append

/-- Rungs whose rows have other offsets have the same program, or a fault that differs in its place
only. -/
theorem Program.ofRungs_relocated
    {f : Row → Row} {g g' : Fault → Fault}
    (h : Wire.Relocates f g g') (rungs : List Rung) :
    (ofRungs (rungs.map fun rung => ⟨rung.rows.map f⟩)).mapError g =
      (ofRungs rungs).mapError g' := by
  rw [ofRungs, ofRungs, mapError_map, mapError_map, List.mapM_map, mapError_mapM, mapError_mapM]
  simp only [Function.comp_def, Rung.program_relocated h]

theorem Program.ofRungs_shift
    (n : Nat) (rungs : List Rung) :
    ofRungs (rungs.map (Rung.shift n)) = (ofRungs rungs).mapError (Fault.shift n) := by
  rw [← ofRungs_relocated (Wire.relocates_shift n) rungs]
  exact (mapError_id _).symm

/-- The parts of a continued text are compiled one after the other. -/
theorem compile_append_eq
    (hstart : ∀ ch ∈ t.toList.head?, Text.isBlank ch = false)
    (hopens : ∀ row ∈ (Rung.rowsOf t.toList).head?, row.opensRung = true) :
    compile (s ++ "\n" ++ t) = (do
      let p ← compile s
      let q ← (compile t).mapError (Fault.shift (s.utf8ByteSize + 1))
      return p ++ q) := by
  rw [compile, Rung.split_append_line hstart hopens, Program.ofRungs_append, Program.ofRungs_shift]
  rfl

/-- **A text that is continued on a new line is compiled part by part**, if the second part starts
without a blank and its first row, if there is one, starts with a dash.  A fault of the first part
is reported as it is, a fault of the second part is moved by the bytes before it, and otherwise the
program is that of the first part followed by that of the second. -/
theorem compile_append_line
    (hstart : t = "" ∨ ∃ ch, t.toList.head? = some ch ∧ Text.isBlank ch = false)
    (hopens : ∀ row ∈ (Rung.rowsOf t.toList).head?, row.get? 0 = some '-') :
    (∀ cause, compile s = .error cause → compile (s ++ "\n" ++ t) = .error cause) ∧
    (∀ p cause, compile s = .ok p → compile t = .error cause →
      compile (s ++ "\n" ++ t) = .error (cause.shift (s.utf8ByteSize + 1))) ∧
    ∀ p q, compile s = .ok p → compile t = .ok q → compile (s ++ "\n" ++ t) = .ok (p ++ q) := by
  have hhead : ∀ ch ∈ t.toList.head?, Text.isBlank ch = false := by
    rcases hstart with rfl | ⟨ch, hch, hblank⟩
    · intro ch hch
      cases hch
    · intro ch' hch'
      rw [hch] at hch'
      cases hch'
      exact hblank
  have hopens' : ∀ row ∈ (Rung.rowsOf t.toList).head?, row.opensRung = true := by
    intro row hrow
    rw [Row.opensRung, hopens row hrow]
    rfl
  rw [compile_append_eq hhead hopens']
  refine ⟨?_, ?_, ?_⟩
  · intro cause hs
    rw [hs]
    rfl
  · intro p cause hs ht
    rw [hs, ht]
    rfl
  · intro p q hs ht
    rw [hs, ht]
    rfl

/-- The fault of a commented second part is moved by the 22 bytes of a first part that ends with a
carriage return and the line break between them. -/
theorem compile_append_line_commented :
    compile "é\r\n||--[A]--(X)--||\r" = .ok [.read "A", .write "X"] ∧
      compile "Note\n||--[B--||" = .error (.malformed (.unterminated ']') "[B--" ⟨9, 13⟩) ∧
      compile ("é\r\n||--[A]--(X)--||\r" ++ "\n" ++ "Note\n||--[B--||") =
        .error (.malformed (.unterminated ']') "[B--" ⟨31, 35⟩) := by
  have hs : compile "é\r\n||--[A]--(X)--||\r" = .ok [.read "A", .write "X"] := by
    cbv
  have ht : compile "Note\n||--[B--||" =
      .error (.malformed (.unterminated ']') "[B--" ⟨9, 13⟩) := by
    cbv
  refine ⟨hs, ht, ?_⟩
  refine (compile_append_line (.inr ⟨'N', by decide, by decide⟩) ?_).2.1 _ _ hs ht
  intro row hrow
  have hrows : (Rung.rowsOf "Note\n||--[B--||".toList).head? = some ⟨"--[B--".toList, 7⟩ := by
    cbv
  rw [hrows] at hrow
  cases hrow
  decide

end Append

end RelayLadder
