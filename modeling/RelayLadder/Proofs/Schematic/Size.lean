import RelayLadder.Proofs.Schematic.Stream

/-!
# The size of a drawn schematic

The lines of a schematic are the rows of a canvas between borders.  The canvas ends with
a blank row, which is read first; above it there is one rung for each coil, as high as
the value of the coil, and a blank row below each rung.

**Results.**
* `lines_schematic`: the lines of a canvas without line feeds.
* `lines_ofCoils`: how many lines a drawing has, and how long they are.
-/

namespace RelayLadder
namespace Schematic

section Lines

variable {c : Canvas}

theorem line_eq_replicate
    {P : Nat → Nat → Char} {i : Nat}
    (h : ∀ k, P i k = ' ') (w : Nat) :
    Canvas.line P w i = List.replicate w ' ' := by
  have hlook : P i = fun _ => ' ' := funext h
  rw [Canvas.line, hlook, List.map_const', List.length_range]

/-- The text of a canvas that ends with a blank row: this row, and then the others. -/
theorem toList_schematic_of_onNewRow
    (hc : c.Uniform) (hlast : Drawing.OnNewRow c.sheet) :
    c.schematic.toList = ['\n'].intercalate ((List.replicate c.width ' ' ::
      (List.range c.row).map (Canvas.line c.look c.width)).map bordered) := by
  have hblank : Canvas.line c.look c.width c.row = List.replicate c.width ' ' :=
    line_eq_replicate (fun k => hlast.blank c.row k (Nat.le_refl _)) c.width
  rw [toList_schematic, rows_rotated hc hlast.row_eq.symm, List.map_cons, hblank]

theorem length_of_mem_bordered
    {P : Nat → Nat → Char} {w n : Nat} {line : List Char}
    (h : line ∈ (List.replicate w ' ' :: (List.range n).map (Canvas.line P w)).map bordered) :
    line.length = w + 4 := by
  obtain ⟨row, hrow, rfl⟩ := List.mem_map.mp h
  rcases List.mem_cons.mp hrow with rfl | hrow
  · simp [bordered]
  · obtain ⟨i, -, rfl⟩ := List.mem_map.mp hrow
    simp [bordered, Canvas.line]

/-- If the row above the last one is blank, the text ends with a blank row, too. -/
theorem getLast?_rows
    {P : Nat → Nat → Char} {n : Nat}
    (h : 0 < n → ∀ k, P (n - 1) k = ' ') (w : Nat) :
    (List.replicate w ' ' :: (List.range n).map (Canvas.line P w)).getLast? =
      some (List.replicate w ' ') := by
  cases n with
  | zero => rfl
  | succ n =>
      have hblank : Canvas.line P w n = List.replicate w ' ' := line_eq_replicate (h n.succ_pos) w
      rw [List.range_succ, List.map_append, List.map_singleton, ← List.cons_append,
        List.getLast?_concat, hblank]

/-- Without line feeds on the canvas, each row of it is a line. -/
theorem lines_schematic
    (hc : c.Uniform) (hlast : Drawing.OnNewRow c.sheet) (hclean : ∀ i k, c.look i k ≠ '\n') :
    Text.lines c.schematic.toList = (List.replicate c.width ' ' ::
      (List.range c.row).map (Canvas.line c.look c.width)).map bordered := by
  rw [toList_schematic_of_onNewRow hc hlast]
  refine Text.pieces_intercalate (List.cons_ne_nil _ _) rfl fun line hline ch hch => ?_
  obtain ⟨row, hrow, rfl⟩ := List.mem_map.mp hline
  have hrow' : '\n' ∉ row := by
    intro hmem
    rcases List.mem_cons.mp hrow with rfl | hrow
    · exact absurd (List.eq_of_mem_replicate hmem) (by decide)
    · obtain ⟨i, -, rfl⟩ := List.mem_map.mp hrow
      obtain ⟨k, -, hk⟩ := List.mem_map.mp hmem
      exact hclean i k hk
  have hnot : '\n' ∉ bordered row := by simp [bordered, hrow']
  exact beq_false_of_ne fun heq => hnot (heq ▸ hch)

end Lines

section Coils

variable {cs : List Coil} {width : Nat} {text : String}

/-- Coils that are drawn leave a canvas with their rungs. -/
theorem exists_canvas_of_ofCoils
    {ink : Char → Prop}
    (h : ofCoils cs width = .ok text) (hink : ∀ ch ∈ Drawing.glyphs, ink ch)
    (hlabels : ∀ c ∈ cs, ∀ label ∈ c.labels, ∀ ch ∈ label.toList, ink ch) :
    ∃ c : Canvas, text = c.schematic ∧ c.Uniform ∧
      Drawing.AddsRungs ink cs (Canvas.blank width).sheet c.sheet := by
  have hnone : cs.findSome? Coil.undrawable? = none :=
    List.findSome?_eq_none_iff.mpr (exists_ofCoils_iff.mp ⟨text, h⟩)
  have hends := Drawing.ends_rungs hink cs hlabels (onNewRow_blank width)
  rw [hnone] at hends
  obtain ⟨_, s, hdoes, hadds⟩ := hends
  obtain ⟨c, hrun, hc, rfl⟩ := hdoes _ (Canvas.uniform_blank width) rfl
  have hfinish : c.finish = .ok text := by
    rwa [ofCoils, hrun] at h
  exact ⟨c, Except.ok.inj (hfinish.symm.trans (finish_of_run hrun)), hc, hadds⟩

/-- **The size of a drawing.**  All lines of the drawing of coils are equally long, and they are
bordered on both sides.  There are as many of them as the coils are high, with one blank line at
the start and one below each coil; so the first and the last line are blank. -/
theorem lines_ofCoils
    (h : ofCoils cs width = .ok text)
    (hlabels : ∀ c ∈ cs, ∀ label ∈ c.labels, '\n' ∉ label.toList) :
    ∃ n, width + 4 ≤ n ∧
      (∀ line ∈ Text.lines text.toList, line.length = n ∧ ∃ row, line = bordered row) ∧
      (Text.lines text.toList).length = 1 + (cs.map (·.value.height + 1)).sum ∧
      (Text.lines text.toList).head? = some (bordered (List.replicate (n - 4) ' ')) ∧
      (Text.lines text.toList).getLast? = some (bordered (List.replicate (n - 4) ' ')) := by
  have hglyphs : ∀ ch ∈ Drawing.glyphs, ch ≠ '\n' := by simp [Drawing.glyphs]
  obtain ⟨c, rfl, hc, hadds⟩ := exists_canvas_of_ofCoils h hglyphs
    fun c hcs label hlabel ch hch heq => hlabels c hcs label hlabel (heq ▸ hch)
  have hrow : c.row = (cs.map (·.value.height + 1)).sum := hadds.row_eq.trans (Nat.zero_add _)
  have hclean : ∀ i k, c.look i k ≠ '\n' := by
    intro i k
    rcases hadds.cells i k with heq | hink
    · exact fun hnl => (fresh_blank width).clean i k (heq ▸ hnl)
    · exact hink
  have hlines := lines_schematic hc hadds.onNewRow hclean
  have hwidth : width ≤ c.width := by
    have hle : (Canvas.blank width).width ≤ c.width := hadds.keeps.width_le
    rwa [show (Canvas.blank width).width = width from List.length_replicate] at hle
  refine ⟨c.width + 4, Nat.add_le_add_right hwidth 4, ?_, ?_, ?_, ?_⟩
  · intro line hline
    rw [hlines] at hline
    obtain ⟨row, -, hbordered⟩ := List.mem_map.mp hline
    exact ⟨length_of_mem_bordered hline, row, hbordered.symm⟩
  · rw [hlines, List.length_map, List.length_cons, List.length_map, List.length_range, hrow,
      Nat.add_comm]
  · rw [hlines, Nat.add_sub_cancel]
    rfl
  · have hblank : 0 < c.row → ∀ k, c.look (c.row - 1) k = ' ' := by
      intro hpos
      refine hadds.blank ?_
      rintro rfl
      exact absurd hrow hpos.ne'
    rw [hlines, Nat.add_sub_cancel, List.getLast?_map, getLast?_rows hblank]
    rfl

/-- A block inside a branch of another block makes a rung of five rows, which a contact in series
does not make higher. -/
theorem lines_ofCoils_nested :
    ∃ cs text,
      cs = [⟨"Q", .and (.or (.contact "A")
          (.and (.or (.contact "B") (.call ["T", "1"])) (.contact "C"))) (.not (.contact "D"))⟩,
        ⟨"R", .contact "Q"⟩] ∧
      ofCoils cs 40 = .ok text ∧ (∀ c ∈ cs, ∀ label ∈ c.labels, '\n' ∉ label.toList) ∧
      (Text.lines text.toList).length = 9 ∧
      ∃ n, 44 ≤ n ∧ ∀ line ∈ Text.lines text.toList, line.length = n := by
  obtain ⟨cs, hcs⟩ : ∃ cs : List Coil, cs = [⟨"Q", .and (.or (.contact "A")
      (.and (.or (.contact "B") (.call ["T", "1"])) (.contact "C"))) (.not (.contact "D"))⟩,
    ⟨"R", .contact "Q"⟩] := ⟨_, rfl⟩
  obtain ⟨text, htext⟩ : ∃ text, ofCoils cs 40 = .ok text := by
    refine exists_ofCoils_iff.mpr ?_
    rw [hcs]
    decide
  have hlabels : ∀ c ∈ cs, ∀ label ∈ c.labels, '\n' ∉ label.toList := by
    rw [hcs]
    decide
  obtain ⟨n, hn, hlength, hcount, -⟩ := lines_ofCoils htext hlabels
  refine ⟨cs, text, hcs, htext, hlabels, ?_, n, hn, fun line hline => (hlength line hline).1⟩
  rw [hcount, hcs]
  rfl

end Coils

end Schematic
end RelayLadder
