import RelayLadder.Proofs.Receiver
import RelayLadder.Proofs.Schematic.Canonical
import RelayLadder.Proofs.Schematic.Compiled

/-!
# Compiling what was decompiled

**Drawing again.**  The coils of a compiled program can always be drawn, so their
schematic is known: one rung for each coil, after a rung without a program.

**Results.**
* `compile_schematic_iff`: the schematic of coils is compiled exactly if no name in it
  is empty, and then to their linear programs.
* `exists_folded_linear`: these programs are folded to the programs of coils.
* `compile_decompile_iff`: a program comes back from its drawing, up to folding,
  exactly if it is folded to the programs of canonical coils;
  `compile_decompile_ne_waiting` is a schematic where it is not.
-/

namespace RelayLadder

open Drawing (Enclosable ContactName CoilName)
open Figure (Named Worded)

section Printed

theorem enclosable_toggle
    {closer : Char} {name : String}
    (hcloser : closer ≠ '/') (h : Enclosable closer name.toList) :
    Enclosable closer (toggle name).toList := by
  rcases toggle_cases name with hmark | hmark
  · rw [hmark] at h
    exact ⟨fun hmem => h.1 (List.mem_cons_of_mem _ hmem),
      fun hmem => h.2 (List.mem_cons_of_mem _ hmem)⟩
  · rw [hmark]
    refine ⟨fun hmem => ?_, fun hmem => ?_⟩
    · exact h.1 ((List.mem_cons.mp hmem).resolve_left (by decide))
    · exact h.2 ((List.mem_cons.mp hmem).resolve_left hcloser)

/-- The folded program has drawable names and no `invert`. -/
theorem printed_folded
    {text : String} {p : Program}
    (h : compile text = .ok p) :
    ∀ i ∈ p.folded, i.Printed ∧ i ≠ .invert := by
  intro i hi
  refine ⟨?_, ?_⟩
  · refine Folding.forall_mem_run (Q := Instruction.Printed) (fun name hname => ?_)
      (fun name hname => ?_) (fun _ h => by cases h) (printed_of_compile h) i hi
    · exact enclosable_toggle (by decide) hname
    · exact enclosable_toggle (by decide) hname
  · rintro rfl
    exact (tame_of_compile h).invert_notMem (fun h => by cases h) hi

/-- Coils that are built from drawable names can be drawn. -/
theorem bears_of_coils
    {stack : List Expr} {q : Program} {cs : List Coil}
    (h : Operands.coils stack q = .ok cs)
    (hq : ∀ i ∈ q, i.Printed ∧ i ≠ .invert)
    (hstack : ∀ e ∈ stack, e.Bears ContactName LegibleCall) :
    ∀ c ∈ cs, CoilName c.name ∧ c.value.Bears ContactName LegibleCall := by
  induction q generalizing stack cs with
  | nil =>
      cases stack with
      | nil =>
          cases h
          exact List.forall_mem_nil _
      | cons e stack => cases h
  | cons i q ih =>
      obtain ⟨stack', coil, others, hstep, hrest, rfl⟩ := Operands.coils_cons_eq_ok_iff.mp h
      obtain ⟨hi, hinvert⟩ := hq i List.mem_cons_self
      have hq' := fun j hj => hq j (List.mem_cons_of_mem i hj)
      rcases Operands.step_cases hstep with
        ⟨name, rfl, rfl, rfl⟩ | ⟨tokens, rfl, rfl, rfl⟩ | ⟨e, rest, rfl, -, -, -⟩ |
        ⟨right, left, rest, rfl, rfl, rfl, rfl⟩ | ⟨right, left, rest, rfl, rfl, rfl, rfl⟩ |
        ⟨name, e, rfl, rfl, rfl⟩
      · exact ih hrest hq' (List.forall_mem_cons.mpr ⟨hi, hstack⟩)
      · exact ih hrest hq' (List.forall_mem_cons.mpr ⟨hi, hstack⟩)
      · exact absurd rfl hinvert
      · obtain ⟨hright, hleft, hothers⟩ := by simpa only [List.forall_mem_cons] using hstack
        exact ih hrest hq' (List.forall_mem_cons.mpr ⟨⟨hleft, hright⟩, hothers⟩)
      · obtain ⟨hright, hleft, hothers⟩ := by simpa only [List.forall_mem_cons] using hstack
        exact ih hrest hq' (List.forall_mem_cons.mpr ⟨⟨hleft, hright⟩, hothers⟩)
      · obtain ⟨he, hothers⟩ := List.forall_mem_cons.mp hstack
        exact List.forall_mem_cons.mpr ⟨⟨hi, he⟩, ih hrest hq' hothers⟩

end Printed

section Readable

/-- The figure can be read before some wire. -/
def Figure.Readable (fig : Figure) : Prop :=
  ∃ rest w, fig.onto rest = some w

/-- No name of the coil, as it is drawn, is read as empty. -/
def Coil.Readable (c : Coil) : Prop :=
  Named c.name ∧ c.value.Bears Named Worded

theorem Figure.named_of_labelled
    {make : String → Bool → Wire → Wire} {name : String} {rest w : Wire}
    (h : labelled make name.toList rest = some w) :
    Named name := by
  rw [labelled] at h
  split at h
  · cases h
  · rename_i hname
    exact Bool.eq_false_iff.mpr hname

theorem Figure.named_of_readable
    {name : String}
    (h : (Figure.contact name).Readable) :
    Named name := by
  obtain ⟨rest, w, h⟩ := h
  exact named_of_labelled h

theorem Figure.Readable.series
    {left right : Figure}
    (h : (left.series right).Readable) :
    left.Readable ∧ right.Readable := by
  obtain ⟨rest, w, h⟩ := h
  obtain ⟨w', hright, hleft⟩ := Option.bind_eq_some_iff.mp h
  exact ⟨⟨w', w, hleft⟩, ⟨rest, w', hright⟩⟩

theorem Figure.Readable.join
    {figs : List Figure}
    (h : (Figure.join figs).Readable) :
    ∀ fig ∈ figs, fig.Readable := by
  match figs, h with
  | [], _ => exact List.forall_mem_nil _
  | [fig], h => exact List.forall_mem_singleton.mpr h
  | top :: next :: below, ⟨rest, w, h⟩ =>
      obtain ⟨ws, hws, -⟩ := Option.map_eq_some_iff.mp h
      intro fig hfig
      obtain ⟨w', -, hw'⟩ := exists_of_mem_left (mapM_eq_some_iff.mp hws) hfig
      exact ⟨.finish, w', hw'⟩

/-- The names of an expression that can be read are not empty. -/
theorem Expr.bears_of_readable
    {p : String → Prop} {e : Expr}
    (he : e.Bears p LegibleCall) (h : ∀ fig ∈ e.figures, fig.Readable) :
    e.Bears Named Worded := by
  induction e with
  | contact name =>
      have hfig : (Figure.contact name).Readable := h _ List.mem_cons_self
      exact Figure.named_of_readable hfig
  | call tokens => exact LegibleCall.worded he
  | not operand _ =>
      cases operand with
      | contact name =>
          have hfig : (Figure.contact (toggle name)).Readable := h _ List.mem_cons_self
          exact Figure.named_of_readable hfig
      | call _ => exact absurd he id
      | not _ => exact absurd he id
      | and _ _ => exact absurd he id
      | or _ _ => exact absurd he id
  | and left right ihl ihr =>
      obtain ⟨hleft, hright⟩ := (h _ List.mem_cons_self).series
      exact ⟨ihl he.1 hleft.join, ihr he.2 hright.join⟩
  | or left right ihl ihr =>
      obtain ⟨hleft, hright⟩ := List.forall_mem_append.mp h
      exact ⟨ihl he.1 hleft, ihr he.2 (hright _ List.mem_cons_self).join⟩

theorem Coil.readable_of_wire?
    {p : String → Prop} {c : Coil} {w : Wire}
    (hvalue : c.value.Bears p LegibleCall) (hw : c.wire? = some w) :
    c.Readable := by
  obtain ⟨rest, hcoil, hfigure⟩ := Option.bind_eq_some_iff.mp hw
  have hreadable : c.value.figure.Readable := ⟨rest, w, hfigure⟩
  exact ⟨Figure.named_of_labelled hcoil, Expr.bears_of_readable hvalue hreadable.join⟩

theorem Coil.Canonical.readable
    {p : String → Prop} {c : Coil}
    (h : c.Canonical) (hvalue : c.value.Bears p LegibleCall) :
    c.Readable :=
  ⟨h.name.named, (h.value.bears hvalue).imp (fun _ hname => hname.named)
    fun _ hcall => hcall.worded⟩

end Readable

section Compiled

variable {p : String → Prop} {cs : List Coil} {q : Program}

/-- A rung that is read like that of a coil is compiled exactly if the coil can be read. -/
theorem Coil.program_eq_ok_iff
    {rung : Rung} {c : Coil}
    (hrung : rung.wire.toOption = c.wire?) (hvalue : c.value.Bears p LegibleCall) :
    rung.program = .ok q ↔ c.Readable ∧ q = c.linear drawnLabel := by
  constructor
  · intro hq
    have hreadable : c.Readable := by
      cases hwire : rung.wire with
      | error cause =>
          rw [Rung.program, hwire] at hq
          cases hq
      | ok w =>
          rw [hwire] at hrung
          exact Coil.readable_of_wire? hvalue hrung.symm
    rw [Coil.program_of_wire? hrung hreadable.1 hreadable.2] at hq
    exact ⟨hreadable, (Except.ok.inj hq).symm⟩
  · rintro ⟨h, rfl⟩
    exact Coil.program_of_wire? hrung h.1 h.2

theorem Coil.forall₂_program_iff
    {rungs : List Rung} {qs : List Program}
    (hrungs : rungs.map (·.wire.toOption) = cs.map Coil.wire?)
    (hvalues : ∀ c ∈ cs, c.value.Bears p LegibleCall) :
    List.Forall₂ (fun rung q => Rung.program rung = .ok q) rungs qs ↔
      (∀ c ∈ cs, c.Readable) ∧ qs = cs.map (Coil.linear drawnLabel) := by
  induction cs generalizing rungs qs with
  | nil =>
      rw [List.map_eq_nil_iff.mp hrungs, List.forall₂_nil_left_iff]
      simp
  | cons c cs ih =>
      obtain ⟨rung, rungs, rfl, hrung, hrungs⟩ := List.map_eq_cons_iff.mp hrungs
      obtain ⟨hvalue, hvalues⟩ := List.forall_mem_cons.mp hvalues
      simp only [List.forall₂_cons_left_iff, Coil.program_eq_ok_iff hrung hvalue,
        ih hrungs hvalues, List.forall_mem_cons, List.map_cons]
      constructor
      · rintro ⟨_, _, ⟨hc, rfl⟩, ⟨hcs, rfl⟩, rfl⟩
        exact ⟨⟨hc, hcs⟩, rfl⟩
      · rintro ⟨⟨hc, hcs⟩, rfl⟩
        exact ⟨_, _, ⟨hc, rfl⟩, ⟨hcs, rfl⟩, rfl⟩

/-- The schematic of drawable coils is compiled exactly if all of them can be read, and then to
their linear programs in a row. -/
theorem compile_schematic_iff
    {text : String} {width : Nat}
    (hcs : ∀ c ∈ cs, CoilName c.name ∧ c.value.Bears ContactName LegibleCall)
    (htext : Schematic.ofCoils cs width = .ok text) :
    compile text = .ok q ↔
      (∀ c ∈ cs, c.Readable) ∧ q = cs.flatMap (Coil.linear drawnLabel) := by
  have hdrawable : ∀ c ∈ cs, c.Drawable := fun c hc =>
    ⟨(hcs c hc).1, (hcs c hc).2.imp (fun _ h => h) fun _ h => h.callTokens⟩
  obtain ⟨text', head, rungs, htext', hsplit, hhead, hrungs⟩ :=
    Schematic.exists_schematic hdrawable width
  cases htext.symm.trans htext'
  have hprograms : ∀ qs, List.Forall₂ (fun rung q => Rung.program rung = .ok q) rungs qs ↔ _ :=
    fun _ => Coil.forall₂_program_iff hrungs fun c hc => (hcs c hc).2
  rw [compile_eq_ok_iff, hsplit]
  simp only [List.forall₂_cons_left_iff, hprograms, hhead, Except.ok.injEq]
  constructor
  · rintro ⟨_, ⟨_, _, rfl, ⟨hreadable, rfl⟩, rfl⟩, rfl⟩
    exact ⟨hreadable, by simp [List.flatMap_def]⟩
  · rintro ⟨hreadable, rfl⟩
    exact ⟨_, ⟨_, _, rfl, ⟨hreadable, rfl⟩, rfl⟩, by simp [List.flatMap_def]⟩

/-- The linear programs of coils fold to the programs of coils, and exactly the canonical ones come
back. -/
theorem exists_folded_linear
    (h : ∀ c ∈ cs, c.Readable) :
    ∃ cs' : List Coil, Program.folded (cs.flatMap (Coil.linear drawnLabel)) =
      cs'.flatMap Coil.program ∧ (cs' = cs ↔ ∀ c ∈ cs, c.Canonical) := by
  induction cs with
  | nil => exact ⟨[], rfl, by simp⟩
  | cons c cs ih =>
      obtain ⟨⟨hname, hvalue⟩, hcs⟩ := List.forall_mem_cons.mp h
      obtain ⟨cs', hfolded, hiff⟩ := ih hcs
      obtain ⟨c', hrun, hiff'⟩ := Coil.exists_folded hname hvalue
      refine ⟨c' :: cs', ?_, ?_⟩
      · rw [List.flatMap_cons, List.flatMap_cons, Program.folded, hrun, ← Program.folded, hfolded]
      · rw [List.cons.injEq, hiff', hiff, List.forall_mem_cons]

/-- **What comes back from a drawing.**  A compiled program that is drawn comes back from its
drawing, up to folding, exactly if it is folded to the programs of canonical coils, one after the
other. -/
theorem compile_decompile_iff
    {text drawing : String} {width : Nat} {p : Program}
    (hp : compile text = .ok p) (hdrawing : decompile p width = .ok drawing) :
    (∃ p', compile drawing = .ok p' ∧ p'.folded = p.folded) ↔
      ∃ cs : List Coil, p.folded = cs.flatMap Coil.program ∧ ∀ c ∈ cs, c.Canonical := by
  obtain ⟨cs, hcs, htext⟩ := decompile_eq_ok_iff.mp hdrawing
  have hbears := bears_of_coils hcs (printed_folded hp) (List.forall_mem_nil _)
  -- The coils are determined by the program that they are built from.
  have hbuilt : ∀ {cs' : List Coil}, p.folded = cs'.flatMap Coil.program → cs' = cs := by
    intro cs' hfolded
    rw [Coil.ofProgram, hfolded, Operands.coils_flatMap_program] at hcs
    exact Except.ok.inj hcs
  simp only [compile_schematic_iff hbears htext]
  constructor
  · rintro ⟨p', ⟨hreadable, rfl⟩, hfolded⟩
    obtain ⟨cs', hcs', hiff⟩ := exists_folded_linear hreadable
    cases hbuilt (hfolded.symm.trans hcs')
    exact ⟨cs, hfolded.symm.trans hcs', hiff.mp rfl⟩
  · rintro ⟨cs', hfolded, hcanonical⟩
    cases hbuilt hfolded
    have hreadable := fun c hc => (hcanonical c hc).readable (hbears c hc).2
    obtain ⟨cs', hcs', hiff⟩ := exists_folded_linear hreadable
    cases hiff.mpr hcanonical
    exact ⟨_, ⟨hreadable, rfl⟩, hcs'.trans hfolded.symm⟩

/-- A negated coil behind a negated contact and a block. -/
theorem compile_decompile_block :
    ∃ p drawing,
      compile ("\n".intercalate [
        "||--[/A]--+--[B]--+--(/X)--||",
        "||        |       |        ||",
        "||        +--\x7bf\x7d--+        ||"]) = .ok p ∧
      decompile p 0 = .ok drawing ∧
      ∃ p', compile drawing = .ok p' ∧ p'.folded = p.folded := by
  have hp : compile ("\n".intercalate [
      "||--[/A]--+--[B]--+--(/X)--||",
      "||        |       |        ||",
      "||        +--\x7bf\x7d--+        ||"]) =
      .ok [.read "A", .invert, .read "B", .call ["f"], .disj, .conj, .invert, .write "X"] := by
    cbv
  obtain ⟨drawing, -, -, htext, -⟩ := Schematic.exists_schematic
    (List.forall_mem_singleton.mpr (Coil.Legible.drawable (c := ⟨"/X",
      .and (.contact "/A") (.or (.contact "B") (.call ["f"]))⟩) (by decide))) 0
  have hdrawing : decompile
      [.read "A", .invert, .read "B", .call ["f"], .disj, .conj, .invert, .write "X"] 0 =
      .ok drawing :=
    decompile_eq_ok_iff.mpr ⟨_, rfl, htext⟩
  exact ⟨_, drawing, hp, hdrawing, (compile_decompile_iff hp hdrawing).mpr
    ⟨[⟨"/X", .and (.contact "/A") (.or (.contact "B") (.call ["f"]))⟩], by decide, by decide⟩⟩

/-- An operand that waits across a coil: `A` is pushed before it is written, but drawn behind the
rung that writes it. -/
theorem compile_decompile_ne_waiting :
    ∃ p drawing,
      compile ("\n".intercalate [
        "||--[A]--||",
        "||--[B]--(A)--(Y)--||"]) = .ok p ∧
      decompile p 0 = .ok drawing ∧
      ¬ ∃ p', compile drawing = .ok p' ∧ p'.folded = p.folded := by
  refine ⟨[.read "A", .read "B", .write "A", .write "Y"],
    "\n".intercalate [
      "||              ||",
      "||--[B]----(A)--||",
      "||              ||",
      "||--[A]----(Y)--||",
      "||              ||"], by cbv, by cbv, ?_⟩
  rintro ⟨p', hp', hfolded⟩
  have hagain : compile ("\n".intercalate [
      "||              ||",
      "||--[B]----(A)--||",
      "||              ||",
      "||--[A]----(Y)--||",
      "||              ||"]) = .ok [.read "B", .write "A", .read "A", .write "Y"] := by
    cbv
  rw [hagain] at hp'
  cases hp'
  exact absurd hfolded (by decide)

end Compiled

end RelayLadder
