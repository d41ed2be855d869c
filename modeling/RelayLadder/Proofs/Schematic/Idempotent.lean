import RelayLadder.Proofs.Depth
import RelayLadder.Proofs.Machine.Postfix
import RelayLadder.Proofs.Schematic.RoundTrip

/-!
# Drawing what was drawn

A drawing is read and drawn again.  The coils that come back need not be the coils that
were drawn, since a series comes back leaning to the left.  But they have the same
drawing, as a series is drawn from left to right however it leans.

**Steady coils.**  `Coil.Steady` says of a coil that its names come back, and that its
negation does not go to its value.

**Results.**
* `Drawing.coil_redrawn`: a coil with canonical names and the coil that comes back are
  drawn by the same action.
* `exists_redrawing`: where no operand waits across a coil and no name has a mark of its
  own, the drawing of a compiled program is compiled to a program with the same drawing.
-/

namespace RelayLadder

open Canvas (Action)
open Drawing (ContactName CoilName branchesOf drawBranches)
open Figure (Named Worded)

section Names

variable {name : String}

theorem canonicalName_of_plain
    (htrimmed : Text.Trimmed name.toList) (hplain : name.toList.head? ≠ some '/') :
    CanonicalName name := by
  refine ⟨⟨htrimmed, fun plain hname => ?_⟩, fun rest hname => ?_⟩
  · exact absurd (by rw [hname]; rfl) hplain
  · exact absurd (by rw [hname]; rfl) hplain

/-- A canonical name stays canonical when its mark is taken away or one is added. -/
theorem CanonicalName.toggle
    (h : CanonicalName name) :
    CanonicalName (toggle name) := by
  by_cases hmark : name.toList.head? = some '/'
  · obtain ⟨plain, hname⟩ := List.head?_eq_some_iff.mp hmark
    have htoggle := toList_toggle_of_mark hname
    refine canonicalName_of_plain ?_ fun hhead => ?_
    · rw [htoggle]
      exact h.trimmed_plain plain hname
    · rw [htoggle] at hhead
      obtain ⟨rest, rfl⟩ := List.head?_eq_some_iff.mp hhead
      exact h.single rest hname
  · have htoggle := toList_toggle_of_plain hmark
    refine ⟨⟨?_, fun plain hname => ?_⟩, fun rest hname => ?_⟩
    · rw [htoggle]
      exact Text.Trimmed.append (s := ['/']) (by decide) h.trimmed []
    · rw [htoggle] at hname
      rw [← List.tail_eq_of_cons_eq hname]
      exact h.trimmed
    · rw [htoggle] at hname
      exact hmark (by rw [List.tail_eq_of_cons_eq hname]; rfl)

end Names

namespace Drawing

section Series

variable {q : List String → Prop}

/-- A series is drawn from left to right, however it leans. -/
theorem branchesOf_regroup :
    ∀ {e : Expr}, e.Bears CanonicalName q →
      branchesOf (e.regroup redrawn none) = branchesOf e ∧
      ∀ left, branchesOf (e.regroup redrawn (some left)) = [do expr left; expr e]
  | .contact name, h => by
      have hname : redrawn name = name := CanonicalName.redrawn_eq h
      refine ⟨?_, fun left => ?_⟩
      · rw [Expr.regroup, hname]
        rfl
      · rw [Expr.regroup, hname]
        rfl
  | .call tokens, _ => ⟨rfl, fun _ => rfl⟩
  | .not (.contact name), h => by
      have hname : redrawn (toggle name) = toggle name := CanonicalName.redrawn_eq h
      refine ⟨?_, fun left => ?_⟩
      · rw [Expr.regroup, hname]
        rfl
      · rw [Expr.regroup, hname]
        rfl
  | .and left right, h => by
      obtain ⟨hleft, hleft'⟩ := branchesOf_regroup h.1
      obtain ⟨-, hright⟩ := branchesOf_regroup h.2
      refine ⟨?_, fun before => ?_⟩
      · rw [Expr.regroup, hright, expr, hleft]
        rfl
      · rw [Expr.regroup, hright, expr, hleft', drawBranches, bind_assoc]
        rfl
  | .or left right, h => by
      obtain ⟨hleft, -⟩ := branchesOf_regroup h.1
      obtain ⟨hright, -⟩ := branchesOf_regroup h.2
      have hbranches : branchesOf (.or (left.regroup redrawn none) (right.regroup redrawn none)) =
          branchesOf (.or left right) := by
        rw [branchesOf, branchesOf, hleft, hright]
      refine ⟨hbranches, fun before => ?_⟩
      rw [Expr.regroup, Expr.after, branchesOf, hbranches]
      rfl

/-- **A coil and the coil that comes back from its drawing are drawn by the same action.** -/
theorem coil_redrawn
    {c : Coil}
    (hname : CanonicalName c.name) (hvalue : c.value.Bears CanonicalName q) :
    coil c.redrawn = coil c := by
  have hexpr : expr c.redrawn.value = expr c.value :=
    congrArg drawBranches (branchesOf_regroup hvalue).1
  rw [coil, coil, hexpr, Coil.redrawn, hname.redrawn_eq]

end Series

end Drawing

section Steady

/-- A coil whose names come back from its drawing and whose negation does not go to its value. -/
structure Coil.Steady (c : Coil) : Prop where
  name : CanonicalName c.name
  value : c.value.Bears CanonicalName LegibleCall
  marked : (unmark c.name).2 = true → ¬ c.value.Lone unmark

variable {cs : List Coil} {width : Nat}

theorem Coil.Steady.readable
    {c : Coil}
    (h : c.Steady) :
    c.Readable :=
  ⟨h.name.named, h.value.imp (fun _ hname => hname.named) fun _ hcall => hcall.worded⟩

/-- The coils that come back from the drawing of steady coils. -/
theorem ofProgram_linear
    (h : ∀ c ∈ cs, c.Steady) :
    Coil.ofProgram (cs.flatMap (Coil.linear drawnLabel)) = .ok (cs.map Coil.redrawn) := by
  have hfolded : Program.folded (cs.flatMap (Coil.linear drawnLabel)) =
      (cs.map Coil.redrawn).flatMap Coil.program := by
    induction cs with
    | nil => rfl
    | cons c cs ih =>
        obtain ⟨hc, hcs⟩ := List.forall_mem_cons.mp h
        have hmarked : (drawnLabel c.name).2 = true → ¬ c.value.Lone drawnLabel := by
          rw [hc.name.drawnLabel_eq, hc.value.lone_iff]
          exact hc.marked
        have hnamed := hc.value.imp (fun _ hname => hname.named) fun _ hcall => hcall
        have hrun := Coil.run_linear hnamed hmarked (cs.flatMap (Coil.linear drawnLabel))
        rw [List.flatMap_cons, Program.folded, hrun, ← Program.folded, ih hcs]
        rfl
  rw [Coil.ofProgram, hfolded, Operands.coils_flatMap_program]

theorem ofCoils_redrawn
    (h : ∀ c ∈ cs, c.Steady) (width : Nat) :
    Schematic.ofCoils (cs.map Coil.redrawn) width = Schematic.ofCoils cs width := by
  have hdraw : (cs.map Coil.redrawn).forM Drawing.coil = cs.forM Drawing.coil := by
    induction cs with
    | nil => rfl
    | cons c cs ih =>
        obtain ⟨hc, hcs⟩ := List.forall_mem_cons.mp h
        rw [List.map_cons, List.forM, List.forM, Drawing.coil_redrawn hc.name hc.value, ih hcs]
  rw [Schematic.ofCoils, Schematic.ofCoils, hdraw]

/-- The drawing of steady coils is compiled to a program with the same drawing. -/
theorem exists_redrawing_of_steady
    {drawing : String}
    (hcs : ∀ c ∈ cs, CoilName c.name ∧ c.value.Bears ContactName LegibleCall)
    (hsteady : ∀ c ∈ cs, c.Steady) (hdrawing : Schematic.ofCoils cs width = .ok drawing) :
    ∃ p, compile drawing = .ok p ∧ decompile p width = .ok drawing := by
  refine ⟨cs.flatMap (Coil.linear drawnLabel), ?_, ?_⟩
  · exact (compile_schematic_iff hcs hdrawing).mpr ⟨fun c hc => (hsteady c hc).readable, rfl⟩
  · refine decompile_eq_ok_iff.mpr ⟨cs.map Coil.redrawn, ofProgram_linear hsteady, ?_⟩
    rw [ofCoils_redrawn hsteady, hdrawing]

end Steady

section Compiled

/-- The names of the instruction are canonical. -/
def Instruction.Canonical : Instruction → Prop
  | read name => CanonicalName name
  | write name => CanonicalName name
  | _ => True

/-- No name in the program starts with a negation mark. -/
def Program.Plain (p : Program) : Prop :=
  ∀ name, .read name ∈ p ∨ .write name ∈ p → name.toList.head? ≠ some '/'

variable {text : String} {p : Program} {cs : List Coil}

theorem canonical_folded
    (h : compile text = .ok p) (hplain : p.Plain) :
    ∀ i ∈ p.folded, i.Canonical := by
  refine Folding.forall_mem_run (Q := Instruction.Canonical) (fun _ hname => hname.toggle)
    (fun _ hname => hname.toggle) (fun _ hheld => by cases hheld) fun i hi => ?_
  have htrimmed := trimmed_of_compile h i hi
  cases i with
  | read name => exact canonicalName_of_plain htrimmed (hplain name (.inl hi))
  | write name => exact canonicalName_of_plain htrimmed (hplain name (.inr hi))
  | invert => trivial
  | conj => trivial
  | disj => trivial
  | call tokens => trivial

/-- What holds of the instructions of an expression holds of its names and calls. -/
theorem Expr.bears_of_program
    {Q : Instruction → Prop} {p : String → Prop} {q : List String → Prop} {e : Expr}
    (hread : ∀ name, Q (.read name) → p name) (hcall : ∀ tokens, Q (.call tokens) → q tokens)
    (hinvert : ¬ Q .invert) (h : ∀ i ∈ e.program, Q i) :
    e.Bears p q := by
  induction e with
  | contact name => exact hread name (h _ (List.mem_singleton_self _))
  | call tokens => exact hcall tokens (h _ (List.mem_singleton_self _))
  | not operand _ => exact absurd (h .invert (by simp [program])) hinvert
  | and left right ihl ihr =>
      simp only [program, List.forall_mem_append] at h
      exact ⟨ihl h.1.1, ihr h.1.2⟩
  | or left right ihl ihr =>
      simp only [program, List.forall_mem_append] at h
      exact ⟨ihl h.1.1, ihr h.1.2⟩

/-- A mark that folding puts on the name of a coil comes from a value that is not a single
contact without one. -/
theorem Coil.marked_folded
    {c : Coil}
    (hplain : Program.Plain c.program) (hinvert : .invert ∉ c.folded.program)
    (hmark : (unmark c.folded.name).2 = true) :
    ¬ c.folded.value.Lone unmark := by
  rcases c.folded_cases with ⟨operand, hvalue, hne, hfolded⟩ | ⟨-, hfolded⟩
  · rw [hfolded] at hinvert ⊢
    intro hlone
    cases operand with
    | contact name => exact hne name rfl
    | call tokens => exact hlone
    | and left right => exact hlone
    | or left right => exact hlone
    | not inner =>
        by_cases hcontact : ∃ name, inner = .contact name
        · -- The contact under two negations keeps the inner one as its mark.
          obtain ⟨name, rfl⟩ := hcontact
          have hname : name.toList.head? ≠ some '/' :=
            hplain name (.inl (by simp [program, hvalue, Expr.program]))
          have hlone : (unmark (toggle name)).2 = false := hlone
          rw [unmark, toList_toggle_of_plain hname] at hlone
          cases hlone
        · rw [Expr.folded_not fun name heq => hcontact ⟨name, heq⟩] at hinvert
          exact hinvert (by simp [program, Expr.program])
  · have hname : c.name.toList.head? ≠ some '/' :=
      hplain c.name (.inr (by simp [program]))
    rw [hfolded] at hmark
    rcases unmark_cases c.name with ⟨plain, hmarked, -⟩ | ⟨-, hlabel⟩
    · exact absurd (by rw [hmarked]; rfl) hname
    · rw [hlabel] at hmark
      cases hmark

/-- The coils of a compiled program are steady, if no operand waits across a coil and no name has
a mark of its own. -/
theorem steady_of_compile
    (h : compile text = .ok p) (hplain : p.Plain) (halone : Alone p)
    (hcs : Coil.ofProgram p = .ok cs) :
    ∀ c ∈ cs, c.Steady := by
  obtain ⟨drivers, hbuild⟩ := Operands.exists_build_of_ofProgram hcs
  have hprogram : p = drivers.flatMap Coil.program := by
    simpa using eq_flatMap_program_of_alone halone hbuild
  have hfolded : cs = drivers.map Coil.folded := by
    rw [hprogram, Coil.ofProgram_flatMap_program] at hcs
    exact (Except.ok.inj hcs).symm
  have hpart : ∀ d ∈ drivers, ∀ i ∈ d.folded.program, i ∈ p.folded := by
    intro d hd i hi
    rw [hprogram, Coil.folded_flatMap_program]
    exact List.mem_flatMap.mpr ⟨d.folded, List.mem_map_of_mem hd, hi⟩
  rw [hfolded]
  intro c hc
  obtain ⟨d, hd, rfl⟩ := List.mem_map.mp hc
  have hinstructions : ∀ i ∈ d.folded.program, i.Canonical ∧ i.Printed ∧ i ≠ .invert := fun i hi =>
    ⟨canonical_folded h hplain i (hpart d hd i hi), printed_folded h i (hpart d hd i hi)⟩
  refine ⟨?_, ?_, Coil.marked_folded ?_ ?_⟩
  · exact (hinstructions (.write d.folded.name) (by simp [Coil.program])).1
  · refine Expr.bears_of_program (fun _ hi => hi.1) (fun _ hi => hi.2.1) (fun hi => hi.2.2 rfl)
      fun i hi => hinstructions i (List.mem_append_left _ hi)
  · intro name hname
    refine hplain name ?_
    rw [hprogram]
    exact hname.imp (fun hi => List.mem_flatMap.mpr ⟨d, hd, hi⟩)
      fun hi => List.mem_flatMap.mpr ⟨d, hd, hi⟩
  · exact fun hi => (hinstructions .invert hi).2.2 rfl

/-- **The drawing of a compiled program is compiled to a program with the same drawing**, if no
operand waits across a coil and no name has a mark of its own. -/
theorem exists_redrawing
    {drawing : String} {width : Nat}
    (h : compile text = .ok p) (hplain : p.Plain) (halone : Alone p)
    (hdrawing : decompile p width = .ok drawing) :
    ∃ p', compile drawing = .ok p' ∧ decompile p' width = .ok drawing := by
  obtain ⟨cs, hcs, htext⟩ := decompile_eq_ok_iff.mp hdrawing
  have hbears := bears_of_coils hcs (printed_folded h) (List.forall_mem_nil _)
  exact exists_redrawing_of_steady hbears (steady_of_compile h hplain halone hcs) htext

end Compiled

end RelayLadder
