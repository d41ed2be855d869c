import RelayLadder.Proofs.Depth
import RelayLadder.Proofs.Rewriting
import RelayLadder.Proofs.Schematic.Compiled
import RelayLadder.Proofs.Schematic.Stream

/-!
# Drawing a compiled program

In a schematic only names are negated, so no negation is left when its program is
folded.  A program without negations can fail to be drawn for its operands only.

**Results.**
* `Operands.undrawable?_completed`: a program without negations completes drawable coils.
* `decompile_of_compile`: how drawing a compiled program ends.
-/

namespace RelayLadder

section Negations

/-- A program without negations has nothing to fold. -/
theorem Program.normal_of_notMem
    {p : Program}
    (h : .invert ∉ p) :
    p.Normal := by
  intro name
  constructor
  · intro hin
    exact h (hin.subset (by simp))
  · intro hin
    exact h (hin.subset (by simp))

theorem Program.folded_eq_self_of_notMem
    {p : Program}
    (h : .invert ∉ p) :
    p.folded = p := by
  rw [p.folded_eq_rewritten]
  exact p.rewritten_eq_self_iff.mpr (Program.normal_of_notMem h)

end Negations

namespace Operands

section Drawable

variable {stack stack' : List Expr} {i : Instruction} {coil : Option Coil} {p : Program}

/-- An instruction other than a negation keeps the operands drawable, and a coil that it completes
is drawable. -/
theorem undrawable?_step
    (h : step stack i = .ok (stack', coil)) (hi : i ≠ .invert)
    (hstack : ∀ e ∈ stack, e.undrawable? = none) :
    (∀ e ∈ stack', e.undrawable? = none) ∧ ∀ c ∈ coil, c.undrawable? = none := by
  rcases step_cases h with
    ⟨name, -, rfl, rfl⟩ | ⟨tokens, -, rfl, rfl⟩ | ⟨e, rest, rfl, -, -, -⟩ |
    ⟨right, left, rest, -, rfl, rfl, rfl⟩ | ⟨right, left, rest, -, rfl, rfl, rfl⟩ |
    ⟨name, e, -, rfl, rfl⟩
  · exact ⟨List.forall_mem_cons.mpr ⟨rfl, hstack⟩, by simp⟩
  · exact ⟨List.forall_mem_cons.mpr ⟨rfl, hstack⟩, by simp⟩
  · exact absurd rfl hi
  · obtain ⟨hright, hleft, hrest⟩ := by simpa only [List.forall_mem_cons] using hstack
    exact ⟨List.forall_mem_cons.mpr ⟨Option.or_eq_none_iff.mpr ⟨hleft, hright⟩, hrest⟩, by simp⟩
  · obtain ⟨hright, hleft, hrest⟩ := by simpa only [List.forall_mem_cons] using hstack
    exact ⟨List.forall_mem_cons.mpr ⟨Option.or_eq_none_iff.mpr ⟨hleft, hright⟩, hrest⟩, by simp⟩
  · obtain ⟨he, hrest⟩ := List.forall_mem_cons.mp hstack
    refine ⟨hrest, fun c hc => ?_⟩
    cases hc
    exact he

/-- The coils that a program without negations completes can be drawn. -/
theorem undrawable?_completed
    (hp : .invert ∉ p) (hstack : ∀ e ∈ stack, e.undrawable? = none) :
    ∀ c ∈ completed stack p, c.undrawable? = none := by
  induction p generalizing stack with
  | nil => exact List.forall_mem_nil _
  | cons i p ih =>
      obtain ⟨hi, hp⟩ := List.ne_and_not_mem_of_not_mem_cons hp
      cases hstep : step stack i with
      | error cause =>
          rw [completed_cons_of_error hstep]
          exact List.forall_mem_nil _
      | ok next =>
          obtain ⟨stack', coil⟩ := next
          obtain ⟨hstack', hcoil⟩ := undrawable?_step hstep hi.symm hstack
          rw [completed_cons_of_ok hstep]
          intro c hc
          rcases List.mem_append.mp hc with hc | hc
          · exact hcoil c (Option.mem_toList.mp hc)
          · exact ih hp hstack' c hc

end Drawable

end Operands

section Compiled

/-- A program that has no negation when it is folded is drawn if it has coils, and otherwise
refused for the fault of its operands. -/
theorem decompile_of_notMem
    {p : Program}
    (h : .invert ∉ p.folded) (width : Nat) :
    (∃ cs drawing, Coil.ofProgram p = .ok cs ∧ decompile p width = .ok drawing) ∨
      ∃ cause, Coil.ofProgram p = .error cause ∧ decompile p width = .error (.fault cause) := by
  obtain ⟨drawing, hdrawing⟩ : ∃ drawing,
      Schematic.ofCoils (Operands.completed [] p.folded) width = .ok drawing :=
    Schematic.exists_ofCoils_iff.mpr
      (Operands.undrawable?_completed h (List.forall_mem_nil _))
  rw [decompile_eq_ofCoils, hdrawing]
  cases Coil.ofProgram p with
  | ok cs => exact Or.inl ⟨cs, drawing, rfl, rfl⟩
  | error cause => exact Or.inr ⟨cause, rfl, rfl⟩

/-- **A compiled program has no negation that cannot be drawn.**  No negation is left when it is
folded, so folding it once more changes nothing.  It is drawn unless an instruction lacks an
operand or operands are left at the end. -/
theorem decompile_of_compile
    {text : String} {p : Program}
    (h : compile text = .ok p) :
    .invert ∉ p.folded ∧ p.folded.folded = p.folded ∧
    ∀ width,
      (∃ drawing, decompile p width = .ok drawing) ∨
      (∃ i ∈ p.folded, ∃ available < i.takes,
        decompile p width = .error (.fault (.underflow i.mnemonic i.takes available))) ∨
      ∃ count, 0 < count ∧ decompile p width = .error (.fault (.danglingOperands count)) := by
  have hfolded : .invert ∉ p.folded := (tame_of_compile h).invert_notMem (fun h => by cases h)
  refine ⟨hfolded, Program.folded_eq_self_of_notMem hfolded, fun width => ?_⟩
  rcases decompile_of_notMem hfolded width with
    ⟨cs, drawing, -, hdrawing⟩ | ⟨cause, hcause, hstop⟩
  · exact Or.inl ⟨drawing, hdrawing⟩
  · rw [hstop]
    rcases Operands.cases_of_coils_eq_error hcause with
      ⟨i, hi, available, hfew, rfl⟩ | ⟨count, hcount, rfl⟩
    · exact Or.inr (Or.inl ⟨i, hi, available, hfew, rfl⟩)
    · exact Or.inr (Or.inr ⟨count, hcount, rfl⟩)

/-- Negations before and in a block, of the coil behind it and of one more coil: all of them are
folded.  The second coil lacks an operand. -/
theorem decompile_of_compile_negated :
    ∃ p, compile ("||--[/A]--+--[/B]--+--(/X)--(/Y)--||\n" ++
                  "||        +--[C]---+              ||") = .ok p ∧
      p.folded = [.read "/A", .read "/B", .read "C", .disj, .conj, .write "/X", .write "/Y"] ∧
      p.folded.folded = p.folded ∧
      ∀ width, decompile p width = .error (.fault (.underflow "out" 1 0)) := by
  have hp : compile ("||--[/A]--+--[/B]--+--(/X)--(/Y)--||\n" ++
                     "||        +--[C]---+              ||") =
      .ok [.read "A", .invert, .read "B", .invert, .read "C", .disj, .conj, .invert, .write "X",
        .invert, .write "Y"] := by
    cbv
  obtain ⟨hnot, hfolded, -⟩ := decompile_of_compile hp
  refine ⟨_, hp, rfl, hfolded, fun width => ?_⟩
  rcases decompile_of_notMem hnot width with ⟨cs, _, hcs, -⟩ | ⟨cause, hcause, hstop⟩
  · cases hcs
  · cases hcause
    exact hstop

end Compiled

end RelayLadder
