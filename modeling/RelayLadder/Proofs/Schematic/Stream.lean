import RelayLadder.Proofs.Drawing.Refusal
import RelayLadder.Proofs.Receiver
import RelayLadder.Proofs.Schematic.Rungs

/-!
# Streams that are refused

Coils are drawn, or the first negation that has no form is refused; nothing else can
stop a drawing.  So drawing a stream of instructions agrees with building all coils
first and drawing them afterwards, except that a coil is looked at before the
instructions behind it.

**Results.**
* `ofCoils_cases`: how drawing coils ends.
* `decompile_eq_ofCoils`: a program is drawn by drawing the coils that it completes, and
  then looking for a fault of its operands.
* `decompile_eq_batch`: drawing the stream and drawing the coils of the whole program
  agree in the schematic and in the fault.
-/

namespace RelayLadder

namespace Schematic

section Coils

variable {cs before : List Coil} {c : Coil} {width : Nat}

theorem onNewRow_blank
    (width : Nat) :
    Drawing.OnNewRow (Canvas.blank width).sheet :=
  ⟨rfl, rfl, (fresh_blank width).blank⟩

/-- Coils that are drawn leave a canvas with rows. -/
theorem finish_of_run
    {c : Canvas}
    (hrun : (cs.forM Drawing.coil).run (.blank width) = .ok () c) :
    c.finish = .ok c.schematic := by
  have hends := Drawing.ends_coils cs (onNewRow_blank width)
  cases hrefusal : cs.findSome? Coil.undrawable? with
  | none =>
      rw [hrefusal] at hends
      obtain ⟨u, s, hdoes, -, hrow⟩ := hends
      obtain ⟨c', hrun', -, rfl⟩ := hdoes _ (Canvas.uniform_blank width) rfl
      cases hrun.symm.trans hrun'
      exact Canvas.finish_of_lt hrow.row_lt
  | some kind =>
      rw [hrefusal] at hends
      obtain ⟨c', hrun'⟩ := hends _ (Canvas.uniform_blank width) rfl
      cases hrun.symm.trans hrun'

/-- Coils are drawn unless a negation is refused. -/
theorem ofCoils_cases
    (cs : List Coil) (width : Nat) :
    (cs.findSome? Coil.undrawable? = none ∧ ∃ text, ofCoils cs width = .ok text) ∨
    ∃ kind, cs.findSome? Coil.undrawable? = some kind ∧
      ofCoils cs width = .error (.fault (.undrawableNegation kind)) := by
  have hends := Drawing.ends_coils cs (onNewRow_blank width)
  cases hrefusal : cs.findSome? Coil.undrawable? with
  | none =>
      rw [hrefusal] at hends
      obtain ⟨u, s, hdoes, -⟩ := hends
      obtain ⟨canvas, hrun, -, -⟩ := hdoes _ (Canvas.uniform_blank width) rfl
      refine Or.inl ⟨rfl, canvas.schematic, ?_⟩
      rw [ofCoils, hrun]
      exact finish_of_run hrun
  | some kind =>
      rw [hrefusal] at hends
      obtain ⟨canvas, hrun⟩ := hends _ (Canvas.uniform_blank width) rfl
      refine Or.inr ⟨kind, rfl, ?_⟩
      rw [ofCoils, hrun]
      rfl

theorem exists_ofCoils_iff :
    (∃ text, ofCoils cs width = .ok text) ↔ ∀ c ∈ cs, c.undrawable? = none := by
  rw [← List.findSome?_eq_none_iff]
  rcases ofCoils_cases cs width with ⟨hnone, htext⟩ | ⟨kind, hkind, hstop⟩
  · simp only [hnone, htext]
  · simp [hkind, hstop]

theorem ofCoils_eq_error_iff
    {stop : Stop} :
    ofCoils cs width = .error stop ↔
      ∃ kind, cs.findSome? Coil.undrawable? = some kind ∧
        stop = .fault (.undrawableNegation kind) := by
  rcases ofCoils_cases cs width with ⟨hnone, text, htext⟩ | ⟨kind, hkind, hstop⟩
  · simp [hnone, htext]
  · simp [hkind, hstop, eq_comm]

/-- Of several coils, the first one that cannot be drawn alone is refused. -/
theorem ofCoils_of_first
    {stop : Stop}
    (hbefore : ∀ b ∈ before, ∃ text, ofCoils [b] width = .ok text)
    (hc : ofCoils [c] width = .error stop) (after : List Coil) :
    (∃ kind, stop = .fault (.undrawableNegation kind)) ∧
      ofCoils (before ++ c :: after) width = .error stop := by
  obtain ⟨kind, hkind, rfl⟩ := ofCoils_eq_error_iff.mp hc
  refine ⟨⟨kind, rfl⟩, ofCoils_eq_error_iff.mpr ⟨kind, ?_, rfl⟩⟩
  have hnone : before.findSome? Coil.undrawable? = none := by
    rw [List.findSome?_eq_none_iff]
    intro b hb
    exact exists_ofCoils_iff.mp (hbefore b hb) b List.mem_cons_self
  rw [List.findSome?_append, hnone, Option.none_or, List.findSome?_cons]
  rw [List.findSome?_singleton] at hkind
  rw [hkind]

end Coils

end Schematic

/-- The completed coils are drawn as such, and then a fault of the operands is reported. -/
theorem decompile_eq_ofCoils
    (p : Program) (width : Nat) :
    decompile p width = (do
      let text ← Schematic.ofCoils (Operands.completed [] p.folded) width
      let _ ← (Coil.ofProgram p).mapError Stop.fault
      return text) := by
  rw [decompile_eq, Schematic.ofCoils]
  cases hrun : ((Operands.completed [] p.folded).forM Drawing.coil).run (.blank width) with
  | error stop c => rfl
  | ok u c =>
      have hfinish : Schematic.ofResult id (EStateM.Result.ok u c) = .ok c.schematic :=
        Schematic.finish_of_run hrun
      rw [hfinish]
      cases Coil.ofProgram p with
      | error cause => rfl
      | ok cs => exact hfinish

/-- **Drawing a stream agrees with drawing the coils of the whole program.**  The schematic is
the same, and so is the fault of a coil that cannot be drawn.  A fault of the operands is
reported unless a coil that was completed before it cannot be drawn; then the first such coil
is. -/
theorem decompile_eq_batch
    (p : Program) (width : Nat) :
    (∀ text, decompile p width = .ok text ↔
      ∃ cs, Coil.ofProgram p = .ok cs ∧ Schematic.ofCoils cs width = .ok text) ∧
    (∀ cs stop, Coil.ofProgram p = .ok cs → Schematic.ofCoils cs width = .error stop →
      decompile p width = .error stop) ∧
    ∀ cause, Coil.ofProgram p = .error cause →
      ((∀ c ∈ Operands.completed [] p.folded, ∃ text, Schematic.ofCoils [c] width = .ok text) →
        decompile p width = .error (.fault cause)) ∧
      ∀ before c after stop, Operands.completed [] p.folded = before ++ c :: after →
        (∀ b ∈ before, ∃ text, Schematic.ofCoils [b] width = .ok text) →
        Schematic.ofCoils [c] width = .error stop →
        (∃ kind, stop = .fault (.undrawableNegation kind)) ∧ decompile p width = .error stop := by
  refine ⟨fun text => decompile_eq_ok_iff, ?_, ?_⟩
  · intro cs stop hcs hstop
    rw [decompile_of_ok hcs, hstop]
  · intro cause hcause
    rw [decompile_eq_ofCoils, hcause]
    constructor
    · intro hdrawn
      obtain ⟨text, htext⟩ : ∃ text,
          Schematic.ofCoils (Operands.completed [] p.folded) width = .ok text := by
        refine Schematic.exists_ofCoils_iff.mpr fun c hc => ?_
        exact Schematic.exists_ofCoils_iff.mp (hdrawn c hc) c List.mem_cons_self
      rw [htext]
      rfl
    · intro before c after stop hsplit hbefore hc
      obtain ⟨hkind, hstop⟩ := Schematic.ofCoils_of_first hbefore hc after
      rw [hsplit, hstop]
      exact ⟨hkind, rfl⟩

/-- Of a coil that cannot be drawn and the missing operand of the instruction behind it, the coil
is reported; without the coil, the operand is. -/
theorem decompile_eq_batch_refused :
    decompile [.read "A", .read "B", .disj, .invert, .invert, .write "X", .conj] 0 =
        .error (.fault (.undrawableNegation "or")) ∧
      decompile [.read "A", .read "B", .disj, .write "X", .conj] 0 =
        .error (.fault (.underflow "and" 2 0)) := by
  have hundrawable : Schematic.ofCoils [⟨"/X", .not (.or (.contact "A") (.contact "B"))⟩] 0 =
      .error (.fault (.undrawableNegation "or")) := by
    cbv
  have hdrawable : ∃ text,
      Schematic.ofCoils [⟨"X", .or (.contact "A") (.contact "B")⟩] 0 = .ok text := by
    exact ⟨_, by cbv⟩
  constructor
  · exact (((decompile_eq_batch _ 0).2.2 (.underflow "and" 2 0) rfl).2 [] _ [] _ rfl
      (fun b hb => by cases hb) hundrawable).2
  · refine ((decompile_eq_batch _ 0).2.2 (.underflow "and" 2 0) rfl).1 fun c hc => ?_
    cases List.mem_singleton.mp hc
    exact hdrawable

end RelayLadder
