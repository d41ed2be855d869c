import RelayLadder.Proofs.Machine.Postfix
import RelayLadder.Proofs.Schematic.Compiled
import RelayLadder.Proofs.Wire.Balance

/-!
# What a schematic means

The rungs of a text show wires, and the program of the text is the programs of these
wires, one after the other.

**Driven rungs.**  Where every coil has operands of its own and none are left over, the
coils of the program are the drawn coils, and they write what the power along the
wires writes.

**Rungs on their own.**  The reader accepts rungs in which an operand is missing.  The
program of such a rung takes an operand that an earlier rung left, or finds too few.

**Results.**
* `driveAll_ofProgram_compile`: the compiled program of driven rungs has the meaning of
  the drawing.
* `build_code_iff_isSelfContained`: the program of a rung finds all its operands exactly
  if the rung is self-contained.  `compile_lone_coil` is a rung that is not.
-/

namespace RelayLadder

section Wires

variable {text : String} {p : Program} {rung : Rung} {w : Wire}

/-- The program of a rung is the code of the wire that it shows. -/
theorem Rung.Draws.program_eq
    (h : rung.Draws w) :
    rung.program = .ok w.code := by
  rw [Rung.program, Rung.draws_iff.mp h]
  rfl

/-- A rung shows one wire only. -/
theorem Rung.rightUnique_draws : Relator.RightUnique Rung.Draws := by
  intro rung w w' h h'
  rw [Rung.draws_iff] at h h'
  exact Except.ok.inj (h.symm.trans h')

/-- The program of a text is the programs of the wires that its rungs show. -/
theorem exists_draws_of_compile
    (h : compile text = .ok p) :
    ∃ ws, List.Forall₂ Rung.Draws (Rung.split text) ws ∧ p = ws.flatMap Wire.code := by
  obtain ⟨qs, hqs, rfl⟩ := compile_eq_ok_iff.mp h
  clear h
  generalize Rung.split text = rungs at hqs ⊢
  induction hqs with
  | nil => exact ⟨[], .nil, rfl⟩
  | @cons rung q rungs qs hq _ ih =>
      obtain ⟨d⟩ := Rung.nonempty_reading hq
      have hdraws : rung.Draws d.wire := ⟨d, rfl⟩
      have hcode : q = d.wire.code := Except.ok.inj (hq.symm.trans hdraws.program_eq)
      obtain ⟨ws, hws, hprogram⟩ := ih
      refine ⟨d.wire :: ws, .cons hdraws hws, ?_⟩
      rw [List.flatten_cons, List.flatMap_cons, hprogram, hcode]

/-- The wires that a text shows give its program. -/
theorem compile_of_draws
    {ws : List Wire}
    (h : List.Forall₂ Rung.Draws (Rung.split text) ws) :
    compile text = .ok (ws.flatMap Wire.code) := by
  refine compile_eq_ok_iff.mpr ⟨ws.map Wire.code, ?_, List.flatMap_def⟩
  exact List.forall₂_map_right_iff.mpr (h.imp fun _ _ hdraws => hdraws.program_eq)

/-- A wire that a text shows is shown by one of its rungs. -/
theorem exists_rung_of_mem_wires
    {ws : List Wire}
    (h : List.Forall₂ Rung.Draws (Rung.split text) ws) (hw : w ∈ ws) :
    ∃ rung ∈ Rung.split text, rung.Draws w :=
  exists_of_mem_left h.flip hw

end Wires

section Meaning

variable {text : String} {p : Program}

/-- **The compiled program of driven rungs has the meaning of the drawing.**  It has one coil for
each drawn coil, in reading order, and driving these coils leaves the variables as the power along
the rungs does. -/
theorem driveAll_ofProgram_compile
    (h : compile text = .ok p)
    (hdriven : ∀ rung ∈ Rung.split text, ∀ w, rung.Draws w → w.isDriven false = true) :
    ∃ ws cs,
      List.Forall₂ Rung.Draws (Rung.split text) ws ∧
      Coil.ofProgram p = .ok cs ∧
      cs.map (fun c => Store.variable c.name) = (ws.flatMap Wire.coilNames).map Store.variable ∧
      ∀ calls σ, Coil.driveAll calls σ cs = Wire.driveAll calls σ ws := by
  obtain ⟨ws, hws, rfl⟩ := exists_draws_of_compile h
  have hwires : ∀ w ∈ ws, w.isDriven false = true := by
    intro w hw
    obtain ⟨rung, hrung, hdraws⟩ := exists_rung_of_mem_wires hws hw
    exact hdriven rung hrung w hdraws
  obtain ⟨cs, hcode, hnames, hstore⟩ := Wire.exists_coils_of_wires hwires
  refine ⟨ws, cs.map Coil.folded, hws, ?_, ?_, fun calls σ => ?_⟩
  · rw [hcode, Coil.ofProgram_flatMap_program]
  · rw [← hnames, List.map_map, List.map_map]
    exact List.map_congr_left fun c _ => Coil.variable_folded c
  · rw [Coil.driveAll_folded, hstore]

/-- A block in a branch of a block, and a rung with two coils.  The negation of the coil `Y` is
folded into the contact before it. -/
theorem driveAll_ofProgram_compile_nested :
    ∃ text p ws cs,
      text = "\n".intercalate [
        "||-+-[A]--------+-(X)-||",
        "|| +-+-[B]-+-[C]+     ||",
        "||   +[/D]-+          ||",
        "||-[X]-(/Y)-\x7bf\x7d-(Z)-||"] ∧
      ws = [
        .block [.contact "A" false .finish,
          .block [.contact "B" false .finish, .contact "D" true .finish]
            (.contact "C" false .finish)] (.coil "X" false .finish),
        .contact "X" false (.coil "Y" true (.call ["f"] (.coil "Z" false .finish)))] ∧
      cs = [
        ⟨"X", .or (.contact "A") (.and (.or (.contact "B") (.contact "/D")) (.contact "C"))⟩,
        ⟨"Y", .contact "/X"⟩,
        ⟨"Z", .call ["f"]⟩] ∧
      compile text = .ok p ∧
      (∀ rung ∈ Rung.split text, ∀ w, rung.Draws w → w.isDriven false = true) ∧
      List.Forall₂ Rung.Draws (Rung.split text) ws ∧
      Coil.ofProgram p = .ok cs ∧
      cs.map (fun c => Store.variable c.name) = ["X", "Y", "Z"] ∧
      ∀ calls σ, Coil.driveAll calls σ cs = Wire.driveAll calls σ ws := by
  obtain ⟨text, htext⟩ : ∃ text, text = "\n".intercalate [
      "||-+-[A]--------+-(X)-||",
      "|| +-+-[B]-+-[C]+     ||",
      "||   +[/D]-+          ||",
      "||-[X]-(/Y)-\x7bf\x7d-(Z)-||"] := ⟨_, rfl⟩
  have hwires : (Rung.split text).mapM Rung.wire = .ok [
      .block [.contact "A" false .finish,
        .block [.contact "B" false .finish, .contact "D" true .finish]
          (.contact "C" false .finish)] (.coil "X" false .finish),
      .contact "X" false (.coil "Y" true (.call ["f"] (.coil "Z" false .finish)))] := by
    rw [htext]
    cbv
  have hdraws := (mapM_eq_ok_iff.mp hwires).imp fun _ _ h => Rung.draws_iff.mpr h
  have hrungs : ∀ rung ∈ Rung.split text, ∀ w, rung.Draws w → w.isDriven false = true := by
    intro rung hrung w hw
    obtain ⟨w', hmem, hw'⟩ := exists_of_mem_left hdraws hrung
    rw [Rung.rightUnique_draws hw hw']
    rcases List.mem_pair.mp hmem with rfl | rfl
    · rfl
    · rfl
  obtain ⟨ws, cs, hws, hcs, hnames, hstore⟩ :=
    driveAll_ofProgram_compile (compile_of_draws hdraws) hrungs
  obtain rfl := List.right_unique_forall₂' Rung.rightUnique_draws hws hdraws
  cases hcs
  exact ⟨text, _, _, _, htext, rfl, rfl, compile_of_draws hdraws, hrungs, hdraws, rfl, hnames,
    hstore⟩

end Meaning

section Shortage

variable {text : String} {p : Program}

/-- **The program of a rung finds all its operands exactly if the rung is self-contained**: every
coil has an operand of its own and all branches are fed, up to a bare block behind the last coil.
The compiled program is the programs of the rungs in order. -/
theorem build_code_iff_isSelfContained
    (h : compile text = .ok p) :
    ∃ ws,
      List.Forall₂ (fun rung w => rung.Draws w ∧ rung.program = .ok w.code)
        (Rung.split text) ws ∧
      p = ws.flatMap Wire.code ∧
      ∀ w ∈ ws, (∃ stack cs, Operands.build [] w.code = .ok (stack, cs)) ↔
        w.isSelfContained false = true := by
  obtain ⟨ws, hws, hp⟩ := exists_draws_of_compile h
  refine ⟨ws, hws.imp fun _ _ hdraws => ⟨hdraws, hdraws.program_eq⟩, hp, fun w hw => ?_⟩
  obtain ⟨rung, -, d, rfl⟩ := exists_rung_of_mem_wires hws hw
  exact (Wire.placed_wire d).exists_build_iff

/-- The lower branch of the block has no operand, so the upper rung lacks one.  The lower rung is
self-contained. -/
theorem build_code_iff_isSelfContained_block :
    ∃ text p upper lower,
      text = "\n".intercalate [
        "||--[A]--+--[B]--+--(X)--||",
        "||       +-------+       ||",
        "||--[A]--(Y)--||"] ∧
      upper = .contact "A" false
        (.block [.contact "B" false .finish, .finish] (.coil "X" false .finish)) ∧
      lower = .contact "A" false (.coil "Y" false .finish) ∧
      compile text = .ok p ∧
      List.Forall₂ (fun rung w => rung.Draws w ∧ rung.program = .ok w.code)
        (Rung.split text) [upper, lower] ∧
      p = upper.code ++ lower.code ∧
      ¬ upper.isSelfContained false ∧
      ¬ (∃ stack cs, Operands.build [] upper.code = .ok (stack, cs)) ∧
      lower.isSelfContained false ∧
      ∃ stack cs, Operands.build [] lower.code = .ok (stack, cs) := by
  obtain ⟨text, htext⟩ : ∃ text, text = "\n".intercalate [
      "||--[A]--+--[B]--+--(X)--||",
      "||       +-------+       ||",
      "||--[A]--(Y)--||"] := ⟨_, rfl⟩
  have hwires : (Rung.split text).mapM Rung.wire = .ok [
      .contact "A" false
        (.block [.contact "B" false .finish, .finish] (.coil "X" false .finish)),
      .contact "A" false (.coil "Y" false .finish)] := by
    rw [htext]
    cbv
  have hdraws := (mapM_eq_ok_iff.mp hwires).imp fun _ _ h => Rung.draws_iff.mpr h
  obtain ⟨ws, hws, hp, hbuild⟩ := build_code_iff_isSelfContained (compile_of_draws hdraws)
  obtain rfl := List.right_unique_forall₂' Rung.rightUnique_draws (hws.imp fun _ _ h => h.1) hdraws
  refine ⟨text, _, _, _, htext, rfl, rfl, compile_of_draws hdraws, hws, ?_, ?_, ?_, rfl, ?_⟩
  · exact List.flatMap_cons
  · decide
  · rw [hbuild _ List.mem_cons_self]
    decide
  · exact (hbuild _ (List.mem_cons_of_mem _ List.mem_cons_self)).mpr rfl

/-- A coil without an operand is compiled to a lone `write`, which finds none. -/
theorem compile_lone_coil :
    ∃ rung,
      compile "||--(X)--||" = .ok [.write "X"] ∧
      Rung.split "||--(X)--||" = [rung] ∧
      rung.program = .ok [.write "X"] ∧
      ¬ ∃ stack cs, Operands.build [] [.write "X"] = .ok (stack, cs) := by
  have hcompile : compile "||--(X)--||" = .ok [.write "X"] := by
    cbv
  have hprograms : (Rung.split "||--(X)--||").mapM Rung.program = .ok [[.write "X"]] := by
    cbv
  obtain ⟨rung, rest, hrung, hrest, hsplit⟩ :=
    List.forall₂_cons_right_iff.mp (mapM_eq_ok_iff.mp hprograms)
  obtain rfl := List.forall₂_nil_right_iff.mp hrest
  refine ⟨rung, hcompile, hsplit, hrung, ?_⟩
  rintro ⟨stack, cs, hbuild⟩
  cases hbuild

end Shortage

end RelayLadder
