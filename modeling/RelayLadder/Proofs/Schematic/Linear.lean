import RelayLadder.Proofs.Negation
import RelayLadder.Proofs.Schematic.Rungs

/-!
# The programs of drawn coils

**Linear programs.**  The terms of a series, nested in whatever way, follow each
other from left to right, with `conj` after every term but the first.  A
disjunction is the program of its left side, that of its right side, and `disj`.
A name is written by a label: the plain name, and whether it is negated.

**Results.**
* `Coil.exists_wire`: the rung of a coil is read as a wire with the linear program of
  the coil, if its names are not empty.
* `exists_split_ofCoils`: legible coils are drawn, and compiling the drawing rung by
  rung gives their linear programs back.
-/

namespace RelayLadder

open Wire (inversion join nameOf isNameless isWordless)

namespace Program

section Chains

/-- The programs of the terms of a series, which an operand stands before if `joined`. -/
def conjFrom (joined : Bool) (terms : List Program) : Program :=
  if joined then terms.flatMap (· ++ [.conj]) else chain .conj terms

theorem chain_append
    (op : Instruction) {ps : List Program} (hps : ps ≠ []) (qs : List Program) :
    chain op (ps ++ qs) = chain op ps ++ qs.flatMap (· ++ [op]) := by
  cases ps with
  | nil => exact absurd rfl hps
  | cons p ps => simp [chain]

theorem conjFrom_append
    (joined : Bool) {ps : List Program} (hps : ps ≠ []) (qs : List Program) :
    conjFrom joined (ps ++ qs) = conjFrom joined ps ++ conjFrom true qs := by
  cases joined with
  | false => exact chain_append .conj hps qs
  | true => simp [conjFrom]

theorem conjFrom_singleton
    (joined : Bool) (p : Program) :
    conjFrom joined [p] = p ++ join joined := by
  cases joined with
  | false => simp [conjFrom, chain, join]
  | true => simp [conjFrom, join]

end Chains

end Program

open Program (chain conjFrom conjFrom_append conjFrom_singleton)

section Labels

/-- The plain name, and whether a negation mark stands before it. -/
def unmark (name : String) : String × Bool :=
  match name.toList with
  | '/' :: plain => (String.ofList plain, true)
  | _ => (name, false)

theorem unmark_cases
    (name : String) :
    (∃ plain, name.toList = '/' :: plain ∧ unmark name = (String.ofList plain, true)) ∨
    ((∀ plain, name.toList ≠ '/' :: plain) ∧ unmark name = (name, false)) := by
  rw [unmark]
  split
  · rename_i plain hname
    exact Or.inl ⟨plain, hname, rfl⟩
  · rename_i hname
    exact Or.inr ⟨hname, rfl⟩

/-- The label under which a name is read from a drawing. -/
def drawnLabel (name : String) : String × Bool :=
  nameOf name.toList

/-- The program of a contact. -/
def contactCode (label : String × Bool) : Program :=
  .read label.1 :: inversion label.2

/-- The program of a coil, behind its value. -/
def coilCode (label : String × Bool) : Program :=
  inversion label.2 ++ [.write label.1]

end Labels

namespace Expr

section Defs

variable (label : String → String × Bool)

/-- The programs of the terms of an expression as a series. -/
def factors : Expr → List Program
  | contact name => [contactCode (label name)]
  | call tokens => [[.call tokens]]
  | not (contact name) => [contactCode (label (toggle name))]
  | not _ => [[]]
  | and left right => left.factors ++ right.factors
  | or left right =>
    [chain .conj left.factors ++ chain .conj right.factors ++ [.disj]]

/-- The linear program of an expression. -/
def linear (e : Expr) : Program :=
  chain .conj (e.factors label)

/-- The terms of each branch of an expression. -/
def branchFactors : Expr → List (List Program)
  | or left right => left.branchFactors ++ [right.factors label]
  | e => [e.factors label]

end Defs

section Factors

variable {label label' : String → String × Bool}

theorem factors_ne_nil
    (e : Expr) :
    e.factors label ≠ [] := by
  induction e with
  | contact name => simp [factors]
  | call tokens => simp [factors]
  | not operand _ => cases operand <;> simp [factors]
  | and left right ihl _ => simp [factors, ihl]
  | or left right _ _ => simp [factors]

theorem branchFactors_ne_nil
    (e : Expr) :
    e.branchFactors label ≠ [] := by
  cases e with
  | or left right => simp [branchFactors]
  | contact _ => simp [branchFactors]
  | call _ => simp [branchFactors]
  | not _ => simp [branchFactors]
  | and _ _ => simp [branchFactors]

/-- The branches of an expression, joined by `disj`, are its linear program. -/
theorem chain_branchFactors
    (e : Expr) :
    chain .disj ((e.branchFactors label).map (chain .conj)) = e.linear label := by
  induction e with
  | or left right ihl _ =>
      have hne : (left.branchFactors label).map (chain .conj) ≠ [] := by
        simpa using left.branchFactors_ne_nil
      rw [branchFactors, List.map_append, Program.chain_append .disj hne, ihl]
      simp [linear, factors, chain]
  | contact _ => simp [branchFactors, linear, chain]
  | call _ => simp [branchFactors, linear, chain]
  | not _ _ => simp [branchFactors, linear, chain]
  | and _ _ _ _ => simp [branchFactors, linear, chain]

theorem factors_congr
    {p : String → Prop} {q : List String → Prop}
    (hp : ∀ name, p name → label name = label' name) :
    ∀ {e : Expr}, e.Bears p q → e.factors label = e.factors label'
  | contact name, h => by rw [factors, factors, hp name h]
  | call _, _ => rfl
  | not (contact name), h => by rw [factors, factors, hp (toggle name) h]
  | and _ _, h => by rw [factors, factors, factors_congr hp h.1, factors_congr hp h.2]
  | or _ _, h => by rw [factors, factors, factors_congr hp h.1, factors_congr hp h.2]

end Factors

end Expr

namespace Coil

/-- The linear program of a coil. -/
def linear (label : String → String × Bool) (c : Coil) : Program :=
  c.value.linear label ++ coilCode (label c.name)

end Coil

namespace Figure

section Codes

variable {fig : Figure} {figs : List Figure} {fss : List (List Program)}

/-- The figure is read, and the wire has the programs of a series before those of the rest. -/
def Codes (fig : Figure) (terms : List Program) : Prop :=
  ∀ rest, ∃ w, fig.onto rest = some w ∧
    ∀ joined, w.codeFrom joined = conjFrom joined terms ++ rest.codeFrom true

/-- A name that can be read from a drawing. -/
def Named (name : String) : Prop :=
  isNameless name.toList = false

/-- Tokens that can be read from a drawing. -/
def Worded (tokens : List String) : Prop :=
  tokens ≠ [] ∧ Text.words (" ".intercalate tokens).toList = tokens.map String.toList

theorem codes_contact
    {name : String}
    (h : Named name) :
    Codes (contact name) [contactCode (drawnLabel name)] := by
  intro rest
  refine ⟨.contact (drawnLabel name).1 (drawnLabel name).2 rest, ?_, ?_⟩
  · change (if isNameless name.toList then none else _) = _
    rw [h]
    rfl
  · intro joined
    simp [Wire.codeFrom, conjFrom_singleton, contactCode]

theorem codes_call
    {tokens : List String}
    (h : Worded tokens) :
    Codes (call tokens) [[.call tokens]] := by
  intro rest
  have hwords : isWordless (" ".intercalate tokens).toList = false := by
    rw [isWordless, h.2]
    simpa using h.1
  refine ⟨.call tokens rest, ?_, ?_⟩
  · change (if isWordless (" ".intercalate tokens).toList then none else _) = _
    rw [hwords, h.2]
    simp [Function.comp_def]
  · intro joined
    simp [Wire.codeFrom, conjFrom_singleton]

theorem Codes.series
    {left right : Figure} {ps qs : List Program}
    (hleft : Codes left ps) (hright : Codes right qs) (hps : ps ≠ []) :
    Codes (left.series right) (ps ++ qs) := by
  intro rest
  obtain ⟨w, hw, hcode⟩ := hright rest
  obtain ⟨w', hw', hcode'⟩ := hleft w
  refine ⟨w', ?_, fun joined => ?_⟩
  · change (right.onto rest).bind left.onto = some w'
    rw [hw]
    exact hw'
  · rw [hcode', hcode, conjFrom_append joined hps, List.append_assoc]

theorem branchWires_of_codes
    (h : List.Forall₂ Codes figs fss) :
    ∃ ws, branchWires figs = some ws ∧
      ws.map (Wire.codeFrom false) = fss.map (chain .conj) := by
  induction h with
  | nil => exact ⟨[], rfl, rfl⟩
  | cons hfig _ ih =>
      obtain ⟨ws, hws, hcodes⟩ := ih
      obtain ⟨w, hw, hcode⟩ := hfig .finish
      refine ⟨w :: ws, ?_, ?_⟩
      · rw [branchWires, List.mapM_cons, hw, ← branchWires, hws]
        rfl
      · rw [List.map_cons, List.map_cons, hcodes, hcode false]
        simp [conjFrom, Wire.codeFrom]

theorem codes_block
    {top : Figure} {below : List Figure}
    (h : List.Forall₂ Codes (top :: below) fss) :
    Codes (top.block below) [chain .disj (fss.map (chain .conj))] := by
  intro rest
  obtain ⟨ws, hws, hcodes⟩ := branchWires_of_codes h
  refine ⟨.block ws rest, ?_, fun joined => ?_⟩
  · change (branchWires (top :: below)).map (fun ws => Wire.block ws rest) = _
    rw [hws]
    rfl
  · rw [Wire.codeFrom, Rung.blockCode_eq_chain, hcodes, conjFrom_singleton]

end Codes

end Figure

namespace Expr

section Codes

open Figure (Codes Named Worded)

variable {e : Expr}

theorem join_append_singleton
    (top : Figure) (below : List Figure) (last : Figure) :
    Figure.join (top :: (below ++ [last])) = top.block (below ++ [last]) := by
  cases below with
  | nil => rfl
  | cons next below => rfl

/-- An expression is read from its figure, and its branches are from theirs. -/
theorem codes_figures
    (h : e.Bears Named Worded) :
    List.Forall₂ Codes e.figures (e.branchFactors drawnLabel) ∧
      Codes e.figure (e.factors drawnLabel) := by
  induction e with
  | contact name =>
      have hcodes := Figure.codes_contact h
      exact ⟨.cons hcodes .nil, hcodes⟩
  | call tokens =>
      have hcodes := Figure.codes_call h
      exact ⟨.cons hcodes .nil, hcodes⟩
  | not operand _ =>
      cases operand with
      | contact name =>
          have hcodes : Codes (.contact (toggle name)) _ := Figure.codes_contact h
          exact ⟨.cons hcodes .nil, hcodes⟩
      | call _ => exact absurd h id
      | not _ => exact absurd h id
      | and _ _ => exact absurd h id
      | or _ _ => exact absurd h id
  | and left right ihl ihr =>
      have hcodes := (ihl h.1).2.series (ihr h.2).2 left.factors_ne_nil
      exact ⟨.cons hcodes .nil, hcodes⟩
  | or left right ihl ihr =>
      have hall := List.rel_append (ihl h.1).1 (.cons (ihr h.2).2 .nil)
      refine ⟨hall, ?_⟩
      have hfactors : (or left right).factors drawnLabel =
          [chain .disj (((or left right).branchFactors drawnLabel).map (chain .conj))] := by
        rw [chain_branchFactors, linear, factors]
        simp [chain]
      rw [hfactors, figure, figures]
      cases hfigs : left.figures with
      | nil =>
          have hleft := (ihl h.1).1
          rw [hfigs] at hleft
          exact absurd (List.forall₂_nil_left_iff.mp hleft) left.branchFactors_ne_nil
      | cons top below =>
          rw [hfigs] at hall
          rw [List.cons_append, join_append_singleton]
          exact Figure.codes_block hall

end Codes

end Expr

namespace Coil

section Codes

/-- The rung of a coil with names in it is read as a wire with its linear program. -/
theorem exists_wire
    {c : Coil}
    (hname : Figure.Named c.name) (hvalue : c.value.Bears Figure.Named Figure.Worded) :
    ∃ w, c.wire? = some w ∧ w.code = c.linear drawnLabel := by
  have hcoil : Figure.labelled .coil c.name.toList .finish =
      some (.coil (drawnLabel c.name).1 (drawnLabel c.name).2 .finish) := by
    change (if isNameless c.name.toList then none else _) = _
    rw [hname]
    rfl
  obtain ⟨w, hw, hcode⟩ := (Expr.codes_figures hvalue).2
    (.coil (drawnLabel c.name).1 (drawnLabel c.name).2 .finish)
  refine ⟨w, ?_, ?_⟩
  · rw [wire?, hcoil]
    exact hw
  · rw [Wire.code, hcode false]
    simp [linear, Expr.linear, coilCode, conjFrom, Wire.codeFrom]

/-- A rung that is read like that of a coil is compiled to the linear program of the coil. -/
theorem program_of_wire?
    {c : Coil} {rung : Rung}
    (hrung : rung.wire.toOption = c.wire?)
    (hname : Figure.Named c.name) (hvalue : c.value.Bears Figure.Named Figure.Worded) :
    rung.program = .ok (c.linear drawnLabel) := by
  obtain ⟨w, hw, hcode⟩ := exists_wire hname hvalue
  rw [Rung.program, toOption_eq_some_iff.mp (hrung.trans hw), ← hcode]
  rfl

end Codes

end Coil

section Legible

/-- A name that is not empty and has no blank at either end, also behind a negation mark. -/
structure TrimmedName (name : String) : Prop where
  trimmed : Text.Trimmed name.toList
  trimmed_plain : ∀ plain, name.toList = '/' :: plain → Text.Trimmed plain

/-- A name that can be read back: it is trimmed and can be enclosed. -/
structure LegibleName (closer : Char) (name : String) : Prop extends TrimmedName name where
  enclosable : Drawing.Enclosable closer name.toList

/-- Tokens that can be read back: there is one, and each is a word that can be enclosed. -/
structure LegibleCall (tokens : List String) : Prop where
  ne_nil : tokens ≠ []
  word : ∀ token ∈ tokens, token ≠ "" ∧
    (∀ ch ∈ token.toList, Text.isBlank ch = false) ∧ '\x7d' ∉ token.toList

/-- A coil all of whose names, as they are drawn, and calls can be read back.  Negations stand on
contacts only. -/
structure Coil.Legible (c : Coil) : Prop where
  name : LegibleName ')' c.name
  value : c.value.Bears (LegibleName ']') LegibleCall

instance : DecidablePred TrimmedName := fun name =>
  decidable_of_iff
    (Text.Trimmed name.toList ∧ (name.toList.head? = some '/' → Text.Trimmed name.toList.tail))
    ⟨fun h => ⟨h.1, fun plain hname => by simpa [hname] using h.2⟩,
      fun h => ⟨h.trimmed, fun hmark => by
        obtain ⟨plain, hname⟩ := List.head?_eq_some_iff.mp hmark
        rw [hname]
        exact h.trimmed_plain plain hname⟩⟩

instance (closer : Char) : DecidablePred (LegibleName closer) := fun name =>
  decidable_of_iff (TrimmedName name ∧ '\n' ∉ name.toList ∧ closer ∉ name.toList)
    ⟨fun h => ⟨h.1, h.2⟩, fun h => ⟨h.toTrimmedName, h.enclosable⟩⟩

instance : DecidablePred LegibleCall := fun tokens =>
  decidable_of_iff
    (tokens ≠ [] ∧ ∀ token ∈ tokens, token ≠ "" ∧
      token.toList.any Text.isBlank = false ∧ '\x7d' ∉ token.toList)
    ⟨fun h => ⟨h.1, by simpa using h.2⟩, fun h => ⟨h.ne_nil, by simpa using h.word⟩⟩

instance : DecidablePred Coil.Legible := fun c =>
  decidable_of_iff (LegibleName ')' c.name ∧ c.value.Bears (LegibleName ']') LegibleCall)
    ⟨fun h => ⟨h.1, h.2⟩, fun h => ⟨h.name, h.value⟩⟩

variable {name : String} {tokens : List String}

/-- The label of a trimmed name is read as it is written. -/
theorem TrimmedName.drawnLabel_eq
    (h : TrimmedName name) :
    drawnLabel name = unmark name := by
  rw [drawnLabel, nameOf, h.trimmed.trim_eq]
  rcases unmark_cases name with ⟨plain, hname, hlabel⟩ | ⟨hplain, hlabel⟩
  · simp only [hname, hlabel, (h.trimmed_plain plain hname).trim_eq]
  · rw [hlabel]
    split
    · rename_i plain hname
      exact absurd hname (hplain plain)
    · rw [String.ofList_toList]

theorem TrimmedName.named
    (h : TrimmedName name) :
    Figure.Named name := by
  have hne : (drawnLabel name).1 ≠ "" := by
    rw [h.drawnLabel_eq]
    rcases unmark_cases name with ⟨plain, hname, hlabel⟩ | ⟨-, hlabel⟩
    · rw [hlabel, Ne, String.ofList_eq_empty_iff]
      exact (h.trimmed_plain plain hname).ne_nil
    · rw [hlabel]
      rintro rfl
      exact h.trimmed.ne_nil rfl
  rw [Figure.Named, isNameless, ← Bool.not_eq_true, String.isEmpty_iff]
  exact hne

theorem LegibleCall.worded
    (h : LegibleCall tokens) :
    Figure.Worded tokens := by
  have hne : tokens.map String.toList ≠ [] := by simpa using h.ne_nil
  have hpieces : Text.pieces Text.isBlank (" ".intercalate tokens).toList =
      tokens.map String.toList := by
    rw [String.toList_intercalate]
    refine Text.pieces_intercalate hne rfl fun part hpart => ?_
    obtain ⟨token, htoken, rfl⟩ := List.mem_map.mp hpart
    exact (h.word token htoken).2.1
  refine ⟨h.ne_nil, ?_⟩
  rw [Text.words, hpieces, List.filter_eq_self]
  intro part hpart
  obtain ⟨token, htoken, rfl⟩ := List.mem_map.mp hpart
  simpa using (h.word token htoken).1

theorem LegibleCall.callTokens
    (h : LegibleCall tokens) :
    Drawing.CallTokens tokens := by
  refine ⟨fun hmem => ?_, fun hmem => ?_⟩
  · rcases Text.mem_toList_intercalate hmem with heq | ⟨token, htoken, hch⟩
    · exact absurd heq (by decide)
    · exact absurd ((h.word token htoken).2.1 _ hch) (by decide)
  · rcases Text.mem_toList_intercalate hmem with heq | ⟨token, htoken, hch⟩
    · exact absurd heq (by decide)
    · exact (h.word token htoken).2.2 hch

theorem Coil.Legible.drawable
    {c : Coil}
    (h : c.Legible) :
    c.Drawable :=
  ⟨h.name.enclosable, h.value.imp (fun _ hname => hname.enclosable) fun _ hcall => hcall.callTokens⟩

/-- A rung that is read like that of a legible coil is compiled to its linear program. -/
theorem Coil.Legible.program_of_wire?
    {c : Coil} {rung : Rung}
    (h : c.Legible) (hrung : rung.wire.toOption = c.wire?) :
    rung.program = .ok (c.linear unmark) := by
  have hprogram := Coil.program_of_wire? hrung h.name.named
    (h.value.imp (fun _ hname => hname.named) fun _ hcall => hcall.worded)
  rw [hprogram, Coil.linear, Coil.linear, Expr.linear, Expr.linear, h.name.drawnLabel_eq,
    Expr.factors_congr (fun _ hname => hname.drawnLabel_eq) h.value]

end Legible

namespace Schematic

/-- **Legible coils are drawn, and the drawing is compiled back to them.**  The drawing splits
into a rung without a program and one rung for each coil, in order, and each of these is compiled
to the linear program of its coil. -/
theorem exists_split_ofCoils
    (cs : List Coil) (width : Nat)
    (h : ∀ c ∈ cs, c.Legible) :
    ∃ text head rungs,
      ofCoils cs width = .ok text ∧
      Rung.split text = head :: rungs ∧
      head.program = .ok [] ∧
      rungs.map Rung.program = cs.map fun c => .ok (c.linear unmark) := by
  obtain ⟨text, head, rungs, htext, hsplit, hhead, hwires⟩ :=
    exists_schematic (fun c hc => (h c hc).drawable) width
  refine ⟨text, head, rungs, htext, hsplit, hhead, ?_⟩
  clear htext hsplit
  induction cs generalizing rungs with
  | nil =>
      rw [List.map_eq_nil_iff.mp hwires]
      rfl
  | cons c cs ih =>
      obtain ⟨rung, rungs, rfl, hrung, hrungs⟩ := List.map_eq_cons_iff.mp hwires
      rw [List.map_cons, List.map_cons, (h c List.mem_cons_self).program_of_wire? hrung,
        ih (fun c' hc' => h c' (List.mem_cons_of_mem c hc')) rungs hrungs]

/-- A negated coil over a series with a block in it, and names that look like rails. -/
theorem exists_split_ofCoils_nested :
    (∀ c ∈ [Coil.mk "/X" (.and (.contact "A+|") (.or (.not (.contact "B")) (.call ["f", "-"]))),
        Coil.mk "Y" (.contact "/C")], c.Legible) ∧
    ∃ text head rungs,
      ofCoils [Coil.mk "/X" (.and (.contact "A+|") (.or (.not (.contact "B")) (.call ["f", "-"]))),
        Coil.mk "Y" (.contact "/C")] 3 = .ok text ∧
      Rung.split text = head :: rungs ∧
      head.program = .ok [] ∧
      rungs.map Rung.program =
        [.ok [.read "A+|", .read "B", .invert, .call ["f", "-"], .disj, .conj, .invert, .write "X"],
          .ok [.read "C", .invert, .write "Y"]] :=
  ⟨by decide, exists_split_ofCoils _ 3 (by decide)⟩

end Schematic

end RelayLadder
