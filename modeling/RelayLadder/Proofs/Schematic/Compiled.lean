import RelayLadder.Proofs.Schematic.Linear

/-!
# Instructions read from a schematic

A text is read line by line, and an element ends at the first character that can
close it.  So the names and tokens of a compiled program can be drawn again, and
every `invert` in it belongs to a name.

**Results.**
* `printed_of_compile`: names and tokens of a compiled program can be enclosed.
* `trimmed_of_compile`: names of a compiled program have no blank at either end.
* `tame_of_compile`: every `invert` stands behind a `read` or before a `write`.
-/

namespace RelayLadder

open Drawing (Enclosable ContactName CoilName)

section Lines

variable {rung : Rung} {r c j e : Nat}

/-- No cell of the rung is a line feed. -/
def Rung.OneLine (rung : Rung) : Prop :=
  ∀ r c, rung.cell? r c ≠ some '\n'

theorem mem_of_content?
    {line cells : List Char} {ch : Char}
    (h : Rung.content? line = some cells) (hch : ch ∈ cells) :
    ch ∈ line := by
  unfold Rung.content? at h
  split at h
  · rename_i rest
    split at h
    · rename_i inner hrest
      cases h
      have hmem : ch ∈ rest.reverse := by
        rw [hrest]
        exact List.mem_cons_of_mem _ (List.mem_cons_of_mem _ (List.mem_reverse.mp hch))
      exact List.mem_cons_of_mem _ (List.mem_cons_of_mem _ (List.mem_reverse.mp hmem))
    · cases h
  · cases h

theorem newline_notMem_of_rowsFrom
    {lines : List (List Char)} {start : Nat} {row : Row}
    (hlines : ∀ line ∈ lines, '\n' ∉ line)
    (hrow : row ∈ Rung.rowsFrom start lines) :
    '\n' ∉ row.cells := by
  induction lines generalizing start with
  | nil => cases hrow
  | cons line lines ih =>
      have hrest := fun l hl => hlines l (List.mem_cons_of_mem line hl)
      rw [Rung.rowsFrom] at hrow
      split at hrow
      · rename_i cells hcells
        rcases List.mem_cons.mp hrow with rfl | hrow
        · intro hmem
          exact hlines line List.mem_cons_self
            ((Text.trimEnd_sublist line).mem (mem_of_content? hcells hmem))
        · exact ih hrest hrow
      · exact ih hrest hrow

theorem oneLine_of_mem_split
    {text : String}
    (h : rung ∈ Rung.split text) :
    rung.OneLine := by
  intro r c hcell
  obtain ⟨rows, hrows, rfl⟩ := List.mem_map.mp h
  obtain ⟨row, hrow, hget⟩ := Option.bind_eq_some_iff.mp hcell
  have hmem : row ∈ Rung.rowsOf text.toList := by
    rw [← List.flatten_splitBy (fun _ next : Row => !next.opensRung) (Rung.rowsOf text.toList)]
    exact List.mem_flatten.mpr ⟨rows, hrows, List.mem_of_getElem? hrow⟩
  refine newline_notMem_of_rowsFrom (fun line hline hnl => ?_) hmem (List.mem_of_getElem? hget)
  simpa using (Text.of_mem_pieces hline hnl).1

end Lines

section Elements

variable {rung : Rung} {r c j e : Nat} {opener closer : Char} {name : String} {negated : Bool}

theorem mem_inner
    {ch : Char}
    (h : ch ∈ rung.inner r c j) :
    ∃ i, c < i ∧ i < j ∧ rung.cell? r i = some ch := by
  rw [Rung.inner] at h
  cases hrow : rung.rows[r]? with
  | none =>
      rw [hrow] at h
      cases h
  | some row =>
      rw [hrow] at h
      obtain ⟨i, hi, hij, hcell⟩ := Rung.mem_between_iff.mp h
      exact ⟨i, hi, hij, by rw [Rung.cell?, hrow]; exact hcell⟩

/-- What an element encloses can be enclosed again. -/
theorem enclosable_inner
    (hrung : rung.OneLine)
    (henc : rung.Encloses opener closer r c j e) :
    Enclosable closer (rung.inner r c j) := by
  refine ⟨fun hmem => ?_, fun hmem => ?_⟩
  · obtain ⟨i, -, -, hcell⟩ := mem_inner hmem
    exact hrung r i hcell
  · obtain ⟨i, hci, hij, hcell⟩ := mem_inner hmem
    exact henc.first i hci hij hcell

theorem mem_of_labels
    {text : List Char} {ch : Char}
    (h : Rung.Labels text name negated) (hch : ch ∈ name.toList) :
    ch ∈ text := by
  cases h with
  | plain htrim _ _ =>
      rw [← htrim] at hch
      exact (Text.trim_sublist text).mem hch
  | negated htrim hrest _ =>
      rw [← hrest] at hch
      have hmem := List.mem_cons_of_mem '/' ((Text.trim_sublist _).mem hch)
      rw [← htrim] at hmem
      exact (Text.trim_sublist text).mem hmem

theorem enclosable_of_labels
    {text : List Char}
    (htext : Enclosable closer text) (h : Rung.Labels text name negated) :
    Enclosable closer name.toList :=
  ⟨fun hmem => htext.1 (mem_of_labels h hmem), fun hmem => htext.2 (mem_of_labels h hmem)⟩

theorem trimmed_of_labels
    {text : List Char}
    (h : Rung.Labels text name negated) :
    Text.Trimmed name.toList := by
  cases h with
  | plain htrim hne _ =>
      rw [← htrim]
      exact Text.trimmed_trim (by rwa [htrim, ne_eq, String.toList_eq_nil_iff])
  | negated _ hrest hne =>
      rw [← hrest]
      exact Text.trimmed_trim (by rwa [hrest, ne_eq, String.toList_eq_nil_iff])

theorem legibleCall_of_spells
    {text : List Char} {tokens : List String}
    (htext : Enclosable '\x7d' text) (h : Rung.Spells text tokens) :
    LegibleCall tokens := by
  refine ⟨h.2, fun token htoken => ?_⟩
  have hmem : token.toList ∈ Text.words text := by
    rw [h.1]
    exact List.mem_map_of_mem htoken
  obtain ⟨hpiece, hne⟩ := List.mem_filter.mp hmem
  refine ⟨?_, fun ch hch => (Text.of_mem_pieces hpiece hch).1, fun hch => ?_⟩
  · rintro rfl
    simp at hne
  · exact htext.2 (Text.of_mem_pieces hpiece hch).2

end Elements

section Programs

variable {rung : Rung} {scope : Wire.Scope} {r c e : Nat}

/-- The names and tokens of the instruction can be drawn. -/
def Instruction.Printed : Instruction → Prop
  | read name => ContactName name
  | write name => CoilName name
  | call tokens => LegibleCall tokens
  | _ => True

/-- The names of the instruction are trimmed. -/
def Instruction.Trimmed : Instruction → Prop
  | read name => Text.Trimmed name.toList
  | write name => Text.Trimmed name.toList
  | _ => True

/-- Every instruction that an element of the rung, or the joining of elements, can stand for
satisfies `Q`. -/
structure Rung.Admits (rung : Rung) (Q : Instruction → Prop) : Prop where
  invert : Q .invert
  conj : Q .conj
  disj : Q .disj
  contact : ∀ {r c j e name negated}, rung.Encloses '[' ']' r c j e →
    Rung.Labels (rung.inner r c j) name negated → Q (.read name)
  call : ∀ {r c j e tokens}, rung.Encloses '\x7b' '\x7d' r c j e →
    Rung.Spells (rung.inner r c j) tokens → Q (.call tokens)
  coil : ∀ {r c j e name negated}, rung.Encloses '(' ')' r c j e →
    Rung.Labels (rung.inner r c j) name negated → Q (.write name)

theorem of_mem_ite
    {Q : Instruction → Prop} {op : Instruction} {b : Bool} {i : Instruction}
    (h : i ∈ if b then [op] else []) (hop : Q op) :
    Q i := by
  cases b with
  | false => cases h
  | true =>
      rw [List.mem_singleton.mp h]
      exact hop

/-- A program chained from programs has only their instructions and the operator. -/
theorem forall_mem_chain
    {Q : Instruction → Prop} {op : Instruction} {ps : List Program}
    (hop : Q op) (h : ∀ p ∈ ps, ∀ i ∈ p, Q i) :
    ∀ i ∈ Program.chain op ps, Q i := by
  cases ps with
  | nil =>
      intro i hi
      cases hi
  | cons p ps =>
      intro i hi
      rcases List.mem_append.mp hi with hi | hi
      · exact h p List.mem_cons_self i hi
      · obtain ⟨q, hq, hi⟩ := List.mem_flatMap.mp hi
        rcases List.mem_append.mp hi with hi | hi
        · exact h q (List.mem_cons_of_mem p hq) i hi
        · rw [List.mem_singleton.mp hi]
          exact hop

/-- What a derivation reads is what its rung admits. -/
theorem Rung.Derivation.forall_mem_codeFrom
    {Q : Instruction → Prop}
    (hQ : rung.Admits Q) (d : Rung.Derivation rung scope r c e) (joined : Bool) :
    ∀ i ∈ d.codeFrom joined, Q i := by
  induction d generalizing joined with
  | finish _ =>
      intro i hi
      cases hi
  | dash _ _ rest ih => exact ih joined
  | contact j name negated henc hlabel rest ih =>
      intro i hi
      simp only [Rung.Derivation.codeFrom, List.mem_append, List.mem_singleton] at hi
      rcases hi with ((rfl | hi) | hi) | hi
      · exact hQ.contact henc hlabel
      · exact of_mem_ite hi hQ.invert
      · exact of_mem_ite hi hQ.conj
      · exact ih true i hi
  | call j tokens henc hspell rest ih =>
      intro i hi
      simp only [Rung.Derivation.codeFrom, List.mem_append, List.mem_singleton] at hi
      rcases hi with (rfl | hi) | hi
      · exact hQ.call henc hspell
      · exact of_mem_ite hi hQ.conj
      · exact ih true i hi
  | coil j name negated henc hlabel rest ih =>
      intro i hi
      simp only [Rung.Derivation.codeFrom, List.mem_append, List.mem_singleton] at hi
      rcases hi with (hi | rfl) | hi
      · exact of_mem_ite hi hQ.invert
      · exact hQ.coil henc hlabel
      · exact ih false i hi
  | block js x _ _ _ branches rest ihs ih =>
      intro i hi
      simp only [Rung.Derivation.codeFrom, List.mem_append] at hi
      rcases hi with (hi | hi) | hi
      · refine forall_mem_chain hQ.disj (fun p hp => ?_) i hi
        obtain ⟨j, -, rfl⟩ := List.mem_map.mp hp
        exact ihs j.1 j.2 false
      · exact of_mem_ite hi hQ.conj
      · exact ih true i hi

theorem admits_printed
    (hrung : rung.OneLine) :
    rung.Admits Instruction.Printed where
  invert := trivial
  conj := trivial
  disj := trivial
  contact henc hlabel := enclosable_of_labels (enclosable_inner hrung henc) hlabel
  call henc hspell := legibleCall_of_spells (enclosable_inner hrung henc) hspell
  coil henc hlabel := enclosable_of_labels (enclosable_inner hrung henc) hlabel

theorem admits_trimmed
    (rung : Rung) :
    rung.Admits Instruction.Trimmed where
  invert := trivial
  conj := trivial
  disj := trivial
  contact _ hlabel := trimmed_of_labels hlabel
  call _ _ := trivial
  coil _ hlabel := trimmed_of_labels hlabel

theorem tame_chain
    {op : Instruction} {ps : List Program}
    (hop : op ≠ .invert) (h : ∀ p ∈ ps, Folding.Tame p) :
    Folding.Tame (Program.chain op ps) := by
  cases ps with
  | nil => exact .nil
  | cons p ps =>
      refine (h p List.mem_cons_self).append ?_
      have hps := fun q hq => h q (List.mem_cons_of_mem p hq)
      clear h
      induction ps with
      | nil => exact .nil
      | cons q ps ih =>
          rw [List.flatMap_cons]
          refine ((hps q List.mem_cons_self).append (.cons hop .nil)).append ?_
          exact ih fun q' hq' => hps q' (List.mem_cons_of_mem q hq')

theorem tame_join
    (joined : Bool) {p : Program} (hp : Folding.Tame p) :
    Folding.Tame ((if joined then [.conj] else []) ++ p) := by
  cases joined with
  | false => exact hp
  | true => exact .cons (by simp) hp

/-- In what a derivation reads, every `invert` belongs to a name. -/
theorem Rung.Derivation.tame
    (d : Rung.Derivation rung scope r c e) (joined : Bool) :
    Folding.Tame (d.codeFrom joined) := by
  induction d generalizing joined with
  | finish _ => exact .nil
  | dash _ _ rest ih => exact ih joined
  | contact j name negated _ _ rest ih =>
      have hrest := tame_join joined (ih true)
      cases negated with
      | false => exact .cons (by simp) hrest
      | true => exact .read hrest
  | call j tokens _ _ rest ih => exact .cons (by simp) (tame_join joined (ih true))
  | coil j name negated _ _ rest ih =>
      cases negated with
      | false => exact .cons (by simp) (ih false)
      | true => exact .write (ih false)
  | block js x _ _ _ branches rest ihs ih =>
      simp only [Rung.Derivation.codeFrom, List.append_assoc]
      refine (tame_chain (by simp) fun p hp => ?_).append (tame_join joined (ih true))
      obtain ⟨j, -, rfl⟩ := List.mem_map.mp hp
      exact ihs j.1 j.2 false

/-- A text is compiled rung by rung. -/
theorem compile_eq_ok_iff
    {text : String} {q : Program} :
    compile text = .ok q ↔
      ∃ qs, List.Forall₂ (fun rung q => Rung.program rung = .ok q) (Rung.split text) qs ∧
        q = qs.flatten := by
  simp only [← mapM_eq_ok_iff]
  rw [compile, Program.ofRungs]
  constructor
  · intro h
    obtain ⟨qs, hqs, h⟩ := bind_eq_ok h
    cases h
    exact ⟨qs, hqs, rfl⟩
  · rintro ⟨qs, hqs, rfl⟩
    rw [hqs]
    rfl

/-- The parts of a compiled program are read from its rungs. -/
theorem exists_readings_of_compile
    {text : String} {p : Program}
    (h : compile text = .ok p) :
    ∃ ps : List Program, p = ps.flatten ∧
      ∀ q ∈ ps, ∃ rung ∈ Rung.split text, ∃ d : rung.Reading, q = d.code := by
  obtain ⟨ps, hps, rfl⟩ := compile_eq_ok_iff.mp h
  have hprograms : List.Forall₂ (fun q rung => Rung.program rung = .ok q) ps (Rung.split text) :=
    hps.flip
  refine ⟨ps, rfl, fun q hq => ?_⟩
  obtain ⟨rung, hrung, hprogram⟩ := exists_of_mem_left hprograms hq
  obtain ⟨d⟩ := Rung.nonempty_reading hprogram
  refine ⟨rung, hrung, d, ?_⟩
  rw [Rung.program_eq_code d] at hprogram
  exact (Except.ok.inj hprogram).symm

/-- What the rungs of a text admit holds of its program. -/
theorem forall_mem_of_compile
    {Q : Instruction → Prop} {text : String} {p : Program}
    (hQ : ∀ rung ∈ Rung.split text, rung.Admits Q) (h : compile text = .ok p) :
    ∀ i ∈ p, Q i := by
  obtain ⟨ps, rfl, hps⟩ := exists_readings_of_compile h
  intro i hi
  obtain ⟨q, hq, hi⟩ := List.mem_flatten.mp hi
  obtain ⟨rung, hrung, d, rfl⟩ := hps q hq
  exact d.forall_mem_codeFrom (hQ rung hrung) false i hi

/-- The names and tokens of a compiled program can be drawn. -/
theorem printed_of_compile
    {text : String} {p : Program}
    (h : compile text = .ok p) :
    ∀ i ∈ p, i.Printed :=
  forall_mem_of_compile (fun _ hrung => admits_printed (oneLine_of_mem_split hrung)) h

/-- The names of a compiled program are trimmed. -/
theorem trimmed_of_compile
    {text : String} {p : Program}
    (h : compile text = .ok p) :
    ∀ i ∈ p, i.Trimmed :=
  forall_mem_of_compile (fun rung _ => admits_trimmed rung) h

/-- In a compiled program every `invert` belongs to a name. -/
theorem tame_of_compile
    {text : String} {p : Program}
    (h : compile text = .ok p) :
    Folding.Tame p := by
  obtain ⟨ps, rfl, hps⟩ := exists_readings_of_compile h
  clear h
  induction ps with
  | nil => exact .nil
  | cons q ps ih =>
      obtain ⟨rung, -, d, rfl⟩ := hps q List.mem_cons_self
      rw [List.flatten_cons]
      exact (d.tame false).append (ih fun q hq => hps q (List.mem_cons_of_mem _ hq))

end Programs

end RelayLadder
