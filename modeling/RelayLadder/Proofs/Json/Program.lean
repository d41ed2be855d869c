import RelayLadder.Instruction.Json
import RelayLadder.Proofs.Except
import RelayLadder.Proofs.Json.ReadBack

/-!
# The written form of programs

A program is written as an array of arrays of strings, in the compact or in the pretty
layout.

**Reserved calls.**  A call is written as its tokens.  If these are the written parts of
another instruction, such as `in X`, it is read as that instruction; a call without
tokens is not read at all.  `Plain` says that neither is the case.

**Results.**
* `Instruction.ofTokens?_eq_some_iff`, `Program.ofJson_eq_ok_iff`: which tokens are read as a
  given instruction, and which JSON values as a given program.
* `Program.ofJsonText_write`: a text is read like the value that was written.
* `Program.ofJsonText_toJson`: what is read from the printed form of a program.
* `Program.reads_back_iff`: which values and texts are read as a given program.
-/

namespace RelayLadder

namespace Instruction

section Tokens

variable {i : Instruction} {tokens : List String}

/-- Whether tokens are the written parts of an instruction other than a call. -/
def isReserved : List String → Bool
  | ["in", _] => true
  | ["out", _] => true
  | ["not"] => true
  | ["and"] => true
  | ["or"] => true
  | _ => false

/-- The instruction is not a call that lacks tokens or is written like another instruction. -/
def Plain (i : Instruction) : Prop :=
  ∀ tokens, i = .call tokens → tokens ≠ [] ∧ isReserved tokens = false

/-- The instruction that the written parts of an instruction are read as. -/
def reread (i : Instruction) : Instruction :=
  (ofTokens? i.tokens).getD i

theorem ofTokens?_tokens
    (h : i.tokens ≠ []) :
    ofTokens? i.tokens = some i.reread := by
  have hsome : ofTokens? i.tokens ≠ none := by
    unfold ofTokens?
    split
    · rename_i hnil
      exact absurd hnil h
    all_goals simp
  obtain ⟨j, hj⟩ := Option.ne_none_iff_exists'.mp hsome
  rw [reread, hj]
  rfl

/-- An instruction is read as itself, unless it is a call with reserved tokens. -/
theorem reread_eq
    (h : ∀ tokens, i = .call tokens → isReserved tokens = false) :
    i.reread = i := by
  cases i with
  | call tokens =>
      have htokens := h tokens rfl
      unfold reread ofTokens?
      unfold isReserved at htokens
      split <;> simp_all [Instruction.tokens]
  | _ => rfl

theorem Plain.tokens_ne_nil
    (h : i.Plain) :
    i.tokens ≠ [] := by
  cases i with
  | call tokens => exact (h tokens rfl).1
  | _ => exact List.cons_ne_nil _ _

/-- What is read from tokens has these tokens as its written parts. -/
theorem tokens_of_ofTokens?
    (h : ofTokens? tokens = some i) :
    i.tokens = tokens := by
  unfold ofTokens? at h
  split at h
  · cases h
  all_goals
    obtain rfl := Option.some.inj h
    rfl

/-- A call is read only from tokens that are not reserved. -/
theorem plain_of_ofTokens?
    (h : ofTokens? tokens = some i) :
    i.Plain := by
  rintro _ rfl
  obtain rfl := tokens_of_ofTokens? h
  refine ⟨fun hnil => ?_, ?_⟩
  · rw [hnil] at h
    cases h
  · unfold isReserved
    split
    case h_6 => rfl
    all_goals cases h

/-- Tokens are read as the instruction that has them as its written parts, if it is plain. -/
theorem ofTokens?_eq_some_iff :
    ofTokens? tokens = some i ↔ tokens = i.tokens ∧ i.Plain := by
  constructor
  · intro h
    exact ⟨(tokens_of_ofTokens? h).symm, plain_of_ofTokens? h⟩
  · rintro ⟨rfl, hplain⟩
    rw [ofTokens?_tokens hplain.tokens_ne_nil]
    exact congrArg some (reread_eq fun tokens hcall => (hplain tokens hcall).2)

end Tokens

end Instruction

namespace Json

section Strings

variable {j : Json} {tokens : List String}

theorem str?_eq_some_iff
    {s : String} :
    j.str? = some s ↔ j = .str s := by
  cases j <;> simp [str?]

theorem strings?_ofStrings
    (tokens : List String) :
    (ofStrings tokens).strings? = some tokens := by
  change (tokens.map Json.str).mapM Json.str? = some tokens
  rw [List.mapM_map]
  exact (List.mapM_pure (f := id)).trans (congrArg some (List.map_id tokens))

theorem strings?_eq_some_iff :
    j.strings? = some tokens ↔ j = ofStrings tokens := by
  constructor
  · intro h
    obtain ⟨items, hitems, htokens⟩ := Option.bind_eq_some_iff.mp h
    have heq : items = tokens.map .str := by
      rw [mapM_eq_some_iff] at htokens
      simp only [str?_eq_some_iff] at htokens
      rwa [← List.forall₂_map_right_iff, List.forall₂_eq_eq_eq] at htokens
    cases j with
    | arr _ =>
        cases hitems
        rw [heq, ofStrings]
    | _ => cases hitems
  · rintro rfl
    exact strings?_ofStrings tokens

end Strings

end Json

namespace Program

section Values

variable {p : Program} {j : Json}

theorem instructionOfJson_eq_ok_iff
    {i : Instruction} :
    instructionOfJson j = .ok i ↔ j = i.toJson ∧ i.Plain := by
  constructor
  · intro h
    unfold instructionOfJson at h
    split at h
    · cases h
    · rename_i tokens hstrings
      split at h
      · cases h
      · rename_i hread
        obtain rfl := Except.ok.inj h
        obtain ⟨rfl, hplain⟩ := Instruction.ofTokens?_eq_some_iff.mp hread
        exact ⟨Json.strings?_eq_some_iff.mp hstrings, hplain⟩
  · rintro ⟨rfl, hplain⟩
    have hread := Instruction.ofTokens?_eq_some_iff.mpr ⟨rfl, hplain⟩
    rw [instructionOfJson, Instruction.toJson, Json.strings?_ofStrings]
    simp only [hread]

/-- A JSON value is read as the program that is written like it, if its instructions are plain. -/
theorem ofJson_eq_ok_iff :
    ofJson j = .ok p ↔ j = p.toJson ∧ ∀ i ∈ p, i.Plain := by
  have hitems : ∀ items : List Json, items.mapM instructionOfJson = .ok p ↔
      items = p.map Instruction.toJson ∧ ∀ i ∈ p, i.Plain := by
    intro items
    simp only [mapM_eq_ok_iff, instructionOfJson_eq_ok_iff, forall₂_eq_and_iff]
  cases j with
  | arr items => simpa [ofJson, Json.arr?, toJson] using hitems items
  | _ => simp [ofJson, Json.arr?, toJson]

theorem textual_toJson
    (p : Program) :
    Json.Textual p.toJson := by
  refine .arr fun j hj => ?_
  obtain ⟨i, -, rfl⟩ := List.mem_map.mp hj
  refine .arr fun j hj => ?_
  obtain ⟨token, -, rfl⟩ := List.mem_map.mp hj
  exact .str token

theorem ofJson_toJson
    (h : ∀ i ∈ p, i.tokens ≠ []) :
    ofJson p.toJson = .ok (p.map Instruction.reread) := by
  change (p.map Instruction.toJson).mapM instructionOfJson = _
  rw [mapM_eq_ok_iff, List.forall₂_map_left_iff, List.forall₂_map_right_iff, List.forall₂_same]
  intro i hi
  rw [instructionOfJson, Instruction.toJson, Json.strings?_ofStrings]
  simp only [Instruction.ofTokens?_tokens (h i hi)]

end Values

section Texts

variable {p : Program} {l : Json.Layout} {spaces : List Char}

/-- A text is read like the program that was written, in every layout that writes spaces only. -/
theorem ofJsonText_write
    (p : Program) (hl : l.Spaced) (hspaces : ∀ c ∈ spaces, Json.Lexeme.isSpace c = true) :
    ofJsonText (String.ofList (Json.write l 0 p.toJson ++ spaces)) = ofJson p.toJson := by
  rw [ofJsonText, Json.parse?_write hl (textual_toJson p) hspaces]

/-- **From the written form of a program each instruction is read that its parts stand for.** -/
theorem ofJsonText_toJson
    (h : ∀ i ∈ p, i.tokens ≠ []) :
    ofJsonText (p.toJson.compact ++ "\n") = .ok (p.map Instruction.reread) := by
  have htext : p.toJson.compact ++ "\n" =
      String.ofList (Json.write .compact 0 p.toJson ++ ['\n']) := by
    rw [String.ofList_append]
    rfl
  rw [htext, ofJsonText_write p Json.spaced_compact (List.forall_mem_singleton.mpr rfl)]
  exact ofJson_toJson h

theorem ofJsonText_eq_ok_iff
    (hl : l.Spaced) :
    ofJsonText (String.ofList (Json.write l 0 p.toJson)) = .ok p ↔ ∀ i ∈ p, i.Plain := by
  have htext := ofJsonText_write p hl (List.forall_mem_nil (Json.Lexeme.isSpace · = true))
  rw [List.append_nil] at htext
  rw [htext, ofJson_eq_ok_iff]
  exact and_iff_right rfl

/-- **The written form of programs.**  A JSON value is read as a program exactly if it is the array
of that program and no call in it lacks tokens or has the written parts of another instruction; so
writing what was read gives the value back.  The same programs are read back from their compact
and from their pretty text. -/
theorem reads_back_iff
    (p : Program) :
    (∀ j, ofJson j = .ok p ↔ p.toJson = j ∧ ∀ i ∈ p, i.Plain) ∧
    (ofJsonText p.toJson.compact = .ok p ↔ ∀ i ∈ p, i.Plain) ∧
    (ofJsonText p.toJson.pretty = .ok p ↔ ∀ i ∈ p, i.Plain) := by
  refine ⟨fun j => ?_, ofJsonText_eq_ok_iff Json.spaced_compact,
    ofJsonText_eq_ok_iff Json.spaced_pretty⟩
  rw [ofJson_eq_ok_iff, eq_comm]

/-- A call with the written parts of a contact is read as that contact. -/
example :
    ofJsonText (toJson [.call ["in", "\"A\"\t"], .call ["in"]]).pretty =
      .ok [.read "\"A\"\t", .call ["in"]] := by
  cbv

end Texts

end Program
end RelayLadder
