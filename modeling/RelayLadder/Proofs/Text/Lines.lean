import Mathlib.Algebra.GroupWithZero.Nat
import Mathlib.Data.List.Basic
import RelayLadder.Proofs.Text.Trim

/-!
# Lines and bytes of a text

**Bytes.**  `byteSize` counts the bytes of a text from front to back, as the UTF-8
form of a string does.

**Lines.**  The pieces of a text, with the separator put back between them, are the
text again, and a text that is continued behind a separator has the pieces of both
parts.  A blank at the end of a text changes nothing but the blanks at the end of
its last line (`exists_lines_append_blank`).
-/

namespace RelayLadder
namespace Text

section Bytes

@[simp] theorem byteSize_nil : byteSize [] = 0 := rfl

@[simp] theorem byteSize_cons
    (ch : Char) (s : List Char) :
    byteSize (ch :: s) = ch.utf8Size + byteSize s :=
  rfl

@[simp] theorem byteSize_append
    (s t : List Char) :
    byteSize (s ++ t) = byteSize s + byteSize t := by
  induction s with
  | nil => simp
  | cons ch s ih => simp [ih, Nat.add_assoc]

theorem byteSize_pos
    {s : List Char} (h : s ≠ []) :
    0 < byteSize s := by
  cases s with
  | nil => exact absurd rfl h
  | cons ch s =>
      rw [byteSize_cons]
      exact Nat.lt_of_lt_of_le ch.utf8Size_pos (Nat.le_add_right _ _)

/-- The bytes of a string are those of its characters. -/
theorem utf8ByteSize_ofList
    (s : List Char) :
    (String.ofList s).utf8ByteSize = byteSize s := by
  induction s with
  | nil => rfl
  | cons ch s ih =>
      have hcons : String.ofList (ch :: s) = String.singleton ch ++ String.ofList s := by
        rw [String.singleton_eq_ofList, ← String.ofList_append, List.singleton_append]
      rw [hcons, String.utf8ByteSize_append, String.utf8ByteSize_singleton, ih, byteSize_cons]

end Bytes

section Ends

theorem takeWhile_of_head
    {s : List Char} (h : ∀ ch ∈ s.head?, isBlank ch = false) :
    s.takeWhile isBlank = [] := by
  cases s with
  | nil => rfl
  | cons ch s => rw [List.takeWhile_cons_of_neg (by simp [h ch rfl])]

/-- A text is what is left of it and the blanks at its end. -/
theorem exists_trimEnd_append
    (s : List Char) :
    ∃ blanks, trimEnd s ++ blanks = s ∧ ∀ ch ∈ blanks, isBlank ch = true := by
  refine ⟨(s.reverse.takeWhile isBlank).reverse, ?_, ?_⟩
  · rw [trimEnd, ← List.reverse_append, List.takeWhile_append_dropWhile, List.reverse_reverse]
  · intro ch hch
    exact List.all_eq_true.mp List.all_takeWhile ch (List.mem_reverse.mp hch)

/-- Something is left of a text that holds a character that is no blank. -/
theorem trimEnd_ne_nil
    {s : List Char} {ch : Char}
    (hmem : ch ∈ s) (hch : isBlank ch = false) :
    trimEnd s ≠ [] := by
  intro hnil
  obtain ⟨blanks, hs, hblank⟩ := exists_trimEnd_append s
  rw [hnil, List.nil_append] at hs
  rw [hblank ch (hs ▸ hmem)] at hch
  cases hch

end Ends

section Pieces

variable {p : Char → Bool}

theorem pieces_ne_nil
    (p : Char → Bool) (s : List Char) :
    pieces p s ≠ [] := by
  cases s with
  | nil => exact List.cons_ne_nil _ _
  | cons ch s =>
      rw [pieces]
      split
      · exact List.cons_ne_nil _ _
      · split
        · exact List.cons_ne_nil _ _
        · exact List.cons_ne_nil _ _

theorem pieces_cons_of_not
    {ch : Char} {s piece : List Char} {rest : List (List Char)}
    (hch : p ch = false) (hs : pieces p s = piece :: rest) :
    pieces p (ch :: s) = (ch :: piece) :: rest := by
  rw [pieces, hch, hs]
  rfl

/-- Behind a separator the pieces start anew. -/
theorem pieces_append_separator
    (s t : List Char) {sep : Char} (hsep : p sep = true) :
    pieces p (s ++ sep :: t) = pieces p s ++ pieces p t := by
  induction s with
  | nil => simp [pieces, hsep]
  | cons ch s ih =>
      cases hch : p ch with
      | true =>
          rw [List.cons_append, pieces, pieces, hch, if_pos rfl, if_pos rfl, ih, List.cons_append]
      | false =>
          obtain ⟨piece, rest, hs⟩ := List.exists_cons_of_ne_nil (pieces_ne_nil p s)
          have hst : pieces p (s ++ sep :: t) = piece :: (rest ++ pieces p t) := by
            rw [ih, hs, List.cons_append]
          rw [List.cons_append, pieces_cons_of_not hch hst, pieces_cons_of_not hch hs,
            List.cons_append]

/-- The pieces joined by the separator are the text. -/
theorem intercalate_pieces
    {sep : Char} (hp : ∀ ch, p ch = true ↔ ch = sep) (s : List Char) :
    [sep].intercalate (pieces p s) = s := by
  induction s with
  | nil => simp [pieces]
  | cons ch s ih =>
      obtain ⟨piece, rest, hs⟩ := List.exists_cons_of_ne_nil (pieces_ne_nil p s)
      cases hch : p ch with
      | true =>
          obtain rfl := (hp ch).mp hch
          have hpieces : pieces p (ch :: s) = [] :: piece :: rest := by
            rw [pieces, hch, if_pos rfl, hs]
          rw [hpieces, List.intercalate_cons_cons, ← hs, ih]
          rfl
      | false =>
          rw [pieces_cons_of_not hch hs]
          rw [hs] at ih
          cases rest with
          | nil =>
              rw [List.intercalate_singleton] at ih ⊢
              rw [ih]
          | cons next rest =>
              rw [List.intercalate_cons_cons] at ih ⊢
              rw [← ih]
              rfl

/-- A character behind a text that is no separator belongs to the last piece. -/
theorem exists_pieces_append_of_not
    (s : List Char) {b : Char} (hb : p b = false) :
    ∃ front last, pieces p s = front ++ [last] ∧ pieces p (s ++ [b]) = front ++ [last ++ [b]] := by
  induction s with
  | nil => exact ⟨[], [], rfl, by simp [pieces, hb]⟩
  | cons ch s ih =>
      obtain ⟨front, last, hs, hsb⟩ := ih
      cases hch : p ch with
      | true =>
          refine ⟨[] :: front, last, ?_, ?_⟩
          · rw [pieces, hch, if_pos rfl, hs, List.cons_append]
          · rw [List.cons_append, pieces, hch, if_pos rfl, hsb, List.cons_append]
      | false =>
          cases front with
          | nil => exact ⟨[], ch :: last, pieces_cons_of_not hch hs, pieces_cons_of_not hch hsb⟩
          | cons piece front =>
              exact ⟨(ch :: piece) :: front, last, pieces_cons_of_not hch hs,
                pieces_cons_of_not hch hsb⟩

end Pieces

section Lines

theorem lines_append_newline
    (s t : List Char) :
    lines (s ++ '\n' :: t) = lines s ++ lines t :=
  pieces_append_separator s t rfl

theorem intercalate_lines
    (s : List Char) :
    ['\n'].intercalate (lines s) = s :=
  intercalate_pieces (fun _ => beq_iff_eq) s

/-- A blank at the end of a text is a blank line, or a blank at the end of the last line. -/
theorem exists_lines_append_blank
    (s : List Char) {b : Char} (hb : isBlank b = true) :
    lines (s ++ [b]) = lines s ++ [[]] ∨
      ∃ front last, lines s = front ++ [last] ∧ lines (s ++ [b]) = front ++ [last ++ [b]] := by
  by_cases hnewline : b = '\n'
  · subst hnewline
    exact Or.inl (lines_append_newline s [])
  · exact Or.inr (exists_pieces_append_of_not s (beq_false_of_ne hnewline))

/-- The bytes of joined lines, with a line feed counted for the last one, too. -/
theorem sum_byteSize_of_ne_nil
    (ls : List (List Char)) (hls : ls ≠ []) :
    (ls.map fun line => byteSize line + 1).sum = byteSize (['\n'].intercalate ls) + 1 := by
  induction ls with
  | nil => exact absurd rfl hls
  | cons line ls ih =>
      cases ls with
      | nil => simp
      | cons next ls =>
          have hnewline : '\n'.utf8Size = 1 := by decide
          rw [List.map_cons, List.sum_cons, ih (List.cons_ne_nil _ _),
            List.intercalate_cons_cons, byteSize_append, byteSize_append, byteSize_cons,
            byteSize_nil, hnewline]
          omega

theorem sum_byteSize_lines
    (s : List Char) :
    ((lines s).map fun line => byteSize line + 1).sum = byteSize s + 1 := by
  rw [sum_byteSize_of_ne_nil (lines s) (pieces_ne_nil _ s), intercalate_lines]

end Lines

end Text
end RelayLadder
