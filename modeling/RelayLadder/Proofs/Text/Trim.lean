import Mathlib.Data.List.Basic
import RelayLadder.Text.Basic

/-!
# Blanks at the ends, and pieces

A text is `Trimmed` when it is not empty and has no blank at either end; such texts
are what `trim` leaves alone.  `pieces` takes apart what was joined by a character
at which it cuts.

`dropTrailing_cons` follows the removal of trailing elements from the front of a
list, which is how the rows of a block are reasoned about.
-/

namespace RelayLadder
namespace Text

section Trailing

variable {α : Type}

/-- A leading element is removed with the trailing ones only if nothing else is left. -/
theorem dropTrailing_cons
    (p : α → Bool) (a : α) (l : List α) :
    ((a :: l).reverse.dropWhile p).reverse =
      if (l.reverse.dropWhile p).reverse = [] ∧ p a = true then []
      else a :: (l.reverse.dropWhile p).reverse := by
  rw [List.reverse_cons, List.dropWhile_append]
  by_cases hnil : l.reverse.dropWhile p = []
  · by_cases ha : p a = true
    · simp [hnil, ha]
    · simp [hnil, ha]
  · simp [hnil]

end Trailing

section Ends

variable {s : List Char}

/-- The text is not empty and has no blank at either end. -/
structure Trimmed (s : List Char) : Prop where
  ne_nil : s ≠ []
  head : ∀ a ∈ s.head?, isBlank a = false
  last : ∀ a ∈ s.getLast?, isBlank a = false

instance (s : List Char) : Decidable (Trimmed s) :=
  decidable_of_iff
    (s ≠ [] ∧ s.head?.toList.any isBlank = false ∧ s.getLast?.toList.any isBlank = false)
    ⟨fun h => ⟨h.1, by simpa using h.2.1, by simpa using h.2.2⟩,
      fun h => ⟨h.ne_nil, by simpa using h.head, by simpa using h.last⟩⟩

theorem trimStart_of_head
    (h : ∀ a ∈ s.head?, isBlank a = false) :
    trimStart s = s := by
  cases s with
  | nil => rfl
  | cons a s =>
      have ha : isBlank a = false := h a rfl
      rw [trimStart, List.dropWhile_cons_of_neg (by simp [ha])]

theorem trimEnd_of_last
    (h : ∀ a ∈ s.getLast?, isBlank a = false) :
    trimEnd s = s := by
  have hrev : trimStart s.reverse = s.reverse := by
    apply trimStart_of_head
    rwa [List.head?_reverse]
  rw [trimEnd, ← trimStart, hrev, List.reverse_reverse]

theorem Trimmed.trim_eq
    (h : Trimmed s) :
    trim s = s := by
  rw [trim, trimStart_of_head h.head, trimEnd_of_last h.last]

theorem trimEnd_sublist
    (s : List Char) :
    (trimEnd s).Sublist s := by
  rw [trimEnd, ← List.reverse_sublist, List.reverse_reverse]
  exact List.dropWhile_sublist isBlank

theorem trim_sublist
    (s : List Char) :
    (trim s).Sublist s :=
  (trimEnd_sublist (trimStart s)).trans (List.dropWhile_sublist isBlank)

theorem head_trimStart
    (s : List Char) :
    ∀ a ∈ (trimStart s).head?, isBlank a = false := by
  intro a ha
  have hhead := List.head?_dropWhile_not isBlank s
  rw [← trimStart, ha] at hhead
  simpa using hhead

/-- What `trim` leaves is trimmed, if anything is left. -/
theorem trimmed_trim
    (h : trim s ≠ []) :
    Trimmed (trim s) := by
  refine ⟨h, ?_, ?_⟩
  · intro a ha
    -- Cutting at the end leaves the first character in place.
    have hstart : (trimStart s).head? = some a := by
      have hprefix : trim s <+: trimStart s := by
        rw [trim, trimEnd, ← List.reverse_suffix, List.reverse_reverse]
        exact List.dropWhile_suffix isBlank
      obtain ⟨t, ht⟩ := hprefix
      rw [← ht, List.head?_append_of_ne_nil _ h]
      exact ha
    exact head_trimStart s a hstart
  · intro a ha
    rw [trim, trimEnd, List.getLast?_reverse] at ha
    exact head_trimStart _ a ha

theorem trimEnd_append_blank
    (s : List Char) {b : Char} (hb : isBlank b = true) :
    trimEnd (s ++ [b]) = trimEnd s := by
  rw [trimEnd, List.reverse_append, List.reverse_singleton, List.singleton_append,
    List.dropWhile_cons_of_pos hb, trimEnd]

/-- A blank at the end is trimmed away. -/
theorem trim_append_blank
    (s : List Char) {b : Char} (hb : isBlank b = true) :
    trim (s ++ [b]) = trim s := by
  rw [trim, trim, trimStart, trimStart, List.dropWhile_append]
  split
  · rename_i hempty
    rw [List.dropWhile_cons_of_pos hb, List.isEmpty_iff.mp hempty, List.dropWhile_nil]
  · exact trimEnd_append_blank _ hb

theorem Trimmed.append
    {s' : List Char}
    (h : Trimmed s) (h' : Trimmed s') (mid : List Char) :
    Trimmed (s ++ (mid ++ s')) := by
  refine ⟨by simp [h.ne_nil], ?_, ?_⟩
  · rw [List.head?_append_of_ne_nil s h.ne_nil]
    exact h.head
  · rw [← List.append_assoc, List.getLast?_append_of_ne_nil _ h'.ne_nil]
    exact h'.last

theorem Trimmed.intercalate
    {parts : List (List Char)} {sep : List Char}
    (hparts : parts ≠ []) (h : ∀ part ∈ parts, Trimmed part) :
    Trimmed (sep.intercalate parts) := by
  induction parts with
  | nil => exact absurd rfl hparts
  | cons part parts ih =>
      have hpart := h part List.mem_cons_self
      cases parts with
      | nil =>
          rw [List.intercalate_singleton]
          exact hpart
      | cons next parts =>
          rw [List.intercalate_cons_cons, List.append_assoc]
          exact hpart.append
            (ih (List.cons_ne_nil _ _) fun q hq => h q (List.mem_cons_of_mem part hq)) sep

end Ends

section Pieces

variable {p : Char → Bool}

theorem pieces_of_forall
    {part : List Char}
    (h : ∀ c ∈ part, p c = false) :
    pieces p part = [part] := by
  induction part with
  | nil => rfl
  | cons c part ih =>
      have hc : p c = false := h c List.mem_cons_self
      rw [pieces, hc, ih fun c' hc' => h c' (List.mem_cons_of_mem c hc')]
      rfl

theorem pieces_append_cons
    {part rest : List Char} {sep : Char}
    (h : ∀ c ∈ part, p c = false) (hsep : p sep = true) :
    pieces p (part ++ sep :: rest) = part :: pieces p rest := by
  induction part with
  | nil => simp [pieces, hsep]
  | cons c part ih =>
      have hc : p c = false := h c List.mem_cons_self
      rw [List.cons_append, pieces, hc, ih fun c' hc' => h c' (List.mem_cons_of_mem c hc')]
      rfl

/-- Texts that are joined by a character at which `pieces` cuts are taken apart again. -/
theorem pieces_intercalate
    {parts : List (List Char)} {sep : Char}
    (hparts : parts ≠ []) (hsep : p sep = true)
    (h : ∀ part ∈ parts, ∀ c ∈ part, p c = false) :
    pieces p ([sep].intercalate parts) = parts := by
  induction parts with
  | nil => exact absurd rfl hparts
  | cons part parts ih =>
      have hpart := h part List.mem_cons_self
      cases parts with
      | nil =>
          rw [List.intercalate_singleton]
          exact pieces_of_forall hpart
      | cons next parts =>
          rw [List.intercalate_cons_cons, List.append_assoc, List.singleton_append,
            pieces_append_cons hpart hsep,
            ih (List.cons_ne_nil _ _) fun q hq => h q (List.mem_cons_of_mem part hq)]

/-- A character of joined tokens is a blank or of a token. -/
theorem mem_toList_intercalate
    {tokens : List String} {ch : Char}
    (h : ch ∈ (" ".intercalate tokens).toList) :
    ch = ' ' ∨ ∃ token ∈ tokens, ch ∈ token.toList := by
  rw [String.toList_intercalate] at h
  induction tokens with
  | nil => simp at h
  | cons token tokens ih =>
      cases tokens with
      | nil =>
          rw [List.map_singleton, List.intercalate_singleton] at h
          exact Or.inr ⟨token, List.mem_cons_self, h⟩
      | cons next tokens =>
          rw [List.map_cons, List.map_cons, List.intercalate_cons_cons, List.mem_append,
            List.mem_append] at h
          rcases h with (h | h) | h
          · exact Or.inr ⟨token, List.mem_cons_self, h⟩
          · exact Or.inl (by simpa using h)
          · rcases ih h with h | ⟨token', htoken', h⟩
            · exact Or.inl h
            · exact Or.inr ⟨token', List.mem_cons_of_mem _ htoken', h⟩

/-- A piece consists of characters of the text at which it is not cut. -/
theorem of_mem_pieces
    {s part : List Char} {ch : Char}
    (hpart : part ∈ pieces p s) (hch : ch ∈ part) :
    p ch = false ∧ ch ∈ s := by
  induction s generalizing part with
  | nil =>
      rw [List.mem_singleton.mp hpart] at hch
      cases hch
  | cons c s ih =>
      rw [pieces] at hpart
      split at hpart
      · rcases List.mem_cons.mp hpart with rfl | hpart
        · cases hch
        · exact ⟨(ih hpart hch).1, List.mem_cons_of_mem c (ih hpart hch).2⟩
      · rename_i hc
        split at hpart
        · obtain rfl := List.mem_singleton.mp hpart
          obtain rfl := List.mem_singleton.mp hch
          exact ⟨by simpa using hc, List.mem_cons_self⟩
        · rename_i piece rest hpieces
          rcases List.mem_cons.mp hpart with rfl | hpart
          · rcases List.mem_cons.mp hch with rfl | hch
            · exact ⟨by simpa using hc, List.mem_cons_self⟩
            · have hpiece := ih (hpieces ▸ List.mem_cons_self) hch
              exact ⟨hpiece.1, List.mem_cons_of_mem c hpiece.2⟩
          · have hpiece := ih (hpieces ▸ List.mem_cons_of_mem piece hpart) hch
            exact ⟨hpiece.1, List.mem_cons_of_mem c hpiece.2⟩

end Pieces

end Text
end RelayLadder
