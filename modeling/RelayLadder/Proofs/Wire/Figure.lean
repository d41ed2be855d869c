import RelayLadder.Proofs.Wire.Reading

/-!
# Figures

A figure is what a part of a drawing is good for when it is read: how many rows
it takes, and what it puts in front of the wire that follows it.  Nothing is put
in front where the figure cannot be read, as when a name is empty.

**Boxes.**  `Shows rung r₀ P r h k k'` says that the rung shows, from its row `r₀`
on, the box of the plane `P` that starts at row `r` and column `k`, has `h` rows
and ends before column `k'`, and that no rail goes on below it.  `Reads P r k k' fig`
says that such a box is read as `fig`, whatever stands behind it.

**Results.**
* `Spelled.read?_contact`, `Spelled.read?_call`, `Spelled.read?_coil`: elements.
* `Reads.series`: figures side by side.
* `Railed.read?_eq`: branches between two rails are read as a block.
-/

namespace RelayLadder

open Wire (Scope nameOf isNameless isWordless)

/-- The rows that a part of a drawing takes, and the wire that it makes of the wire behind it. -/
structure Figure where
  height : Nat
  onto : Wire → Option Wire

namespace Figure

section Defs

/-- A name with the wire behind it, unless the name is empty. -/
def labelled (make : String → Bool → Wire → Wire) (text : List Char) (rest : Wire) :
    Option Wire :=
  if isNameless text then none else some (make (nameOf text).1 (nameOf text).2 rest)

/-- The words of a call with the wire behind it, unless there are none. -/
def spelled (text : List Char) (rest : Wire) : Option Wire :=
  if isWordless text then none
  else some (.call ((Text.words text).map String.ofList) rest)

/-- A contact. -/
def contact (name : String) : Figure :=
  ⟨1, labelled .contact name.toList⟩

/-- A call. -/
def call (tokens : List String) : Figure :=
  ⟨1, spelled (" ".intercalate tokens).toList⟩

/-- Two figures side by side. -/
def series (left right : Figure) : Figure :=
  ⟨max left.height right.height, fun rest => (right.onto rest).bind left.onto⟩

/-- The branches that figures are read as between two rails. -/
def branchWires (figs : List Figure) : Option (List Wire) :=
  figs.mapM fun fig => fig.onto .finish

/-- Figures one below the other between two rails, with a row between neighbours. -/
def block (top : Figure) (below : List Figure) : Figure :=
  ⟨top.height + below.foldr (fun fig height => fig.height + 1 + height) 0,
    fun rest => (branchWires (top :: below)).map (.block · rest)⟩

/-- Figures as branches: a single one as it stands, several as a block. -/
def join : List Figure → Figure
  | [] => ⟨0, some⟩
  | [fig] => fig
  | top :: below => block top below

end Defs

end Figure

namespace Rung

section Texts

variable {rung : Rung} {scope : Scope} {r c e k : Nat}

/-- A text stands in row `r` from column `k` on. -/
def Spelled (rung : Rung) (r k : Nat) (text : List Char) : Prop :=
  ∀ n, n < text.length → rung.cell? r (k + n) = text[n]?

theorem Spelled.head
    {ch : Char} {text : List Char}
    (h : rung.Spelled r k (ch :: text)) :
    rung.cell? r k = some ch :=
  h 0 (Nat.zero_lt_succ _)

theorem Spelled.tail
    {ch : Char} {text : List Char}
    (h : rung.Spelled r k (ch :: text)) :
    rung.Spelled r (k + 1) text := by
  intro n hn
  have hcell := h (n + 1) (Nat.succ_lt_succ hn)
  rwa [show k + (n + 1) = k + 1 + n by omega, List.getElem?_cons_succ] at hcell

theorem Spelled.left
    {text text' : List Char}
    (h : rung.Spelled r k (text ++ text')) :
    rung.Spelled r k text := by
  intro n hn
  rw [h n (by rw [List.length_append]; omega), List.getElem?_append_left hn]

theorem Spelled.right
    {text text' : List Char}
    (h : rung.Spelled r k (text ++ text')) :
    rung.Spelled r (k + text.length) text' := by
  intro n hn
  have hcell := h (text.length + n) (by rw [List.length_append]; omega)
  rwa [List.getElem?_append_right (by omega), Nat.add_sub_cancel_left, ← Nat.add_assoc] at hcell

/-- A run of `-` is skipped. -/
theorem read?_dashes
    (n : Nat)
    (hdash : ∀ j, k ≤ j → j < k + n → rung.cell? r j = some '-')
    (hke : k + n ≤ e) :
    rung.read? scope r k e = rung.read? scope r (k + n) e := by
  induction n with
  | zero => rfl
  | succ n ih =>
      rw [ih (fun j hkj hj => hdash j hkj (by omega)) (by omega),
        read?_dash (by omega) (hdash (k + n) (by omega) (by omega))]
      rfl

/-- A text between an opening and a closing character that it does not hold. -/
theorem Spelled.encloses
    {opener closer : Char} {text : List Char}
    (h : rung.Spelled r c (opener :: text ++ [closer]))
    (hfirst : closer ∉ text)
    (he : c + text.length + 1 < e) :
    rung.Encloses opener closer r c (c + text.length + 1) e := by
  refine ⟨h.left.head, by omega, he, ?_, ?_⟩
  · have hclose := h.right.head
    rwa [List.length_cons, ← Nat.add_assoc] at hclose
  · intro i hci hi hcell
    have htext := h.left.tail (i - (c + 1)) (by omega)
    rw [show c + 1 + (i - (c + 1)) = i by omega, hcell] at htext
    exact hfirst (List.mem_of_getElem? htext.symm)

theorem Spelled.inner_eq
    {opener closer : Char} {text : List Char}
    (h : rung.Spelled r c (opener :: text ++ [closer])) :
    rung.inner r c (c + text.length + 1) = text := by
  obtain ⟨row, below, hdrop⟩ := exists_drop_of_cell? h.left.head
  rw [inner_of_drop hdrop]
  apply List.ext_getElem?
  intro n
  rw [getElem?_between]
  split
  · rename_i hn
    have hcell := h.left.tail n (by omega)
    rwa [cell?_of_drop hdrop] at hcell
  · rename_i hn
    exact (List.getElem?_eq_none (by omega)).symm

/-- A text in an element, with a piece of wire on both sides. -/
def wired (opener closer : Char) (text : List Char) : List Char :=
  ['-', '-'] ++ ((opener :: text ++ [closer]) ++ ['-', '-'])

@[simp] theorem length_wired
    (opener closer : Char) (text : List Char) :
    (wired opener closer text).length = text.length + 6 := by
  simp [wired]

theorem getLast?_wired
    (opener closer : Char) (text : List Char) :
    (wired opener closer text).getLast? = some '-' := by
  simp only [wired, List.getLast?_append, List.getLast?_cons_cons, List.getLast?_singleton,
    Option.some_or]

theorem ne_empty_of_wired
    {label : String} {opener closer : Char} {text : List Char}
    (h : label.toList = wired opener closer text) :
    label ≠ "" := by
  rintro rfl
  simp [wired] at h

/-- An element that is written out starts behind its first piece of wire, and what follows it
behind its second. -/
theorem Spelled.of_wired
    {opener closer : Char} {text : List Char}
    (h : rung.Spelled r k (wired opener closer text))
    (scope : Scope)
    (hfirst : closer ∉ text)
    (he : k + text.length + 6 ≤ e) :
    rung.read? scope r k e = rung.read? scope r (k + 2) e ∧
    rung.Encloses opener closer r (k + 2) (k + text.length + 3) e ∧
    rung.inner r (k + 2) (k + text.length + 3) = text ∧
    rung.read? scope r (k + text.length + 4) e = rung.read? scope r (k + text.length + 6) e := by
  have hfront : rung.Spelled r k ['-', '-'] := h.left
  have hopen : rung.Spelled r (k + 2) (opener :: text ++ [closer]) := h.right.left
  have hback : rung.Spelled r (k + text.length + 4) ['-', '-'] := by
    have hright := h.right.right
    rwa [show k + ['-', '-'].length + (opener :: text ++ [closer]).length =
      k + text.length + 4 by simp; omega] at hright
  have hclose : k + 2 + text.length + 1 = k + text.length + 3 := by omega
  refine ⟨?_, ?_, ?_, ?_⟩
  · rw [read?_dash (by omega) hfront.head, read?_dash (by omega) hfront.tail.head]
  · rw [← hclose]
    exact hopen.encloses hfirst (by omega)
  · rw [← hclose]
    exact hopen.inner_eq
  · rw [read?_dash (by omega) hback.head, read?_dash (by omega) hback.tail.head]

variable {text : List Char}

theorem guard_map_eq_bind
    (b : Bool) (w : Option Wire) (make : Wire → Wire) :
    (if b then none else w.map make) = w.bind fun rest => if b then none else some (make rest) := by
  cases b with
  | false => cases w <;> rfl
  | true => cases w <;> rfl

theorem Spelled.read?_contact
    (h : rung.Spelled r k (wired '[' ']' text))
    (hfirst : ']' ∉ text)
    (he : k + text.length + 6 ≤ e) :
    rung.read? scope r k e =
      (rung.read? scope r (k + text.length + 6) e).bind (Figure.labelled .contact text) := by
  obtain ⟨hfront, henc, hinner, hback⟩ := h.of_wired scope hfirst he
  rw [hfront, Rung.read?_contact henc, hinner, hback]
  exact guard_map_eq_bind _ _ _

theorem Spelled.read?_call
    (h : rung.Spelled r k (wired '\x7b' '\x7d' text))
    (hfirst : '\x7d' ∉ text)
    (he : k + text.length + 6 ≤ e) :
    rung.read? scope r k e =
      (rung.read? scope r (k + text.length + 6) e).bind (Figure.spelled text) := by
  obtain ⟨hfront, henc, hinner, hback⟩ := h.of_wired scope hfirst he
  rw [hfront, Rung.read?_call henc, hinner, hback]
  exact guard_map_eq_bind _ _ _

theorem Spelled.read?_coil
    (h : rung.Spelled r k (wired '(' ')' text))
    (hfirst : ')' ∉ text)
    (he : k + text.length + 6 ≤ e) :
    rung.read? .rung r k e =
      (rung.read? .rung r (k + text.length + 6) e).bind (Figure.labelled .coil text) := by
  obtain ⟨hfront, henc, hinner, hback⟩ := h.of_wired .rung hfirst he
  rw [hfront, Rung.read?_coil henc, hinner, hback]
  exact guard_map_eq_bind _ _ _

end Texts

section Boxes

variable {rung : Rung} {r₀ r h k k' : Nat} {P P' : Nat → Nat → Char} {fig : Figure}

/-- The rung shows a box of a plane, and no rail goes on below it. -/
structure Shows (rung : Rung) (r₀ : Nat) (P : Nat → Nat → Char) (r h k k' : Nat) : Prop where
  cells : ∀ i j, i < h → k ≤ j → j < k' → rung.cell? (r₀ + i) j = some (P (r + i) j)
  below : ∀ j, k ≤ j → j < k' →
    rung.cell? (r₀ + h) j ≠ some '|' ∧ rung.cell? (r₀ + h) j ≠ some '+'

/-- A box of a plane is read as a figure. -/
def Reads (P : Nat → Nat → Char) (r k k' : Nat) (fig : Figure) : Prop :=
  ∀ (rung : Rung) (r₀ : Nat), rung.Shows r₀ P r fig.height k k' →
    ∀ (scope : Scope) (e : Nat), k' ≤ e →
      rung.read? scope r₀ k e = (rung.read? scope r₀ k' e).bind fig.onto

/-- A part of a box is shown if nothing but blanks can follow below it. -/
theorem Shows.part
    {h' m m' : Nat}
    (hs : rung.Shows r₀ P r h k k')
    (hh : h' ≤ h) (hkm : k ≤ m) (hmk : m' ≤ k')
    (hblank : h' < h → ∀ j, m ≤ j → j < m' → P (r + h') j = ' ') :
    rung.Shows r₀ P r h' m m' := by
  refine ⟨fun i j hi hmj hj => hs.cells i j (by omega) (by omega) (by omega), ?_⟩
  intro j hmj hj
  rcases Nat.eq_or_lt_of_le hh with heq | hlt
  · rw [heq]
    exact hs.below j (by omega) (by omega)
  · rw [hs.cells h' j hlt (by omega) (by omega), hblank hlt j hmj hj]
    decide

/-- What is shown does not depend on the plane outside the box. -/
theorem Shows.congr
    (hs : rung.Shows r₀ P r h k k')
    (hP : ∀ i j, i < h → k ≤ j → j < k' → P' (r + i) j = P (r + i) j) :
    rung.Shows r₀ P' r h k k' :=
  ⟨fun i j hi hkj hj => by rw [hP i j hi hkj hj, hs.cells i j hi hkj hj], hs.below⟩

theorem Shows.spelled
    {text : List Char}
    (hs : rung.Shows r₀ P r h k k')
    (hh : 0 < h) (hk : k + text.length ≤ k')
    (htext : ∀ n, n < text.length → some (P r (k + n)) = text[n]?) :
    rung.Spelled r₀ k text := by
  intro n hn
  rw [← htext n hn]
  exact hs.cells 0 (k + n) hh (by omega) (by omega)

/-- Figures side by side.  Below the lower of the two the plane is blank. -/
theorem Reads.series
    {left right : Figure} {m : Nat}
    (hleft : Reads P r k m left)
    (hright : Reads P r m k' right)
    (hkm : k ≤ m) (hmk : m ≤ k')
    (hbelow : ∀ i j, r + left.height ≤ i → i < r + right.height → k ≤ j → j < m → P i j = ' ')
    (hbelow' : ∀ i j, r + right.height ≤ i → i < r + left.height → m ≤ j → j < k' → P i j = ' ') :
    Reads P r k k' (left.series right) := by
  intro rung r₀ hs scope e he
  have hs₁ : rung.Shows r₀ P r left.height k m := by
    refine hs.part (Nat.le_max_left _ _) (Nat.le_refl k) hmk fun hlt j hkj hj => ?_
    exact hbelow _ j (Nat.le_refl _) (by simp only [Figure.series] at hlt; omega) hkj hj
  have hs₂ : rung.Shows r₀ P r right.height m k' := by
    refine hs.part (Nat.le_max_right _ _) hkm (Nat.le_refl k') fun hlt j hmj hj => ?_
    exact hbelow' _ j (Nat.le_refl _) (by simp only [Figure.series] at hlt; omega) hmj hj
  rw [hleft rung r₀ hs₁ scope e (by omega), hright rung r₀ hs₂ scope e he, Option.bind_assoc]
  rfl

end Boxes

section Blocks

variable {rung : Rung} {c x r : Nat} {top : Figure} {below : List Figure}

/-- A branch in row `r` that joins the rails in columns `c` and `x` and is read as its figure. -/
structure Joins (rung : Rung) (c x r : Nat) (fig : Figure) : Prop where
  left : rung.cell? r c = some '+'
  right : rung.cell? r x = some '+'
  reads : rung.read? .branch r (c + 1) x = fig.onto .finish

/-- Branches between two rails in columns `c` and `x`, the first of which is in row `r`.  The row
above each lower branch is blank between the rails. -/
def Railed (rung : Rung) (c x : Nat) : Nat → Figure → List Figure → Prop
  | r, top, [] =>
    rung.Joins c x r top ∧
    rung.cell? (r + 1) c ≠ some '|' ∧ rung.cell? (r + 1) c ≠ some '+'
  | r, top, next :: rest =>
    rung.Joins c x r top ∧
    (∀ i, r < i → i ≤ r + top.height →
      rung.cell? i c = some '|' ∧ rung.cell? i x = some '|') ∧
    (∀ j, c < j → j < x → rung.cell? (r + top.height) j = some ' ') ∧
    Railed rung c x (r + top.height + 1) next rest

theorem Railed.joins
    (h : rung.Railed c x r top below) :
    rung.Joins c x r top := by
  cases below with
  | nil => exact h.1
  | cons next rest => exact h.1

/-- The rows in which branches start, from row `r` on. -/
def junctions : Nat → List Figure → List Nat
  | _, [] => []
  | r, fig :: figs => r :: junctions (r + fig.height + 1) figs

theorem le_of_mem_junctions
    {figs : List Figure} {j : Nat}
    (h : j ∈ junctions r figs) :
    r ≤ j := by
  induction figs generalizing r with
  | nil => cases h
  | cons fig figs ih =>
      rcases List.mem_cons.mp h with rfl | h
      · exact Nat.le_refl j
      · have := ih h
        omega

theorem pairwise_junctions
    (r : Nat) (figs : List Figure) :
    (junctions r figs).Pairwise (· < ·) := by
  induction figs generalizing r with
  | nil => exact List.Pairwise.nil
  | cons fig figs ih =>
      refine List.Pairwise.cons (fun j hj => ?_) (ih _)
      have := le_of_mem_junctions hj
      omega

/-- A column is followed along bars. -/
theorem leads_along_bars
    (n : Nat)
    (hbar : ∀ i, r ≤ i → i < r + n → rung.cell? i c = some '|') (j : Nat) :
    rung.Leads c r j ↔ rung.Leads c (r + n) j := by
  induction n with
  | zero => rfl
  | succ n ih =>
      have hcell := hbar (r + n) (by omega) (by omega)
      rw [ih fun i hri hi => hbar i hri (by omega), leads_iff_of_cell? (Or.inl hcell), hcell]
      simp [Nat.add_assoc]

theorem Railed.leads_iff
    (h : rung.Railed c x r top below) (j : Nat) :
    rung.Leads c r j ↔ j ∈ junctions r (top :: below) := by
  induction below generalizing r top with
  | nil =>
      obtain ⟨hjoin, hbar, hplus⟩ := h
      rw [leads_iff_of_cell? (Or.inr hjoin.left)]
      simp [junctions, hjoin.left, not_leads_of_cell? hplus hbar]
  | cons next rest ih =>
      obtain ⟨hjoin, hbars, -, hrest⟩ := h
      have hwalk : rung.Leads c (r + 1) j ↔ rung.Leads c (r + 1 + top.height) j :=
        leads_along_bars top.height (fun i hri hi => (hbars i (by omega) (by omega)).1) j
      rw [leads_iff_of_cell? (Or.inr hjoin.left), hwalk, Nat.add_right_comm, ih hrest]
      simp [junctions, hjoin.left]

theorem Railed.branchRows
    (h : rung.Railed c x r top below) :
    rung.BranchRows r c (junctions r (top :: below)) := by
  have hcell := h.joins.left
  refine ⟨pairwise_junctions r _, fun j => ?_⟩
  rw [← h.leads_iff, leads_iff_of_cell? (Or.inr hcell), isBranch_iff_leads hcell]
  simp [hcell]

theorem Railed.closesAt
    (h : rung.Railed c x r top below) :
    rung.ClosesAt r (junctions r (top :: below)) x := by
  induction below generalizing r top with
  | nil =>
      refine ⟨fun j hj => ?_, fun i j hj hri hij => ?_⟩
      · rw [List.mem_singleton.mp hj]
        exact h.1.right
      · rw [List.mem_singleton.mp hj] at hij
        omega
  | cons next rest ih =>
      obtain ⟨hjoin, hbars, -, hrest⟩ := h
      obtain ⟨hplus, hbetween⟩ := ih hrest
      refine ⟨fun j hj => ?_, fun i j hj hri hij => ?_⟩
      · rcases List.mem_cons.mp hj with rfl | hj
        · exact hjoin.right
        · exact hplus j hj
      · rcases List.mem_cons.mp hj with rfl | hj
        · omega
        · rcases Nat.lt_or_ge i (r + top.height + 1) with hi | hi
          · rcases Nat.eq_or_lt_of_le hri with rfl | hlt
            · exact Or.inr hjoin.right
            · exact Or.inl (hbars i hlt (by omega)).2
          · exact hbetween i j hj hi hij

/-- The blank row above the second branch keeps every column between the rails from closing the
block. -/
theorem Railed.rightRail
    {e : Nat}
    (h : rung.Railed c x r top below)
    (hbelow : below ≠ []) (hcx : c < x) (hxe : x < e) :
    rung.RightRail r c e (junctions r (top :: below)) x := by
  refine ⟨hcx, hxe, h.closesAt, ?_⟩
  intro y hcy hyx hcloses
  cases below with
  | nil => exact hbelow rfl
  | cons next rest =>
      obtain ⟨-, -, hblank, -⟩ := h
      have hbar := hcloses.2 (r + top.height) (r + top.height + 1)
        (List.mem_cons_of_mem _ List.mem_cons_self) (by omega) (by omega)
      rw [hblank y hcy hyx] at hbar
      simp at hbar

theorem Railed.mapM_read?
    (h : rung.Railed c x r top below) :
    ((junctions r (top :: below)).mapM fun j => rung.read? .branch j (c + 1) x) =
      Figure.branchWires (top :: below) := by
  apply mapM_eq_of_forall₂
  induction below generalizing r top with
  | nil => exact .cons h.1.reads .nil
  | cons next rest ih => exact .cons h.1.reads (ih h.2.2.2)

/-- Branches between two rails are read as a block. -/
theorem Railed.read?_eq
    {scope : Scope} {e : Nat}
    (h : rung.Railed c x r top below)
    (hbelow : below ≠ []) (hcx : c < x) (hxe : x < e) :
    rung.read? scope r c e =
      (rung.read? scope r (x + 1) e).bind (top.block below).onto := by
  rw [read?_block h.joins.left h.branchRows (h.rightRail hbelow hcx hxe), h.mapM_read?,
    Figure.block]
  cases Figure.branchWires (top :: below) with
  | none => cases rung.read? scope r (x + 1) e <;> rfl
  | some branches => cases rung.read? scope r (x + 1) e <;> rfl

end Blocks

end Rung
end RelayLadder
