import Mathlib.Data.List.Sort
import Mathlib.Tactic.Common
import RelayLadder.Wire.Reader

/-!
# The grammar of a drawn rung

A rung is a plane of cells, addressed by row and column.  This module says which
parts of the plane are elements, blocks and wires, without saying how they are
found.

**Regions.**  A region is a part `[c, e)` of one row.  `Derivation rung scope r c e`
is the type of the ways in which the region of row `r` can be read as a wire:
elements and blocks from left to right, with runs of `-` between them, up to a
place from which the region shows blanks only.

**Blocks.**  A block opens at a `+`.  Its branch rows are given by `BranchRows`,
its right rail by `RightRail`, and each branch is a region strictly between the
two rails.

**Results.**
* `Derivation.unique`: a region has at most one derivation.
* `Derivation.wire` and `Derivation.code`: the wire and the program that a
  derivation stands for.
-/

namespace RelayLadder

open Wire (Scope)

/-- Programs of operands in order, each but the first followed by `op`. -/
def Program.chain (op : Instruction) : List Program → Program
  | [] => []
  | first :: rest => first ++ rest.flatMap (· ++ [op])

namespace Rung

section Cells

/-- The cell in a row and a column, if there is one. -/
def cell? (rung : Rung) (r c : Nat) : Option Char :=
  rung.rows[r]?.bind (·.get? c)

/-- The cells of a row strictly between two columns. -/
def inner (rung : Rung) (r c j : Nat) : List Char :=
  (rung.rows[r]?.map (·.between (c + 1) j)).getD []

/-- The number of cells in a row; there are none in a row that does not exist. -/
def rowLength (rung : Rung) (r : Nat) : Nat :=
  (rung.rows[r]?.map Row.length).getD 0

/-- From column `c` on, the region that ends before column `e` shows blanks only. -/
def BlankUpTo (rung : Rung) (r c e : Nat) : Prop :=
  ∀ i, c ≤ i → i < e → ∀ ch, rung.cell? r i = some ch → Text.isBlank ch = true

variable {rung : Rung} {r c e : Nat}

theorem BlankUpTo.not_shown
    {ch : Char}
    (hblank : rung.BlankUpTo r c e)
    (hce : c < e)
    (hcell : rung.cell? r c = some ch)
    (hch : Text.isBlank ch = false) :
    False := by
  have h := hblank c (Nat.le_refl c) hce ch hcell
  rw [hch] at h
  cases h

end Cells

section Elements

/-- An element opens in column `c` and ends at the first closing character, in column `j`. -/
structure Encloses (rung : Rung) (opener closer : Char) (r c j e : Nat) : Prop where
  opens : rung.cell? r c = some opener
  after : c < j
  before : j < e
  closes : rung.cell? r j = some closer
  first : ∀ i, c < i → i < j → rung.cell? r i ≠ some closer

/-- A text holds a name, which is not empty, behind at most one negation mark. -/
inductive Labels : List Char → String → Bool → Prop
  | plain {text : List Char} {name : String} :
      Text.trim text = name.toList →
      name ≠ "" →
      name.toList.head? ≠ some '/' →
      Labels text name false
  | negated {text rest : List Char} {name : String} :
      Text.trim text = '/' :: rest →
      Text.trim rest = name.toList →
      name ≠ "" →
      Labels text name true

/-- A text holds the tokens of a call, of which there is at least one. -/
def Spells (text : List Char) (tokens : List String) : Prop :=
  Text.words text = tokens.map String.toList ∧ tokens ≠ []

variable {rung : Rung} {r c j e : Nat} {opener closer : Char}

theorem Encloses.lt
    (h : rung.Encloses opener closer r c j e) :
    c < e :=
  h.after.trans h.before

/-- The first closing character of an element is in one column only. -/
theorem Encloses.column_eq
    {j' : Nat}
    (h : rung.Encloses opener closer r c j e)
    (h' : rung.Encloses opener closer r c j' e) :
    j = j' := by
  rcases Nat.lt_trichotomy j j' with hlt | heq | hgt
  · exact absurd h.closes (h'.first j h.after hlt)
  · exact heq
  · exact absurd h'.closes (h.first j' h'.after hgt)

/-- A text holds at most one name. -/
theorem Labels.eq
    {text : List Char} {name name' : String} {negated negated' : Bool}
    (h : Labels text name negated)
    (h' : Labels text name' negated') :
    name = name' ∧ negated = negated' := by
  cases h with
  | plain htrim _ hhead =>
      cases h' with
      | plain htrim' _ _ =>
          exact ⟨String.toList_inj.mp (htrim.symm.trans htrim'), rfl⟩
      | negated htrim' _ _ =>
          rw [← htrim, htrim'] at hhead
          exact absurd rfl hhead
  | negated htrim hrest _ =>
      cases h' with
      | plain htrim' _ hhead' =>
          rw [← htrim', htrim] at hhead'
          exact absurd rfl hhead'
      | negated htrim' hrest' _ =>
          rw [htrim] at htrim'
          cases htrim'
          exact ⟨String.toList_inj.mp (hrest.symm.trans hrest'), rfl⟩

/-- A text spells at most one list of tokens. -/
theorem Spells.eq
    {text : List Char} {tokens tokens' : List String}
    (h : Spells text tokens)
    (h' : Spells text tokens') :
    tokens = tokens' := by
  have hmap : tokens.map String.toList = tokens'.map String.toList :=
    h.1.symm.trans h'.1
  exact List.map_injective_iff.mpr (fun _ _ => String.toList_inj.mp) hmap

end Elements

section Blocks

/-- Column `c` leads from row `r` down to a `+` in row `j`, along `|` and `+`. -/
def IsBranch (rung : Rung) (r c j : Nat) : Prop :=
  r ≤ j ∧ rung.cell? j c = some '+' ∧
    ∀ i, r < i → i < j → rung.cell? i c = some '|' ∨ rung.cell? i c = some '+'

/-- The branch rows of the block that opens in row `r` and column `c`, from top to bottom. -/
structure BranchRows (rung : Rung) (r c : Nat) (js : List Nat) : Prop where
  ascending : js.Pairwise (· < ·)
  mem_iff : ∀ j, j ∈ js ↔ rung.IsBranch r c j

/-- Column `x` shows `+` on the branch rows, and `|` or `+` on the rows between them. -/
def ClosesAt (rung : Rung) (r : Nat) (js : List Nat) (x : Nat) : Prop :=
  (∀ j ∈ js, rung.cell? j x = some '+') ∧
    ∀ i, ∀ j ∈ js, r ≤ i → i < j → rung.cell? i x = some '|' ∨ rung.cell? i x = some '+'

/-- The right rail of a block is the first column that closes it inside the region. -/
structure RightRail (rung : Rung) (r c e : Nat) (js : List Nat) (x : Nat) : Prop where
  after : c < x
  before : x < e
  closes : rung.ClosesAt r js x
  least : ∀ y, c < y → y < x → ¬ rung.ClosesAt r js y

variable {rung : Rung} {r c e x : Nat} {js : List Nat}

/-- The branch rows of a block are determined by its left column. -/
theorem BranchRows.eq
    {js' : List Nat}
    (h : rung.BranchRows r c js)
    (h' : rung.BranchRows r c js') :
    js = js' :=
  h.ascending.eq_of_mem_iff h'.ascending fun j => (h.mem_iff j).trans (h'.mem_iff j).symm

theorem RightRail.lt
    (h : rung.RightRail r c e js x) :
    c < e :=
  h.after.trans h.before

/-- A block has at most one right rail. -/
theorem RightRail.column_eq
    {x' : Nat}
    (h : rung.RightRail r c e js x)
    (h' : rung.RightRail r c e js x') :
    x = x' := by
  rcases Nat.lt_trichotomy x x' with hlt | heq | hgt
  · exact absurd h.closes (h'.least x h.after hlt)
  · exact heq
  · exact absurd h'.closes (h.least x' h'.after hgt)

end Blocks

/-- The ways to read a region of a row as a wire.  Coils stand on the rung row only. -/
inductive Derivation (rung : Rung) : Scope → Nat → Nat → Nat → Type
  | finish {scope : Scope} {r c e : Nat} :
      rung.BlankUpTo r c e →
      Derivation rung scope r c e
  | dash {scope : Scope} {r c e : Nat} :
      c < e →
      rung.cell? r c = some '-' →
      Derivation rung scope r (c + 1) e →
      Derivation rung scope r c e
  | contact {scope : Scope} {r c e : Nat} (j : Nat) (name : String) (negated : Bool) :
      rung.Encloses '[' ']' r c j e →
      Labels (rung.inner r c j) name negated →
      Derivation rung scope r (j + 1) e →
      Derivation rung scope r c e
  | call {scope : Scope} {r c e : Nat} (j : Nat) (tokens : List String) :
      rung.Encloses '\x7b' '\x7d' r c j e →
      Spells (rung.inner r c j) tokens →
      Derivation rung scope r (j + 1) e →
      Derivation rung scope r c e
  | coil {r c e : Nat} (j : Nat) (name : String) (negated : Bool) :
      rung.Encloses '(' ')' r c j e →
      Labels (rung.inner r c j) name negated →
      Derivation rung .rung r (j + 1) e →
      Derivation rung .rung r c e
  | block {scope : Scope} {r c e : Nat} (js : List Nat) (x : Nat) :
      rung.cell? r c = some '+' →
      rung.BranchRows r c js →
      rung.RightRail r c e js x →
      (∀ j ∈ js, Derivation rung .branch j (c + 1) x) →
      Derivation rung scope r (x + 1) e →
      Derivation rung scope r c e

/-- The ways to read a rung: the whole of its first row is read. -/
abbrev Reading (rung : Rung) : Type :=
  Derivation rung .rung 0 0 (rung.rowLength 0)

namespace Derivation

variable {rung : Rung}

section Meaning

/-- The program of a derivation.  `joined` tells whether an operand stands to the left: each
operand of a series but the first is followed by `conj`, and a coil ends the series. -/
def codeFrom {scope : Scope} {r c e : Nat} (joined : Bool) :
    Derivation rung scope r c e → Program
  | finish _ => []
  | dash _ _ rest => rest.codeFrom joined
  | contact _ name negated _ _ rest =>
      [.read name] ++ (if negated then [.invert] else []) ++
        (if joined then [.conj] else []) ++ rest.codeFrom true
  | call _ tokens _ _ rest =>
      [.call tokens] ++ (if joined then [.conj] else []) ++ rest.codeFrom true
  | coil _ name negated _ _ rest =>
      (if negated then [.invert] else []) ++ [.write name] ++ rest.codeFrom false
  | block js _ _ _ _ branches rest =>
      Program.chain .disj (js.attach.map fun j => (branches j.1 j.2).codeFrom false) ++
        (if joined then [.conj] else []) ++ rest.codeFrom true

/-- The program of a derivation of a whole rung. -/
def code (d : rung.Reading) : Program :=
  d.codeFrom false

/-- The elements along the wire that a derivation describes. -/
def wire {scope : Scope} {r c e : Nat} : Derivation rung scope r c e → Wire
  | finish _ => .finish
  | dash _ _ rest => rest.wire
  | contact _ name negated _ _ rest => .contact name negated rest.wire
  | call _ tokens _ _ rest => .call tokens rest.wire
  | coil _ name negated _ _ rest => .coil name negated rest.wire
  | block js _ _ _ _ branches rest =>
      .block (js.attach.map fun j => (branches j.1 j.2).wire) rest.wire

end Meaning

section Uniqueness

variable {scope : Scope} {r c e : Nat}

/-- **A region has at most one derivation.** -/
theorem unique
    (d d' : Derivation rung scope r c e) :
    d = d' := by
  -- The first cell of the region decides the constructor; blanks start no element.
  induction d with
  | finish hblank =>
      cases d' with
      | finish _ => rfl
      | dash hce hcell _ => exact (hblank.not_shown hce hcell (by decide)).elim
      | contact j _ _ henc _ _ =>
          exact (hblank.not_shown henc.lt henc.opens (by decide)).elim
      | call j _ henc _ _ =>
          exact (hblank.not_shown henc.lt henc.opens (by decide)).elim
      | coil j _ _ henc _ _ =>
          exact (hblank.not_shown henc.lt henc.opens (by decide)).elim
      | block js x hcell _ hrail _ _ =>
          exact (hblank.not_shown hrail.lt hcell (by decide)).elim
  | dash hce hcell rest ih =>
      cases d' with
      | finish hblank => exact (hblank.not_shown hce hcell (by decide)).elim
      | dash _ _ rest' => rw [ih rest']
      | contact _ _ _ henc _ _ => cases hcell.symm.trans henc.opens
      | call _ _ henc _ _ => cases hcell.symm.trans henc.opens
      | coil _ _ _ henc _ _ => cases hcell.symm.trans henc.opens
      | block _ _ hcell' _ _ _ _ => cases hcell.symm.trans hcell'
  | contact j name negated henc hlabel rest ih =>
      cases d' with
      | finish hblank =>
          exact (hblank.not_shown henc.lt henc.opens (by decide)).elim
      | dash _ hcell _ => cases hcell.symm.trans henc.opens
      | contact j' name' negated' henc' hlabel' rest' =>
          obtain rfl := henc.column_eq henc'
          obtain ⟨rfl, rfl⟩ := hlabel.eq hlabel'
          rw [ih rest']
      | call _ _ henc' _ _ => cases henc.opens.symm.trans henc'.opens
      | coil _ _ _ henc' _ _ => cases henc.opens.symm.trans henc'.opens
      | block _ _ hcell _ _ _ _ => cases hcell.symm.trans henc.opens
  | call j tokens henc hspell rest ih =>
      cases d' with
      | finish hblank =>
          exact (hblank.not_shown henc.lt henc.opens (by decide)).elim
      | dash _ hcell _ => cases hcell.symm.trans henc.opens
      | contact _ _ _ henc' _ _ => cases henc.opens.symm.trans henc'.opens
      | call j' tokens' henc' hspell' rest' =>
          obtain rfl := henc.column_eq henc'
          obtain rfl := hspell.eq hspell'
          rw [ih rest']
      | coil _ _ _ henc' _ _ => cases henc.opens.symm.trans henc'.opens
      | block _ _ hcell _ _ _ _ => cases hcell.symm.trans henc.opens
  | coil j name negated henc hlabel rest ih =>
      cases d' with
      | finish hblank =>
          exact (hblank.not_shown henc.lt henc.opens (by decide)).elim
      | dash _ hcell _ => cases hcell.symm.trans henc.opens
      | contact _ _ _ henc' _ _ => cases henc.opens.symm.trans henc'.opens
      | call _ _ henc' _ _ => cases henc.opens.symm.trans henc'.opens
      | coil j' name' negated' henc' hlabel' rest' =>
          obtain rfl := henc.column_eq henc'
          obtain ⟨rfl, rfl⟩ := hlabel.eq hlabel'
          rw [ih rest']
      | block _ _ hcell _ _ _ _ => cases hcell.symm.trans henc.opens
  | block js x hcell hrows hrail branches rest ihs ih =>
      cases d' with
      | finish hblank =>
          exact (hblank.not_shown hrail.lt hcell (by decide)).elim
      | dash _ hcell' _ => cases hcell.symm.trans hcell'
      | contact _ _ _ henc _ _ => cases hcell.symm.trans henc.opens
      | call _ _ henc _ _ => cases hcell.symm.trans henc.opens
      | coil _ _ _ henc _ _ => cases hcell.symm.trans henc.opens
      | block js' x' _ hrows' hrail' branches' rest' =>
          obtain rfl := hrows.eq hrows'
          obtain rfl := hrail.column_eq hrail'
          have hbranches : branches = branches' := by
            funext j hj
            exact ihs j hj (branches' j hj)
          rw [hbranches, ih rest']

end Uniqueness

end Derivation
end Rung
end RelayLadder
