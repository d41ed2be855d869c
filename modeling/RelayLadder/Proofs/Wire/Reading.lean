import RelayLadder.Proofs.Except
import RelayLadder.Proofs.Wire.Rails

/-!
# The reader follows the grammar

`Rung.read?` reads a region of a rung by position and forgets why a reading
failed.  Its equations say what is read at each kind of cell.

**Results.**
* `read?_contact`, `read?_call`, `read?_coil`, `read?_block`: one step of the
  reader at an element or a block.
* `program_iff_reading`: a rung has a program iff it has a derivation, the
  derivation is the only one, and the program is its code.
-/

namespace RelayLadder

namespace Wire

section Cells

variable {scope : Scope} {row : Row} {below : List Row} {col stop : Nat}

theorem readFrom_of_le
    (h : stop ≤ col) :
    readFrom scope row below col stop = .ok .finish := by
  rw [readFrom.eq_def, dif_neg (Nat.not_lt.mpr h)]

theorem readFrom_none
    (hcell : row.get? col = none) :
    readFrom scope row below col stop = .ok .finish := by
  rw [readFrom.eq_def]
  by_cases h : col < stop
  · simp only [h, hcell, dite_true]
  · simp only [h, dite_false]

theorem readFrom_dash
    (h : col < stop) (hcell : row.get? col = some '-') :
    readFrom scope row below col stop = readFrom scope row below (col + 1) stop := by
  rw [readFrom.eq_def, dif_pos h]
  simp only [hcell]

theorem readFrom_contact
    (h : col < stop) (hcell : row.get? col = some '[') :
    readFrom scope row below col stop = (do
      let text ← operand row ']' col stop isNameless
      let rest ← readFrom scope row below (col + text.length + 2) stop
      return .contact (nameOf text).1 (nameOf text).2 rest) := by
  rw [readFrom.eq_def, dif_pos h]
  simp only [hcell]

theorem readFrom_call
    (h : col < stop) (hcell : row.get? col = some '\x7b') :
    readFrom scope row below col stop = (do
      let text ← operand row '\x7d' col stop isWordless
      let rest ← readFrom scope row below (col + text.length + 2) stop
      return .call ((Text.words text).map String.ofList) rest) := by
  rw [readFrom.eq_def, dif_pos h]
  simp only [hcell]

theorem readFrom_coil
    (h : col < stop) (hcell : row.get? col = some '(') :
    readFrom .rung row below col stop = (do
      let text ← operand row ')' col stop isNameless
      let rest ← readFrom .rung row below (col + text.length + 2) stop
      return .coil (nameOf text).1 (nameOf text).2 rest) := by
  rw [readFrom.eq_def, dif_pos h]
  simp only [hcell]

theorem readFrom_coil_branch
    (h : col < stop) (hcell : row.get? col = some '(') :
    readFrom .branch row below col stop = .error (row.malformed .coilInBranch col) := by
  rw [readFrom.eq_def, dif_pos h]
  simp only [hcell]

theorem readFrom_unclosed
    (h : col < stop) (hcell : row.get? col = some '+')
    (hrail : rightRail? row below col stop = none) :
    readFrom scope row below col stop = .error (row.malformed .unclosedBranch col) := by
  rw [readFrom.eq_def, dif_pos h]
  simp only [hcell]
  split
  · rfl
  · rename_i hsome
    rw [hrail] at hsome
    cases hsome

theorem readFrom_block
    {x : Nat}
    (h : col < stop) (hcell : row.get? col = some '+')
    (hrail : rightRail? row below col stop = some x) :
    readFrom scope row below col stop = (do
      let branches ← ((row, below) :: branchRows col below).mapM fun b =>
        readFrom .branch b.1 b.2 (col + 1) x
      let rest ← readFrom scope row below (x + 1) stop
      return .block branches rest) := by
  rw [readFrom.eq_def, dif_pos h]
  simp only [hcell]
  split
  · rename_i hnone
    rw [hrail] at hnone
    cases hnone
  · rename_i hsome
    rw [hrail] at hsome
    cases hsome
    rfl

/-- At any other cell the region must be blank to its end. -/
theorem readFrom_other
    {ch : Char}
    (h : col < stop) (hcell : row.get? col = some ch)
    (hch : ch ≠ '-' ∧ ch ≠ '[' ∧ ch ≠ '\x7b' ∧ ch ≠ '(' ∧ ch ≠ '+') :
    readFrom scope row below col stop =
      if (row.between col stop).all Text.isBlank then .ok .finish
      else .error (row.malformed .unrecognized col) := by
  obtain ⟨h1, h2, h3, h4, h5⟩ := hch
  rw [readFrom.eq_def, dif_pos h]
  simp only [hcell]

end Cells

end Wire

namespace Rung

open Wire

variable {rung : Rung} {scope : Scope} {r c e : Nat} {row : Row} {below : List Row}

section Texts

theorem getElem?_between
    (row : Row) (i k n : Nat) :
    (row.between i k)[n]? = if i + n < k then row.get? (i + n) else none := by
  simp [Row.between, Row.get?, List.getElem?_drop, List.getElem?_take]

theorem mem_between_iff
    {i k : Nat} {ch : Char} :
    ch ∈ row.between i k ↔ ∃ j, i ≤ j ∧ j < k ∧ row.get? j = some ch := by
  rw [List.mem_iff_getElem?]
  constructor
  · rintro ⟨n, hn⟩
    rw [getElem?_between] at hn
    split at hn
    · exact ⟨i + n, by omega, by omega, hn⟩
    · cases hn
  · rintro ⟨j, hij, hjk, hj⟩
    refine ⟨j - i, ?_⟩
    rw [getElem?_between]
    simp [show i + (j - i) = j by omega, hjk, hj]

theorem length_between
    (row : Row) (i : Nat) {j : Nat} (hj : j ≤ row.length) :
    (row.between i j).length = j - i := by
  rw [Row.length] at hj
  simp only [Row.between, List.length_drop, List.length_take]
  rw [Nat.min_eq_left hj]

theorem between_append
    (row : Row) {i j k : Nat} (hij : i ≤ j) (hjk : j ≤ k) (hj : j ≤ row.length) :
    row.between i j ++ row.between j k = row.between i k := by
  apply List.ext_getElem?
  intro n
  rw [List.getElem?_append, length_between row i hj, getElem?_between, getElem?_between,
    getElem?_between]
  by_cases hn : n < j - i
  · simp [hn, show i + n < j by omega, show i + n < k by omega]
  · simp [hn, show j + (n - (j - i)) = i + n by omega]

theorem inner_of_drop
    (h : rung.rows.drop r = row :: below) (c j : Nat) :
    rung.inner r c j = row.between (c + 1) j := by
  simp [inner, getElem?_of_drop h]

variable {opener closer : Char} {j : Nat}

theorem Encloses.lt_length
    (h : rung.rows.drop r = row :: below)
    (henc : rung.Encloses opener closer r c j e) :
    j < row.length := by
  have hcell := henc.closes
  rw [cell?_of_drop h, Row.get?] at hcell
  exact (List.getElem?_eq_some_iff.mp hcell).1

theorem Encloses.length_inner
    (h : rung.rows.drop r = row :: below)
    (henc : rung.Encloses opener closer r c j e) :
    (rung.inner r c j).length = j - (c + 1) := by
  rw [inner_of_drop h]
  exact length_between row (c + 1) (Nat.le_of_lt (henc.lt_length h))

/-- The reader takes the text up to the first closing character. -/
theorem inside?_of_encloses
    (h : rung.rows.drop r = row :: below)
    (henc : rung.Encloses opener closer r c j e) :
    inside? row closer c e = some (rung.inner r c j) := by
  have hj : row.get? j = some closer := (cell?_of_drop h j).symm.trans henc.closes
  have hsplit : row.between (c + 1) j ++ row.between j e = row.between (c + 1) e :=
    between_append row henc.after (Nat.le_of_lt henc.before) (Nat.le_of_lt (henc.lt_length h))
  have hmem : closer ∈ row.between (c + 1) e :=
    mem_between_iff.mpr ⟨j, henc.after, henc.before, hj⟩
  have hfront : ∀ a ∈ row.between (c + 1) j, (a != closer) = true := by
    intro a ha
    obtain ⟨k, hck, hkj, hk⟩ := mem_between_iff.mp ha
    have hne := henc.first k hck hkj
    rw [cell?_of_drop h, hk] at hne
    simpa using hne
  obtain ⟨tail, htail⟩ : ∃ tail, row.between j e = closer :: tail := by
    have hhead : (row.between j e)[0]? = some closer := by
      rw [getElem?_between]
      simp [henc.before, hj]
    cases hcells : row.between j e with
    | nil =>
        rw [hcells] at hhead
        cases hhead
    | cons a tail =>
        rw [hcells] at hhead
        cases hhead
        exact ⟨tail, rfl⟩
  rw [inside?, if_pos (List.contains_iff_mem.mpr hmem), ← hsplit,
    List.takeWhile_append_of_pos hfront, htail, inner_of_drop h]
  simp

/-- What the reader takes ends at a closing character. -/
theorem exists_encloses
    {text : List Char}
    (h : rung.rows.drop r = row :: below)
    (hcell : rung.cell? r c = some opener)
    (hin : inside? row closer c e = some text) :
    ∃ j, rung.Encloses opener closer r c j e := by
  rw [inside?] at hin
  split at hin
  · rename_i hmem
    obtain hsome := mem_between_iff.mp (List.contains_iff_mem.mp hmem)
    classical
    have hspec := Nat.find_spec hsome
    refine ⟨Nat.find hsome, hcell, hspec.1, hspec.2.1, ?_, fun i hci hij hi => ?_⟩
    · rw [cell?_of_drop h]
      exact hspec.2.2
    · rw [cell?_of_drop h] at hi
      exact Nat.find_min hsome hij ⟨hci, hij.trans hspec.2.1, hi⟩
  · cases hin

/-- A name is read as `Labels` says. -/
theorem labels_iff
    {text : List Char} {name : String} {negated : Bool} :
    Labels text name negated ↔ nameOf text = (name, negated) ∧ isNameless text = false := by
  have hname : isNameless text = false ↔ (nameOf text).1 ≠ "" := by
    rw [isNameless, ← Bool.not_eq_true, String.isEmpty_iff]
  rw [hname]
  constructor
  · intro h
    cases h with
    | plain htrim hne hhead =>
        have hof : nameOf text = (name, false) := by
          rw [nameOf, htrim]
          split
          · rename_i hcons
            rw [hcons] at hhead
            exact absurd rfl hhead
          · rw [String.ofList_toList]
        exact ⟨hof, by rw [hof]; exact hne⟩
    | negated htrim hrest hne =>
        have hof : nameOf text = (name, true) := by
          rw [nameOf, htrim]
          simp only [hrest, String.ofList_toList]
        exact ⟨hof, by rw [hof]; exact hne⟩
  · rintro ⟨hof, hne⟩
    rw [hof] at hne
    rw [nameOf] at hof
    split at hof
    · rename_i rest hcons
      cases hof
      exact .negated hcons String.toList_ofList.symm hne
    · rename_i hcons
      cases hof
      refine .plain String.toList_ofList.symm hne fun hhead => ?_
      rw [String.toList_ofList] at hhead
      obtain ⟨rest, hrest⟩ := List.head?_eq_some_iff.mp hhead
      exact hcons rest hrest

/-- The tokens of a call are read as `Spells` says. -/
theorem spells_iff
    {text : List Char} {tokens : List String} :
    Spells text tokens ↔
      (Text.words text).map String.ofList = tokens ∧ isWordless text = false := by
  have hmap : Text.words text = tokens.map String.toList ↔
      (Text.words text).map String.ofList = tokens := by
    constructor
    · intro h
      rw [h, List.map_map]
      simp [Function.comp_def]
    · rintro rfl
      rw [List.map_map]
      simp [Function.comp_def]
  rw [Spells, hmap, isWordless]
  constructor
  · rintro ⟨rfl, hne⟩
    refine ⟨rfl, ?_⟩
    simpa using hne
  · rintro ⟨rfl, hne⟩
    refine ⟨rfl, ?_⟩
    simpa using hne

end Texts

section Steps

/-- The wire in the region from `c` to `e` of row `r`, if it can be read.  A row that does not
exist is empty. -/
def read? (rung : Rung) (scope : Scope) (r c e : Nat) : Option Wire :=
  match rung.rows.drop r with
  | [] => some .finish
  | row :: below => (readFrom scope row below c e).toOption

theorem read?_of_drop
    (h : rung.rows.drop r = row :: below) :
    rung.read? scope r c e = (readFrom scope row below c e).toOption := by
  rw [read?, h]

/-- Blanks up to the end of the region end the wire. -/
theorem read?_finish
    (hblank : rung.BlankUpTo r c e) :
    rung.read? scope r c e = some .finish := by
  cases hdrop : rung.rows.drop r with
  | nil => rw [read?, hdrop]
  | cons row below =>
      rw [read?_of_drop hdrop]
      by_cases hce : c < e
      · cases hcell : row.get? c with
        | none =>
            rw [readFrom_none hcell]
            rfl
        | some ch =>
            have hshown : rung.cell? r c = some ch := (cell?_of_drop hdrop c).trans hcell
            have hch : Text.isBlank ch = true := hblank c (Nat.le_refl c) hce ch hshown
            have hall : (row.between c e).all Text.isBlank = true := by
              rw [List.all_eq_true]
              intro a ha
              obtain ⟨i, hci, hie, hi⟩ := mem_between_iff.mp ha
              exact hblank i hci hie a ((cell?_of_drop hdrop i).trans hi)
            have hother : ch ≠ '-' ∧ ch ≠ '[' ∧ ch ≠ '\x7b' ∧ ch ≠ '(' ∧ ch ≠ '+' := by
              refine ⟨?_, ?_, ?_, ?_, ?_⟩ <;>
                · rintro rfl
                  revert hch
                  decide
            rw [readFrom_other hce hcell hother, if_pos hall]
            rfl
      · rw [readFrom_of_le (Nat.not_lt.mp hce)]
        rfl

theorem read?_dash
    (hce : c < e) (hcell : rung.cell? r c = some '-') :
    rung.read? scope r c e = rung.read? scope r (c + 1) e := by
  obtain ⟨row, below, hdrop⟩ := exists_drop_of_cell? hcell
  rw [cell?_of_drop hdrop] at hcell
  rw [read?_of_drop hdrop, read?_of_drop hdrop, readFrom_dash hce hcell]

variable {opener closer : Char} {j : Nat}

/-- What follows an element depends on its text only, which must not be empty. -/
theorem toOption_operand_bind
    {isEmpty : List Char → Bool} {make : List Char → Wire → Wire}
    (h : rung.rows.drop r = row :: below)
    (henc : rung.Encloses opener closer r c j e) :
    (do
      let text ← operand row closer c e isEmpty
      let rest ← readFrom scope row below (c + text.length + 2) e
      return make text rest : Except Fault Wire).toOption =
    if isEmpty (rung.inner r c j) then none
    else (rung.read? scope r (j + 1) e).map (make (rung.inner r c j)) := by
  have hnext : c + (rung.inner r c j).length + 2 = j + 1 := by
    rw [henc.length_inner h]
    have := henc.after
    omega
  rw [operand, inside?_of_encloses h henc]
  by_cases hempty : isEmpty (rung.inner r c j) = true
  · simp only [hempty, if_true]
    rfl
  · simp only [hempty]
    change (do
      let rest ← readFrom scope row below (c + (rung.inner r c j).length + 2) e
      return make (rung.inner r c j) rest : Except Fault Wire).toOption = _
    rw [hnext, read?_of_drop h]
    cases readFrom scope row below (j + 1) e with
    | error _ => rfl
    | ok _ => rfl

theorem read?_contact
    (henc : rung.Encloses '[' ']' r c j e) :
    rung.read? scope r c e =
      if isNameless (rung.inner r c j) then none
      else (rung.read? scope r (j + 1) e).map
        (.contact (nameOf (rung.inner r c j)).1 (nameOf (rung.inner r c j)).2) := by
  obtain ⟨row, below, hdrop⟩ := exists_drop_of_cell? henc.opens
  have hcell := (cell?_of_drop hdrop c).symm.trans henc.opens
  rw [read?_of_drop hdrop, readFrom_contact henc.lt hcell]
  exact toOption_operand_bind hdrop henc

theorem read?_call
    (henc : rung.Encloses '\x7b' '\x7d' r c j e) :
    rung.read? scope r c e =
      if isWordless (rung.inner r c j) then none
      else (rung.read? scope r (j + 1) e).map
        (.call ((Text.words (rung.inner r c j)).map String.ofList)) := by
  obtain ⟨row, below, hdrop⟩ := exists_drop_of_cell? henc.opens
  have hcell := (cell?_of_drop hdrop c).symm.trans henc.opens
  rw [read?_of_drop hdrop, readFrom_call henc.lt hcell]
  exact toOption_operand_bind hdrop henc

theorem read?_coil
    (henc : rung.Encloses '(' ')' r c j e) :
    rung.read? .rung r c e =
      if isNameless (rung.inner r c j) then none
      else (rung.read? .rung r (j + 1) e).map
        (.coil (nameOf (rung.inner r c j)).1 (nameOf (rung.inner r c j)).2) := by
  obtain ⟨row, below, hdrop⟩ := exists_drop_of_cell? henc.opens
  have hcell := (cell?_of_drop hdrop c).symm.trans henc.opens
  rw [read?_of_drop hdrop, readFrom_coil henc.lt hcell]
  exact toOption_operand_bind hdrop henc

/-- The branches of a block are read between its rails, and the rest behind the right one. -/
theorem read?_block
    {js : List Nat} {x : Nat}
    (hcell : rung.cell? r c = some '+')
    (hjs : rung.BranchRows r c js)
    (hrail : rung.RightRail r c e js x) :
    rung.read? scope r c e =
      (js.mapM fun j => rung.read? .branch j (c + 1) x).bind fun branches =>
        (rung.read? scope r (x + 1) e).map (.block branches) := by
  obtain ⟨row, below, hdrop⟩ := exists_drop_of_cell? hcell
  obtain ⟨js', hrows, hjs'⟩ := exists_branchRows hdrop hcell
  obtain rfl := hjs.eq hjs'
  have hfound := (rightRail?_eq_some_iff hdrop hcell hjs).mpr hrail
  have hbranches :
      (js.mapM fun j => rung.read? .branch j (c + 1) x) =
        ((row, below) :: branchRows c below).mapM fun b =>
          (readFrom .branch b.1 b.2 (c + 1) x).toOption := by
    apply mapM_eq_of_forall₂
    exact hrows.imp fun j b hj => read?_of_drop hj
  have hrowcell := (cell?_of_drop hdrop c).symm.trans hcell
  rw [read?_of_drop hdrop, readFrom_block hrail.lt hrowcell hfound, toOption_bind,
    toOption_mapM, hbranches]
  congr 1
  funext branches
  rw [toOption_bind, read?_of_drop hdrop]
  cases readFrom scope row below (x + 1) e with
  | error _ => rfl
  | ok _ => rfl

end Steps

section Programs

theorem blockCode_eq_chain
    (ws : List Wire) :
    blockCode ws = Program.chain .disj (ws.map (codeFrom false)) := by
  cases ws with
  | nil => rfl
  | cons top below =>
      have hbelow : branchesCode below =
          (below.map (codeFrom false)).flatMap (· ++ [.disj]) := by
        induction below with
        | nil => rfl
        | cons branch below ih => simp [branchesCode, ih]
      simp [blockCode, Program.chain, hbelow]

/-- The wire of a derivation has the derivation's code. -/
theorem Derivation.codeFrom_wire
    (d : Derivation rung scope r c e) (joined : Bool) :
    d.wire.codeFrom joined = d.codeFrom joined := by
  induction d generalizing joined with
  | finish _ => rfl
  | dash _ _ rest ih => exact ih joined
  | contact j name negated _ _ rest ih =>
      simp [Derivation.wire, Derivation.codeFrom, Wire.codeFrom, inversion, join, ih]
  | call j tokens _ _ rest ih =>
      simp [Derivation.wire, Derivation.codeFrom, Wire.codeFrom, join, ih]
  | coil j name negated _ _ rest ih =>
      simp [Derivation.wire, Derivation.codeFrom, Wire.codeFrom, inversion, ih]
  | block js x _ _ _ branches rest ihs ih =>
      simp only [Derivation.wire, Derivation.codeFrom, Wire.codeFrom, join,
        blockCode_eq_chain, List.map_map, ih]
      congr 3
      apply List.map_congr_left
      intro j _
      exact ihs j.1 j.2 false

/-- A derivation is read as its wire. -/
theorem Derivation.read?_eq
    (d : Derivation rung scope r c e) :
    rung.read? scope r c e = some d.wire := by
  induction d with
  | finish hblank => exact read?_finish hblank
  | dash hce hcell rest ih =>
      rw [read?_dash hce hcell, ih]
      rfl
  | contact j name negated henc hlabel rest ih =>
      obtain ⟨hname, hne⟩ := labels_iff.mp hlabel
      rw [read?_contact henc, hname, hne, ih]
      rfl
  | call j tokens henc hspell rest ih =>
      obtain ⟨htokens, hne⟩ := spells_iff.mp hspell
      rw [read?_call henc, htokens, hne, ih]
      rfl
  | coil j name negated henc hlabel rest ih =>
      obtain ⟨hname, hne⟩ := labels_iff.mp hlabel
      rw [read?_coil henc, hname, hne, ih]
      rfl
  | block js x hcell hrows hrail branches rest ihs ih =>
      rw [read?_block hcell hrows hrail, ih,
        mapM_eq_some_attach fun j => ihs j.1 j.2]
      rfl

theorem blankUpTo_of_get?_none
    (h : rung.rows.drop r = row :: below)
    (hcell : row.get? c = none) :
    rung.BlankUpTo r c e := by
  intro i hci _ ch hi
  rw [cell?_of_drop h, Row.get?, List.getElem?_eq_some_iff] at hi
  obtain ⟨hlt, _⟩ := hi
  have hlen := List.getElem?_eq_none_iff.mp hcell
  omega

/-- An element that is read encloses a text that is not empty. -/
theorem exists_encloses_of_operand
    {opener closer : Char} {isEmpty : List Char → Bool} {text : List Char}
    (h : rung.rows.drop r = row :: below)
    (hcell : row.get? c = some opener)
    (hop : operand row closer c e isEmpty = .ok text) :
    ∃ j, rung.Encloses opener closer r c j e ∧
      c + text.length + 2 = j + 1 ∧
      text = rung.inner r c j ∧
      isEmpty text = false := by
  have hshown : rung.cell? r c = some opener := (cell?_of_drop h c).trans hcell
  rw [operand] at hop
  cases hin : inside? row closer c e with
  | none =>
      rw [hin] at hop
      cases hop
  | some text' =>
      rw [hin] at hop
      obtain ⟨j, henc⟩ := exists_encloses h hshown hin
      rw [inside?_of_encloses h henc] at hin
      cases hin
      by_cases hempty : isEmpty (rung.inner r c j) = true
      · simp only [hempty, if_true] at hop
        cases hop
      · simp only [hempty] at hop
        cases hop
        refine ⟨j, henc, ?_, rfl, Bool.not_eq_true _ ▸ hempty⟩
        rw [henc.length_inner h]
        have := henc.after
        omega

/-- What is read has a derivation. -/
theorem nonempty_derivation
    (scope : Scope) (row : Row) (below : List Row) (c e : Nat) :
    ∀ (r : Nat) (w : Wire), rung.rows.drop r = row :: below →
      readFrom scope row below c e = .ok w →
      Nonempty (Derivation rung scope r c e) := by
  induction scope, row, below, c, e using readFrom.induct with
  | case1 scope row below c e hce hcell =>
      intro r w h _
      exact ⟨.finish (blankUpTo_of_get?_none h hcell)⟩
  | case2 scope row below c e hce hcell ih =>
      intro r w h hread
      rw [readFrom_dash hce hcell] at hread
      obtain ⟨rest⟩ := ih r w h hread
      exact ⟨.dash hce ((cell?_of_drop h c).trans hcell) rest⟩
  | case3 scope row below c e hce hcell ih =>
      intro r w h hread
      rw [readFrom_contact hce hcell] at hread
      obtain ⟨text, hop, hread⟩ := bind_eq_ok hread
      obtain ⟨w', hrest, _⟩ := bind_eq_ok hread
      obtain ⟨j, henc, hnext, htext, hne⟩ := exists_encloses_of_operand h hcell hop
      obtain ⟨rest⟩ := ih text r w' h hrest
      rw [hnext] at rest
      exact ⟨.contact j _ _ henc (labels_iff.mpr ⟨rfl, htext ▸ hne⟩) rest⟩
  | case4 scope row below c e hce hcell ih =>
      intro r w h hread
      rw [readFrom_call hce hcell] at hread
      obtain ⟨text, hop, hread⟩ := bind_eq_ok hread
      obtain ⟨w', hrest, _⟩ := bind_eq_ok hread
      obtain ⟨j, henc, hnext, htext, hne⟩ := exists_encloses_of_operand h hcell hop
      obtain ⟨rest⟩ := ih text r w' h hrest
      rw [hnext] at rest
      exact ⟨.call j _ henc (spells_iff.mpr ⟨rfl, htext ▸ hne⟩) rest⟩
  | case5 row below c e hce hcell =>
      intro r w h hread
      rw [readFrom_coil_branch hce hcell] at hread
      cases hread
  | case6 row below c e hce hcell ih =>
      intro r w h hread
      rw [readFrom_coil hce hcell] at hread
      obtain ⟨text, hop, hread⟩ := bind_eq_ok hread
      obtain ⟨w', hrest, _⟩ := bind_eq_ok hread
      obtain ⟨j, henc, hnext, htext, hne⟩ := exists_encloses_of_operand h hcell hop
      obtain ⟨rest⟩ := ih text r w' h hrest
      rw [hnext] at rest
      exact ⟨.coil j _ _ henc (labels_iff.mpr ⟨rfl, htext ▸ hne⟩) rest⟩
  | case7 scope row below c e hce hcell hrail =>
      intro r w h hread
      rw [readFrom_unclosed hce hcell hrail] at hread
      cases hread
  | case8 scope row below c e hce hcell x hrail _ ihs ih =>
      intro r w h hread
      rw [readFrom_block hce hcell hrail] at hread
      obtain ⟨branches, hbranches, hread⟩ := bind_eq_ok hread
      obtain ⟨w', hrest, _⟩ := bind_eq_ok hread
      have hshown : rung.cell? r c = some '+' := (cell?_of_drop h c).trans hcell
      obtain ⟨js, hrows, hjs⟩ := exists_branchRows h hshown
      obtain ⟨rest⟩ := ih r w' h hrest
      -- Each branch row was read, so each has a derivation.
      have hread : ∀ j ∈ js, Nonempty (Derivation rung .branch j (c + 1) x) := by
        intro j hj
        obtain ⟨b, hb, hdrop⟩ := exists_of_mem_left hrows hj
        obtain ⟨w'', -, hbranch⟩ := exists_of_mem_left (mapM_eq_ok_iff.mp hbranches) hb
        exact ihs b.1 b.2 j w'' hdrop hbranch
      exact ⟨.block js x hshown hjs ((rightRail?_eq_some_iff h hshown hjs).mp hrail)
        (fun j hj => (hread j hj).some) rest⟩
  | case9 scope row below c e hce ch h1 h2 h3 h4 h5 hcell hall =>
      intro r w h _
      refine ⟨.finish fun i hci hie a hi => ?_⟩
      rw [cell?_of_drop h] at hi
      exact List.all_eq_true.mp hall a (mem_between_iff.mpr ⟨i, hci, hie, hi⟩)
  | case10 scope row below c e hce ch h1 h2 h3 h4 h5 hcell hall =>
      intro r w h hread
      rw [readFrom_other hce hcell ⟨h1, h2, h3, h4, h5⟩, if_neg hall] at hread
      cases hread
  | case11 scope row below c e hce =>
      intro r w _ _
      exact ⟨.finish fun i hci hie => by omega⟩

/-- Reading a rung from its first row. -/
theorem toOption_wire
    (rung : Rung) :
    rung.wire.toOption = rung.read? .rung 0 0 (rung.rowLength 0) := by
  cases hrows : rung.rows with
  | nil => simp [wire, read?, hrows, Except.toOption]
  | cons row below => simp [wire, read?, rowLength, hrows]

/-- The wire of a rung is the wire of its derivation. -/
theorem wire_eq_wire
    (d : rung.Reading) :
    rung.wire = .ok d.wire := by
  rw [← toOption_eq_some_iff, toOption_wire, d.read?_eq]

/-- The program of a rung is the code of its derivation. -/
theorem program_eq_code
    (d : rung.Reading) :
    rung.program = .ok d.code := by
  rw [program, wire_eq_wire d]
  change Except.ok (d.wire.codeFrom false) = _
  rw [d.codeFrom_wire]
  rfl

/-- A rung that has a program has a derivation. -/
theorem nonempty_reading
    {p : Program}
    (hp : rung.program = .ok p) :
    Nonempty rung.Reading := by
  cases hrows : rung.rows with
  | nil =>
      refine ⟨.finish fun i _ hi => ?_⟩
      simp [rowLength, hrows] at hi
  | cons row below =>
      have hlen : rung.rowLength 0 = row.length := by
        simp [rowLength, hrows]
      have hwire : rung.wire = readFrom .rung row below 0 row.length := by
        rw [wire, hrows]
      cases hread : readFrom .rung row below 0 row.length with
      | error _ =>
          rw [program, hwire, hread] at hp
          cases hp
      | ok w =>
          rw [Reading, hlen]
          exact nonempty_derivation _ _ _ _ _ 0 w (by rw [hrows]; rfl) hread

/-- The rung shows a wire, by the grammar. -/
def Draws (rung : Rung) (w : Wire) : Prop :=
  ∃ d : rung.Reading, d.wire = w

/-- The reader finds the wire that a rung shows. -/
theorem draws_iff
    {w : Wire} :
    rung.Draws w ↔ rung.wire = .ok w := by
  constructor
  · rintro ⟨d, rfl⟩
    exact wire_eq_wire d
  · intro hwire
    have hprogram : rung.program = .ok w.code := by
      rw [program, hwire]
      rfl
    obtain ⟨d⟩ := nonempty_reading hprogram
    rw [wire_eq_wire d] at hwire
    exact ⟨d, Except.ok.inj hwire⟩

/-- **The reader accepts exactly the rungs that have a derivation.**  There is then one
derivation, and the program of the rung is its code. -/
theorem program_iff_reading
    (rung : Rung) :
    ((∃ p, rung.program = .ok p) ↔ Nonempty rung.Reading) ∧
    (∀ d d' : rung.Reading, d = d') ∧
    ∀ d : rung.Reading, rung.program = .ok d.code := by
  refine ⟨⟨?_, ?_⟩, Derivation.unique, program_eq_code⟩
  · rintro ⟨p, hp⟩
    exact nonempty_reading hp
  · rintro ⟨d⟩
    exact ⟨d.code, program_eq_code d⟩

end Programs

end Rung
end RelayLadder
