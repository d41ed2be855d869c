import RelayLadder.Proofs.Refolding
import RelayLadder.Proofs.Schematic.Size

/-!
# Drawing a folded program

A program is folded before it is drawn, so a program that is folded already is folded
twice.  It is drawn like the program it comes from exactly when the second folding
changes neither a coil, as it is shown, nor the fault that is reported.

**Rows.**  A schematic determines its rows, whatever characters its names hold: its first
row is blank, and all rows have the length of the first one.

**Results.**
* `ofCoils_ne`: a negation on a contact and a negation on its coil are drawn
  differently.
* `decompile_folded_iff`: when a folded program is drawn like the program itself.
-/

namespace RelayLadder

open Canvas (Action Sheet Does)
open Rung (wired)

namespace Schematic

section Rows

variable {rows rows' : List (List Char)}

theorem intercalate_append_newline
    (hne : rows ≠ []) :
    ['\n'].intercalate rows ++ ['\n'] = rows.flatMap (· ++ ['\n']) := by
  induction rows with
  | nil => exact absurd rfl hne
  | cons row rows ih =>
      cases rows with
      | nil => simp
      | cons next rows =>
          rw [List.intercalate_cons_cons, List.append_assoc, ih (List.cons_ne_nil _ _)]
          rfl

/-- Rows of one length are determined by the text in which each of them ends a line. -/
theorem rows_eq_of_flatMap_eq
    {n : Nat}
    (hrows : ∀ row ∈ rows, row.length = n) (hrows' : ∀ row ∈ rows', row.length = n)
    (h : rows.flatMap (· ++ ['\n']) = rows'.flatMap (· ++ ['\n'])) :
    rows = rows' := by
  induction rows generalizing rows' with
  | nil =>
      cases rows' with
      | nil => rfl
      | cons row' rows' => simp at h
  | cons row rows ih =>
      cases rows' with
      | nil => simp at h
      | cons row' rows' =>
          have hlength : row.length = row'.length :=
            (hrows row List.mem_cons_self).trans (hrows' row' List.mem_cons_self).symm
          rw [List.flatMap_cons, List.flatMap_cons, List.append_assoc, List.append_assoc] at h
          obtain ⟨hfirst, hrest⟩ := List.append_inj h hlength
          rw [hfirst, ih (fun r hr => hrows r (List.mem_cons_of_mem _ hr))
            (fun r hr => hrows' r (List.mem_cons_of_mem _ hr)) (List.append_cancel_left hrest)]

/-- The length of a blank row can be read off. -/
theorem blanks_inj
    {w w' : Nat} {rest rest' : List Char}
    (h : List.replicate w ' ' ++ '|' :: rest = List.replicate w' ' ' ++ '|' :: rest') :
    w = w' := by
  have hlength := congrArg (fun text => (text.takeWhile (· == ' ')).length) h
  simpa using hlength

theorem bordered_inj
    {row row' : List Char}
    (h : bordered row = bordered row') :
    row = row' := by
  simpa [bordered] using h

variable {c c' : Canvas}

/-- A schematic that ends with a blank row determines its width. -/
theorem width_eq_of_schematic_eq
    (hc : c.Uniform) (hc' : c'.Uniform)
    (hlast : Drawing.OnNewRow c.sheet) (hlast' : Drawing.OnNewRow c'.sheet)
    (h : c.schematic = c'.schematic) :
    c.width = c'.width := by
  have hfirst : ∀ (w : Nat) (rows : List (List Char)), ∃ rest,
      ['\n'].intercalate ((List.replicate w ' ' :: rows).map bordered) =
        '|' :: '|' :: (List.replicate w ' ' ++ '|' :: rest) := by
    intro w rows
    cases rows with
    | nil => exact ⟨['|'], by simp [bordered]⟩
    | cons row rows =>
        refine ⟨'|' :: '\n' :: ['\n'].intercalate ((row :: rows).map bordered), ?_⟩
        rw [List.map_cons, List.map_cons, List.intercalate_cons_cons]
        simp [bordered]
  have htext := congrArg String.toList h
  rw [toList_schematic_of_onNewRow hc hlast, toList_schematic_of_onNewRow hc' hlast'] at htext
  obtain ⟨rest, hrest⟩ := hfirst c.width ((List.range c.row).map (Canvas.line c.look c.width))
  obtain ⟨rest', hrest'⟩ :=
    hfirst c'.width ((List.range c'.row).map (Canvas.line c'.look c'.width))
  rw [hrest, hrest'] at htext
  exact blanks_inj (List.cons.inj (List.cons.inj htext).2).2

/-- A schematic that ends with a blank row determines its rows. -/
theorem line_eq_of_schematic_eq
    {i : Nat}
    (hc : c.Uniform) (hc' : c'.Uniform)
    (hlast : Drawing.OnNewRow c.sheet) (hlast' : Drawing.OnNewRow c'.sheet)
    (h : c.schematic = c'.schematic) (hi : i < c.row) (hi' : i < c'.row) :
    Canvas.line c.look c.width i = Canvas.line c'.look c'.width i := by
  have hwidth := width_eq_of_schematic_eq hc hc' hlast hlast' h
  have htext := congrArg (String.toList · ++ ['\n']) h
  simp only [toList_schematic_of_onNewRow hc hlast,
    toList_schematic_of_onNewRow hc' hlast'] at htext
  rw [intercalate_append_newline (by simp), intercalate_append_newline (by simp)] at htext
  have hrows := rows_eq_of_flatMap_eq (fun _ => length_of_mem_bordered)
    (hwidth ▸ fun _ => length_of_mem_bordered) htext
  have hcells := congrArg (·[i + 1]?) hrows
  simp only [List.map_cons, List.getElem?_cons_succ, List.getElem?_map, List.getElem?_range hi,
    List.getElem?_range hi', Option.map_some] at hcells
  exact bordered_inj (Option.some.inj hcells)

end Rows

end Schematic

namespace Drawing

section Labels

variable {s : Sheet} {front back : List Char}

theorem col_element_wireRow
    (hs : OnNewRow s) (hfront : front.getLast? = some '-') :
    ((wireRow s).element front).col = front.length := by
  have hpos : 0 < front.length := List.length_pos_of_mem (List.mem_of_getLast? hfront)
  simp only [Sheet.element, Sheet.draw, Sheet.right, col_wireRow, hs.col_eq]
  omega

/-- Two texts that end with wire, written behind each other on a row that is wired. -/
theorem look_wired_row
    (hs : OnNewRow s)
    (hfront : front.getLast? = some '-') (hback : back.getLast? = some '-') (k : Nat) :
    ((wireRow s).element front).written back s.row k = (front ++ back)[k]?.getD '-' := by
  obtain ⟨u, hu⟩ : ∃ u, u = (wireRow s).element front := ⟨_, rfl⟩
  have hstart : (wireRow s).col = 0 := (col_wireRow s).trans hs.col_eq
  have hrow : u.row = s.row := hu ▸ row_wireRow s
  have hcol : u.col = front.length := hu ▸ col_element_wireRow hs hfront
  have hlook : u.look s.row = (wireRow s).written front (wireRow s).row := by
    rw [hu, row_wireRow]
    rfl
  rw [← hu]
  rcases Nat.lt_or_ge k front.length with hk | hk
  · have hcell := written_of_lt (wireRow s) front hk
    rw [hstart, Nat.zero_add] at hcell
    rw [written_frame (Or.inr (hcol ▸ hk)), hlook, List.getElem?_append_left hk, ← hcell]
    rfl
  · rcases Nat.lt_or_ge k (front.length + back.length) with hk' | hk'
    · have hcell := written_of_lt u back (n := k - front.length) (by omega)
      rw [hcol, Nat.add_sub_cancel' hk, hrow] at hcell
      rw [List.getElem?_append_right hk, ← hcell]
      rfl
    · -- Behind both texts there is the wire that the row was before.
      have hwire : ∀ k, u.col ≤ k → u.look u.row k = '-' := by
        intro k hk
        rw [hrow, hlook]
        refine written_wire hfront (fun hwidth k hk => ?_) k (by omega)
        rw [width_wireRow, hstart] at hwidth
        rw [row_wireRow]
        exact look_wireRow (by rw [hs.col_eq]; omega) (by rw [hs.col_eq]; exact Nat.zero_le k)
      rw [List.getElem?_eq_none (by simpa using hk'), ← hrow]
      exact written_wire hback (fun _ => hwire) k (by omega)

/-- The row of a coil that is driven by a contact, up to its last piece of wire. -/
def label (name input : String) : List Char :=
  wired '[' ']' input.toList ++ wired '(' ')' name.toList

/-- A coil that is driven by a contact is drawn as its label, with wire behind it. -/
theorem exists_label
    (name input : String) (hs : OnNewRow s) :
    ∃ s', Does (coil ⟨name, .contact input⟩) s () s' ∧ AddsRung s s' ∧
      (label name input).length ≤ s'.width ∧
      ∀ k, s'.look s.row k = (label name input)[k]?.getD '-' := by
  have hfront : ("--[" ++ input ++ "]--").toList = wired '[' ']' input.toList := by
    simp [wired]
  have hback : ("--(" ++ name ++ ")--").toList = wired '(' ')' name.toList := by
    simp [wired]
  have hwire := keeps_wireRow hs.row_lt
  have helement := hwire.next (keeps_element hwire.row_lt (wired '[' ']' input.toList))
  have hends : Canvas.Ends none (expr (.contact input)) (wireRow s) fun _ s₁ =>
      s₁ = (wireRow s).element (wired '[' ']' input.toList) :=
    ⟨(), _, does_element hwire.row_lt (by simp), by rw [hfront]⟩
  obtain ⟨_, _, hcoil, _, rfl, rfl⟩ := ends_coil_of (c := ⟨name, .contact input⟩) hs.row_lt hends
    fun s₁ hs₁ => hs₁ ▸ helement.row_lt
  refine ⟨_, hcoil, addsRung_endRung hs helement name, ?_, fun k => ?_⟩
  · change _ ≤ max _ (((wireRow s).element _).col + ("--(" ++ name ++ ")--").toList.length)
    rw [hback, col_element_wireRow hs (Rung.getLast?_wired _ _ _), label, List.length_append]
    exact Nat.le_max_right _ _
  · change ((wireRow s).element _).written ("--(" ++ name ++ ")--").toList s.row k = _
    rw [hback]
    exact look_wired_row hs (Rung.getLast?_wired _ _ _) (Rung.getLast?_wired _ _ _) k

/-- A word that does not change when its first letter is moved to the end has one letter only. -/
theorem eq_of_append_singleton
    {l : List Char} {ch : Char}
    (h : l ++ [ch] = ch :: l) :
    ∀ x ∈ l, x = ch := by
  induction l with
  | nil => simp
  | cons x l ih =>
      obtain ⟨rfl, hrest⟩ := List.cons.inj h
      simpa using ih hrest

/-- A mark at the start of the contact's name cannot be taken for one at the start of the coil's. -/
theorem slide_ne
    (input name rest rest' : List Char) :
    wired '[' ']' input ++ wired '(' ')' ('/' :: name) ++ rest ≠
      wired '[' ']' ('/' :: input) ++ wired '(' ')' name ++ rest' := by
  intro h
  obtain ⟨between, hbetween⟩ : ∃ between, between = input ++ [']', '-', '-', '-', '-', '('] :=
    ⟨_, rfl⟩
  have hmarks : between ++ ['/'] ++ (name ++ [')', '-', '-'] ++ rest) =
      '/' :: between ++ (name ++ [')', '-', '-'] ++ rest') := by
    rw [hbetween]
    simpa [wired] using h
  have hslide := (List.append_inj hmarks (by simp)).1
  have hclose : ']' ∈ between := by simp [hbetween]
  cases eq_of_append_singleton hslide ']' hclose

theorem count_label
    (name input : String) (n : Nat) :
    (label name input ++ List.replicate n '-').count '/' =
      input.toList.count '/' + name.toList.count '/' := by
  simp [label, wired, List.count_append, List.count_replicate]

/-- A negation on the contact and a negation on the coil are drawn differently. -/
theorem label_ne
    (name input : String) (n n' : Nat) :
    label name (toggle input) ++ List.replicate n '-' ≠
      label (toggle name) input ++ List.replicate n' '-' := by
  intro h
  have hcount := congrArg (List.count '/') h
  rw [count_label, count_label] at hcount
  rcases toggle_cases input with hinput | hinput
  · rcases toggle_cases name with hname | hname
    · rw [label, label, hinput, hname] at h
      exact slide_ne _ _ _ _ h
    · rw [hinput, hname, List.count_cons_self, List.count_cons_self] at hcount
      omega
  · rcases toggle_cases name with hname | hname
    · rw [hinput, hname, List.count_cons_self, List.count_cons_self] at hcount
      omega
    · rw [label, label, hinput, hname] at h
      exact slide_ne _ _ _ _ h.symm

end Labels

end Drawing

namespace Schematic

section Coils

open Drawing (label OnNewRow)

variable {s : Sheet} {before after after' : List Coil} {width : Nat}

theorem map_range_getD
    {text : List Char} {n : Nat}
    (h : text.length ≤ n) :
    ((List.range n).map fun k => text[k]?.getD '-') =
      text ++ List.replicate (n - text.length) '-' := by
  apply List.ext_getElem?
  intro k
  rw [List.getElem?_map, List.getElem?_append, List.getElem?_replicate]
  rcases Nat.lt_or_ge k n with hk | hk
  · rw [List.getElem?_range hk, Option.map_some]
    split
    · rename_i hk'
      rw [List.getElem?_eq_getElem hk']
      rfl
    · rename_i hk'
      rw [List.getElem?_eq_none (Nat.not_lt.mp hk'), if_pos (by omega)]
      rfl
  · rw [List.getElem?_eq_none (by simpa using hk), if_neg (by omega), if_neg (by omega)]
    rfl

/-- The row of a coil that is driven by a contact is found on the canvas of all coils. -/
theorem exists_canvas_label
    (hbefore : Does (before.forM Drawing.coil) (Canvas.blank width).sheet () s)
    (hs : OnNewRow s) (hafter : after.findSome? Coil.undrawable? = none)
    (name input : String) :
    ∃ c : Canvas, ofCoils (before ++ ⟨name, .contact input⟩ :: after) width = .ok c.schematic ∧
      c.Uniform ∧ OnNewRow c.sheet ∧ s.row < c.row ∧
      ∃ n, Canvas.line c.look c.width s.row = label name input ++ List.replicate n '-' := by
  obtain ⟨s₁, hcoil, hadds, hwidth, hlook⟩ := Drawing.exists_label name input hs
  have hends := Drawing.ends_coils after hadds.onNewRow
  rw [hafter] at hends
  obtain ⟨_, s₂, hrest, hkeeps, hlast⟩ := hends
  have hdoes : Does ((before ++ ⟨name, .contact input⟩ :: after).forM Drawing.coil)
      (Canvas.blank width).sheet () s₂ := by
    have happend : (before ++ ⟨name, .contact input⟩ :: after).forM Drawing.coil =
        before.forM Drawing.coil >>= fun _ =>
          Drawing.coil ⟨name, .contact input⟩ >>= fun _ => after.forM Drawing.coil :=
      List.forM_append
    rw [happend]
    exact hbefore.bind (hcoil.bind hrest)
  obtain ⟨c, hrun, hc, rfl⟩ := hdoes _ (Canvas.uniform_blank width) rfl
  refine ⟨c, ?_, hc, hlast, hadds.row_lt.trans_le hkeeps.top_le,
    c.width - (label name input).length, ?_⟩
  · rw [ofCoils, hrun]
    exact finish_of_run hrun
  · have hline : c.look s.row = fun k => (label name input)[k]?.getD '-' :=
      funext fun k => (hkeeps.frame s.row k (Or.inl hadds.row_lt)).trans (hlook k)
    rw [Canvas.line, hline]
    exact map_range_getD (hwidth.trans hkeeps.width_le)

/-- Coils that differ first in where a negation stands are drawn differently. -/
theorem ofCoils_ne
    (hbefore : before.findSome? Coil.undrawable? = none)
    (hafter : after.findSome? Coil.undrawable? = none)
    (hafter' : after'.findSome? Coil.undrawable? = none)
    (name input : String) :
    ofCoils (before ++ ⟨name, .contact (toggle input)⟩ :: after) width ≠
      ofCoils (before ++ ⟨toggle name, .contact input⟩ :: after') width := by
  have hends := Drawing.ends_coils before (onNewRow_blank width)
  rw [hbefore] at hends
  obtain ⟨_, s, hdoes, -, hs⟩ := hends
  obtain ⟨c, htext, hc, hlast, hrow, n, hline⟩ :=
    exists_canvas_label hdoes hs hafter name (toggle input)
  obtain ⟨c', htext', hc', hlast', hrow', n', hline'⟩ :=
    exists_canvas_label hdoes hs hafter' (toggle name) input
  intro h
  rw [htext, htext'] at h
  have hlines := line_eq_of_schematic_eq hc hc' hlast hlast' (Except.ok.inj h) hrow hrow'
  rw [hline, hline'] at hlines
  exact Drawing.label_ne name input n n' hlines

theorem ofCoils_map_shown
    (cs : List Coil) (width : Nat) :
    ofCoils (cs.map Coil.shown) width = ofCoils cs width := by
  rw [ofCoils, Drawing.forM_map_shown]
  rfl

/-- Coils that are drawn alike have their negations in the same places. -/
theorem eq_of_ofCoils_eq
    {cs cs' : List Coil}
    (h : List.Forall₂ Coil.Moved cs cs')
    (hbefore : before.findSome? Coil.undrawable? = none)
    (hcs : cs.findSome? Coil.undrawable? = none) (hcs' : cs'.findSome? Coil.undrawable? = none)
    (htext : ofCoils (before ++ cs) width = ofCoils (before ++ cs') width) :
    cs = cs' := by
  -- The coils before the first difference are the same in both, and so is the canvas behind them.
  induction h generalizing before with
  | nil => rfl
  | @cons c c' cs cs' hmoved _ ih =>
      rw [Drawing.findSome?_cons_eq_or, Option.or_eq_none_iff] at hcs hcs'
      rcases hmoved with rfl | ⟨name, input, rfl, rfl⟩
      · have hbefore' : (before ++ [c]).findSome? Coil.undrawable? = none := by
          simp [List.findSome?_append, hbefore, hcs.1]
        rw [← List.singleton_append, ← List.singleton_append (l := cs'), ← List.append_assoc,
          ← List.append_assoc] at htext
        rw [ih hbefore' hcs.2 hcs'.2 htext]
      · exact absurd htext (ofCoils_ne hbefore hcs.2 hcs'.2 name input)

end Coils

end Schematic

section Folded

variable {width : Nat}

/-- What is drawn of a folded program: its coils as they are shown, or the fault that is
reported. -/
def Program.shown (q : Program) : Except Fault (List Coil) :=
  match (Operands.completed [] q).findSome? Coil.undrawable? with
  | some kind => .error (.undrawableNegation kind)
  | none => (Operands.coils [] q).map (List.map Coil.shown)

/-- The schematic of coils, or the fault that stands in their place. -/
def Schematic.ofShown (width : Nat) : Except Fault (List Coil) → Except Stop String
  | .error cause => .error (.fault cause)
  | .ok cs => ofCoils cs width

/-- A program is drawn as its folded form is shown. -/
theorem decompile_eq_shown
    (p : Program) (width : Nat) :
    decompile p width = Schematic.ofShown width p.folded.shown := by
  rw [decompile_eq_ofCoils, Program.shown]
  rcases Schematic.ofCoils_cases (Operands.completed [] p.folded) width with
    ⟨hnone, text, htext⟩ | ⟨kind, hkind, hstop⟩
  · rw [hnone, htext, ← Coil.ofProgram]
    cases hcs : Coil.ofProgram p with
    | error cause => rfl
    | ok cs =>
        rw [Operands.completed_eq_of_coils hcs] at htext
        refine Eq.trans ?_ (Schematic.ofCoils_map_shown cs width).symm
        rw [htext]
        rfl
  · rw [hkind, hstop]
    rfl

theorem Program.shown_eq_ok
    {q : Program} {ds : List Coil}
    (h : q.shown = .ok ds) :
    ∃ cs, Operands.coils [] q = .ok cs ∧ ds = cs.map Coil.shown ∧
      cs.findSome? Coil.undrawable? = none := by
  rw [Program.shown] at h
  cases hrefusal : (Operands.completed [] q).findSome? Coil.undrawable? with
  | some kind =>
      rw [hrefusal] at h
      cases h
  | none =>
      rw [hrefusal] at h
      cases hcs : Operands.coils [] q with
      | error cause =>
          rw [hcs] at h
          cases h
      | ok cs =>
          rw [hcs] at h
          cases h
          rw [Operands.completed_eq_of_coils hcs] at hrefusal
          exact ⟨cs, rfl, rfl, hrefusal⟩

theorem findSome?_map_shown
    (cs : List Coil) :
    (cs.map Coil.shown).findSome? Coil.undrawable? = cs.findSome? Coil.undrawable? := by
  rw [List.findSome?_map]
  exact congrArg (cs.findSome? ·) (funext Coil.undrawable?_shown)

/-- Drawable coils that are alike differ only in where a negation stands. -/
theorem moved_of_alike
    {cs cs' : List Coil}
    (h : List.Forall₂ Coil.Alike cs cs')
    (hcs : cs.findSome? Coil.undrawable? = none) (hcs' : cs'.findSome? Coil.undrawable? = none) :
    List.Forall₂ Coil.Moved (cs.map Coil.shown) (cs'.map Coil.shown) := by
  induction h with
  | nil => exact .nil
  | cons halike _ ih =>
      rw [Drawing.findSome?_cons_eq_or, Option.or_eq_none_iff] at hcs hcs'
      exact .cons (halike hcs.1 hcs'.1) (ih hcs.2 hcs'.2)

/-- A drawing determines what is shown of the program and of its folded form. -/
theorem shown_folded_eq
    {q : Program}
    (h : Schematic.ofShown width q.folded.shown = Schematic.ofShown width q.shown) :
    q.folded.shown = q.shown := by
  have hdrawn : ∀ {q : Program} {ds : List Coil}, q.shown = .ok ds → ∀ {stop},
      Schematic.ofCoils ds width ≠ .error stop := by
    intro q ds hds stop hstop
    obtain ⟨cs, -, rfl, hcs⟩ := Program.shown_eq_ok hds
    obtain ⟨kind, hkind, -⟩ := Schematic.ofCoils_eq_error_iff.mp hstop
    rw [findSome?_map_shown, hcs] at hkind
    cases hkind
  cases hfolded : q.folded.shown with
  | error cause =>
      cases hq : q.shown with
      | error cause' =>
          rw [hfolded, hq] at h
          cases h
          rfl
      | ok ds =>
          rw [hfolded, hq] at h
          exact absurd h.symm (hdrawn hq)
  | ok ds' =>
      cases hq : q.shown with
      | error cause =>
          rw [hfolded, hq] at h
          exact absurd h (hdrawn hfolded)
      | ok ds =>
          rw [hfolded, hq] at h
          obtain ⟨cs', hcs', rfl, hdrawable'⟩ := Program.shown_eq_ok hfolded
          obtain ⟨cs, hcs, rfl, hdrawable⟩ := Program.shown_eq_ok hq
          have halike := Operands.alike_of_folds (Folding.folds_run q) .nil hcs hcs'
          have hmoved := moved_of_alike halike hdrawable hdrawable'
          rw [← findSome?_map_shown] at hdrawable hdrawable'
          rw [Schematic.eq_of_ofCoils_eq hmoved List.findSome?_nil hdrawable hdrawable' h.symm]

/-- **A folded program is drawn like the program it comes from exactly when folding it once more
changes neither a coil, as it is shown, nor the fault that is reported.**  This is so if no
`invert` of the program follows on another one. -/
theorem decompile_folded_iff
    (p : Program) (width : Nat) :
    (decompile p.folded width = decompile p width ↔
      p.folded.folded.shown = p.folded.shown) ∧
    (¬ [.invert, .invert] <:+: p → decompile p.folded width = decompile p width) := by
  rw [decompile_eq_shown, decompile_eq_shown]
  refine ⟨⟨shown_folded_eq, fun h => by rw [h]⟩, fun hp => ?_⟩
  rw [Folding.folded_folded hp]

/-- Three inversions between a contact and a coil: one of them is left when the program is folded,
and folding once more moves it into the name of the contact, as it is shown anyway. -/
theorem decompile_folded_iff_thrice :
    decompile [.read "/A", .invert, .write "/X"] 0 =
        .ok "||               ||\n||--[A]----(/X)--||\n||               ||" ∧
      decompile [.read "A", .invert, .invert, .invert, .write "X"] 0 =
        .ok "||               ||\n||--[A]----(/X)--||\n||               ||" := by
  have hdrawn : decompile [.read "A", .invert, .invert, .invert, .write "X"] 0 =
      .ok "||               ||\n||--[A]----(/X)--||\n||               ||" := by
    cbv
  refine ⟨?_, hdrawn⟩
  rw [← hdrawn]
  exact (decompile_folded_iff [.read "A", .invert, .invert, .invert, .write "X"] 0).1.mpr (by cbv)

/-- A series that is inverted twice is refused.  In the folded program one of the inversions is in
the name of the coil; folding once more takes the other one there too, and the series is drawn. -/
theorem decompile_folded_ne_twice :
    Program.folded [.read "A", .read "B", .conj, .invert, .invert, .write "X"] =
        [.read "A", .read "B", .conj, .invert, .write "/X"] ∧
      decompile [.read "A", .read "B", .conj, .invert, .write "/X"] 0 =
        .ok "||                     ||\n||--[A]----[B]----(X)--||\n||                     ||" ∧
      decompile [.read "A", .read "B", .conj, .invert, .invert, .write "X"] 0 =
        .error (.fault (.undrawableNegation "and")) := by
  refine ⟨rfl, ?_, ?_⟩
  · cbv
  · cbv

end Folded

end RelayLadder
