import RelayLadder.Proofs.Machine.Basic
import RelayLadder.Proofs.Operands

/-!
# Power along a wire

The meaning of a drawn wire, said without programs.  Power enters at the left end.
A contact, a call or a block lets it through or not, a block if one of its branches
does.  A coil is written by the power that arrives at it, and behind it the power is
there again.

**Operands.**  Contacts, calls and blocks are operands.  `isFed` says that a branch has
an operand, and so have the branches of its blocks; `isDriven` says of a rung that every
coil has operands of its own, that none are left behind the last coil, and that all
branches are fed.

**Results.**
* `exists_pushes`: the program of a fed branch pushes one expression, whose value is the
  power at the end of the branch.
* `exists_drives`: the program of a driven rung is the programs of coils, which write
  what the power along the rung writes.
-/

namespace RelayLadder
namespace Wire

/-- Induction along a wire and into the branches of its blocks. -/
@[elab_as_elim, induction_eliminator]
theorem inductionOn
    {motive : Wire → Prop}
    (finish : motive .finish)
    (contact : ∀ name negated rest, motive rest → motive (.contact name negated rest))
    (call : ∀ tokens rest, motive rest → motive (.call tokens rest))
    (coil : ∀ name negated rest, motive rest → motive (.coil name negated rest))
    (block : ∀ branches rest, (∀ b ∈ branches, motive b) → motive rest →
      motive (.block branches rest))
    (w : Wire) : motive w :=
  Wire.rec (motive_2 := fun branches => ∀ b ∈ branches, motive b)
    finish contact call coil block (List.forall_mem_nil _)
    (fun _ _ htop hbelow => List.forall_mem_cons.mpr ⟨htop, hbelow⟩) w

section Meaning

/-- The variables, and whether there is power, at some place of a wire. -/
structure Current where
  store : Store
  live : Bool

/-- A value behind a negation mark, if there is one. -/
def signed (negated : Bool) (v : Bool) : Bool :=
  if negated then !v else v

mutual

/-- What is left at the right end of a wire of what enters at its left end. -/
def flow (calls : Calls) (s : Current) : Wire → Current
  | finish => s
  | contact name negated rest =>
    flow calls ⟨s.store, s.live && signed negated (s.store.get name)⟩ rest
  | call tokens rest => flow calls ⟨s.store, s.live && calls s.store tokens⟩ rest
  | coil name negated rest => flow calls ⟨s.store.set name (signed negated s.live), true⟩ rest
  | block branches rest => flow calls ⟨s.store, s.live && passes calls s.store branches⟩ rest

/-- Whether power gets through one of the branches. -/
def passes (calls : Calls) (σ : Store) : List Wire → Bool
  | [] => false
  | branch :: below => (flow calls ⟨σ, true⟩ branch).live || passes calls σ below

end

/-- The variables after the coils of a wire. -/
def drive (calls : Calls) (σ : Store) (w : Wire) : Store :=
  (w.flow calls ⟨σ, true⟩).store

/-- The variables after the coils of wires in order. -/
def driveAll (calls : Calls) (σ : Store) (ws : List Wire) : Store :=
  ws.foldl (drive calls) σ

/-- The names of the coils along a wire. -/
def coilNames : Wire → List String
  | finish => []
  | contact _ _ rest => rest.coilNames
  | call _ rest => rest.coilNames
  | coil name _ rest => name :: rest.coilNames
  | block _ rest => rest.coilNames

end Meaning

section Operands

mutual

/-- Whether an operand stands on a branch, and on every branch of its blocks.  `fed` tells whether
one stands to the left; there are no coils on a branch. -/
def isFed (fed : Bool) : Wire → Bool
  | finish => fed
  | contact _ _ rest => isFed true rest
  | call _ rest => isFed true rest
  | coil _ _ _ => false
  | block branches rest => !branches.isEmpty && areFed branches && isFed true rest

/-- Whether all branches are fed. -/
def areFed : List Wire → Bool
  | [] => true
  | branch :: below => isFed false branch && areFed below

end

/-- Whether every coil has an operand between it and the coil before it, no operand stands behind
the last coil, and all branches are fed.  `fed` tells whether an operand stands to the left. -/
def isDriven (fed : Bool) : Wire → Bool
  | finish => !fed
  | contact _ _ rest => isDriven true rest
  | call _ rest => isDriven true rest
  | coil _ _ rest => fed && isDriven false rest
  | block branches rest => !branches.isEmpty && areFed branches && isDriven true rest

theorem areFed_iff
    {branches : List Wire} :
    areFed branches = true ↔ ∀ b ∈ branches, b.isFed false = true := by
  induction branches with
  | nil => simp [areFed]
  | cons top below ih => simp [areFed, ih]

end Operands

section Series

variable {w rest : Wire} {e operand : Expr} {before : Option Expr} {branches : List Wire}

/-- Behind the operand `before`, or at the start of a series, the wire has the program and, at its
end, the value of an expression. -/
def Pushes (before : Option Expr) (w : Wire) (e : Expr) : Prop :=
  before.elim [] Expr.program ++ w.codeFrom before.isSome = e.program ∧
    ∀ calls σ, (w.flow calls ⟨σ, before.elim true (Expr.eval calls σ)⟩).live = e.eval calls σ

/-- Behind the operand `before`, or at the start of a series, the wire has the program and the
effect of coils, which bear the names of the drawn ones. -/
def Drives (before : Option Expr) (w : Wire) (cs : List Coil) : Prop :=
  before.elim [] Expr.program ++ w.codeFrom before.isSome = cs.flatMap Coil.program ∧
    cs.map Coil.name = w.coilNames ∧
    ∀ calls σ, (w.flow calls ⟨σ, before.elim true (Expr.eval calls σ)⟩).store =
      Coil.driveAll calls σ cs

/-- The wire is an operand, with the program and the value of an expression, and a rest. -/
structure StartsWith (w : Wire) (operand : Expr) (rest : Wire) : Prop where
  code : ∀ joined, w.codeFrom joined = operand.program ++ join joined ++ rest.codeFrom true
  flow : ∀ calls s,
    w.flow calls s = rest.flow calls ⟨s.store, s.live && operand.eval calls s.store⟩
  coilNames : w.coilNames = rest.coilNames

/-- The operand to the left takes in the first operand of a wire. -/
theorem StartsWith.program_after
    (h : StartsWith w operand rest) (before : Option Expr) :
    before.elim [] Expr.program ++ w.codeFrom before.isSome =
      (Expr.after before operand).program ++ rest.codeFrom true := by
  rw [h.code, Expr.program_after]
  simp only [List.append_assoc]

theorem StartsWith.flow_after
    (h : StartsWith w operand rest) (before : Option Expr) (calls : Calls) (σ : Store) :
    w.flow calls ⟨σ, before.elim true (Expr.eval calls σ)⟩ =
      rest.flow calls ⟨σ, (Expr.after before operand).eval calls σ⟩ := by
  rw [h.flow]
  cases before with
  | none => rfl
  | some left => rfl

theorem StartsWith.pushes
    (h : StartsWith w operand rest) (hrest : Pushes (some (Expr.after before operand)) rest e) :
    Pushes before w e := by
  refine ⟨(h.program_after before).trans hrest.1, fun calls σ => ?_⟩
  rw [h.flow_after]
  exact hrest.2 calls σ

theorem StartsWith.drives
    {cs : List Coil}
    (h : StartsWith w operand rest) (hrest : Drives (some (Expr.after before operand)) rest cs) :
    Drives before w cs := by
  obtain ⟨hprogram, hnames, hstore⟩ := hrest
  refine ⟨(h.program_after before).trans hprogram, hnames.trans h.coilNames.symm,
    fun calls σ => ?_⟩
  rw [h.flow_after]
  exact hstore calls σ

end Series

section Elements

variable {branches : List Wire}

/-- The expression of a contact. -/
def literal (name : String) (negated : Bool) : Expr :=
  if negated then .not (.contact name) else .contact name

theorem startsWith_contact
    (name : String) (negated : Bool) (rest : Wire) :
    StartsWith (.contact name negated rest) (literal name negated) rest := by
  cases negated with
  | false => exact ⟨fun _ => rfl, fun _ _ => rfl, rfl⟩
  | true => exact ⟨fun _ => rfl, fun _ _ => rfl, rfl⟩

theorem startsWith_call
    (tokens : List String) (rest : Wire) :
    StartsWith (.call tokens rest) (.call tokens) rest :=
  ⟨fun _ => rfl, fun _ _ => rfl, rfl⟩

/-- Branches below an operand are joined to it from top to bottom. -/
theorem exists_expr_branches
    {below : List Wire}
    (h : ∀ b ∈ below, ∃ e, Pushes none b e) (left : Expr) :
    ∃ e : Expr, left.program ++ branchesCode below = e.program ∧
      ∀ calls σ, (left.eval calls σ || passes calls σ below) = e.eval calls σ := by
  induction below generalizing left with
  | nil =>
      refine ⟨left, List.append_nil _, fun calls σ => ?_⟩
      rw [passes, Bool.or_false]
  | cons branch below ih =>
      obtain ⟨⟨right, hcode, hlive⟩, hbelow⟩ := List.forall_mem_cons.mp h
      obtain ⟨e, he, heval⟩ := ih hbelow (.or left right)
      have hbranch : branch.codeFrom false = right.program := hcode
      refine ⟨e, ?_, fun calls σ => ?_⟩
      · rw [← he, branchesCode, hbranch, Expr.program]
        simp
      · have hvalue : (branch.flow calls ⟨σ, true⟩).live = right.eval calls σ := hlive calls σ
        rw [← heval, passes, hvalue, Expr.eval, Bool.or_assoc]

/-- A block is an operand if each of its branches pushes an expression. -/
theorem exists_startsWith_block
    (hne : branches ≠ []) (h : ∀ b ∈ branches, ∃ e, Pushes none b e) (rest : Wire) :
    ∃ operand, StartsWith (.block branches rest) operand rest := by
  obtain ⟨top, below, rfl⟩ := List.exists_cons_of_ne_nil hne
  obtain ⟨⟨left, hcode, hlive⟩, hbelow⟩ := List.forall_mem_cons.mp h
  obtain ⟨e, he, heval⟩ := exists_expr_branches hbelow left
  have htop : top.codeFrom false = left.program := hcode
  refine ⟨e, fun joined => ?_, fun calls s => ?_, rfl⟩
  · rw [codeFrom, blockCode, htop, he]
  · have hvalue : (top.flow calls ⟨s.store, true⟩).live = left.eval calls s.store :=
      hlive calls s.store
    rw [flow, passes, hvalue, heval]

/-- **The program of a fed branch pushes one expression, whose value is the power at the end of
the branch.** -/
theorem exists_pushes
    (w : Wire) (before : Option Expr)
    (h : w.isFed before.isSome = true) :
    ∃ e, Pushes before w e := by
  -- The operands met so far are kept as one expression, which the next one is joined to.
  induction w generalizing before with
  | finish =>
      obtain ⟨left, rfl⟩ := Option.isSome_iff_exists.mp h
      exact ⟨left, List.append_nil _, fun _ _ => rfl⟩
  | contact name negated rest ih =>
      obtain ⟨e, he⟩ := ih (some _) h
      exact ⟨e, (startsWith_contact name negated rest).pushes he⟩
  | call tokens rest ih =>
      obtain ⟨e, he⟩ := ih (some _) h
      exact ⟨e, (startsWith_call tokens rest).pushes he⟩
  | coil name negated rest _ => cases h
  | block branches rest ihs ih =>
      simp only [isFed, Bool.and_eq_true, areFed_iff] at h
      obtain ⟨⟨hne, hbranches⟩, hrest⟩ := h
      obtain ⟨operand, hblock⟩ := exists_startsWith_block (by simpa using hne)
        (fun b hb => ihs b hb none (hbranches b hb)) rest
      obtain ⟨e, he⟩ := ih (some _) hrest
      exact ⟨e, hblock.pushes he⟩

/-- A block with fed branches is an operand. -/
theorem exists_startsWith_of_areFed
    (hne : branches ≠ []) (h : areFed branches = true) (rest : Wire) :
    ∃ operand, StartsWith (.block branches rest) operand rest :=
  exists_startsWith_block hne (fun b hb => b.exists_pushes none (areFed_iff.mp h b hb)) rest

end Elements

section Rungs

/-- The coil that an operand drives behind a negation mark, if there is one. -/
def driven (name : String) (negated : Bool) (value : Expr) : Coil :=
  ⟨name, if negated then .not value else value⟩

theorem program_driven
    (name : String) (negated : Bool) (value : Expr) :
    (driven name negated value).program =
      value.program ++ (inversion negated ++ [.write name]) := by
  cases negated with
  | false => rfl
  | true => simp [driven, Coil.program, Expr.program, inversion]

theorem drive_driven
    (calls : Calls) (σ : Store) (name : String) (negated : Bool) (value : Expr) :
    (driven name negated value).drive calls σ =
      σ.set name (signed negated (value.eval calls σ)) := by
  cases negated <;> rfl

/-- **The program of a driven rung is the programs of coils, which write what the power along the
rung writes.** -/
theorem exists_drives
    (w : Wire) (before : Option Expr)
    (h : w.isDriven before.isSome = true) :
    ∃ cs, Drives before w cs := by
  induction w generalizing before with
  | finish =>
      have hnone : before = none := by simpa [isDriven] using h
      subst hnone
      exact ⟨[], rfl, rfl, fun _ _ => rfl⟩
  | contact name negated rest ih =>
      obtain ⟨cs, hcs⟩ := ih (some _) h
      exact ⟨cs, (startsWith_contact name negated rest).drives hcs⟩
  | call tokens rest ih =>
      obtain ⟨cs, hcs⟩ := ih (some _) h
      exact ⟨cs, (startsWith_call tokens rest).drives hcs⟩
  | coil name negated rest ih =>
      simp only [isDriven, Bool.and_eq_true] at h
      obtain ⟨value, rfl⟩ := Option.isSome_iff_exists.mp h.1
      obtain ⟨cs, hcs, hnames, hstore⟩ := ih none h.2
      refine ⟨driven name negated value :: cs, ?_, ?_, fun calls σ => ?_⟩
      · rw [List.flatMap_cons, ← hcs, program_driven, codeFrom]
        simp
      · rw [List.map_cons, hnames]
        rfl
      · rw [flow, Coil.driveAll, List.foldl_cons, drive_driven, ← Coil.driveAll, ← hstore]
        rfl
  | block branches rest _ ih =>
      simp only [isDriven, Bool.and_eq_true] at h
      obtain ⟨⟨hne, hbranches⟩, hrest⟩ := h
      obtain ⟨operand, hblock⟩ :=
        exists_startsWith_of_areFed (by simpa using hne) hbranches rest
      obtain ⟨cs, hcs⟩ := ih (some _) hrest
      exact ⟨cs, hblock.drives hcs⟩

/-- The programs of driven rungs are the programs of their coils. -/
theorem exists_coils_of_wires
    {ws : List Wire}
    (h : ∀ w ∈ ws, w.isDriven false = true) :
    ∃ cs : List Coil,
      ws.flatMap code = cs.flatMap Coil.program ∧
      cs.map Coil.name = ws.flatMap coilNames ∧
      ∀ calls σ, driveAll calls σ ws = Coil.driveAll calls σ cs := by
  induction ws with
  | nil => exact ⟨[], rfl, rfl, fun _ _ => rfl⟩
  | cons w ws ih =>
      obtain ⟨hw, hws⟩ := List.forall_mem_cons.mp h
      obtain ⟨cs, hcs, hnames, hstore⟩ := w.exists_drives none hw
      obtain ⟨others, hothers, hnames', hstore'⟩ := ih hws
      refine ⟨cs ++ others, ?_, ?_, fun calls σ => ?_⟩
      · rw [List.flatMap_cons, List.flatMap_append, hothers, ← hcs]
        rfl
      · rw [List.map_append, List.flatMap_cons, hnames, hnames']
      · have hdrive : w.drive calls σ = Coil.driveAll calls σ cs := hstore calls σ
        rw [driveAll, List.foldl_cons, ← driveAll, hdrive, hstore', Coil.driveAll, Coil.driveAll,
          Coil.driveAll, List.foldl_append]

end Rungs

end Wire
end RelayLadder
