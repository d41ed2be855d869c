import Mathlib.Data.List.Nodup
import RelayLadder.Expr.Json
import RelayLadder.Proofs.Json.Program

/-!
# Reading trees

An expression is written as an object with its kind and its fields, and a coil as an
object with its name and its value.

**Records.**  `Json.Record fields j` says that `j` gives these fields: as an object, with
its members in any order and possibly among members of other names, or as the array of
the values in the order of the fields.

**Variants.**  `Expr.Variant e j` says that `j` is the written form of `e` with any
expression in it, and `e` itself, given in one of these ways.  The choice is made for
each of them on its own.

**Results.**
* `Json.lookup_of_shuffled`: a field is found wherever it stands.
* `Expr.read?_of_record`: all ways to give the fields of an expression are read alike.
* `ofJson?_of_variant`: trees are read back from all variants of their written form.
-/

namespace RelayLadder

namespace Json

section Records

variable {fields members : List (String × Json)} {name : String} {value : Json}

/-- The members of an object are the given fields in any order, and others of other names. -/
def Shuffled (fields members : List (String × Json)) : Prop :=
  ∃ extra, members.Perm (fields ++ extra) ∧ ∀ m ∈ extra, m.1 ∉ fields.map Prod.fst

/-- A value gives fields as an object or as an array. -/
inductive Record (fields : List (String × Json)) : Json → Prop
  | object {members : List (String × Json)} (h : Shuffled fields members) :
      Record fields (.obj members)
  | array : Record fields (.arr (fields.map Prod.snd))

theorem shuffled_refl (fields : List (String × Json)) : Shuffled fields fields :=
  ⟨[], by rw [List.append_nil], List.forall_mem_nil _⟩

/-- A member is found by its name if all members of that name have its value. -/
theorem lookup_of_mem
    (hmem : (name, value) ∈ members) (hunique : ∀ m ∈ members, m.1 = name → m.2 = value) :
    members.lookup name = some value := by
  induction members with
  | nil => cases hmem
  | cons m members ih =>
      obtain ⟨hm, hmembers⟩ := List.forall_mem_cons.mp hunique
      rw [List.lookup_cons]
      by_cases heq : m.1 = name
      · rw [hm heq, heq, beq_self_eq_true]
      · have hne : m ≠ (name, value) := fun h => heq (congrArg Prod.fst h)
        rw [beq_false_of_ne (Ne.symm heq)]
        exact ih ((List.mem_cons.mp hmem).resolve_left hne.symm) hmembers

/-- A field of a shuffled object is found by its name. -/
theorem lookup_of_shuffled
    (h : Shuffled fields members) (hnodup : (fields.map Prod.fst).Nodup)
    (hmem : (name, value) ∈ fields) :
    members.lookup name = some value := by
  obtain ⟨extra, hperm, hextra⟩ := h
  refine lookup_of_mem (hperm.mem_iff.mpr (List.mem_append_left _ hmem)) fun m hm hname => ?_
  rcases List.mem_append.mp (hperm.mem_iff.mp hm) with hm | hm
  · have hinj := List.inj_on_of_nodup_map hnodup hm hmem hname
    rw [hinj]
  · have hknown : m.1 ∈ fields.map Prod.fst := hname ▸ List.mem_map_of_mem hmem
    exact absurd hknown (hextra m hm)

end Records

end Json

namespace Expr

section Parts

/-- A value with the expression that it denotes inside another one. -/
def part (j : Json) : Part :=
  ⟨j, read? .inner j⟩

theorem itemParts_eq_map
    (items : List Json) :
    itemParts items = items.map part := by
  induction items with
  | nil => rw [itemParts, List.map_nil]
  | cons j items ih => rw [itemParts, ih, List.map_cons, part]

theorem lookup_memberParts
    (members : List (String × Json)) (name : String) :
    (memberParts members).lookup name = (members.lookup name).map part := by
  induction members with
  | nil => rw [memberParts, List.lookup_nil, List.lookup_nil, Option.map_none]
  | cons m members ih =>
      rw [memberParts, List.lookup_cons, List.lookup_cons, ih]
      cases name == m.1 with
      | false => rfl
      | true => rfl

theorem kindOf?_str
    (place : Place) (kind : String) :
    kindOf? place (.str kind) = some kind := by
  cases place with
  | outer => rfl
  | inner => rfl

/-- However the fields of an expression are given, it is read from their values. -/
theorem read?_of_record
    {kind : String} {fields : List (String × Json)} {j : Json} (place : Place)
    (hnames : fields.map Prod.fst = fieldNames kind) (hnodup : ("kind" :: fieldNames kind).Nodup)
    (h : Json.Record (("kind", .str kind) :: fields) j) :
    read? place j = ofFields? kind (fields.map fun field => part field.2) := by
  cases h with
  | @object members h =>
      have hfind : ∀ field ∈ ("kind", .str kind) :: fields,
          (memberParts members).lookup field.1 = some (part field.2) := by
        intro field hfield
        rw [lookup_memberParts, Json.lookup_of_shuffled h _ hfield, Option.map_some]
        rwa [List.map_cons, hnames]
      obtain ⟨hkind, hfields⟩ := List.forall_mem_cons.mp hfind
      have hvalues : (fieldNames kind).mapM (fun name => (memberParts members).lookup name) =
          some (fields.map fun field => part field.2) := by
        rw [← hnames, mapM_eq_some_iff, List.forall₂_map_left_iff, List.forall₂_map_right_iff,
          List.forall₂_same]
        exact hfields
      rw [read?, ofMembers?, hkind]
      simp [part, kindOf?_str, hvalues]
  | array =>
      rw [read?, itemParts_eq_map, List.map_cons, List.map_cons, List.map_map, ofItems?]
      simp [part, kindOf?_str, Function.comp_def]

end Parts

section Variants

/-- A value is the written form of an expression, with this expression and those in it given as
objects or as arrays. -/
inductive Variant : Expr → Json → Prop
  | contact {name : String} {j : Json}
      (h : Json.Record [("kind", .str "contact"), ("name", .str name)] j) :
      Variant (.contact name) j
  | call {tokens : List String} {j : Json}
      (h : Json.Record [("kind", .str "call"), ("tokens", .ofStrings tokens)] j) :
      Variant (.call tokens) j
  | not {e : Expr} {operand j : Json}
      (he : Variant e operand)
      (h : Json.Record [("kind", .str "not"), ("operand", operand)] j) :
      Variant (.not e) j
  | and {e₁ e₂ : Expr} {left right j : Json}
      (he₁ : Variant e₁ left) (he₂ : Variant e₂ right)
      (h : Json.Record [("kind", .str "and"), ("left", left), ("right", right)] j) :
      Variant (.and e₁ e₂) j
  | or {e₁ e₂ : Expr} {left right j : Json}
      (he₁ : Variant e₁ left) (he₂ : Variant e₂ right)
      (h : Json.Record [("kind", .str "or"), ("left", left), ("right", right)] j) :
      Variant (.or e₁ e₂) j

/-- What is written is a variant of itself. -/
theorem variant_toJson
    (e : Expr) :
    e.Variant e.toJson := by
  induction e with
  | contact name => exact .contact (.object (Json.shuffled_refl _))
  | call tokens => exact .call (.object (Json.shuffled_refl _))
  | not e ih => exact .not ih (.object (Json.shuffled_refl _))
  | and e₁ e₂ ih₁ ih₂ => exact .and ih₁ ih₂ (.object (Json.shuffled_refl _))
  | or e₁ e₂ ih₁ ih₂ => exact .or ih₁ ih₂ (.object (Json.shuffled_refl _))

/-- An expression is read from its variants, by itself and inside another one. -/
theorem read?_of_variant
    {e : Expr} {j : Json} (h : e.Variant j) (place : Place) :
    read? place j = some e := by
  induction h generalizing place with
  | contact h => exact read?_of_record place rfl (by decide) h
  | call h =>
      rw [read?_of_record place rfl (by decide) h]
      simp [ofFields?, part, Json.strings?_ofStrings]
  | not _ h ih =>
      rw [read?_of_record place rfl (by decide) h]
      simp [ofFields?, part, ih]
  | and _ _ h ih₁ ih₂ =>
      rw [read?_of_record place rfl (by decide) h]
      simp [ofFields?, part, ih₁, ih₂]
  | or _ _ h ih₁ ih₂ =>
      rw [read?_of_record place rfl (by decide) h]
      simp [ofFields?, part, ih₁, ih₂]

end Variants

end Expr

namespace Coil

/-- A value is the written form of a coil, with the coil and the expressions in it given as objects
or as arrays. -/
inductive Variant (c : Coil) : Json → Prop
  | mk {value j : Json} (hvalue : c.value.Variant value)
      (h : Json.Record [("name", .str c.name), ("value", value)] j) :
      Variant c j

theorem variant_toJson
    (c : Coil) :
    c.Variant c.toJson :=
  .mk c.value.variant_toJson (.object (Json.shuffled_refl _))

theorem ofJson?_of_record
    {name value j : Json}
    (h : Json.Record [("name", name), ("value", value)] j) :
    ofJson? j = do return ⟨← name.str?, ← Expr.ofJson? value⟩ := by
  cases h with
  | object h =>
      have hnodup : ["name", "value"].Nodup := by decide
      have hname := Json.lookup_of_shuffled h hnodup List.mem_cons_self
      have hvalue := Json.lookup_of_shuffled h hnodup
        (List.mem_cons_of_mem _ List.mem_cons_self)
      simp [ofJson?, hname, hvalue]
  | array => rfl

theorem ofJson?_eq_of_variant
    {c : Coil} {j : Json} (h : c.Variant j) :
    ofJson? j = some c := by
  obtain ⟨hvalue, hrecord⟩ := h
  rw [ofJson?_of_record hrecord, Expr.ofJson?, Expr.read?_of_variant hvalue]
  rfl

end Coil

/-- **Trees are read back.**  An expression is read from its written form and from every variant of
it: at any of its nodes, the fields may stand in another order and among unknown ones, or an array
may stand in place of the object.  The same holds of a coil. -/
theorem ofJson?_of_variant :
    (∀ e : Expr, Expr.ofJson? e.toJson = some e ∧
      ∀ j, e.Variant j → Expr.ofJson? j = some e) ∧
    ∀ c : Coil, Coil.ofJson? c.toJson = some c ∧
      ∀ j, c.Variant j → Coil.ofJson? j = some c := by
  refine ⟨fun e => ⟨?_, ?_⟩, fun c => ⟨?_, ?_⟩⟩
  · exact Expr.read?_of_variant e.variant_toJson .outer
  · intro j h
    exact Expr.read?_of_variant h .outer
  · exact Coil.ofJson?_eq_of_variant c.variant_toJson
  · intro j h
    exact Coil.ofJson?_eq_of_variant h

/-- A coil as an array: its value has its members backward, with one that belongs to another kind,
and in it there are an array and an object with a member of its own. -/
theorem ofJson?_of_variant_mixed :
    ∃ (c : Coil) (j : Json),
      c = ⟨"Q", .or (.call ["T", "1"]) (.not (.contact "/A"))⟩ ∧
      j = .arr [.str "Q", .obj [
        ("name", .null),
        ("right", .obj [
          ("x", .num "1"), ("kind", .str "not"), ("operand", .arr [.str "contact", .str "/A"])]),
        ("left", .arr [.str "call", .ofStrings ["T", "1"]]),
        ("kind", .str "or")]] ∧
      c.Variant j ∧ Coil.ofJson? j = some c := by
  have hcall : Expr.Variant (.call ["T", "1"]) (.arr [.str "call", .ofStrings ["T", "1"]]) :=
    .call .array
  have hcontact : Expr.Variant (.contact "/A") (.arr [.str "contact", .str "/A"]) :=
    .contact .array
  have hnot : Expr.Variant (.not (.contact "/A")) (.obj [
      ("x", .num "1"), ("kind", .str "not"), ("operand", .arr [.str "contact", .str "/A"])]) :=
    .not hcontact (.object ⟨[("x", .num "1")], (List.perm_append_singleton _ _).symm, by simp⟩)
  have hor := Expr.Variant.or hcall hnot
    (.object ⟨[("name", .null)], List.reverse_perm _, by simp⟩)
  have hcoil : Coil.Variant ⟨"Q", .or (.call ["T", "1"]) (.not (.contact "/A"))⟩ _ :=
    .mk hor .array
  exact ⟨_, _, rfl, rfl, hcoil, (ofJson?_of_variant.2 _).2 _ hcoil⟩

end RelayLadder
