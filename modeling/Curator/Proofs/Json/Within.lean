import Curator.Pointer
import Curator.Proofs.Json.WellFormed

/-! # The values that a document is made of

What holds of every value within a document holds of the parts of each of them. A document
without some of its parts keeps the others as they were, in their order.
-/

namespace Curator.Json

variable {P : Json → Prop} {items : List Json} {members : List (String × Json)}

/-! ## Values within a document -/

/-- A value is the document or stands in it at some depth. -/
inductive Within : Json → Json → Prop where
  | root (value : Json) : Within value value
  | item {value item : Json} {items : List Json} (hi : item ∈ items) (h : Within value item) :
      Within value (.array items)
  | member {value : Json} {m : String × Json} {members : List (String × Json)} (hm : m ∈ members)
      (h : Within value m.2) : Within value (.object members)

def Everywhere (P : Json → Prop) (document : Json) : Prop :=
  ∀ value, Within value document → P value

theorem Everywhere.root {document : Json} (h : Everywhere P document) : P document :=
  h document (.root document)

@[simp] theorem everywhere_null_iff : Everywhere P .null ↔ P .null :=
  ⟨Everywhere.root, fun h value hv => by cases hv; exact h⟩

@[simp] theorem everywhere_bool_iff {b : Bool} : Everywhere P (.bool b) ↔ P (.bool b) :=
  ⟨Everywhere.root, fun h value hv => by cases hv; exact h⟩

@[simp] theorem everywhere_number_iff {n : Number} : Everywhere P (.number n) ↔ P (.number n) :=
  ⟨Everywhere.root, fun h value hv => by cases hv; exact h⟩

@[simp] theorem everywhere_string_iff {s : String} : Everywhere P (.string s) ↔ P (.string s) :=
  ⟨Everywhere.root, fun h value hv => by cases hv; exact h⟩

@[simp] theorem everywhere_array_iff :
    Everywhere P (.array items) ↔ P (.array items) ∧ ∀ item ∈ items, Everywhere P item := by
  constructor
  · exact fun h => ⟨h.root, fun item hi value hv => h value (.item hi hv)⟩
  · rintro ⟨hroot, hitems⟩ value hv
    cases hv with
    | root => exact hroot
    | item hi hv => exact hitems _ hi value hv

@[simp] theorem everywhere_object_iff :
    Everywhere P (.object members) ↔
      P (.object members) ∧ ∀ m ∈ members, Everywhere P m.2 := by
  constructor
  · exact fun h => ⟨h.root, fun m hm value hv => h value (.member hm hv)⟩
  · rintro ⟨hroot, hmembers⟩ value hv
    cases hv with
    | root => exact hroot
    | member hm hv => exact hmembers _ hm value hv

/-! ## Arrays whose positions can be written -/

/-- The positions of an array are below the bound of the positions in pointers, as in memory they
always are. -/
def Numbered : Json → Prop
  | .array items => items.length ≤ Segment.positionBound
  | _ => True

/-- A pointer can name every item of every array. -/
def Addressable (document : Json) : Prop := Everywhere Numbered document

/-! ## Documents without some of their parts -/

/-- `Without whole left`: what is left of a document when members and items are taken out,
at any depth. -/
inductive Without : Json → Json → Prop where
  | refl (value : Json) : Without value value
  | trans {a b c : Json} (h : Without a b) (h' : Without b c) : Without a c
  | dropItem (before after : List Json) (value : Json) :
      Without (.array (before ++ value :: after)) (.array (before ++ after))
  | dropMember (before after : List (String × Json)) (m : String × Json) :
      Without (.object (before ++ m :: after)) (.object (before ++ after))
  | item (before after : List Json) {a b : Json} (h : Without a b) :
      Without (.array (before ++ a :: after)) (.array (before ++ b :: after))
  | member (before after : List (String × Json)) (name : String) {a b : Json} (h : Without a b) :
      Without (.object (before ++ (name, a) :: after)) (.object (before ++ (name, b) :: after))

theorem Addressable.without {a b : Json} (ha : a.Addressable) (h : Without a b) :
    b.Addressable := by
  induction h with
  | refl value => exact ha
  | trans _ _ ih ih' => exact ih' (ih ha)
  | dropItem before after value =>
      obtain ⟨hroot, hitems⟩ := everywhere_array_iff.mp ha
      simp only [List.forall_mem_append, List.forall_mem_cons] at hitems
      refine everywhere_array_iff.mpr ⟨?_, List.forall_mem_append.mpr ⟨hitems.1, hitems.2.2⟩⟩
      simp only [Numbered, List.length_append, List.length_cons] at hroot ⊢
      omega
  | dropMember before after m =>
      obtain ⟨-, hmembers⟩ := everywhere_object_iff.mp ha
      simp only [List.forall_mem_append, List.forall_mem_cons] at hmembers
      exact everywhere_object_iff.mpr
        ⟨trivial, List.forall_mem_append.mpr ⟨hmembers.1, hmembers.2.2⟩⟩
  | item before after _ ih =>
      obtain ⟨hroot, hitems⟩ := everywhere_array_iff.mp ha
      simp only [List.forall_mem_append, List.forall_mem_cons] at hitems
      refine everywhere_array_iff.mpr ⟨?_, ?_⟩
      · simpa [Numbered] using hroot
      · simp only [List.forall_mem_append, List.forall_mem_cons]
        exact ⟨hitems.1, ih hitems.2.1, hitems.2.2⟩
  | member before after name _ ih =>
      obtain ⟨-, hmembers⟩ := everywhere_object_iff.mp ha
      simp only [List.forall_mem_append, List.forall_mem_cons] at hmembers
      refine everywhere_object_iff.mpr ⟨trivial, ?_⟩
      simp only [List.forall_mem_append, List.forall_mem_cons]
      exact ⟨hmembers.1, ih hmembers.2.1, hmembers.2.2⟩

end Curator.Json
