import Curator.Proofs.Document.NormalForm
import Curator.Proofs.Json.Without

/-! # What pruning keeps

A document comes apart into its scalars, each below the names on the way to it. Pruning keeps those
that are not empty, in their order and under their names, and nothing else, so it leaves nothing
exactly of a document without any.
-/

namespace Curator.Json

variable {value kept : Json}

mutual

/-- The scalars of a document in order, with the names on the way to them. The arrays on the way add
nothing to the names. -/
def scalars : Json → List (List String × Json)
  | .array items => itemScalars items
  | .object members => memberScalars members
  | .null => [([], .null)]
  | .bool b => [([], .bool b)]
  | .number n => [([], .number n)]
  | .string s => [([], .string s)]
termination_by structural value => value

def itemScalars : List Json → List (List String × Json)
  | [] => []
  | item :: rest => scalars item ++ itemScalars rest
termination_by structural items => items

def memberScalars : List (String × Json) → List (List String × Json)
  | [] => []
  | (name, value) :: rest =>
    (scalars value).map (fun scalar => (name :: scalar.1, scalar.2)) ++ memberScalars rest
termination_by structural members => members

end

def filled (found : List (List String × Json)) : List (List String × Json) :=
  found.filter fun scalar => !scalar.2.isVoid

theorem filled_append (xs ys : List (List String × Json)) :
    filled (xs ++ ys) = filled xs ++ filled ys := by
  simp [filled]

theorem filled_map (name : String) (found : List (List String × Json)) :
    filled (found.map fun scalar => (name :: scalar.1, scalar.2)) =
      (filled found).map fun scalar => (name :: scalar.1, scalar.2) := by
  simp [filled, List.filter_map, Function.comp_def]

/-! ## The scalars that are kept -/

def scalarsLeft (left : Option Json) : List (List String × Json) :=
  match left with
  | some kept => kept.scalars
  | none => []

theorem itemScalars_pruneItems {items : List Json}
    (h : ∀ item ∈ items, scalarsLeft item.prune = filled item.scalars) :
    itemScalars (pruneItems items) = filled (itemScalars items) := by
  induction items with
  | nil => rfl
  | cons item rest ih =>
      obtain ⟨hitem, hrest⟩ := List.forall_mem_cons.mp h
      have hbehind := ih hrest
      rw [itemScalars, filled_append, ← hitem, ← hbehind]
      cases hkept : item.prune <;> simp [pruneItems, itemScalars, scalarsLeft, hkept]

theorem memberScalars_pruneMembers {members : List (String × Json)}
    (h : ∀ m ∈ members, scalarsLeft m.2.prune = filled m.2.scalars) :
    memberScalars (pruneMembers members) = filled (memberScalars members) := by
  induction members with
  | nil => rfl
  | cons m rest ih =>
      obtain ⟨hm, hrest⟩ := List.forall_mem_cons.mp h
      have hbehind := ih hrest
      rw [memberScalars, filled_append, filled_map, ← hm, ← hbehind]
      cases hkept : m.2.prune <;> simp [pruneMembers, memberScalars, scalarsLeft, hkept]

/-- Every container that pruning leaves out had no scalar to keep. -/
theorem scalarsLeft_prune (value : Json) : scalarsLeft value.prune = filled value.scalars := by
  induction value using Json.induction with
  | null => rfl
  | bool b => rfl
  | number n => rfl
  | string s => cases hs : s.isEmpty <;> simp [prune, scalarsLeft, scalars, filled, isVoid, hs]
  | array items ih =>
      rw [scalars, ← itemScalars_pruneItems ih, prune_array]
      cases hkept : pruneItems items <;> rfl
  | object members ih =>
      rw [scalars, ← memberScalars_pruneMembers ih, prune_object]
      cases hkept : pruneMembers members <;> rfl

/-! ## When nothing is left -/

theorem prune_array_eq_none_iff {items : List Json} :
    prune (.array items) = none ↔ ∀ item ∈ items, prune item = none := by
  simp [prune_array, pruneItems_eq_filterMap]

theorem prune_object_eq_none_iff {members : List (String × Json)} :
    prune (.object members) = none ↔ ∀ m ∈ members, prune m.2 = none := by
  simp [prune_object, pruneMembers_eq_filterMap]

/-- The values for whose sake something is kept: booleans, numbers and strings with a character. -/
def Filled (value : Json) : Prop := value.Terminal ∧ value.isVoid = false

theorem prune_eq_none_iff_everywhere :
    value.prune = none ↔ Everywhere (fun part => ¬ part.Filled) value := by
  induction value using Json.induction with
  | null => simp [prune, Filled, Terminal]
  | bool b => simp [prune, Filled, Terminal, isVoid]
  | number n => simp [prune, Filled, Terminal, isVoid]
  | string s => cases hs : s.isEmpty <;> simp [prune, Filled, Terminal, isVoid, hs]
  | array items ih =>
      have hroot : ¬ Filled (.array items) := fun h => h.1
      rw [prune_array_eq_none_iff, everywhere_array_iff, and_iff_right hroot]
      exact forall₂_congr ih
  | object members ih =>
      have hroot : ¬ Filled (.object members) := fun h => h.1
      rw [prune_object_eq_none_iff, everywhere_object_iff, and_iff_right hroot]
      exact forall₂_congr ih

/-! ## What is taken out -/

theorem without_of_prune (hk : value.prune = some kept) : Without value kept := by
  induction value using Json.induction generalizing kept with
  | null => cases hk
  | bool b => cases hk; exact .refl _
  | number n => cases hk; exact .refl _
  | string s =>
      simp only [prune, Option.ite_none_left_eq_some, Option.some.injEq] at hk
      exact hk.2 ▸ .refl _
  | array items ih =>
      simp only [prune_array, Option.ite_none_left_eq_some, Option.some.injEq] at hk
      obtain ⟨-, rfl⟩ := hk
      rw [pruneItems_eq_filterMap]
      exact without_items fun item hi kept hkept => ih item hi hkept
  | object members ih =>
      simp only [prune_object, Option.ite_none_left_eq_some, Option.some.injEq] at hk
      obtain ⟨-, rfl⟩ := hk
      rw [pruneMembers_eq_filterMap]
      exact without_members fun m hm kept hkept => ih m hm hkept

/-- Pruning leaves nothing of a document exactly if no boolean, no number and no string but the empty
one stands in it. What it leaves is solid, has the scalars that are not empty, in their order and
each under its names, and is the document with parts taken out; an object keeps its names in their
order. A document is left as it is exactly if it is solid. -/
theorem prune_keeps (value : Json) :
    (value.prune = none ↔
        ¬ ∃ part, Within part value ∧ part.Terminal ∧ part.isVoid = false) ∧
      (∀ kept, value.prune = some kept →
        kept.Solid ∧
          kept.scalars = value.scalars.filter (fun scalar => !scalar.2.isVoid) ∧
          Without value kept ∧
          ∀ names ns, Under names (.object ns) kept →
            ∃ ms, Under names (.object ms) value ∧ (Members.keys ns).Sublist (Members.keys ms)) ∧
      (value.prune = some value ↔ value.Solid) := by
  refine ⟨?_, fun kept hkept => ?_, solid_of_prune, Solid.prune_eq⟩
  · rw [prune_eq_none_iff_everywhere, not_exists]
    exact forall_congr' fun part => not_and.symm
  · have hscalars := scalarsLeft_prune value
    rw [hkept] at hscalars
    have hwithout := without_of_prune hkept
    exact ⟨solid_of_prune hkept, hscalars, hwithout, fun _ _ hns => hwithout.exists_object hns⟩

end Curator.Json
