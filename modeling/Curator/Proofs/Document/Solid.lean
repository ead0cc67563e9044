import Curator.Predicate.Eval
import Curator.Proofs.Document.KeyOrder
import Curator.Proofs.Pointer.Writing

/-! # Documents without empty values

A normalized document is solid: no value in it is null, an empty string or an empty container.
A write opens no empty container, so the only empty value that it brings in is the one written.
-/

namespace Curator

namespace Json

/-- No value in the document is null, an empty string, an empty array or an empty object. -/
def Solid (document : Json) : Prop := Everywhere (·.isVoid = false) document

@[simp] theorem solid_array_iff {items : List Json} :
    Solid (.array items) ↔ items ≠ [] ∧ ∀ item ∈ items, Solid item := by
  simp [Solid, isVoid]

@[simp] theorem solid_object_iff {members : List (String × Json)} :
    Solid (.object members) ↔ members ≠ [] ∧ ∀ m ∈ members, Solid m.2 := by
  simp [Solid, isVoid]

theorem Solid.isVoid_eq_false {document found : Json} {q : Pointer} (h : document.Solid)
    (hfound : document.get? q = some found) : found.isVoid = false :=
  h found (within_of_get? hfound)

theorem solid_iff_get? {document : Json} (h : document.WellFormed) :
    document.Solid ↔ ∀ q found, document.get? q = some found → found.isVoid = false := by
  constructor
  · exact fun hsolid q found hfound => hsolid.isVoid_eq_false hfound
  · intro hread found hwithin
    obtain ⟨q, hq⟩ := exists_get?_of_within hwithin h
    exact hread q found hq

/-! ## Normalizing -/

theorem solid_of_prune {value kept : Json} (hk : value.prune = some kept) : kept.Solid := by
  induction value using Json.induction generalizing kept with
  | null => simp [prune] at hk
  | bool b =>
      cases hk
      simp [Solid, isVoid]
  | number n =>
      cases hk
      simp [Solid, isVoid]
  | string s =>
      simp only [prune, Option.ite_none_left_eq_some, Option.some.injEq] at hk
      obtain ⟨hs, rfl⟩ := hk
      simpa [Solid, isVoid] using hs
  | array items ih =>
      simp only [prune_array, Option.ite_none_left_eq_some, Option.some.injEq] at hk
      obtain ⟨hne, rfl⟩ := hk
      refine solid_array_iff.mpr ⟨by simpa using hne, fun item hi => ?_⟩
      rw [pruneItems_eq_filterMap] at hi
      obtain ⟨old, hold, hprune⟩ := List.mem_filterMap.mp hi
      exact ih old hold hprune
  | object members ih =>
      simp only [prune_object, Option.ite_none_left_eq_some, Option.some.injEq] at hk
      obtain ⟨hne, rfl⟩ := hk
      refine solid_object_iff.mpr ⟨by simpa using hne, fun m hm => ?_⟩
      rw [pruneMembers_eq_filterMap] at hm
      obtain ⟨old, hold, hprune⟩ := List.mem_filterMap.mp hm
      obtain ⟨kept, hkept, rfl⟩ := Option.map_eq_some_iff.mp hprune
      exact ih old hold hkept

end Json

namespace KeyOrder

open Json (Solid solid_array_iff solid_object_iff)

theorem solid_sortKeys {value : Json} (h : value.Solid) : (sortKeys value).Solid := by
  induction value using Json.induction with
  | array items ih =>
      obtain ⟨hne, hitems⟩ := solid_array_iff.mp h
      rw [sortKeys, sortItems_eq_map, solid_array_iff, List.forall_mem_map]
      exact ⟨by simpa using hne, fun item hi => ih item hi (hitems item hi)⟩
  | object members ih =>
      obtain ⟨hne, hmembers⟩ := solid_object_iff.mp h
      have hperm := List.mergeSort_perm (sortMembers members) fun a b => ByteOrder.le a.1 b.1
      rw [sortMembers_eq_map] at hperm
      rw [sortKeys, sortMembers_eq_map, solid_object_iff]
      constructor
      · intro heq
        rw [heq] at hperm
        exact hne (by simpa using hperm)
      · intro m hm
        obtain ⟨old, hold, rfl⟩ := List.mem_map.mp (hperm.mem_iff.mp hm)
        exact ih old hold (hmembers old hold)
  | _ => exact h

theorem promote_ne_nil {names : List String} {members : List (String × Json)} (h : members ≠ []) :
    promote names members ≠ [] := by
  obtain ⟨m, rest, rfl⟩ := List.exists_cons_of_ne_nil h
  intro heq
  have hread := get?_promote m.1 names (m :: rest)
  rw [heq] at hread
  exact Members.get?_eq_none_iff.mp hread.symm List.mem_cons_self

theorem itemsBySchema_ne_nil {schema : Option Json} {position : Nat} {items : List Json}
    (h : items ≠ []) : itemsBySchema schema position items ≠ [] := by
  obtain ⟨item, rest, rfl⟩ := List.exists_cons_of_ne_nil h
  exact List.cons_ne_nil _ _

theorem solid_bySchema {schema : Option Json} {value : Json} (h : value.Solid) :
    (bySchema schema value).Solid := by
  induction value using Json.induction generalizing schema with
  | array items ih =>
      obtain ⟨hne, hitems⟩ := solid_array_iff.mp h
      refine solid_array_iff.mpr ⟨itemsBySchema_ne_nil hne, fun item hi => ?_⟩
      obtain ⟨old, hold, i, rfl⟩ := exists_of_mem_itemsBySchema hi
      exact ih old hold (hitems old hold)
  | object members ih =>
      obtain ⟨hne, hmembers⟩ := solid_object_iff.mp h
      rw [bySchema, membersBySchema_eq_map, solid_object_iff]
      refine ⟨promote_ne_nil (by simpa using hne), fun m hm => ?_⟩
      obtain ⟨old, hold, rfl⟩ := List.mem_map.mp (mem_of_mem_promote hm)
      exact ih old hold (hmembers old hold)
  | _ => exact h

theorem solid_apply {order : KeyOrder} {value : Json} (root : Pointer) (h : value.Solid) :
    (order.apply root value).Solid := by
  cases order with
  | preserve => exact h
  | sorted => exact solid_sortKeys h
  | declared schema => exact solid_bySchema h

end KeyOrder

namespace Json

theorem solid_of_normalize {order : KeyOrder} {value kept : Json}
    (hk : value.normalize order = some kept) : kept.Solid := by
  obtain ⟨pruned, hpruned, rfl⟩ := Option.map_eq_some_iff.mp hk
  exact KeyOrder.solid_apply [] (solid_of_prune hpruned)

/-! ## Writing -/

open Pointer (Apart)

namespace Sets

variable {new value written found : Json} {p q : Pointer} {s : Segment}

/-- A write below the root leaves at least what it has written. -/
theorem isVoid_eq_false (h : Sets new (s :: p) value written) : written.isVoid = false := by
  have hobject : ∀ name inner members,
      isVoid (.object (Members.insert name inner members)) = false := by
    intro name inner members
    have hread := Members.get?_insert_self name inner members
    cases hleft : Members.insert name inner members with
    | nil => simp [hleft, Members.get?] at hread
    | cons m rest => rfl
  cases h with
  | member => exact hobject _ _ _
  | opened h =>
      cases h with
      | member => exact hobject _ _ _
  | @item i _ items _ _ hi =>
      cases items with
      | nil => cases hi
      | cons first others => cases i <;> rfl
  | pastEnd items => simp [isVoid]

/-- An empty value that is read after a write is the one written, or it was there before, apart
from the place of the write. -/
theorem isVoid_cases (h : Sets new p value written) (hnew : new.Terminal)
    (hfound : written.get? q = some found) (hvoid : found.isVoid = true) :
    (found = new ∧ q.names = p.names) ∨ (value.get? q = some found ∧ Apart p q) := by
  by_cases hpq : p.names <+: q.names
  · obtain ⟨rest, hnames, hread⟩ := h.exists_get?_of_below hpq hfound
    cases rest with
    | nil =>
        cases hread
        exact .inl ⟨rfl, by simpa using hnames⟩
    | cons t more =>
        rw [hnew.get?_cons] at hread
        cases hread
  · by_cases hqp : q.names <+: p.names
    · -- containers that were written into are not empty
      obtain ⟨rest, before, hnames, hsets⟩ := h.exists_sets_of_above hqp hfound
      cases rest with
      | nil => exact absurd (by simp [hnames]) hpq
      | cons t more =>
          rw [hsets.isVoid_eq_false] at hvoid
          cases hvoid
    · have hapart : Apart p q := ⟨hpq, hqp⟩
      exact .inr ⟨h.get?_of_apart hapart ▸ hfound, hapart⟩

end Sets

end Json

end Curator
