import Curator.Document.Prune
import Curator.Proofs.Json.Reordering

/-! # Laws of pruning

Pruning drops items and members and nothing else, so a pruned document is well-formed
where the document was, and it does not depend on the order of members.
-/

namespace Curator.Json

theorem pruneItems_eq_filterMap (items : List Json) : pruneItems items = items.filterMap prune := by
  induction items with
  | nil => rfl
  | cons item rest ih => cases h : prune item <;> simp [pruneItems, h, ih]

theorem pruneMembers_eq_filterMap (members : List (String × Json)) :
    pruneMembers members = members.filterMap fun m => (prune m.2).map (m.1, ·) := by
  induction members with
  | nil => rfl
  | cons m rest ih =>
      obtain ⟨name, value⟩ := m
      cases h : prune value <;> simp [pruneMembers, h, ih]

theorem prune_array (items : List Json) :
    prune (.array items) =
      if (pruneItems items).isEmpty then none else some (.array (pruneItems items)) := by
  rw [prune]
  cases h : pruneItems items <;> simp

theorem prune_object (members : List (String × Json)) :
    prune (.object members) =
      if (pruneMembers members).isEmpty then none else some (.object (pruneMembers members)) := by
  rw [prune]
  cases h : pruneMembers members <;> simp

theorem distinct_pruneMembers {members : List (String × Json)} (hd : Members.Distinct members) :
    Members.Distinct (pruneMembers members) := by
  rw [pruneMembers_eq_filterMap]
  exact (Members.keys_filterMap_sublist prune members).nodup hd

theorem get?_pruneMembers {members : List (String × Json)} (hd : Members.Distinct members)
    (name : String) :
    Members.get? name (pruneMembers members) = (Members.get? name members).bind prune := by
  rw [pruneMembers_eq_filterMap, Members.get?_filterMap hd]

/-- What is left of the members is well-formed if what is left of each value is. -/
theorem wellFormed_pruneMembers {members : List (String × Json)} (hd : Members.Distinct members)
    (h : ∀ m ∈ members, ∀ kept, prune m.2 = some kept → kept.WellFormed) :
    WellFormed (.object (pruneMembers members)) := by
  refine wellFormed_object_iff.mpr ⟨distinct_pruneMembers hd, fun m hm => ?_⟩
  rw [pruneMembers_eq_filterMap] at hm
  obtain ⟨old, hold, hprune⟩ := List.mem_filterMap.mp hm
  obtain ⟨kept, hkept, rfl⟩ := Option.map_eq_some_iff.mp hprune
  exact h old hold kept hkept

theorem WellFormed.of_prune {value kept : Json} (h : value.WellFormed)
    (hk : value.prune = some kept) : kept.WellFormed := by
  induction value using Json.induction generalizing kept with
  | null => simp [prune] at hk
  | bool b => cases hk; trivial
  | number n => cases hk; trivial
  | string s =>
      simp only [prune] at hk
      split at hk
      · simp at hk
      · cases hk; trivial
  | array items ih =>
      simp only [prune_array, Option.ite_none_left_eq_some, Option.some.injEq] at hk
      obtain ⟨-, rfl⟩ := hk
      refine wellFormed_array_iff.mpr fun item hi => ?_
      rw [pruneItems_eq_filterMap] at hi
      obtain ⟨old, hold, hprune⟩ := List.mem_filterMap.mp hi
      exact ih old hold (wellFormed_array_iff.mp h old hold) hprune
  | object members ih =>
      simp only [prune_object, Option.ite_none_left_eq_some, Option.some.injEq] at hk
      obtain ⟨-, rfl⟩ := hk
      exact wellFormed_pruneMembers h.distinct fun m hm kept hkept =>
        ih m hm ((wellFormed_object_iff.mp h).2 m hm) hkept

theorem WellFormed.pruneMembers {members : List (String × Json)}
    (h : WellFormed (.object members)) : WellFormed (.object (pruneMembers members)) :=
  wellFormed_pruneMembers h.distinct fun m hm _ hkept =>
    ((wellFormed_object_iff.mp h).2 m hm).of_prune hkept

/-- Pruning leaves something of both documents or of neither, and what it leaves differs in
the order of members only. -/
theorem SameUpToKeyOrder.prune {a b : Json} (h : SameUpToKeyOrder a b) (ha : a.WellFormed) :
    Option.Rel SameUpToKeyOrder a.prune b.prune := by
  induction a using Json.induction generalizing b with
  | null => cases h.view ha; exact rel_refl _
  | bool x => cases h.view ha; exact rel_refl _
  | number n => cases h.view ha; exact rel_refl _
  | string s => cases h.view ha; exact rel_refl _
  | array xs ih =>
      cases h.view ha with
      | @array _ ys hitems =>
          have hprune := forall₂_imp_of_mem hitems fun x hx y hxy =>
            ih x hx hxy (wellFormed_array_iff.mp ha x hx)
          have hkept : List.Forall₂ SameUpToKeyOrder (pruneItems xs) (pruneItems ys) := by
            rw [pruneItems_eq_filterMap, pruneItems_eq_filterMap]
            exact List.rel_filterMap (fun _ _ hxy => hxy) hprune
          rw [prune_array, prune_array, forall₂_isEmpty_eq hkept]
          split
          · exact .none
          · exact .some (.array hkept)
  | object ms ih =>
      have hb := h.wellFormed ha
      cases h.view ha with
      | @object _ ns _ hmembers =>
          have hkept :
              SameUpToKeyOrder (.object (pruneMembers ms)) (.object (pruneMembers ns)) := by
            refine .object (distinct_pruneMembers ha.distinct) (distinct_pruneMembers hb.distinct)
              fun name => ?_
            rw [get?_pruneMembers ha.distinct, get?_pruneMembers hb.distinct]
            exact rel_bind (hmembers name) fun x y hx hxy =>
              ih (name, x) (Members.mem_of_get? hx) hxy (ha.of_get? hx)
          -- an object that is left empty goes, on both sides
          rw [prune_object, prune_object, hkept.isEmpty_eq ha.pruneMembers]
          split
          · exact .none
          · exact .some hkept

end Curator.Json
