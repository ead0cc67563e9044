import Curator.Comparison.Lines
import Curator.Proofs.Json.SameValue

/-! # A comparison without changes

Two well-formed documents have no changes between them exactly when they are equal. The
limit of depth does not show in this, since a pair beyond it is compared by equality.
-/

namespace Curator

namespace Change

variable {depth position : Nat} {path : Pointer}

theorem whole_eq_nil_iff {old new : Json} : whole path old new = [] ↔ old.equal new = true := by
  unfold whole
  split <;> simp_all

theorem addedMembers_eq_nil_iff {ms ns : List (String × Json)} :
    addedMembers path ms ns = [] ↔ Members.keys ns ⊆ Members.keys ms := by
  simp only [addedMembers, List.map_eq_nil_iff, List.filter_eq_nil_iff, Bool.not_eq_true',
    Bool.not_eq_false, Members.contains, Members.isSome_get?_iff]
  exact List.forall_mem_map.symm

theorem memberChanges_eq_nil_iff {ms ns : List (String × Json)} :
    memberChanges depth path ms ns = [] ↔
      ∀ m ∈ ms, ∃ y, Members.get? m.1 ns = some y ∧
        between (depth + 1) (path ++ [.key m.1]) m.2 y = [] := by
  induction ms with
  | nil => simp [memberChanges]
  | cons m rest ih =>
      obtain ⟨name, value⟩ := m
      rw [List.forall_mem_cons, ← ih, memberChanges, List.append_eq_nil_iff]
      cases Members.get? name ns <;> simp

/-- Items change nowhere exactly when they are pairwise equal, if that is so of each pair. -/
theorem itemChanges_eq_nil_iff {xs ys : List Json}
    (h : ∀ x ∈ xs, ∀ y ∈ ys, ∀ depth path, between depth path x y = [] ↔ x.equal y = true) :
    itemChanges depth path position xs ys = [] ↔
      List.Forall₂ (fun x y => x.equal y = true) xs ys := by
  induction xs generalizing ys position with
  | nil => cases ys <;> simp [itemChanges, addedItems]
  | cons x xs ih =>
      cases ys with
      | nil => simp [itemChanges]
      | cons y ys =>
          have hxy := h x List.mem_cons_self y List.mem_cons_self
          have hrest := @ih (position + 1) ys fun x hx y hy =>
            h x (List.mem_cons_of_mem _ hx) y (List.mem_cons_of_mem _ hy)
          rw [itemChanges, List.append_eq_nil_iff, List.forall₂_cons, hrest, hxy]

/-- No change is found between two documents exactly when they are equal. -/
theorem between_eq_nil_iff {old new : Json} (hold : old.WellFormed) (hnew : new.WellFormed) :
    between depth path old new = [] ↔ old.equal new = true := by
  induction old using Json.induction generalizing new depth path with
  | null => unfold between; split <;> exact whole_eq_nil_iff
  | bool b => unfold between; split <;> exact whole_eq_nil_iff
  | number n => unfold between; split <;> exact whole_eq_nil_iff
  | string s => unfold between; split <;> exact whole_eq_nil_iff
  | array xs ih =>
      unfold between
      split
      · -- past the depth limit values are compared as wholes
        exact whole_eq_nil_iff
      · cases new with
        | array ys =>
            rw [Json.equal, Json.equalBy_array_iff]
            exact itemChanges_eq_nil_iff fun x hx y hy depth path =>
              ih x hx (Json.wellFormed_array_iff.mp hold x hx)
                (Json.wellFormed_array_iff.mp hnew y hy)
        | _ => exact whole_eq_nil_iff
  | object ms ih =>
      unfold between
      split
      · exact whole_eq_nil_iff
      · cases new with
        | object ns =>
            have hchanges : memberChanges depth path ms ns = [] ↔
                ∀ m ∈ ms, ∃ y, Members.get? m.1 ns = some y ∧ m.2.equal y = true := by
              rw [memberChanges_eq_nil_iff]
              refine forall₂_congr fun m hm => exists_congr fun y => and_congr_right fun hy => ?_
              exact ih m hm ((Json.wellFormed_object_iff.mp hold).2 m hm) (hnew.of_get? hy)
            rw [Json.equal, Json.equalBy_object_iff, List.append_eq_nil_iff, hchanges,
              addedMembers_eq_nil_iff, and_comm]
            -- no name is lost, so none is added exactly if there are as many
            exact and_congr_left fun hall => (Members.length_eq_iff_of_subset hold.distinct
              hnew.distinct (Members.keys_subset_of_forall_get? hall)).symm
        | _ => exact whole_eq_nil_iff

end Change

namespace Comparison

theorem isEquivalent_ofDocuments_iff {old new : Json} (hold : old.WellFormed)
    (hnew : new.WellFormed) : (ofDocuments old new).isEquivalent = true ↔ old.equal new = true := by
  simp only [ofDocuments, isEquivalent, List.isEmpty_iff]
  exact Change.between_eq_nil_iff hold hnew

/-- An absent document compares as null does. -/
theorem ofOptional_eq_ofDocuments (old new : Option Json) :
    ofOptional old new = ofDocuments (old.getD .null) (new.getD .null) := by
  unfold ofOptional
  split
  · next h =>
      simp only [Bool.and_eq_true, Option.isNone_iff_eq_none] at h
      rw [h.1, h.2]
      rfl
  · rfl

theorem isEquivalent_ofOptional_iff {old new : Option Json}
    (hold : (old.getD .null).WellFormed) (hnew : (new.getD .null).WellFormed) :
    (ofOptional old new).isEquivalent = true ↔
      (old.getD .null).equal (new.getD .null) = true := by
  rw [ofOptional_eq_ofDocuments]
  exact isEquivalent_ofDocuments_iff hold hnew

/-- However deep two documents are, their comparison finds no change exactly if they are the
same value. Documents that may be absent are compared as if null stood for an absent one. -/
theorem isEquivalent_iff_sameValue {old new : Json} (hold : old.WellFormed)
    (hnew : new.WellFormed) :
    ((ofDocuments old new).isEquivalent = true ↔ Json.SameValue old new) ∧
      ∀ before after : Option Json,
        ofOptional before after = ofDocuments (before.getD .null) (after.getD .null) :=
  ⟨(isEquivalent_ofDocuments_iff hold hnew).trans (Json.equal_iff_sameValue hold hnew),
    ofOptional_eq_ofDocuments⟩

/-- Beyond the limit of depth, the zeros and the order of members still make no difference,
and an integer still differs from a float. -/
theorem isEquivalent_iff_sameValue_of_deep :
    let deep (value : Json) := Nat.repeat (fun inner => .array [inner]) 200 value
    let zero (negative : Bool) := Json.number (.float (.zero negative))
    let old := deep (.object [("a", zero false), ("b", .null)])
    let new := deep (.object [("b", .null), ("a", zero true)])
    let other := deep (.object [("a", .number (.ofCount 0)), ("b", .null)])
    Json.SameValue old new ∧ ¬ Json.SameValue old other := by
  intro deep zero old new other
  have hdeep : ∀ value : Json, value.WellFormed → (deep value).WellFormed := by
    intro value h
    simp only [deep]
    induction 200 with
    | zero => exact h
    | succ n ih => exact Json.wellFormed_array_iff.mpr (List.forall_mem_singleton.mpr ih)
  have hold : old.WellFormed := hdeep _ (by simp [zero])
  have hnew : new.WellFormed := hdeep _ (by simp [zero])
  have hother : other.WellFormed := hdeep _ (by simp)
  constructor
  · refine (isEquivalent_iff_sameValue hold hnew).1.mp ?_
    simp only [old, new, deep, zero]
    decide +kernel
  · refine mt (isEquivalent_iff_sameValue hold hother).1.mpr ?_
    simp only [old, other, deep, zero]
    decide +kernel

end Comparison

end Curator
