import Curator.Proofs.Comparison.Places

/-! # Comparisons in the other direction

Both directions of a comparison take the same steps, in another order, and find at each step the
same change turned round. So the changes from the new document to the old one are those from the
old to the new, turned round, up to their order.
-/

namespace Curator

namespace Change

variable {depth : Nat} {path : Pointer} {old new : Json} {x y : Option Json}

def reversed : Change → Change
  | added path value => removed path value
  | removed path value => added path value
  | modified path old new => modified path new old
  | lineAdded content => lineRemoved content
  | lineRemoved content => lineAdded content

theorem map_reversed_whole (hold : old.WellFormed) (hnew : new.WellFormed) :
    (whole path old new).map reversed = whole path new old := by
  have hsymm : old.equal new = new.equal old :=
    Bool.eq_iff_iff.mpr ⟨Json.equal_symm hold hnew, Json.equal_symm hnew hold⟩
  unfold whole
  rw [hsymm]
  split <;> rfl

/-- The names of both objects, or the positions of the longer array, in either order. -/
theorem perm_steps (hold : old.WellFormed) (hnew : new.WellFormed) :
    (steps new old).Perm (steps old new) := by
  refine (List.perm_ext_iff_of_nodup (nodup_steps hnew hold) (nodup_steps hold hnew)).mpr ?_
  have hsubset : ∀ {a b : Json} {s : Segment}, s ∈ steps a b → s ∈ steps b a := by
    intro a b s hs
    rcases mem_steps hs with ⟨name, ms, ns, rfl, rfl, rfl, h⟩ | ⟨i, xs, ys, rfl, rfl, rfl, h⟩
    · exact key_mem_steps h.symm
    · exact index_mem_steps h.symm
  exact fun s => ⟨hsubset, hsubset⟩

/-- Turned round, what is found at a step is what the other direction finds there, if that is so
of the values below it. -/
theorem perm_atStep (hbelow : ∀ a b, x = some a → y = some b →
      (between (depth + 1) path b a).Perm ((between (depth + 1) path a b).map reversed)) :
    (atStep depth path y x).Perm ((atStep depth path x y).map reversed) := by
  cases x with
  | some a =>
      cases y with
      | some b => exact hbelow a b rfl rfl
      | none => exact .refl _
  | none => cases y <;> exact .refl _

theorem perm_between (hold : old.WellFormed) (hnew : new.WellFormed) :
    (between depth path new old).Perm ((between depth path old new).map reversed) := by
  induction old using Json.inductionOnSteps generalizing new depth path with
  | step old ih =>
      by_cases h : depth ≤ depthLimit ∧ Paired old new
      · obtain ⟨hdepth, hpaired⟩ := h
        rw [between_of_paired hold hnew hdepth hpaired,
          between_of_paired hnew hold hdepth hpaired.symm, List.map_flatMap]
        refine (perm_steps hold hnew).flatMap fun s _ => perm_atStep fun a b ha hb => ?_
        exact ih s a ha (hold.of_child? ha) (hnew.of_child? hb)
      · have h' : ¬ (depth ≤ depthLimit ∧ Paired new old) := fun hp => h ⟨hp.1, hp.2.symm⟩
        rw [between_of_not_paired h, between_of_not_paired h', map_reversed_whole hold hnew]

end Change

namespace Comparison

/-- However deep two documents are, the changes from the second to the first are those from the
first to the second, each turned round, in some order. -/
theorem perm_reversed_ofDocuments {old new : Json} (hold : old.WellFormed)
    (hnew : new.WellFormed) :
    (ofDocuments new old).changes.Perm ((ofDocuments old new).changes.map Change.reversed) :=
  Change.perm_between hold hnew

/-- The two directions find the changes in different orders. -/
theorem perm_reversed_ofDocuments_of_mixed :
    let count (n : Nat) := Json.number (.ofCount n)
    let old := Json.object [("gone", .null), ("list", .array [count 1, count 2, count 3]),
      ("kept", .object [("a", .bool true)])]
    let new := Json.object [("kept", .object [("b", .null), ("a", .bool false)]),
      ("list", .array [count 1]), ("came", .string "")]
    let forth := (ofDocuments old new).changes
    let back := (ofDocuments new old).changes
    forth.map Change.path? =
        ["/gone", "/list/1", "/list/2", "/kept/a", "/kept/b", "/came"].map some ∧
      back.map Change.path? =
        ["/kept/b", "/kept/a", "/list/1", "/list/2", "/came", "/gone"].map some ∧
      back.Perm (forth.map Change.reversed) := by
  intro count old new forth back
  refine ⟨?_, ?_, perm_reversed_ofDocuments (by simp [old, count]) (by simp [new, count])⟩
  · simp only [forth, old, new, count]
    decide +kernel
  · simp only [back, old, new, count]
    decide +kernel

end Comparison

end Curator
