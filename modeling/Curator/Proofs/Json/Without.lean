import Curator.Proofs.Json.Within

/-! # What stays when parts are taken out

Taking members and items out of a document leaves its objects with some of their names, in their
order, and so it leaves a well-formed document well-formed.
-/

namespace Curator.Json

variable {a b : Json} {names : List String} {items : List Json}
  {ns members : List (String × Json)}

/-! ## Objects -/

/-- `Under names found document`: a value stands in a document below members of these names. The
arrays on the way add nothing to the names. -/
inductive Under : List String → Json → Json → Prop where
  | root (value : Json) : Under [] value value
  | item {names : List String} {value item : Json} {items : List Json} (hi : item ∈ items)
      (h : Under names value item) : Under names value (.array items)
  | member {names : List String} {value : Json} {m : String × Json}
      {members : List (String × Json)} (hm : m ∈ members) (h : Under names value m.2) :
      Under (m.1 :: names) value (.object members)

/-- What an object has left of its names comes in the order there was. -/
theorem Without.exists_object (h : Without a b) (hb : Under names (.object ns) b) :
    ∃ ms, Under names (.object ms) a ∧ (Members.keys ns).Sublist (Members.keys ms) := by
  induction h generalizing names ns with
  | refl => exact ⟨ns, hb, List.Sublist.refl _⟩
  | trans _ _ ih ih' =>
      obtain ⟨mid, hmid, hns⟩ := ih' hb
      obtain ⟨ms, hms, hmid⟩ := ih hmid
      exact ⟨ms, hms, hns.trans hmid⟩
  | dropItem before after value =>
      cases hb with
      | item hi hb =>
          have hmem := (List.sublist_cons_self value after).append_left before
          exact ⟨ns, .item (hmem.subset hi) hb, List.Sublist.refl _⟩
  | dropMember before after m =>
      have hsublist := (List.sublist_cons_self m after).append_left before
      cases hb with
      | root => exact ⟨before ++ m :: after, .root _, hsublist.map Prod.fst⟩
      | member hm hb => exact ⟨ns, .member (hsublist.subset hm) hb, List.Sublist.refl _⟩
  | @item before after x y _ ih =>
      cases hb with
      | item hi hb =>
          rcases List.mem_append.mp hi with hbefore | hrest
          · exact ⟨ns, .item (List.mem_append_left _ hbefore) hb, List.Sublist.refl _⟩
          · rcases List.mem_cons.mp hrest with rfl | hafter
            · obtain ⟨ms, hms, hns⟩ := ih hb
              exact ⟨ms, .item List.mem_append_cons_self hms, hns⟩
            · have hmem := List.mem_append_right before (List.mem_cons_of_mem x hafter)
              exact ⟨ns, .item hmem hb, List.Sublist.refl _⟩
  | @member before after name x y _ ih =>
      cases hb with
      | root => exact ⟨before ++ (name, x) :: after, .root _, by simp⟩
      | member hm hb =>
          rcases List.mem_append.mp hm with hbefore | hrest
          · exact ⟨ns, .member (List.mem_append_left _ hbefore) hb, List.Sublist.refl _⟩
          · rcases List.mem_cons.mp hrest with rfl | hafter
            · obtain ⟨ms, hms, hns⟩ := ih hb
              have hmem : (name, x) ∈ before ++ (name, x) :: after := List.mem_append_cons_self
              exact ⟨ms, .member (m := (name, x)) hmem hms, hns⟩
            · have hmem := List.mem_append_right before (List.mem_cons_of_mem (name, x) hafter)
              exact ⟨ns, .member hmem hb, List.Sublist.refl _⟩

/-! ## Parts of every item and member -/

theorem without_items {f : Json → Option Json}
    (h : ∀ item ∈ items, ∀ kept, f item = some kept → Without item kept) :
    Without (.array items) (.array (items.filterMap f)) := by
  have hfront : ∀ front, Without (.array (front ++ items)) (.array (front ++ items.filterMap f)) := by
    induction items with
    | nil => exact fun front => .refl _
    | cons item rest ih =>
        intro front
        obtain ⟨hitem, hrest⟩ := List.forall_mem_cons.mp h
        cases hkept : f item with
        | none =>
            have hbehind := ih hrest front
            rw [List.filterMap_cons_none hkept]
            exact .trans (.dropItem front rest item) hbehind
        | some kept =>
            have hbehind := ih hrest (front ++ [kept])
            rw [List.append_assoc, List.append_assoc] at hbehind
            rw [List.filterMap_cons_some hkept]
            exact .trans (.item front rest (hitem kept hkept)) hbehind
  exact hfront []

theorem without_members {f : Json → Option Json}
    (h : ∀ m ∈ members, ∀ kept, f m.2 = some kept → Without m.2 kept) :
    Without (.object members) (.object (members.filterMap fun m => (f m.2).map (m.1, ·))) := by
  have hfront : ∀ front, Without (.object (front ++ members))
      (.object (front ++ members.filterMap fun m => (f m.2).map (m.1, ·))) := by
    induction members with
    | nil => exact fun front => .refl _
    | cons m rest ih =>
        intro front
        obtain ⟨hm, hrest⟩ := List.forall_mem_cons.mp h
        cases hkept : f m.2 with
        | none =>
            have hbehind := ih hrest front
            rw [List.filterMap_cons_none (by rw [hkept]; rfl)]
            exact .trans (.dropMember front rest m) hbehind
        | some kept =>
            have hbehind := ih hrest (front ++ [(m.1, kept)])
            rw [List.append_assoc, List.append_assoc] at hbehind
            rw [List.filterMap_cons_some (by rw [hkept]; rfl)]
            exact .trans (.member front rest m.1 (hm kept hkept)) hbehind
  exact hfront []

/-! ## Distinct names -/

theorem Without.wellFormed (h : Without a b) (ha : a.WellFormed) : b.WellFormed := by
  induction h with
  | refl => exact ha
  | trans _ _ ih ih' => exact ih' (ih ha)
  | dropItem before after value =>
      simp only [wellFormed_array_iff, List.forall_mem_append, List.forall_mem_cons] at ha ⊢
      exact ⟨ha.1, ha.2.2⟩
  | dropMember before after m =>
      have hsublist := (List.sublist_cons_self m after).append_left before
      obtain ⟨hd, hvalues⟩ := wellFormed_object_iff.mp ha
      exact wellFormed_object_iff.mpr
        ⟨(hsublist.map Prod.fst).nodup hd, fun m hm => hvalues m (hsublist.subset hm)⟩
  | item before after _ ih =>
      simp only [wellFormed_array_iff, List.forall_mem_append, List.forall_mem_cons] at ha ⊢
      exact ⟨ha.1, ih ha.2.1, ha.2.2⟩
  | member before after name _ ih =>
      simp only [wellFormed_object_iff, List.forall_mem_append, List.forall_mem_cons] at ha ⊢
      exact ⟨ha.1.exchange _, ha.2.1, ih ha.2.2.1, ha.2.2.2⟩

end Curator.Json
