import Curator.Proofs.Document.Solid

/-! # Normal forms

A document that is solid and whose members are in order is its own normal form, and nothing else
is. Ordering what was ordered changes nothing, since members that a schema puts first stay first
and every value below keeps its schema. Any order only moves members within their objects.
-/

namespace Curator

namespace Json

variable {value kept : Json}

/-- Pruning finds nothing to take out of a solid document. -/
theorem Solid.prune_eq (h : value.Solid) : value.prune = some value := by
  induction value using Json.induction with
  | null => exact absurd h.root (by simp [isVoid])
  | bool b => rfl
  | number n => rfl
  | string s =>
      have hs : s.isEmpty = false := h.root
      simp [prune, hs]
  | array items ih =>
      obtain ⟨hne, hitems⟩ := solid_array_iff.mp h
      have hkept : pruneItems items = items := by
        rw [pruneItems_eq_filterMap,
          List.filterMap_congr fun item hi => ih item hi (hitems item hi), List.filterMap_some]
      rw [prune_array, hkept, if_neg (by simpa using hne)]
  | object members ih =>
      obtain ⟨hne, hmembers⟩ := solid_object_iff.mp h
      have hkept : pruneMembers members = members := by
        rw [pruneMembers_eq_filterMap, List.filterMap_congr fun m hm => by
          rw [ih m hm (hmembers m hm), Option.map_some], List.filterMap_some]
      rw [prune_object, hkept, if_neg (by simpa using hne)]

/-- The values of a solid object are kept. -/
theorem Solid.bind_prune_eq {members : List (String × Json)} (h : Solid (.object members))
    (name : String) : (Members.get? name members).bind prune = Members.get? name members := by
  cases hvalue : Members.get? name members with
  | none => rfl
  | some value =>
      rw [Option.bind_some]
      exact ((solid_object_iff.mp h).2 _ (Members.mem_of_get? hvalue)).prune_eq

end Json

namespace KeyOrder

open Json (SameUpToKeyOrder wellFormed_array_iff wellFormed_object_iff)

variable {order : KeyOrder} {value : Json}

/-! ## Ordering once -/

theorem rel_map_self {f : Json → Json} {found : Option Json}
    (h : ∀ value, found = some value → SameUpToKeyOrder value (f value)) :
    Option.Rel SameUpToKeyOrder found (found.map f) := by
  cases found with
  | none => exact .none
  | some value => exact .some (h value rfl)

theorem same_sortKeys (h : value.WellFormed) : SameUpToKeyOrder value (sortKeys value) := by
  induction value using Json.induction with
  | array items ih =>
      rw [sortKeys, sortItems_eq_map]
      refine .array (List.forall₂_map_right_iff.mpr (List.forall₂_same.mpr fun item hi => ?_))
      exact ih item hi (wellFormed_array_iff.mp h item hi)
  | object members ih =>
      have hsorted := distinct_sortMembers h.distinct
      have hperm := (List.mergeSort_perm (sortMembers members) fun a b => ByteOrder.le a.1 b.1).symm
      rw [sortKeys]
      refine .object h.distinct (hsorted.of_perm hperm) fun name => ?_
      rw [← Members.get?_of_perm hsorted hperm, get?_sortMembers]
      exact rel_map_self fun value hvalue =>
        ih (name, value) (Members.mem_of_get? hvalue) (h.of_get? hvalue)
  | _ => exact .refl _

theorem forall₂_itemsBySchema_self {schema : Option Json} {items : List Json}
    (hs : SchemaWellFormed schema)
    (h : ∀ item ∈ items, ∀ {schema : Option Json}, SchemaWellFormed schema →
      SameUpToKeyOrder item (bySchema schema item)) (position : Nat) :
    List.Forall₂ SameUpToKeyOrder items (itemsBySchema schema position items) := by
  induction items generalizing position with
  | nil => exact .nil
  | cons item rest ih =>
      obtain ⟨hitem, hrest⟩ := List.forall_mem_cons.mp h
      exact .cons (hitem (hs.item position)) (ih hrest (position + 1))

theorem same_bySchema {schema : Option Json} (hs : SchemaWellFormed schema)
    (h : value.WellFormed) : SameUpToKeyOrder value (bySchema schema value) := by
  induction value using Json.induction generalizing schema with
  | array items ih =>
      refine .array (forall₂_itemsBySchema_self hs (fun item hi {schema} hs => ?_) 0)
      exact ih item hi hs (wellFormed_array_iff.mp h item hi)
  | object members ih =>
      refine .object h.distinct (distinct_promote_membersBySchema hs h.distinct) fun name => ?_
      rw [get?_promote, get?_membersBySchema]
      exact rel_map_self fun value hvalue =>
        ih (name, value) (Members.mem_of_get? hvalue) (hs.property name) (h.of_get? hvalue)
  | _ => exact .refl _

/-- Any order moves members within their objects and does nothing else. -/
theorem same_apply (ho : order.WellFormed) (root : Pointer) (h : value.WellFormed) :
    SameUpToKeyOrder value (order.apply root value) := by
  cases order with
  | preserve => exact .refl value
  | sorted => exact same_sortKeys h
  | declared schema => exact same_bySchema (schemaWellFormed_schemaAt ho root) h

theorem exists_apply_object (ho : order.WellFormed) (root : Pointer)
    {members : List (String × Json)} (h : Json.WellFormed (.object members)) :
    ∃ others, order.apply root (.object members) = .object others ∧
      Json.WellFormed (.object others) ∧ ∀ name, Option.Rel SameUpToKeyOrder
        (Members.get? name members) (Members.get? name others) := by
  have hsame := same_apply ho root h
  have hordered := hsame.wellFormed h
  generalize order.apply root (.object members) = ordered at *
  cases hsame.view h with
  | object _ hread => exact ⟨_, rfl, hordered, hread⟩

/-! ## Ordering twice -/

theorem sortMembers_eq_self {members : List (String × Json)}
    (h : ∀ m ∈ members, sortKeys m.2 = m.2) : sortMembers members = members := by
  rw [sortMembers_eq_map]
  exact Members.map_eq_self (fun _ value => sortKeys value) h

theorem sortKeys_sortKeys (value : Json) : sortKeys (sortKeys value) = sortKeys value := by
  induction value using Json.induction with
  | array items ih =>
      rw [sortKeys, sortKeys, sortItems_eq_map, sortItems_eq_map, List.map_map]
      exact congrArg Json.array (List.map_congr_left ih)
  | object members ih =>
      have hsorted : ∀ m ∈ (sortMembers members).mergeSort fun a b => ByteOrder.le a.1 b.1,
          sortKeys m.2 = m.2 := by
        intro m hm
        rw [List.mem_mergeSort, sortMembers_eq_map] at hm
        obtain ⟨old, hold, rfl⟩ := List.mem_map.mp hm
        exact ih old hold
      rw [sortKeys, sortKeys, sortMembers_eq_self hsorted,
        List.mergeSort_of_pairwise (ByteOrder.pairwise_mergeSort _)]
  | _ => rfl

/-- Members that are first stay first. -/
theorem promote_promote (names : List String) (members : List (String × Json)) :
    promote names (promote names members) = promote names members := by
  have hfirst : (names.filterMap fun name =>
      (Members.get? name (promote names members)).map (name, ·)) =
      names.filterMap fun name => (Members.get? name members).map (name, ·) := by
    simp only [get?_promote]
  have hgone : ((names.filterMap fun name => (Members.get? name members).map (name, ·)).filter
      fun m => !names.contains m.1) = [] := by
    refine List.filter_eq_nil_iff.mpr fun m hm => ?_
    obtain ⟨name, hname, hm⟩ := List.mem_filterMap.mp hm
    obtain ⟨value, -, rfl⟩ := Option.map_eq_some_iff.mp hm
    simpa using hname
  have hrest : ((promote names members).filter fun m => !names.contains m.1) =
      members.filter fun m => !names.contains m.1 := by
    rw [promote, List.filter_append, hgone, List.nil_append, List.filter_filter]
    simp only [Bool.and_self]
  rw [promote, hfirst, hrest, promote]

theorem membersBySchema_eq_self {schema : Option Json} {members : List (String × Json)}
    (h : ∀ m ∈ members, bySchema (schema.bind (propertySchema m.1)) m.2 = m.2) :
    membersBySchema schema members = members := by
  rw [membersBySchema_eq_map]
  exact Members.map_eq_self (fun name value => bySchema (schema.bind (propertySchema name)) value) h

theorem itemsBySchema_itemsBySchema {schema : Option Json} {items : List Json}
    (h : ∀ item ∈ items, ∀ schema, bySchema schema (bySchema schema item) = bySchema schema item)
    (position : Nat) :
    itemsBySchema schema position (itemsBySchema schema position items) =
      itemsBySchema schema position items := by
  induction items generalizing position with
  | nil => rfl
  | cons item rest ih =>
      obtain ⟨hitem, hrest⟩ := List.forall_mem_cons.mp h
      simp only [itemsBySchema]
      rw [hitem, ih hrest]

theorem bySchema_bySchema (schema : Option Json) (value : Json) :
    bySchema schema (bySchema schema value) = bySchema schema value := by
  induction value using Json.induction generalizing schema with
  | array items ih =>
      rw [bySchema, bySchema, itemsBySchema_itemsBySchema fun item hi schema => ih item hi schema]
  | object members ih =>
      -- a member takes its schema with it wherever it goes in its object
      have hordered : ∀ m ∈ promote (declaredNames schema) (membersBySchema schema members),
          bySchema (schema.bind (propertySchema m.1)) m.2 = m.2 := by
        intro m hm
        have hmember := mem_of_mem_promote hm
        rw [membersBySchema_eq_map] at hmember
        obtain ⟨old, hold, rfl⟩ := List.mem_map.mp hmember
        exact ih old hold _
      rw [bySchema, bySchema, membersBySchema_eq_self hordered, promote_promote]
  | _ => rfl

theorem apply_apply (order : KeyOrder) (root : Pointer) (value : Json) :
    order.apply root (order.apply root value) = order.apply root value := by
  cases order with
  | preserve => rfl
  | sorted => exact sortKeys_sortKeys value
  | declared schema => exact bySchema_bySchema _ value

end KeyOrder

namespace Json

variable {order : KeyOrder} {document normal : Json}

/-- A document is its own normal form just if it is solid and in order. -/
theorem normalize_eq_self_iff :
    document.normalize order = some document ↔
      document.Solid ∧ order.apply [] document = document := by
  constructor
  · intro h
    have hsolid := solid_of_normalize h
    rw [normalize, hsolid.prune_eq, Option.map_some, Option.some.injEq] at h
    exact ⟨hsolid, h⟩
  · rintro ⟨hsolid, hordered⟩
    rw [normalize, hsolid.prune_eq, Option.map_some, hordered]

theorem apply_of_normalize (h : document.normalize order = some normal) :
    order.apply [] normal = normal := by
  obtain ⟨pruned, -, rfl⟩ := Option.map_eq_some_iff.mp h
  exact order.apply_apply [] pruned

/-- Normalizing a normal form gives it back, with its members where they are. -/
theorem normalize_of_normalize (h : document.normalize order = some normal) :
    normal.normalize order = some normal :=
  normalize_eq_self_iff.mpr ⟨solid_of_normalize h, apply_of_normalize h⟩

/-- The null before the item is taken out, so the item comes to have the first schema of the
tuple. -/
theorem normalize_of_normalize_of_tuple :
    let schema := Json.object [("properties", .object [("b", .object [("items", .array
      [.object [("properties", .object [("y", .null), ("x", .null)])]])])])]
    let document := Json.object [("a", .bool true),
      ("b", .array [.null, .object [("x", .bool true), ("y", .bool false)]])]
    let normal := Json.object [("b", .array [.object [("y", .bool false), ("x", .bool true)]]),
      ("a", .bool true)]
    document.normalize (.declared schema) = some normal ∧
      normal.normalize (.declared schema) = some normal := by
  intro schema document normal
  have h : document.normalize (.declared schema) = some normal := rfl
  exact ⟨h, normalize_of_normalize h⟩

end Json

end Curator
