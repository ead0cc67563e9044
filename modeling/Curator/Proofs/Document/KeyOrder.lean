import Curator.Document.NormalForm
import Curator.Proofs.Document.Prune

/-! # Laws of the order of members

Every order keeps a document well-formed and makes of documents that differ in the order
of members documents that differ in nothing else; sorting makes them one. A schema has
to be well-formed for this, as every document is that was read.
-/

namespace Curator

namespace ByteOrder

theorem le_total (a b : String) : (le a b || le b a) = true := by
  simp only [le, lt, Bool.or_eq_true, Bool.not_eq_true', decide_eq_false_iff_not, List.not_lt]
  exact List.le_total _ _

theorem le_trans {a b c : String} (h : le a b = true) (h' : le b c = true) : le a c = true := by
  simp only [le, lt, Bool.not_eq_true', decide_eq_false_iff_not, List.not_lt] at *
  exact List.le_trans h h'

theorem le_antisymm {a b : String} (h : le a b = true) (h' : le b a = true) : a = b := by
  simp only [le, lt, Bool.not_eq_true', decide_eq_false_iff_not, List.not_lt] at *
  exact bytes_injective (List.le_antisymm h h')

theorem pairwise_mergeSort {α : Type} (ms : List (String × α)) :
    (ms.mergeSort fun a b => le a.1 b.1).Pairwise fun a b => le a.1 b.1 = true :=
  @List.pairwise_mergeSort _ (fun a b => le a.1 b.1) (fun _ _ _ => le_trans)
    (fun a b => le_total a.1 b.1) ms

/-- Sorting by distinct names forgets the order there was. -/
theorem mergeSort_eq_of_perm {α : Type} {ms ns : List (String × α)} (hd : Members.Distinct ms)
    (h : ms.Perm ns) :
    ms.mergeSort (fun a b => le a.1 b.1) = ns.mergeSort (fun a b => le a.1 b.1) := by
  refine List.Perm.eq_of_pairwise ?_ (pairwise_mergeSort ms) (pairwise_mergeSort ns)
    ((List.mergeSort_perm _ _).trans (h.trans (List.mergeSort_perm _ _).symm))
  intro a b ha hb hab hba
  have hname : a.1 = b.1 := le_antisymm hab hba
  have hfa : Members.get? a.1 ms = some a.2 := Members.get?_of_mem hd (List.mem_mergeSort.mp ha)
  have hfb : Members.get? b.1 ms = some b.2 :=
    Members.get?_of_mem hd (h.mem_iff.mpr (List.mem_mergeSort.mp hb))
  rw [hname, hfb, Option.some.injEq] at hfa
  exact Prod.ext hname hfa.symm

end ByteOrder

namespace KeyOrder

open Json (SameUpToKeyOrder wellFormed_array_iff wellFormed_object_iff)

def WellFormed : KeyOrder → Prop
  | .preserve => True
  | .sorted => True
  | .declared schema => schema.WellFormed

/-! ## Sorting -/

theorem sortItems_eq_map (items : List Json) : sortItems items = items.map sortKeys := by
  induction items with
  | nil => rfl
  | cons item rest ih => simp [sortItems, ih]

theorem sortMembers_eq_map (members : List (String × Json)) :
    sortMembers members = members.map fun m => (m.1, sortKeys m.2) := by
  induction members with
  | nil => rfl
  | cons m rest ih => simp [sortMembers, ih]

theorem keys_sortMembers (members : List (String × Json)) :
    Members.keys (sortMembers members) = Members.keys members := by
  rw [sortMembers_eq_map]
  exact Members.keys_map (fun _ value => sortKeys value) members

theorem distinct_sortMembers {members : List (String × Json)} (h : Members.Distinct members) :
    Members.Distinct (sortMembers members) := by
  rw [Members.Distinct, keys_sortMembers]
  exact h

theorem get?_sortMembers (name : String) (members : List (String × Json)) :
    Members.get? name (sortMembers members) = (Members.get? name members).map sortKeys := by
  rw [sortMembers_eq_map]
  exact Members.get?_map (fun _ value => sortKeys value) name members

theorem wellFormed_sortKeys {value : Json} (h : value.WellFormed) :
    (sortKeys value).WellFormed := by
  induction value using Json.induction with
  | array items ih =>
      rw [sortKeys, wellFormed_array_iff, sortItems_eq_map, List.forall_mem_map]
      exact fun item hi => ih item hi (wellFormed_array_iff.mp h item hi)
  | object members ih =>
      obtain ⟨hd, hvalues⟩ := wellFormed_object_iff.mp h
      have hperm := List.mergeSort_perm (sortMembers members) fun a b => ByteOrder.le a.1 b.1
      rw [sortKeys, wellFormed_object_iff]
      constructor
      · exact (distinct_sortMembers hd).of_perm hperm.symm
      · intro m hm
        have hsorted := hperm.mem_iff.mp hm
        rw [sortMembers_eq_map] at hsorted
        obtain ⟨old, hold, rfl⟩ := List.mem_map.mp hsorted
        exact ih old hold (hvalues old hold)
  | _ => trivial

/-- Documents that differ in the order of members are sorted into one. -/
theorem sortKeys_eq {a b : Json} (h : SameUpToKeyOrder a b) (ha : a.WellFormed) :
    sortKeys a = sortKeys b := by
  induction a using Json.induction generalizing b with
  | array xs ih =>
      cases h.view ha with
      | @array _ ys hitems =>
          have hsorted := forall₂_imp_of_mem hitems fun x hx y hxy =>
            ih x hx hxy (wellFormed_array_iff.mp ha x hx)
          rw [sortKeys, sortKeys, sortItems_eq_map, sortItems_eq_map, map_eq_of_forall₂ hsorted]
  | object ms ih =>
      have hb := h.wellFormed ha
      cases h.view ha with
      | @object _ ns _ hmembers =>
          have hread : ∀ name, Members.get? name (sortMembers ms) =
              Members.get? name (sortMembers ns) := by
            intro name
            rw [get?_sortMembers, get?_sortMembers]
            exact eq_of_rel_eq (rel_map (hmembers name) fun x y hx hxy =>
              ih (name, x) (Members.mem_of_get? hx) hxy (ha.of_get? hx))
          have hms := distinct_sortMembers ha.distinct
          rw [sortKeys, sortKeys]
          congr 1
          exact ByteOrder.mergeSort_eq_of_perm hms
            (Members.perm_of_get?_eq hms (distinct_sortMembers hb.distinct) hread)
  | _ => cases h.view ha; rfl

/-! ## The order of a schema -/

theorem membersBySchema_eq_map (schema : Option Json) (members : List (String × Json)) :
    membersBySchema schema members =
      members.map fun m => (m.1, bySchema (schema.bind (propertySchema m.1)) m.2) := by
  induction members with
  | nil => rfl
  | cons m rest ih => simp [membersBySchema, ih]

theorem keys_membersBySchema (schema : Option Json) (members : List (String × Json)) :
    Members.keys (membersBySchema schema members) = Members.keys members := by
  rw [membersBySchema_eq_map]
  exact Members.keys_map (fun name value => bySchema (schema.bind (propertySchema name)) value)
    members

theorem get?_membersBySchema (schema : Option Json) (name : String)
    (members : List (String × Json)) :
    Members.get? name (membersBySchema schema members) =
      (Members.get? name members).map (bySchema (schema.bind (propertySchema name))) := by
  rw [membersBySchema_eq_map]
  exact Members.get?_map (fun name value => bySchema (schema.bind (propertySchema name)) value)
    name members

theorem mem_of_mem_promote {names : List String} {members : List (String × Json)}
    {m : String × Json} (h : m ∈ promote names members) : m ∈ members := by
  cases List.mem_append.mp h with
  | inl h =>
      obtain ⟨name, -, hm⟩ := List.mem_filterMap.mp h
      obtain ⟨value, hvalue, rfl⟩ := Option.map_eq_some_iff.mp hm
      exact Members.mem_of_get? hvalue
  | inr h => exact (List.mem_filter.mp h).1

theorem keys_promoted_sublist (names : List String) (members : List (String × Json)) :
    (Members.keys (names.filterMap fun name => (Members.get? name members).map (name, ·))).Sublist
      names := by
  induction names with
  | nil => exact .slnil
  | cons name rest ih =>
      cases h : Members.get? name members with
      | none => simpa [h] using ih.cons name
      | some value => simpa [h] using ih.cons_cons name

theorem get?_promoted (name : String) (names : List String) (members : List (String × Json)) :
    Members.get? name (names.filterMap fun name => (Members.get? name members).map (name, ·)) =
      if name ∈ names then Members.get? name members else none := by
  induction names with
  | nil => rfl
  | cons first rest ih =>
      by_cases hf : first = name
      · subst hf
        cases h : Members.get? first members with
        | none => simp [h, ih]
        | some value => simp [h, Members.get?]
      · cases h : Members.get? first members with
        | none => simp [h, ih, Ne.symm hf]
        | some value => simp [h, ih, Members.get?, hf, Ne.symm hf]

/-- Putting members first hides none of them. -/
theorem get?_promote (name : String) (names : List String) (members : List (String × Json)) :
    Members.get? name (promote names members) = Members.get? name members := by
  have hfilter := Members.get?_filter (fun name => !names.contains name) name members
  rw [promote, Members.get?_append, get?_promoted, hfilter]
  by_cases h : name ∈ names <;> simp [h]

theorem distinct_promote {names : List String} {members : List (String × Json)}
    (hnames : names.Nodup) (hd : Members.Distinct members) :
    Members.Distinct (promote names members) := by
  rw [Members.Distinct, promote, Members.keys_append]
  refine List.nodup_append.mpr ⟨(keys_promoted_sublist names members).nodup hnames,
    (List.filter_sublist.map Prod.fst).nodup hd, ?_⟩
  intro a ha b hb hab
  obtain ⟨m, hm, rfl⟩ := List.mem_map.mp hb
  have hout := (List.mem_filter.mp hm).2
  have hin := (keys_promoted_sublist names members).subset ha
  simp [← hab, hin] at hout

def SchemaWellFormed (schema : Option Json) : Prop := ∀ s ∈ schema, s.WellFormed

theorem SchemaWellFormed.property {schema : Option Json} (h : SchemaWellFormed schema)
    (name : String) : SchemaWellFormed (schema.bind (propertySchema name)) := by
  intro part hpart
  obtain ⟨whole, hwhole, hpart⟩ := Option.bind_eq_some_iff.mp hpart
  have hw := h whole hwhole
  unfold propertySchema at hpart
  split at hpart
  · rename_i found hfound
    cases hpart
    obtain ⟨properties, hproperties, hmember⟩ := Option.bind_eq_some_iff.mp hfound
    exact (hw.of_member? hproperties).of_member? hmember
  · split at hpart
    · rename_i hmember
      cases hpart
      exact hw.of_member? hmember
    · simp at hpart

theorem SchemaWellFormed.item {schema : Option Json} (h : SchemaWellFormed schema)
    (position : Nat) : SchemaWellFormed (schema.bind (itemSchema position)) := by
  intro part hpart
  obtain ⟨whole, hwhole, hpart⟩ := Option.bind_eq_some_iff.mp hpart
  unfold itemSchema at hpart
  split at hpart
  · rename_i hmember
    exact ((h whole hwhole).of_member? hmember).of_getElem? hpart
  · exact (h whole hwhole).of_member? hpart

theorem SchemaWellFormed.nodup_declaredNames {schema : Option Json} (h : SchemaWellFormed schema) :
    (declaredNames schema).Nodup := by
  unfold declaredNames
  split
  · rename_i s
    split
    · rename_i hmember
      exact ((h s rfl).of_member? hmember).distinct
    · exact List.nodup_nil
  · exact List.nodup_nil

theorem schemaWellFormed_schemaAt {schema : Json} (h : schema.WellFormed) (p : Pointer) :
    SchemaWellFormed (schemaAt schema p) := by
  have go : ∀ {schema : Option Json}, SchemaWellFormed schema →
      SchemaWellFormed (schema.bind fun s => schemaAt s p) := by
    induction p with
    | nil => intro schema hs; cases schema <;> simpa [schemaAt] using hs
    | cons segment rest ih =>
        intro schema hs
        have hstep : SchemaWellFormed (schema.bind (stepSchema · segment)) := by
          cases segment with
          | key name => exact hs.property name
          | index i => exact hs.item i
          | wildcard => exact hs.item 0
        have hrest := ih hstep
        rw [Option.bind_assoc] at hrest
        simpa only [schemaAt, List.foldlM_cons, Option.bind_eq_bind] using hrest
  have hs : SchemaWellFormed (some schema) := fun s hs => Option.some.inj hs ▸ h
  exact go hs

theorem exists_of_mem_itemsBySchema {schema : Option Json} {position : Nat} {items : List Json}
    {item : Json} (h : item ∈ itemsBySchema schema position items) :
    ∃ old ∈ items, ∃ i, item = bySchema (schema.bind (itemSchema i)) old := by
  induction items generalizing position with
  | nil => simp [itemsBySchema] at h
  | cons first rest ih =>
      cases List.mem_cons.mp h with
      | inl he => exact ⟨first, List.mem_cons_self, position, he⟩
      | inr hm =>
          obtain ⟨old, hold, i, hi⟩ := ih hm
          exact ⟨old, List.mem_cons_of_mem _ hold, i, hi⟩

/-- A schema makes members come in another order, once each. -/
theorem distinct_promote_membersBySchema {schema : Option Json} {members : List (String × Json)}
    (hs : SchemaWellFormed schema) (hd : Members.Distinct members) :
    Members.Distinct (promote (declaredNames schema) (membersBySchema schema members)) := by
  refine distinct_promote hs.nodup_declaredNames ?_
  rw [Members.Distinct, keys_membersBySchema]
  exact hd

theorem wellFormed_bySchema {schema : Option Json} {value : Json} (hs : SchemaWellFormed schema)
    (h : value.WellFormed) : (bySchema schema value).WellFormed := by
  induction value using Json.induction generalizing schema with
  | array items ih =>
      rw [bySchema, wellFormed_array_iff]
      intro item hi
      obtain ⟨old, hold, i, rfl⟩ := exists_of_mem_itemsBySchema hi
      exact ih old hold (hs.item i) (wellFormed_array_iff.mp h old hold)
  | object members ih =>
      obtain ⟨hd, hvalues⟩ := wellFormed_object_iff.mp h
      rw [bySchema, wellFormed_object_iff]
      refine ⟨distinct_promote_membersBySchema hs hd, ?_⟩
      intro m hm
      have hmember := mem_of_mem_promote hm
      rw [membersBySchema_eq_map] at hmember
      obtain ⟨old, hold, rfl⟩ := List.mem_map.mp hmember
      exact ih old hold (hs.property old.1) (hvalues old hold)
  | _ => trivial

theorem forall₂_itemsBySchema {schema : Option Json} {xs ys : List Json}
    (hs : SchemaWellFormed schema)
    (h : List.Forall₂ (fun x y => ∀ {schema : Option Json}, SchemaWellFormed schema →
      SameUpToKeyOrder (bySchema schema x) (bySchema schema y)) xs ys) (position : Nat) :
    List.Forall₂ SameUpToKeyOrder (itemsBySchema schema position xs)
      (itemsBySchema schema position ys) := by
  induction h generalizing position with
  | nil => exact .nil
  | cons hxy _ ih => exact .cons (hxy (hs.item position)) (ih (position + 1))

theorem bySchema_same {schema : Option Json} {a b : Json} (hs : SchemaWellFormed schema)
    (h : SameUpToKeyOrder a b) (ha : a.WellFormed) :
    SameUpToKeyOrder (bySchema schema a) (bySchema schema b) := by
  induction a using Json.induction generalizing b schema with
  | array xs ih =>
      cases h.view ha with
      | @array _ ys hitems =>
          -- the schema of an item depends on its position, so the hypothesis is for any schema
          have hordered := forall₂_imp_of_mem hitems fun x hx y hxy {schema : Option Json}
            (hs : SchemaWellFormed schema) => ih x hx hs hxy (wellFormed_array_iff.mp ha x hx)
          exact .array (forall₂_itemsBySchema hs hordered 0)
  | object ms ih =>
      have hms := distinct_promote_membersBySchema hs ha.distinct
      have hns := h.wellFormed ha
      cases h.view ha with
      | object _ hmembers =>
          refine .object hms (distinct_promote_membersBySchema hs hns.distinct) fun name => ?_
          rw [get?_promote, get?_promote, get?_membersBySchema, get?_membersBySchema]
          exact rel_map (hmembers name) fun x y hx hxy =>
            ih (name, x) (Members.mem_of_get? hx) (hs.property name) hxy (ha.of_get? hx)
  | _ => cases h.view ha; exact .refl _

/-! ## Any order -/

theorem wellFormed_apply {order : KeyOrder} {value : Json} (ho : order.WellFormed)
    (root : Pointer) (h : value.WellFormed) : (order.apply root value).WellFormed := by
  cases order with
  | preserve => exact h
  | sorted => exact wellFormed_sortKeys h
  | declared schema => exact wellFormed_bySchema (schemaWellFormed_schemaAt ho root) h

theorem apply_same {order : KeyOrder} {a b : Json} (ho : order.WellFormed) (root : Pointer)
    (h : SameUpToKeyOrder a b) (ha : a.WellFormed) :
    SameUpToKeyOrder (order.apply root a) (order.apply root b) := by
  cases order with
  | preserve => exact h
  | sorted =>
      rw [apply, apply, sortKeys_eq h ha]
      exact .refl _
  | declared schema => exact bySchema_same (schemaWellFormed_schemaAt ho root) h ha

end KeyOrder

/-! ## The stored form -/

namespace Json

theorem WellFormed.of_normalize {order : KeyOrder} {value kept : Json} (ho : order.WellFormed)
    (h : value.WellFormed) (hk : value.normalize order = some kept) : kept.WellFormed := by
  obtain ⟨pruned, hpruned, rfl⟩ := Option.map_eq_some_iff.mp hk
  exact KeyOrder.wellFormed_apply ho [] (h.of_prune hpruned)

theorem SameUpToKeyOrder.normalize {order : KeyOrder} {a b : Json} (ho : order.WellFormed)
    (h : SameUpToKeyOrder a b) (ha : a.WellFormed) :
    Option.Rel SameUpToKeyOrder (a.normalize order) (b.normalize order) :=
  rel_map (h.prune ha) fun _ _ hx hxy => KeyOrder.apply_same ho [] hxy (ha.of_prune hx)

theorem SameUpToKeyOrder.normalize_sorted {a b : Json} (h : SameUpToKeyOrder a b)
    (ha : a.WellFormed) : a.normalize .sorted = b.normalize .sorted :=
  eq_of_rel_eq (rel_map (h.prune ha) fun _ _ hx hxy => KeyOrder.sortKeys_eq hxy (ha.of_prune hx))

end Json

end Curator
