import Curator.Proofs.Json.WellFormed

/-! # Reading what was written

A well-formed document reads back from what is written of it. An object whose names are all fields
of a record is read as the record of its members, and each field as the member of its name.
-/

namespace Curator.Json

variable {names : List String} {members : List (String × Json)}

namespace Written

theorem ofItems_eq_map (items : List Json) : ofItems items = items.map ofJson := by
  induction items with
  | nil => rfl
  | cons item rest ih => rw [ofItems, ih, List.map_cons]

theorem toItems?_ofItems {items : List Json}
    (h : ∀ item ∈ items, (ofJson item).toJson? = some item) :
    toItems? (ofItems items) = some items := by
  induction items with
  | nil => rfl
  | cons item rest ih =>
      obtain ⟨hitem, hrest⟩ := List.forall_mem_cons.mp h
      rw [ofItems, toItems?, hitem, ih hrest]
      rfl

theorem toMembers?_ofMembers (h : ∀ m ∈ members, (ofJson m.2).toJson? = some m.2) :
    toMembers? (ofMembers members) = some members := by
  induction members with
  | nil => rfl
  | cons m rest ih =>
      obtain ⟨name, value⟩ := m
      obtain ⟨hvalue, hrest⟩ := List.forall_mem_cons.mp h
      rw [ofMembers, toMembers?, hvalue, ih hrest]
      rfl

theorem toJson?_ofJson {value : Json} (h : value.WellFormed) :
    (ofJson value).toJson? = some value := by
  induction value using Json.induction with
  | null => rfl
  | bool b => rfl
  | number n => rfl
  | string s => rfl
  | array items ih =>
      have hitems := wellFormed_array_iff.mp h
      rw [ofJson, toJson?, toItems?_ofItems fun item hi => ih item hi (hitems item hi)]
      rfl
  | object members ih =>
      obtain ⟨hdistinct, hmembers⟩ := wellFormed_object_iff.mp h
      rw [ofJson, toJson?, toMembers?_ofMembers fun m hm => ih m hm (hmembers m hm),
        Option.map_some, Members.ofList_eq_self hdistinct]

theorem eq_null_of_toJson? {written : Written} (h : written.toJson? = some .null) :
    written = .null := by
  cases written with
  | null => rfl
  | bool b => cases h
  | number n => simp [toJson?] at h
  | string s => simp [toJson?] at h
  | array items => simp [toJson?] at h
  | object members => simp [toJson?] at h

/-- A list reads back item by item. -/
theorem asList?_ofJson {α β : Type} {decode : Written → Option β} {encode : α → Json} {read : α → β}
    {items : List α} (h : ∀ item ∈ items, decode (.ofJson (encode item)) = some (read item)) :
    asList? decode (.ofJson (.array (items.map encode))) = some (items.map read) := by
  rw [ofJson, ofItems_eq_map, asList?]
  induction items with
  | nil => rfl
  | cons item rest ih =>
      obtain ⟨hitem, hrest⟩ := List.forall_mem_cons.mp h
      rw [List.map_cons, List.map_cons, List.mapM_cons, hitem, ih hrest]
      rfl

theorem asOption?_of_ne_null {α : Type} {decode : Written → Option α} {written : Written}
    (h : written ≠ .null) : asOption? decode written = (decode written).map some := by
  unfold asOption?
  split
  · exact absurd rfl h
  · rfl

theorem of_asOption?_eq_some {α : Type} {decode : Written → Option α} {written : Written} {a : α}
    (h : asOption? decode written = some (some a)) : written ≠ .null ∧ decode written = some a := by
  unfold asOption? at h
  split at h
  · cases h
  · next hne =>
      obtain ⟨_, hdecode, heq⟩ := Option.map_eq_some_iff.mp h
      cases heq
      exact ⟨hne, hdecode⟩

end Written

namespace Record

/-- A field was decoded, unless it is missing. -/
theorem fieldD_eq_some {α : Type} {r : Record} {name : String} {decode : Written → Option α}
    {default a : α} (h : r.fieldD name decode default = some a) :
    a = default ∨ ∃ value, decode value = some a := by
  unfold fieldD at h
  split at h
  · exact .inr ⟨_, h⟩
  · exact .inl (Option.some.inj h).symm

theorem collect_ofMembers {found : List (String × Written)} (hd : Members.Distinct members)
    (hnames : ∀ m ∈ members, m.1 ∈ names) (hfound : ∀ m ∈ members, m.1 ∉ Members.keys found) :
    collect names (Written.ofMembers members) found =
      some (found.reverse ++ members.map fun m => (m.1, Written.ofJson m.2)) := by
  induction members generalizing found with
  | nil => exact congrArg some (List.append_nil _).symm
  | cons m rest ih =>
      obtain ⟨name, value⟩ := m
      obtain ⟨hnew, hrest⟩ := Members.distinct_cons_iff.mp hd
      obtain ⟨hname, hnames⟩ := List.forall_mem_cons.mp hnames
      obtain ⟨hfirst, hfound⟩ := List.forall_mem_cons.mp hfound
      have hcontains : Members.contains name found = false := by
        rw [Members.contains, Members.get?_eq_none_iff.mpr hfirst]
        rfl
      have hbehind : ∀ m ∈ rest, m.1 ∉ Members.keys ((name, Written.ofJson value) :: found) := by
        intro m hm hkey
        rcases List.mem_cons.mp hkey with heq | hbefore
        · exact hnew (heq ▸ Members.mem_keys_of_mem hm)
        · exact hfound m hm hbefore
      have hcollect := ih hrest hnames hbehind
      rw [List.reverse_cons, List.append_assoc] at hcollect
      simpa [Written.ofMembers, collect, hname, hcontains] using hcollect

/-- An object of fields is read as a record of its members. -/
theorem ofWritten?_object (hd : Members.Distinct members) (hnames : ∀ m ∈ members, m.1 ∈ names) :
    ofWritten? names (.ofJson (.object members)) =
      some ⟨false, members.map fun m => (m.1, Written.ofJson m.2)⟩ := by
  rw [Written.ofJson, ofWritten?, collect_ofMembers hd hnames fun _ _ => List.not_mem_nil]
  rfl

end Record

end Curator.Json
