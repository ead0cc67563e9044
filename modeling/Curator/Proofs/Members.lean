import Curator.Members
import Mathlib.Data.List.Nodup
import Mathlib.Data.List.Perm.Basic
import Mathlib.Data.List.Perm.Subperm

/-! # Laws of members

Reading a name finds its first member, so among distinct names a member is what reading
its name gives, and the order of the members does not matter. Writing and erasing keep
names distinct.
-/

namespace Curator.Members

variable {α β : Type} {name : String} {value : α} {members others : List (String × α)}

/-! ## Reading -/

theorem mem_of_get? (h : get? name members = some value) : (name, value) ∈ members := by
  induction members with
  | nil => simp [get?] at h
  | cons m rest ih =>
      obtain ⟨key, first⟩ := m
      by_cases hk : key = name
      · subst hk
        simp only [get?, if_true, Option.some.injEq] at h
        simp [h]
      · simp only [get?, if_neg hk] at h
        exact List.mem_cons_of_mem _ (ih h)

theorem mem_keys_of_mem {m : String × α} (h : m ∈ members) : m.1 ∈ keys members :=
  List.mem_map_of_mem h

@[simp] theorem keys_nil : keys ([] : List (String × α)) = [] := rfl

@[simp] theorem keys_cons (m : String × α) : keys (m :: members) = m.1 :: keys members := rfl

@[simp] theorem keys_append : keys (members ++ others) = keys members ++ keys others :=
  List.map_append

@[simp] theorem length_keys : (keys members).length = members.length := List.length_map _

theorem get?_eq_none_iff : get? name members = none ↔ name ∉ keys members := by
  induction members with
  | nil => simp [get?]
  | cons m rest ih =>
      obtain ⟨key, first⟩ := m
      by_cases hk : key = name
      · simp [get?, hk]
      · simp [get?, hk, ih, Ne.symm hk]

theorem isSome_get?_iff : (get? name members).isSome ↔ name ∈ keys members := by
  rw [Option.isSome_iff_ne_none, ne_eq, get?_eq_none_iff, not_not]

/-- Where every member finds a partner of its name, the others have all the names. -/
theorem keys_subset_of_forall_get? {others : List (String × β)} {R : String × α → β → Prop}
    (h : ∀ m ∈ members, ∃ y, get? m.1 others = some y ∧ R m y) : keys members ⊆ keys others := by
  intro name hname
  obtain ⟨m, hm, rfl⟩ := List.mem_map.mp hname
  obtain ⟨y, hy, -⟩ := h m hm
  exact isSome_get?_iff.mp (Option.isSome_of_eq_some hy)

/-! ## Distinct names -/

@[simp] theorem distinct_nil : Distinct ([] : List (String × α)) := List.nodup_nil

@[simp] theorem distinct_cons_iff {m : String × α} :
    Distinct (m :: members) ↔ m.1 ∉ keys members ∧ Distinct members :=
  List.nodup_cons

/-- Among distinct names reading finds every member. -/
theorem get?_of_mem (hd : Distinct members) (h : (name, value) ∈ members) :
    get? name members = some value := by
  induction members with
  | nil => simp at h
  | cons m rest ih =>
      obtain ⟨key, first⟩ := m
      obtain ⟨hnotin, hrest⟩ := distinct_cons_iff.mp hd
      cases List.mem_cons.mp h with
      | inl he => cases he; simp [get?]
      | inr hm =>
          have hne : key ≠ name := by
            rintro rfl
            have hkey := mem_keys_of_mem hm
            exact hnotin hkey
          simp [get?, hne, ih hrest hm]

theorem get?_eq_some_iff (hd : Distinct members) :
    get? name members = some value ↔ (name, value) ∈ members :=
  ⟨mem_of_get?, get?_of_mem hd⟩

theorem Distinct.of_perm (hd : Distinct members) (hp : members.Perm others) : Distinct others :=
  (hp.map Prod.fst).nodup_iff.mp hd

theorem get?_of_perm (hd : Distinct members) (hp : members.Perm others) (name : String) :
    get? name members = get? name others := by
  apply Option.ext
  intro value
  rw [get?_eq_some_iff hd, get?_eq_some_iff (hd.of_perm hp), hp.mem_iff]

/-- Distinct names that read alike are the same names. -/
theorem keys_perm_of_isSome {others : List (String × β)} (hd : Distinct members)
    (hd' : Distinct others)
    (h : ∀ name, (get? name members).isSome = (get? name others).isSome) :
    (keys members).Perm (keys others) := by
  apply (List.perm_ext_iff_of_nodup hd hd').mpr
  intro name
  rw [← isSome_get?_iff, ← isSome_get?_iff, h]

/-- Distinct names with the values that reading finds determine the members up to their
order. -/
theorem perm_of_get?_eq (hd : Distinct members) (hd' : Distinct others)
    (h : ∀ name, get? name members = get? name others) : members.Perm others := by
  apply (List.perm_ext_iff_of_nodup (.of_map Prod.fst hd) (.of_map Prod.fst hd')).mpr
  intro m
  rw [← get?_eq_some_iff hd, ← get?_eq_some_iff hd', h]

/-- Of two lists of distinct names, one inside the other, the lengths agree exactly when
the other is inside the one. -/
theorem length_eq_iff_of_subset {others : List (String × β)} (hd : Distinct members)
    (hd' : Distinct others) (h : keys members ⊆ keys others) :
    members.length = others.length ↔ keys others ⊆ keys members := by
  rw [← length_keys, ← length_keys]
  constructor
  · intro hl
    exact ((List.subperm_of_subset hd h).perm_of_length_le (Nat.le_of_eq hl.symm)).symm.subset
  · intro h'
    exact ((List.subperm_of_subset hd h).antisymm (List.subperm_of_subset hd' h')).length_eq

/-! ## Writing and erasing -/

theorem mem_of_mem_insert {m : String × α} (h : m ∈ insert name value members) :
    m = (name, value) ∨ m ∈ members := by
  induction members with
  | nil => simpa [insert] using h
  | cons first rest ih =>
      obtain ⟨key, old⟩ := first
      by_cases hk : key = name
      · subst hk
        simp only [insert, if_true, List.mem_cons] at h
        exact h.imp id (List.mem_cons_of_mem _)
      · simp only [insert, if_neg hk, List.mem_cons] at h
        cases h with
        | inl he => exact .inr (he ▸ List.mem_cons_self)
        | inr hm => exact (ih hm).imp id (List.mem_cons_of_mem _)

/-- A present name keeps its place and a new one comes last. -/
theorem keys_insert (name : String) (value : α) (members : List (String × α)) :
    keys (insert name value members) =
      if name ∈ keys members then keys members else keys members ++ [name] := by
  induction members with
  | nil => simp [insert, keys]
  | cons m rest ih =>
      obtain ⟨key, old⟩ := m
      by_cases hk : key = name
      · simp [insert, hk]
      · simp only [insert, if_neg hk, keys_cons, ih, List.mem_cons, Ne.symm hk, false_or]
        split <;> rfl

theorem Distinct.insert (h : Distinct members) (name : String) (value : α) :
    Distinct (Members.insert name value members) := by
  unfold Distinct
  rw [keys_insert]
  split
  · exact h
  · rename_i hn
    exact List.nodup_append.mpr
      ⟨h, List.nodup_singleton _, fun a ha b hb => by
        rw [List.mem_singleton.mp hb]; exact fun he => hn (he ▸ ha)⟩

theorem get?_insert (name other : String) (value : α) (members : List (String × α)) :
    get? other (insert name value members) =
      if other = name then some value else get? other members := by
  by_cases h : other = name
  · subst h; simp
  · rw [get?_insert_of_ne h, if_neg h]

/-- Of two writes of one name the second stays. -/
theorem insert_insert (name : String) (value new : α) (members : List (String × α)) :
    insert name new (insert name value members) = insert name new members := by
  induction members with
  | nil => simp [insert]
  | cons m rest ih =>
      obtain ⟨key, old⟩ := m
      by_cases hk : key = name <;> simp [insert, hk, ih]

/-- Erasing a name that is not there changes nothing. -/
theorem erase_of_get?_eq_none (h : get? name members = none) : erase name members = members := by
  induction members with
  | nil => rfl
  | cons m rest ih =>
      obtain ⟨key, old⟩ := m
      by_cases hk : key = name
      · simp [get?, hk] at h
      · simp only [get?, if_neg hk] at h
        simp [erase, hk, ih h]

theorem erase_sublist (name : String) (members : List (String × α)) :
    (erase name members).Sublist members := by
  induction members with
  | nil => exact .slnil
  | cons m rest ih =>
      obtain ⟨key, old⟩ := m
      by_cases hk : key = name
      · simp [erase, hk]
      · simpa [erase, hk] using ih

theorem Distinct.erase (h : Distinct members) (name : String) :
    Distinct (Members.erase name members) :=
  ((erase_sublist name members).map Prod.fst).nodup h

/-- Erasing a name hides it and no other. -/
theorem get?_erase (hd : Distinct members) (name other : String) :
    get? other (erase name members) = if other = name then none else get? other members := by
  induction members with
  | nil => simp [erase, get?]
  | cons m rest ih =>
      obtain ⟨key, old⟩ := m
      obtain ⟨hnotin, hrest⟩ := distinct_cons_iff.mp hd
      by_cases hk : key = name
      · subst hk
        by_cases ho : other = key
        · subst ho
          simp [erase, get?_eq_none_iff.mpr hnotin]
        · simp [erase, get?, ho, Ne.symm ho]
      · by_cases ho : key = other
        · subst ho
          simp [erase, get?, hk]
        · simp [erase, get?, hk, ho, ih hrest]

theorem Distinct.ofList (writes : List (String × α)) : Distinct (Members.ofList writes) := by
  have go : ∀ (members : List (String × α)), Distinct members →
      Distinct (writes.foldl (fun members write => Members.insert write.1 write.2 members)
        members) := by
    induction writes with
    | nil => exact fun _ h => h
    | cons write rest ih => exact fun members h => ih _ (h.insert _ _)
  exact go [] distinct_nil

theorem mem_of_mem_ofList {writes : List (String × α)} {m : String × α} (h : m ∈ ofList writes) :
    m ∈ writes := by
  have go : ∀ (members : List (String × α)),
      m ∈ writes.foldl (fun members write => insert write.1 write.2 members) members →
      m ∈ members ∨ m ∈ writes := by
    clear h
    induction writes with
    | nil => exact fun _ h => .inl h
    | cons write rest ih =>
        intro members h
        rcases ih _ h with h | h
        · rcases mem_of_mem_insert h with rfl | h
          · exact .inr List.mem_cons_self
          · exact .inl h
        · exact .inr (List.mem_cons_of_mem _ h)
  exact (go [] h).resolve_left List.not_mem_nil

/-! ## Members with other values -/

/-- Exchanging every value, by a function of its name, is seen by reading. -/
theorem get?_map (f : String → α → β) (name : String) (members : List (String × α)) :
    get? name (members.map fun m => (m.1, f m.1 m.2)) = (get? name members).map (f name) := by
  induction members with
  | nil => rfl
  | cons m rest ih =>
      obtain ⟨key, value⟩ := m
      by_cases hk : key = name
      · subst hk; simp [get?]
      · simp [get?, hk, ih]

/-- New values that are the old ones make no difference. -/
theorem map_eq_self (f : String → α → α) (h : ∀ m ∈ members, f m.1 m.2 = m.2) :
    members.map (fun m => (m.1, f m.1 m.2)) = members := by
  calc members.map (fun m => (m.1, f m.1 m.2))
      = members.map id := List.map_congr_left fun m hm => Prod.ext rfl (h m hm)
    _ = members := List.map_id members

@[simp] theorem keys_map (f : String → α → β) (members : List (String × α)) :
    keys (members.map fun m => (m.1, f m.1 m.2)) = keys members := by
  simp [keys, Function.comp_def]

theorem keys_filterMap_sublist (f : α → Option β) (members : List (String × α)) :
    (keys (members.filterMap fun m => (f m.2).map (m.1, ·))).Sublist (keys members) := by
  induction members with
  | nil => exact .slnil
  | cons m rest ih =>
      cases hf : f m.2 with
      | none => simpa [hf] using ih.cons m.1
      | some value => simpa [hf] using ih.cons_cons m.1

/-- Where some values are dropped, among distinct names, reading drops them too. -/
theorem get?_filterMap (hd : Distinct members) (f : α → Option β) (name : String) :
    get? name (members.filterMap fun m => (f m.2).map (m.1, ·)) = (get? name members).bind f := by
  induction members with
  | nil => rfl
  | cons m rest ih =>
      obtain ⟨key, value⟩ := m
      obtain ⟨hnotin, hrest⟩ := distinct_cons_iff.mp hd
      by_cases hk : key = name
      · subst hk
        cases hf : f value with
        | none =>
            have hn : get? key rest = none := get?_eq_none_iff.mpr hnotin
            simp [get?, hf, ih hrest, hn]
        | some new => simp [get?, hf]
      · cases hf : f value with
        | none => simp [get?, hf, hk, ih hrest]
        | some new => simp [get?, hf, hk, ih hrest]

theorem get?_append (name : String) (members others : List (String × α)) :
    get? name (members ++ others) = (get? name members).or (get? name others) := by
  induction members with
  | nil => simp [get?]
  | cons m rest ih =>
      obtain ⟨key, value⟩ := m
      by_cases hk : key = name <;> simp [get?, hk, ih]

theorem keys_filter (keep : String → Bool) (members : List (String × α)) :
    keys (members.filter fun m => keep m.1) = (keys members).filter keep := by
  rw [keys, keys, List.filter_map]
  rfl

/-- Dropping members by their names is seen by reading. -/
theorem get?_filter (keep : String → Bool) (name : String) (members : List (String × α)) :
    get? name (members.filter fun m => keep m.1) =
      if keep name then get? name members else none := by
  induction members with
  | nil => simp [get?]
  | cons m rest ih =>
      obtain ⟨key, value⟩ := m
      by_cases hkeep : keep key
      · by_cases hk : key = name
        · subst hk; simp [get?, hkeep]
        · simp [get?, hkeep, hk, ih]
      · by_cases hk : key = name
        · subst hk; simp [hkeep, ih]
        · simp [get?, hkeep, hk, ih]

/-! ## A member among others -/

section Among

variable {before after : List (String × α)} {new : α}

/-- A name is read from the first member that has it. -/
theorem exists_append_of_get? (h : get? name members = some value) :
    ∃ before after, members = before ++ (name, value) :: after ∧ name ∉ keys before := by
  induction members with
  | nil => cases h
  | cons m rest ih =>
      obtain ⟨key, first⟩ := m
      by_cases hk : key = name
      · subst hk
        simp only [get?, if_true, Option.some.injEq] at h
        exact ⟨[], rest, by rw [h]; rfl, List.not_mem_nil⟩
      · simp only [get?, if_neg hk] at h
        obtain ⟨before, after, heq, hnot⟩ := ih h
        refine ⟨(key, first) :: before, after, by rw [heq]; rfl, ?_⟩
        exact List.not_mem_cons_of_ne_of_not_mem (Ne.symm hk) hnot

theorem Distinct.not_mem (h : Distinct (before ++ (name, value) :: after)) :
    name ∉ keys before ∧ name ∉ keys after := by
  rw [Distinct, keys_append, keys_cons, List.nodup_middle, List.nodup_cons, List.mem_append,
    not_or] at h
  exact h.1

/-- Exchanging the value of a member keeps names distinct. -/
theorem Distinct.exchange (h : Distinct (before ++ (name, value) :: after)) (new : α) :
    Distinct (before ++ (name, new) :: after) := by
  rw [Distinct, keys_append, keys_cons] at h ⊢
  exact h

theorem get?_append_cons (h : name ∉ keys before) :
    get? name (before ++ (name, value) :: after) = some value := by
  rw [get?_append, get?_eq_none_iff.mpr h, Option.none_or]
  simp [get?]

theorem insert_append_cons (h : name ∉ keys before) :
    insert name new (before ++ (name, value) :: after) = before ++ (name, new) :: after := by
  induction before with
  | nil => simp [insert]
  | cons m rest ih =>
      have hne := List.ne_of_not_mem_cons h
      rw [List.cons_append, insert, if_neg hne.symm, ih (List.not_mem_of_not_mem_cons h)]
      rfl

theorem erase_append_cons (h : name ∉ keys before) :
    erase name (before ++ (name, value) :: after) = before ++ after := by
  induction before with
  | nil => simp [erase]
  | cons m rest ih =>
      have hne := List.ne_of_not_mem_cons h
      rw [List.cons_append, erase, if_neg hne.symm, ih (List.not_mem_of_not_mem_cons h)]
      rfl

/-- A new name is appended. -/
theorem insert_of_not_mem (h : name ∉ keys members) :
    insert name value members = members ++ [(name, value)] := by
  induction members with
  | nil => rfl
  | cons m rest ih =>
      have hne := List.ne_of_not_mem_cons h
      rw [insert, if_neg hne.symm, ih (List.not_mem_of_not_mem_cons h)]
      rfl

end Among

theorem ofList_eq_self (hd : Distinct members) : ofList members = members := by
  have go : ∀ front : List (String × α), Distinct (front ++ members) →
      members.foldl (fun members write => insert write.1 write.2 members) front =
        front ++ members := by
    clear hd
    induction members with
    | nil => exact fun front _ => (List.append_nil front).symm
    | cons m rest ih =>
        intro front hfront
        have hrest : Distinct (front ++ [m] ++ rest) := by rwa [← List.append_cons]
        rw [List.foldl_cons, insert_of_not_mem hfront.not_mem.1, ih _ hrest, ← List.append_cons]
  exact go [] hd

end Curator.Members
