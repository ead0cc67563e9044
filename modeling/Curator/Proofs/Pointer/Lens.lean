import Curator.Proofs.Pointer.Obstacles

/-! # Reading and writing as a lens

What was written is read back, writing what is read changes nothing, and of two writes at one place
the second counts. A write keeps what stands apart from it, and the names of each object around it
in their order. A value that is exchanged in its place is exchanged as by a write.
-/

namespace Curator.Json

variable {value new first second written found left : Json} {s : Segment} {p q : Pointer}
  {members : List (String × Json)}

/-! ## Writing over a value -/

theorem replace?_cons (value : Json) (s : Segment) (p : Pointer) (new : Json) :
    value.replace? (s :: p) new =
      (value.child? s).bind fun inner => (inner.replace? p new).map (value.putChild s) := by
  simp only [replace?, Option.bind_eq_bind, Option.pure_def, Option.map_eq_bind]
  rfl

theorem modify?_cons {β : Type} (action : Json → Json × β) (value : Json) (s : Segment)
    (p : Pointer) :
    value.modify? action (s :: p) = (value.child? s).bind fun inner =>
      (inner.modify? action p).map fun r => (value.putChild s r.1, r.2) := by
  simp only [modify?, Option.bind_eq_bind, Option.pure_def, Option.map_eq_bind]
  rfl

theorem isSome_replace? (value : Json) (p : Pointer) (new : Json) :
    (value.replace? p new).isSome = (value.get? p).isSome := by
  induction p generalizing value with
  | nil => rfl
  | cons s rest ih =>
      rw [replace?_cons, get?]
      cases value.child? s with
      | none => rfl
      | some inner => rw [Option.bind_some, Option.bind_some, Option.isSome_map, ih]

theorem set_of_replace? (h : value.replace? p new = some left) : value.set p new = .ok left := by
  induction p generalizing value left with
  | nil =>
      cases h
      rfl
  | cons s rest ih =>
      rw [replace?_cons] at h
      obtain ⟨inner, hchild, h⟩ := Option.bind_eq_some_iff.mp h
      obtain ⟨below, hbelow, rfl⟩ := Option.map_eq_some_iff.mp h
      exact set_cons hchild (ih hbelow)

theorem exists_replace? (h : value.get? p = some found) (new : Json) :
    ∃ left, value.replace? p new = some left := by
  rw [← Option.isSome_iff_exists, isSome_replace?, h]
  rfl

theorem replace?_self (h : value.get? p = some found) : value.replace? p found = some value := by
  induction p generalizing value with
  | nil => exact h.symm
  | cons s rest ih =>
      obtain ⟨inner, hchild, hrest⟩ := Option.bind_eq_some_iff.mp h
      rw [replace?_cons, hchild, Option.bind_some, ih hrest, Option.map_some, putChild_self hchild]

/-- At a site one value is exchanged for another. -/
theorem replace?_plug (site : Site p) (value new : Json) :
    (site.plug value).replace? p new = some (site.plug new) := by
  obtain ⟨left, hleft⟩ := exists_replace? (site.get?_plug_self value) new
  have hset : (site.plug value).set (p ++ []) new = .ok (site.plug new) := site.set_plug rfl
  rw [List.append_nil, set_of_replace? hleft] at hset
  rw [hleft, Except.ok.inj hset]

/-- What is done to a value in its place comes to doing it to a copy and putting that back. -/
theorem modify?_eq {β : Type} (action : Json → Json × β) (value : Json) (p : Pointer) :
    value.modify? action p = (value.get? p).bind fun found =>
      (value.replace? p (action found).1).map fun left => (left, (action found).2) := by
  induction p generalizing value with
  | nil => rfl
  | cons s rest ih =>
      rw [modify?_cons, get?]
      cases hchild : value.child? s with
      | none => rfl
      | some inner =>
          rw [Option.bind_some, Option.bind_some, ih]
          cases inner.get? rest with
          | none => rfl
          | some found =>
              rw [Option.bind_some, Option.bind_some, replace?_cons, hchild, Option.bind_some,
                Option.map_map, Option.map_map]
              rfl

/-! ## Two writes -/

/-- Whether a write succeeds does not depend on what is written. -/
theorem exists_set_of_set (h : value.set p first = .ok written) (second : Json) :
    ∃ written, value.set p second = .ok written := by
  cases hset : value.set p second with
  | ok written => exact ⟨written, rfl⟩
  | error e =>
      have hfails : value.set p first = .error e := set_eq_error_iff.mpr (blocked_of_set hset)
      cases h.symm.trans hfails

namespace Sets

/-- A write into an array is one into an item of it, or it appends an item. -/
theorem item_cases {i : Nat} {rest : Pointer} {items : List Json}
    (h : Sets new (.index i :: rest) (.array items) written) :
    (∃ item inner, items[i]? = some item ∧ Sets new rest item inner ∧
      written = .array (items.set i inner)) ∨
    i = items.length ∧ rest = [] ∧ written = .array (items ++ [new]) := by
  obtain ⟨_, _, _, _, hvalue, -, -⟩ | ⟨_, _, item, inner, hs, hvalue, hi, hinner, rfl⟩ |
    ⟨_, hs, hrest, hvalue, rfl⟩ := h.cons_cases
  · obtain heq | ⟨heq, -⟩ := hvalue <;> cases heq
  · cases hs
    cases hvalue
    exact .inl ⟨item, inner, hi, hinner, rfl⟩
  · cases hvalue
    cases hs
    exact .inr ⟨rfl, hrest, rfl⟩

/-- A second write takes the place of the first. -/
theorem overwrite {direct after : Json} (h : Sets first p value written)
    (hdirect : Sets second p value direct) (hafter : Sets second p written after) :
    after = direct := by
  induction h generalizing direct after with
  | here value =>
      cases hdirect
      cases hafter
      rfl
  | @member s name rest members inner hs h ih =>
      cases hdirect with
      | member hs' hdirect =>
          cases hs.symm.trans hs'
          cases hafter with
          | member hs'' hafter =>
              cases hs.symm.trans hs''
              rw [Members.get?_insert_self, Option.getD_some] at hafter
              rw [ih hdirect hafter, Members.insert_insert]
  | opened h ih =>
      cases hdirect with
      | opened hdirect => exact ih hdirect hafter
  | @item i rest items item inner hi h ih =>
      have hlt : i < items.length := (List.getElem?_eq_some_iff.mp hi).choose
      rcases hdirect.item_cases with ⟨_, below, hi', hdirect, rfl⟩ | ⟨rfl, -, -⟩
      · cases hi.symm.trans hi'
        rcases hafter.item_cases with ⟨_, below', hi'', hafter, rfl⟩ | ⟨hend, -, -⟩
        · cases (List.getElem?_set_self hlt).symm.trans hi''
          rw [ih hdirect hafter, List.set_set]
        · rw [List.length_set] at hend
          exact absurd hend (Nat.ne_of_lt hlt)
      · exact absurd hlt (Nat.lt_irrefl _)
  | pastEnd items =>
      -- the first write appended the item that the second one finds
      rcases hdirect.item_cases with ⟨_, _, hi, -, -⟩ | ⟨-, -, rfl⟩
      · simp at hi
      · rcases hafter.item_cases with ⟨_, below, -, hafter, heq⟩ | ⟨hend, -, -⟩
        · cases hafter
          rw [heq]
          simp
        · simp at hend

/-- A write and a reading that take the same step go on in the same part. -/
theorem exists_inner {t : Segment} {rest more : Pointer} (h : Sets new (s :: rest) value written)
    (hname : s.name? = t.name?) (hfound : value.get? (t :: more) = some found) :
    ∃ before inner, Sets new rest before inner ∧ before.get? more = some found ∧
      written.get? (t :: more) = inner.get? more := by
  obtain ⟨_, _, inner, hs, hvalue, hinner, rfl⟩ | ⟨i, _, item, inner, rfl, rfl, hi, hinner, rfl⟩ |
    ⟨items, rfl, rfl, rfl, rfl⟩ := h.cons_cases
  · obtain rfl | ⟨rfl, -⟩ := hvalue
    · have ht := hname.symm.trans hs
      rw [get?, child?_object ht] at hfound
      obtain ⟨before, hbefore, hmore⟩ := Option.bind_eq_some_iff.mp hfound
      rw [hbefore, Option.getD_some] at hinner
      exact ⟨before, inner, hinner, hmore, get?_insert_self ht ..⟩
    · rw [get?_null_cons] at hfound
      cases hfound
  · obtain ⟨j, _, rfl, hj, hmore⟩ := exists_index_of_get? hfound
    obtain rfl := Segment.name?_index_inj hname
    cases hi.symm.trans hj
    exact ⟨item, inner, hinner, hmore, get?_set_self hi ..⟩
  · -- nothing is read past the end
    obtain ⟨j, _, rfl, hj, -⟩ := exists_index_of_get? hfound
    obtain rfl := Segment.name?_index_inj hname
    simp at hj

/-- Names around the place of a write stay in their order, and a new one comes last. -/
theorem exists_keys (h : Sets new p value written) (hpq : ¬ p.names <+: q.names)
    (hfound : value.get? q = some (.object members)) :
    ∃ after, written.get? q = some (.object after) ∧
      (Members.keys after = Members.keys members ∨
        ∃ name, name ∉ Members.keys members ∧
          Members.keys after = Members.keys members ++ [name]) := by
  induction q generalizing p value written with
  | nil =>
      cases hfound
      cases h with
      | here => exact absurd List.nil_prefix hpq
      | @member _ name _ _ inner hs h =>
          -- the object in which the name is written
          refine ⟨_, rfl, ?_⟩
          rw [Members.keys_insert]
          split
          · exact .inl rfl
          · next hnew => exact .inr ⟨name, hnew, rfl⟩
  | cons t more ih =>
      cases p with
      | nil => exact absurd List.nil_prefix hpq
      | cons s rest =>
          by_cases hname : s.name? = t.name?
          · obtain ⟨before, inner, hinner, hmore, hwritten⟩ := h.exists_inner hname hfound
            rw [hwritten]
            exact ih hinner (fun hle => hpq (List.cons_prefix_cons.mpr ⟨hname, hle⟩)) hmore
          · have hapart : Pointer.Apart (s :: rest) (t :: more) :=
              Pointer.apart_cons_iff.mpr fun heq => absurd heq hname
            exact ⟨members, (h.get?_of_apart hapart).trans hfound, .inl rfl⟩

end Sets

/-! ## The laws -/

theorem set_set (h : value.set p first = .ok written) (second : Json) :
    ∃ direct, value.set p second = .ok direct ∧ written.set p second = .ok direct := by
  obtain ⟨direct, hdirect⟩ := exists_set_of_set h second
  obtain ⟨after, hafter⟩ := exists_replace? (sets_of_set h).get?_self second
  have hset := set_of_replace? hafter
  have heq : after = direct :=
    (sets_of_set h).overwrite (sets_of_set hdirect) (sets_of_set hset)
  exact ⟨direct, hdirect, heq ▸ hset⟩

/-- Where a pointer leads somewhere, what an action makes of the value there can as well be set. -/
theorem set_of_modify? {β : Type} {action : Json → Json × β} {result : β}
    (h : value.modify? action p = some (left, result)) :
    ∃ found, value.get? p = some found ∧ (action found).2 = result ∧
      value.set p (action found).1 = .ok left := by
  rw [modify?_eq] at h
  obtain ⟨found, hfound, h⟩ := Option.bind_eq_some_iff.mp h
  obtain ⟨after, hafter, heq⟩ := Option.map_eq_some_iff.mp h
  cases heq
  exact ⟨found, hfound, rfl, set_of_replace? hafter⟩

theorem isSome_modify? {β : Type} (action : Json → Json × β) (value : Json) (p : Pointer) :
    (value.modify? action p).isSome = (value.get? p).isSome := by
  rw [modify?_eq]
  cases hget : value.get? p with
  | none => rfl
  | some found => rw [Option.bind_some, Option.isSome_map, isSome_replace?, hget]

theorem replace?_eq_modify? (value : Json) (p : Pointer) (new : Json) :
    value.replace? p new = (value.modify? (fun _ => (new, ())) p).map Prod.fst := by
  rw [modify?_eq]
  cases hget : value.get? p with
  | none =>
      have hnone := isSome_replace? value p new
      rw [hget] at hnone
      exact Option.isNone_iff_eq_none.mp (Option.isSome_eq_false_iff.mp hnone)
  | some found =>
      rw [Option.bind_some, Option.map_map]
      exact Option.map_id'.symm

/-- After a write at a pointer the value is read there; a second write leaves what it would have left
without the first; what a pointer apart from it reads is as before; and of every object that is not
itself written over, the names keep their places, a new one coming last. Writing what is read leaves
the document as it is. The value in its place can be worked on exactly where it can be read, and
what is made of it there could as well have been written, an exchange for another value included. -/
theorem set_lawful (document : Json) (path : String) (v w : Json) :
    let p := Pointer.parse path
    (∀ written, document.set p v = .ok written →
      written.get? p = some v ∧
      (∃ direct, document.set p w = .ok direct ∧ written.set p w = .ok direct) ∧
      (∀ text, let q := Pointer.parse text
        ¬ p <+: q → ¬ q <+: p → written.get? q = document.get? q) ∧
      ∀ q members, ¬ p.names <+: q.names → document.get? q = some (.object members) →
        ∃ after, written.get? q = some (.object after) ∧
          (Members.keys after = Members.keys members ∨
            ∃ name, name ∉ Members.keys members ∧
              Members.keys after = Members.keys members ++ [name])) ∧
    (document.get? p = some v → document.set p v = .ok document) ∧
    (∀ {β : Type} (action : Json → Json × β),
      (document.modify? action p).isSome = (document.get? p).isSome ∧
      ∀ left result, document.modify? action p = some (left, result) →
        ∃ found, document.get? p = some found ∧ (action found).2 = result ∧
          document.set p (action found).1 = .ok left) ∧
    document.replace? p w = (document.modify? (fun _ => (w, ())) p).map Prod.fst := by
  intro p
  refine ⟨fun written hset => ?_, fun hget => set_of_replace? (replace?_self hget),
    fun action => ⟨isSome_modify? action document p, fun _ _ => set_of_modify?⟩,
    replace?_eq_modify? document p w⟩
  have hsets := sets_of_set hset
  refine ⟨hsets.get?_self, set_set hset w, fun text => ?_,
    fun _ _ hpq hfound => hsets.exists_keys hpq hfound⟩
  intro q hpq hqp
  exact hsets.get?_of_apart (Pointer.apart_of_not_prefix (fun _ => Pointer.reread_of_mem_parse)
    (fun _ => Pointer.reread_of_mem_parse) hpq hqp)

/-- A null opened for a new name, in front of an array. -/
theorem set_lawful_of_null :
    let document : Json := .object [("a", .null), ("b", .array [.bool true])]
    let written : Json := .object [("a", .object [("x", .null)]), ("b", .array [.bool true])]
    let p := Pointer.parse "/a/x"
    document.set p .null = .ok written ∧ written.get? p = some .null ∧
      (∃ direct, document.set p (.bool true) = .ok direct ∧
        written.set p (.bool true) = .ok direct) ∧
      written.get? (Pointer.parse "/b/0") = document.get? (Pointer.parse "/b/0") := by
  intro document written p
  have hset : document.set p .null = .ok written := by
    have hp : p = [.key "a", .key "x"] := by decide +kernel
    rw [hp]
    rfl
  obtain ⟨hget, hagain, hframe, -⟩ := (set_lawful document "/a/x" .null (.bool true)).1 written hset
  exact ⟨hset, hget, hagain, hframe "/b/0" (by decide +kernel) (by decide +kernel)⟩

end Curator.Json
