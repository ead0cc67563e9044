import Curator.Proofs.Pointer.Lens

/-! # Removing by a pointer

Removing gives what reading finds and takes it out of the object or the array that it stands in. The
rest of the container keeps its order, what stands apart from the container stays, and taking out
what was just added gives the first document back.
-/

namespace Curator.Json

variable {value container below new written found left : Json} {s last : Segment}
  {p q parents : Pointer} {members : List (String × Json)} {items : List Json} {name : String}

/-! ## One step -/

/-- What is taken out of a container is one member or one item of it. -/
theorem removeChild?_cases (h : container.removeChild? s = some (found, below)) :
    (∃ name before after, s.name? = some name ∧ name ∉ Members.keys before ∧
      container = .object (before ++ (name, found) :: after) ∧
      below = .object (before ++ after)) ∨
    ∃ before after, s = .index before.length ∧ container = .array (before ++ found :: after) ∧
      below = .array (before ++ after) := by
  obtain ⟨inner, hchild, heq⟩ := Option.map_eq_some_iff.mp h
  obtain rfl : inner = found := congrArg Prod.fst heq
  rcases child?_cases hchild with ⟨name, before, after, hs, hn, rfl⟩ | ⟨before, after, rfl, rfl⟩
  · cases (remove?_member hs hn).symm.trans h
    exact .inl ⟨name, before, after, hs, hn, rfl, rfl⟩
  · cases (remove?_item before after inner).symm.trans h
    exact .inr ⟨before, after, rfl, rfl, rfl⟩

theorem map_fst_removeChild? (container : Json) (s : Segment) :
    (container.removeChild? s).map Prod.fst = container.child? s := by
  unfold removeChild?
  rw [Option.map_map]
  exact Option.map_id'

theorem get?_singleton (container : Json) (s : Segment) : container.get? [s] = container.child? s :=
  Option.bind_fun_some _

/-- What a removal in place leaves, and what it gives. -/
def afterRemoval (value : Json) : Option (Json × Json) → Json × Option Json
  | some (found, left) => (left, some found)
  | none => (value, none)

theorem takeOut_eq (s : Segment) (container : Json) :
    Pointer.takeOut s container = container.afterRemoval (container.removeChild? s) := by
  have hmember : ∀ (name : String) (members : List (String × Json)), s.name? = some name →
      (.object (Members.erase name members), Members.get? name members) =
        afterRemoval (.object members) (removeChild? (.object members) s) := by
    intro name members hs
    rw [removeChild?_object hs]
    cases hget : Members.get? name members with
    | none => rw [Members.erase_of_get?_eq_none hget]; rfl
    | some found => rfl
  cases container with
  | object members =>
      cases s with
      | key name => exact hmember name members rfl
      | index i => exact hmember (toString i) members rfl
      | wildcard => rfl
  | array items =>
      cases s with
      | index i =>
          by_cases hlt : i < items.length
          · simp [Pointer.takeOut, removeChild?, child?, afterRemoval, hlt]
          · simp [Pointer.takeOut, removeChild?, child?, afterRemoval, hlt]
      | _ => rfl
  | _ => cases s <;> rfl

/-! ## A removal as a write of the container -/

theorem remove?_cons_of_ne_nil (hp : p ≠ []) (value : Json) (s : Segment) :
    value.remove? (s :: p) = (value.child? s).bind fun inner =>
      (inner.remove? p).map fun r => (r.1, value.putChild s r.2) := by
  cases p with
  | nil => exact absurd rfl hp
  | cons t rest =>
      rw [remove?_cons_cons]
      simp only [Option.map_eq_bind]
      rfl

theorem remove?_append_singleton (value : Json) (parents : Pointer) (last : Segment) :
    value.remove? (parents ++ [last]) = (value.get? parents).bind fun container =>
      (container.removeChild? last).bind fun r =>
        (value.replace? parents r.2).map fun left => (r.1, left) := by
  induction parents generalizing value with
  | nil =>
      change value.removeChild? last = (value.removeChild? last).bind fun r => some (r.1, r.2)
      exact (Option.bind_fun_some _).symm
  | cons s rest ih =>
      rw [List.cons_append, remove?_cons_of_ne_nil (by simp), get?]
      cases hchild : value.child? s with
      | none => rfl
      | some inner =>
          rw [Option.bind_some, Option.bind_some, ih]
          cases inner.get? rest with
          | none => rfl
          | some container =>
              rw [Option.bind_some, Option.bind_some]
              cases container.removeChild? last with
              | none => rfl
              | some r =>
                  rw [Option.bind_some, Option.bind_some, replace?_cons, hchild, Option.bind_some,
                    Option.map_map, Option.map_map]
                  rfl

/-- What was removed stood in a container, in which the rest was put back. -/
theorem exists_of_remove? (h : value.remove? (parents ++ [last]) = some (found, left)) :
    ∃ container below, value.get? parents = some container ∧
      container.removeChild? last = some (found, below) ∧ value.replace? parents below = some left := by
  rw [remove?_append_singleton] at h
  obtain ⟨container, hcontainer, h⟩ := Option.bind_eq_some_iff.mp h
  obtain ⟨⟨_, below⟩, hbelow, h⟩ := Option.bind_eq_some_iff.mp h
  obtain ⟨_, hleft, heq⟩ := Option.map_eq_some_iff.mp h
  cases heq
  exact ⟨container, below, hcontainer, hbelow, hleft⟩

theorem remove?_of_removeChild? (hcontainer : value.get? parents = some container)
    (hbelow : container.removeChild? last = some (found, below))
    (hleft : value.replace? parents below = some left) :
    value.remove? (parents ++ [last]) = some (found, left) := by
  rw [remove?_append_singleton, hcontainer, Option.bind_some, hbelow, Option.bind_some, hleft]
  rfl

/-- Removing gives what reading finds. -/
theorem map_fst_remove? (value : Json) (parents : Pointer) (last : Segment) :
    (value.remove? (parents ++ [last])).map Prod.fst = value.get? (parents ++ [last]) := by
  rw [remove?_append_singleton, get?_append]
  cases hcontainer : value.get? parents with
  | none => rfl
  | some container =>
      rw [Option.bind_some, Option.bind_some, get?_singleton, ← map_fst_removeChild?]
      cases container.removeChild? last with
      | none => rfl
      | some r =>
          obtain ⟨left, hleft⟩ := exists_replace? hcontainer r.2
          rw [Option.bind_some, hleft]
          rfl

/-- A removal in place does what it does to a copy, and when nothing is found the document is
unchanged. -/
theorem removeInPlace_eq (value : Json) (p : Pointer) :
    value.removeInPlace p = value.afterRemoval (value.remove? p) := by
  rcases List.eq_nil_or_concat p with rfl | ⟨parents, last, rfl⟩
  · rfl
  rw [List.concat_eq_append, removeInPlace, List.getLast?_concat, List.dropLast_concat,
    remove?_append_singleton]
  dsimp only
  rw [modify?_eq]
  cases hcontainer : value.get? parents with
  | none => rfl
  | some container =>
      rw [Option.bind_some, Option.bind_some, takeOut_eq]
      cases container.removeChild? last with
      | none =>
          have hself := replace?_self hcontainer
          simp [afterRemoval, hself]
      | some r =>
          obtain ⟨left, hleft⟩ := exists_replace? hcontainer r.2
          simp [afterRemoval, hleft]

/-! ## What is found and what is left -/

theorem snd_removeInPlace_eq_some_iff :
    (value.removeInPlace p).2 = some found ↔ p ≠ [] ∧ value.get? p = some found := by
  rcases List.eq_nil_or_concat p with rfl | ⟨parents, last, rfl⟩
  · simp [removeInPlace]
  rw [List.concat_eq_append, ← map_fst_remove?, removeInPlace_eq]
  cases value.remove? (parents ++ [last]) <;> simp [afterRemoval]

theorem removeInPlace_of_get?_eq_none (h : value.get? p = none) :
    value.removeInPlace p = (value, none) := by
  rcases List.eq_nil_or_concat p with rfl | ⟨parents, last, rfl⟩
  · rfl
  rw [List.concat_eq_append, ← map_fst_remove?, Option.map_eq_none_iff] at h
  rw [removeInPlace_eq, List.concat_eq_append, h]
  rfl

theorem fst_removeInPlace_of_none (h : (value.removeInPlace p).2 = none) :
    (value.removeInPlace p).1 = value := by
  rw [removeInPlace_eq] at h ⊢
  cases hremove : value.remove? p with
  | none => rfl
  | some r =>
      rw [hremove] at h
      cases h

theorem remove?_eq_map (value : Json) (p : Pointer) :
    value.remove? p =
      (value.removeInPlace p).2.map fun found => (found, (value.removeInPlace p).1) := by
  rw [removeInPlace_eq]
  cases value.remove? p <;> rfl

theorem isSome_removeInPlace (hp : p ≠ []) (value : Json) :
    (value.removeInPlace p).2.isSome = (value.get? p).isSome := by
  rw [Bool.eq_iff_iff, Option.isSome_iff_exists, Option.isSome_iff_exists]
  simp [snd_removeInPlace_eq_some_iff, hp]

/-- A removal below the place of a site is one from the value there. -/
theorem removeInPlace_plug (site : Site p) (hq : q ≠ []) (value : Json) :
    (site.plug value).removeInPlace (p ++ q) =
      (site.plug (value.removeInPlace q).1, (value.removeInPlace q).2) := by
  rw [removeInPlace_eq value]
  cases hremove : value.remove? q with
  | some r =>
      rw [removeInPlace_eq, site.remove?_plug hremove]
      rfl
  | none =>
      obtain ⟨parents, last, rfl⟩ := (List.eq_nil_or_concat q).resolve_left hq
      rw [List.concat_eq_append] at hremove ⊢
      have hnone : value.get? (parents ++ [last]) = none := by
        rw [← map_fst_remove?, hremove]
        rfl
      rw [← site.get?_plug] at hnone
      exact removeInPlace_of_get?_eq_none hnone

/-- Only the container of what was removed has changed. -/
theorem sets_of_remove? (h : value.remove? (parents ++ [last]) = some (found, left)) :
    ∃ below, Sets below parents value left := by
  obtain ⟨_, below, _, _, hleft⟩ := exists_of_remove? h
  exact ⟨below, sets_of_set (set_of_replace? hleft)⟩

/-- Out of an object goes one member. -/
theorem exists_member_of_remove? (h : value.remove? (parents ++ [last]) = some (found, left))
    (hcontainer : value.get? parents = some (.object members)) :
    ∃ name before after, last.name? = some name ∧ members = before ++ (name, found) :: after ∧
      left.get? parents = some (.object (before ++ after)) := by
  obtain ⟨container, below, hget, hbelow, hleft⟩ := exists_of_remove? h
  cases hcontainer.symm.trans hget
  rcases removeChild?_cases hbelow with
    ⟨name, before, after, hs, -, heq, rfl⟩ | ⟨before, after, -, heq, -⟩
  · cases heq
    exact ⟨name, before, after, hs, rfl, (sets_of_set (set_of_replace? hleft)).get?_self⟩
  · cases heq

/-- Out of an array goes one item. -/
theorem exists_item_of_remove? (h : value.remove? (parents ++ [last]) = some (found, left))
    (hcontainer : value.get? parents = some (.array items)) :
    ∃ before after, last = .index before.length ∧ items = before ++ found :: after ∧
      left.get? parents = some (.array (before ++ after)) := by
  obtain ⟨container, below, hget, hbelow, hleft⟩ := exists_of_remove? h
  cases hcontainer.symm.trans hget
  rcases removeChild?_cases hbelow with
    ⟨name, before, after, -, -, heq, -⟩ | ⟨before, after, hs, heq, rfl⟩
  · cases heq
  · cases heq
    exact ⟨before, after, hs, rfl, (sets_of_set (set_of_replace? hleft)).get?_self⟩

/-- Among distinct names, a member that was removed is gone. -/
theorem get?_eq_none_of_remove? (hv : value.WellFormed)
    (h : value.remove? (parents ++ [last]) = some (found, left))
    (hcontainer : value.get? parents = some (.object members)) :
    left.get? (parents ++ [last]) = none := by
  obtain ⟨name, before, after, hs, rfl, hleft⟩ := exists_member_of_remove? h hcontainer
  have hdistinct := (hv.of_get?_pointer hcontainer).distinct
  rw [get?_append, hleft, Option.bind_some, get?_singleton, child?_object hs,
    Members.get?_eq_none_iff, Members.keys_append, List.mem_append, not_or]
  exact hdistinct.not_mem

/-! ## Removing what was added -/

theorem exists_set_append (hcontainer : value.get? parents = some container)
    (hset : container.set q new = .ok below) :
    ∃ left, value.replace? parents below = some left ∧ value.set (parents ++ q) new = .ok left := by
  induction parents generalizing value with
  | nil =>
      cases hcontainer
      exact ⟨below, rfl, hset⟩
  | cons s rest ih =>
      obtain ⟨inner, hchild, hrest⟩ := Option.bind_eq_some_iff.mp hcontainer
      obtain ⟨left, hleft, hwrite⟩ := ih hrest
      refine ⟨value.putChild s left, ?_, set_cons hchild hwrite⟩
      rw [replace?_cons, hchild, Option.bind_some, hleft]
      rfl

/-- What adds to a container can be undone. -/
theorem remove?_of_set (hcontainer : value.get? parents = some container)
    (hset : container.set [last] new = .ok below)
    (hundo : below.removeChild? last = some (new, container))
    (hwritten : value.set (parents ++ [last]) new = .ok written) :
    written.remove? (parents ++ [last]) = some (new, value) := by
  obtain ⟨left, hleft, hset'⟩ := exists_set_append hcontainer hset
  obtain rfl : left = written := Except.ok.inj (hset'.symm.trans hwritten)
  have hbelow : left.get? parents = some below := (sets_of_set (set_of_replace? hleft)).get?_self
  obtain ⟨after, hafter⟩ := exists_replace? hbelow container
  -- putting the container back is a second write at its place, which alone would change nothing
  obtain ⟨direct, hdirect, hover⟩ := set_set (set_of_replace? hleft) container
  have hself : value.set parents container = .ok value := set_of_replace? (replace?_self hcontainer)
  obtain rfl : direct = value := Except.ok.inj (hdirect.symm.trans hself)
  obtain rfl : after = direct := Except.ok.inj ((set_of_replace? hafter).symm.trans hover)
  exact remove?_of_removeChild? hbelow hundo hafter

theorem remove?_of_set_member (hcontainer : value.get? parents = some (.object members))
    (hmissing : child? (.object members) last = none)
    (hwritten : value.set (parents ++ [last]) new = .ok written) :
    written.remove? (parents ++ [last]) = some (new, value) := by
  cases hname : last.name? with
  | none =>
      have hwild : last = .wildcard := by cases last <;> first | rfl | cases hname
      rw [set_of_wildcard (by simp [hwild])] at hwritten
      cases hwritten
  | some name =>
      rw [child?_object hname] at hmissing
      have hnew := Members.get?_eq_none_iff.mp hmissing
      refine remove?_of_set hcontainer (set_object hname members new) ?_ hwritten
      rw [Members.insert_of_not_mem hnew]
      exact (remove?_member hname hnew).trans (by rw [List.append_nil])

theorem remove?_of_set_item (hcontainer : value.get? parents = some (.array items))
    (hwritten : value.set (parents ++ [.index items.length]) new = .ok written) :
    written.remove? (parents ++ [.index items.length]) = some (new, value) := by
  refine remove?_of_set hcontainer (set_past_end items new) ?_ hwritten
  exact (remove?_item items [] new).trans (by rw [List.append_nil])

/-! ## The laws -/

/-- A removal in place gives what is read, unless it is of the root, and else leaves the document;
it is the removal from a copy. Out of an object goes the one member, the others staying in order,
and among distinct names nothing is left to remove a second time. Out of an array goes the one item,
those behind it moving up. What is read apart from the container is as before. And a member added to
an object, or an item to the end of an array, is given back and the document is the first again. -/
theorem removeInPlace_exact (document : Json) (p : Pointer) :
    let outcome := document.removeInPlace p
    (∀ v, outcome.2 = some v ↔ p ≠ [] ∧ document.get? p = some v) ∧
    (outcome.2 = none → outcome.1 = document) ∧
    document.remove? p = outcome.2.map (fun v => (v, outcome.1)) ∧
    ∀ parents last, p = parents ++ [last] →
      (∀ members v, document.get? parents = some (.object members) → outcome.2 = some v →
        (∃ name before after, last.name? = some name ∧ members = before ++ (name, v) :: after ∧
          outcome.1.get? parents = some (.object (before ++ after))) ∧
        (document.WellFormed →
          outcome.1.get? p = none ∧ outcome.1.removeInPlace p = (outcome.1, none))) ∧
      (∀ items v, document.get? parents = some (.array items) → outcome.2 = some v →
        ∃ before after, last = .index before.length ∧ items = before ++ v :: after ∧
          outcome.1.get? parents = some (.array (before ++ after))) ∧
      (∀ path text, p = Pointer.parse path → let q := Pointer.parse text
        ¬ parents <+: q → ¬ q <+: parents → outcome.1.get? q = document.get? q) ∧
      ∀ v written, document.set p v = .ok written →
        (∃ members, document.get? parents = some (.object members) ∧
          child? (.object members) last = none) ∨
        (∃ items, document.get? parents = some (.array items) ∧ last = .index items.length) →
        written.removeInPlace p = (document, some v) := by
  intro outcome
  have hremove : document.remove? p = outcome.2.map fun v => (v, outcome.1) :=
    remove?_eq_map document p
  refine ⟨fun v => snd_removeInPlace_eq_some_iff, fst_removeInPlace_of_none, hremove, ?_⟩
  rintro parents last rfl
  refine ⟨fun members v hcontainer hv => ?_, fun items v hcontainer hv => ?_,
    fun path text hpath => ?_, fun v written hset hadded => ?_⟩
  · rw [hv] at hremove
    refine ⟨exists_member_of_remove? hremove hcontainer, fun hwell => ?_⟩
    have hgone := get?_eq_none_of_remove? hwell hremove hcontainer
    exact ⟨hgone, removeInPlace_of_get?_eq_none hgone⟩
  · rw [hv] at hremove
    exact exists_item_of_remove? hremove hcontainer
  · intro q hpq hqp
    cases hfound : outcome.2 with
    | none => exact congrArg (·.get? q) (fst_removeInPlace_of_none hfound)
    | some v =>
        have hread : ∀ s ∈ parents, Segment.reread s = s := fun s hs =>
          Pointer.reread_of_mem_parse (hpath ▸ List.mem_append_left [last] hs)
        rw [hfound] at hremove
        obtain ⟨below, hsets⟩ := sets_of_remove? hremove
        exact hsets.get?_of_apart
          (Pointer.apart_of_not_prefix hread (fun _ => Pointer.reread_of_mem_parse) hpq hqp)
  · rw [removeInPlace_eq]
    rcases hadded with ⟨members, hcontainer, hmissing⟩ | ⟨items, hcontainer, rfl⟩
    · rw [remove?_of_set_member hcontainer hmissing hset]
      rfl
    · rw [remove?_of_set_item hcontainer hset]
      rfl

/-- The first of two members, and a third one that is added and removed. -/
theorem removeInPlace_exact_of_members :
    let document : Json := .object [("a", .object [("x", .bool true), ("y", .null)])]
    let p : Pointer := [.key "a", .key "x"]
    let fresh : Pointer := [.key "a", .key "z"]
    let outcome := document.removeInPlace p
    outcome.2 = some (.bool true) ∧ outcome.1.get? p = none ∧
      outcome.1.removeInPlace p = (outcome.1, none) ∧
      ∃ written, document.set fresh .null = .ok written ∧
        written.removeInPlace fresh = (document, some .null) := by
  intro document p fresh outcome
  have hwell : document.WellFormed := by simp [document, Members.Distinct, Members.keys]
  have hfound : outcome.2 = some (.bool true) :=
    ((removeInPlace_exact document p).1 (.bool true)).mpr ⟨by simp [p], rfl⟩
  obtain ⟨-, -, -, hlaws⟩ := removeInPlace_exact document p
  obtain ⟨-, hgone⟩ := (hlaws [.key "a"] (.key "x") rfl).1 _ (.bool true) rfl hfound
  obtain ⟨-, -, -, hfresh⟩ := removeInPlace_exact document fresh
  refine ⟨hfound, (hgone hwell).1, (hgone hwell).2, _, rfl, ?_⟩
  exact (hfresh [.key "a"] (.key "z") rfl).2.2.2 .null _ rfl (.inl ⟨_, rfl, rfl⟩)

end Curator.Json
