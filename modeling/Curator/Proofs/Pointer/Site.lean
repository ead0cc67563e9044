import Curator.Proofs.Except
import Curator.Proofs.Json.Within
import Curator.Proofs.Pointer.Access
import Curator.Proofs.Pointer.Text

/-! # Places in a document

A step leads to one member or item among the others, which stay when it is replaced or taken
out. A site is what stands around a place: whatever value is put there, reading, writing and
removing below the place come to reading, writing and removing in the value.
-/

namespace Curator

/-! ## One step -/

namespace Segment

/-- The name that a step stands for on an object. -/
def name? : Segment → Option String
  | key name => some name
  | index i => some (toString i)
  | wildcard => none

theorem name?_reread_key {name : String} (h : name ≠ "-") :
    (reread (.key name)).name? = some name := by
  rcases reread_key_cases h with heq | ⟨i, heq, hi⟩
  · rw [heq]; rfl
  · rw [heq, name?, hi]

end Segment

namespace Json

variable {value inner new found left written : Json} {s : Segment} {q : Pointer} {name : String}
  {before after members : List (String × Json)} {items : List Json}

theorem child?_object (hs : s.name? = some name) (members : List (String × Json)) :
    child? (.object members) s = Members.get? name members := by
  cases s <;> cases hs <;> rfl

theorem putChild_object (hs : s.name? = some name) (members : List (String × Json)) :
    putChild (.object members) s new = .object (Members.insert name new members) := by
  cases s <;> cases hs <;> rfl

theorem removeChild?_object (hs : s.name? = some name) (members : List (String × Json)) :
    removeChild? (.object members) s =
      (Members.get? name members).map fun found =>
        (found, .object (Members.erase name members)) := by
  cases s <;> cases hs <;> rfl

theorem child?_member (hs : s.name? = some name) (hn : name ∉ Members.keys before) :
    child? (.object (before ++ (name, inner) :: after)) s = some inner := by
  rw [child?_object hs, Members.get?_append_cons hn]

theorem putChild_member (hs : s.name? = some name) (hn : name ∉ Members.keys before) :
    putChild (.object (before ++ (name, inner) :: after)) s new =
      .object (before ++ (name, new) :: after) := by
  rw [putChild_object hs, Members.insert_append_cons hn]

theorem remove?_member (hs : s.name? = some name) (hn : name ∉ Members.keys before) :
    remove? (.object (before ++ (name, inner) :: after)) [s] =
      some (inner, .object (before ++ after)) := by
  rw [remove?, removeChild?_object hs, Members.get?_append_cons hn, Option.map_some,
    Members.erase_append_cons hn]

theorem child?_item (before after : List Json) (inner : Json) :
    child? (.array (before ++ inner :: after)) (.index before.length) = some inner := by
  simp [child?]

theorem putChild_item (before after : List Json) (inner new : Json) :
    putChild (.array (before ++ inner :: after)) (.index before.length) new =
      .array (before ++ new :: after) := by
  simp [putChild]

theorem remove?_item (before after : List Json) (inner : Json) :
    remove? (.array (before ++ inner :: after)) [.index before.length] =
      some (inner, .array (before ++ after)) := by
  simp [remove?, removeChild?, child?_item, List.eraseIdx_append_of_length_le]

/-- A step leads to the first member of a name or to the item at a position. -/
theorem child?_cases (h : value.child? s = some inner) :
    (∃ name before after, s.name? = some name ∧ name ∉ Members.keys before ∧
      value = .object (before ++ (name, inner) :: after)) ∨
    ∃ before after, s = .index before.length ∧ value = .array (before ++ inner :: after) := by
  have hmember : ∀ members, value = .object members → ∀ name, s.name? = some name →
      ∃ name before after, s.name? = some name ∧ name ∉ Members.keys before ∧
        value = .object (before ++ (name, inner) :: after) := by
    rintro members rfl name hs
    rw [child?_object hs] at h
    obtain ⟨before, after, rfl, hn⟩ := Members.exists_append_of_get? h
    exact ⟨name, before, after, hs, hn, rfl⟩
  unfold child? at h
  split at h
  · exact .inl (hmember _ rfl _ rfl)
  · next items i =>
      obtain ⟨hlt, hi⟩ := List.getElem?_eq_some_iff.mp h
      refine .inr ⟨items.take i, items.drop (i + 1), ?_, ?_⟩
      · rw [List.length_take_of_le (Nat.le_of_lt hlt)]
      · rw [← hi, List.getElem_cons_drop, List.take_append_drop]
  · exact .inl (hmember _ rfl _ rfl)
  · cases h

theorem putChild_self (h : value.child? s = some inner) : value.putChild s inner = value := by
  rcases child?_cases h with ⟨name, before, after, hs, hn, rfl⟩ | ⟨before, after, rfl, rfl⟩
  · rw [putChild_member hs hn]
  · rw [putChild_item]

/-- Induction on a document by way of what one step leads to. -/
theorem inductionOnSteps {motive : Json → Prop}
    (step : ∀ value, (∀ s inner, value.child? s = some inner → motive inner) → motive value)
    (value : Json) : motive value := by
  have hscalar : ∀ value : Json, (∀ s, value.child? s = none) → motive value := by
    intro value h
    refine step value fun s inner hc => ?_
    rw [h s] at hc
    cases hc
  induction value using Json.induction with
  | null => exact hscalar _ fun s => by cases s <;> rfl
  | bool b => exact hscalar _ fun s => by cases s <;> rfl
  | number n => exact hscalar _ fun s => by cases s <;> rfl
  | string t => exact hscalar _ fun s => by cases s <;> rfl
  | array items ih =>
      refine step _ fun s inner hc => ih inner ?_
      rcases child?_cases hc with ⟨_, _, _, -, -, heq⟩ | ⟨before, after, -, heq⟩
      · cases heq
      · cases heq
        exact List.mem_append_cons_self
  | object members ih =>
      refine step _ fun s inner hc => ?_
      rcases child?_cases hc with ⟨name, before, after, -, -, heq⟩ | ⟨_, _, -, heq⟩
      · cases heq
        exact ih (name, inner) List.mem_append_cons_self
      · cases heq

theorem not_isWildcard_of_child? (h : value.child? s = some inner) : s.isWildcard = false := by
  rcases child?_cases h with ⟨_, _, _, hs, -, -⟩ | ⟨_, _, rfl, -⟩
  · cases s <;> first | rfl | cases hs
  · rfl

theorem within_of_get? (h : value.get? q = some found) : Within found value := by
  induction q generalizing value with
  | nil =>
      cases h
      exact .root found
  | cons s rest ih =>
      obtain ⟨inner, hinner, hrest⟩ := Option.bind_eq_some_iff.mp h
      rcases child?_cases hinner with ⟨name, before, after, -, -, rfl⟩ | ⟨before, after, -, rfl⟩
      · exact .member (List.mem_append_cons_self) (ih hrest)
      · exact .item (List.mem_append_cons_self) (ih hrest)

/-- Among distinct names a value that stands in a document is read by some pointer. -/
theorem exists_get?_of_within (h : Within found value) (hv : value.WellFormed) :
    ∃ q, value.get? q = some found := by
  induction h with
  | root => exact ⟨[], rfl⟩
  | @item item items hi h ih =>
      obtain ⟨i, hitem⟩ := List.getElem?_of_mem hi
      obtain ⟨q, hq⟩ := ih (wellFormed_array_iff.mp hv item hi)
      exact ⟨.index i :: q, by rw [get?, child?, hitem, Option.bind_some, hq]⟩
  | @member m members hm h ih =>
      have hmember := Members.get?_of_mem hv.distinct hm
      obtain ⟨q, hq⟩ := ih ((wellFormed_object_iff.mp hv).2 m hm)
      exact ⟨.key m.1 :: q, by rw [get?, child?, hmember, Option.bind_some, hq]⟩

/-! ## Without the parts that were removed -/

theorem Without.putChild (h : value.child? s = some inner) (hw : Without inner left) :
    Without value (value.putChild s left) := by
  rcases child?_cases h with ⟨name, before, after, hs, hn, rfl⟩ | ⟨before, after, rfl, rfl⟩
  · rw [putChild_member hs hn]
    exact .member before after name hw
  · rw [putChild_item]
    exact .item before after hw

theorem without_of_remove? (h : value.remove? q = some (found, left)) : Without value left := by
  induction q generalizing value left with
  | nil => cases h
  | cons s rest ih =>
      cases rest with
      | nil =>
          have hchild : value.child? s = some found := by
            obtain ⟨_, hchild, heq⟩ := Option.map_eq_some_iff.mp h
            cases heq
            exact hchild
          rcases child?_cases hchild with
            ⟨name, before, after, hs, hn, rfl⟩ | ⟨before, after, rfl, rfl⟩
          · cases (remove?_member hs hn).symm.trans h
            exact .dropMember before after _
          · cases (remove?_item before after found).symm.trans h
            exact .dropItem before after _
      | cons t rest =>
          rw [remove?_cons_cons] at h
          obtain ⟨inner, hinner, h⟩ := Option.bind_eq_some_iff.mp h
          obtain ⟨⟨_, below⟩, hbelow, h⟩ := Option.bind_eq_some_iff.mp h
          cases h
          exact .putChild hinner (ih hbelow)

/-- What was removed was reached without a wildcard. -/
theorem not_isWildcard_of_remove? (h : value.remove? q = some (found, left)) :
    ∀ s ∈ q, s.isWildcard = false := by
  induction q generalizing value found left with
  | nil => exact fun _ => nofun
  | cons s rest ih =>
      cases rest with
      | nil =>
          obtain ⟨inner, hinner, -⟩ := Option.map_eq_some_iff.mp h
          exact List.forall_mem_singleton.mpr (not_isWildcard_of_child? hinner)
      | cons t rest =>
          rw [remove?_cons_cons] at h
          obtain ⟨inner, hinner, h⟩ := Option.bind_eq_some_iff.mp h
          obtain ⟨⟨_, below⟩, hbelow, -⟩ := Option.bind_eq_some_iff.mp h
          exact List.forall_mem_cons.mpr ⟨not_isWildcard_of_child? hinner, ih hbelow⟩

/-! ## Below a step -/

theorem remove?_cons (h : value.child? s = some inner)
    (hr : inner.remove? q = some (found, left)) :
    value.remove? (s :: q) = some (found, value.putChild s left) := by
  cases q with
  | nil => cases hr
  | cons t rest =>
      rw [remove?_cons_cons, h, Option.bind_some, hr]
      rfl

end Json

namespace Pointer

variable {value inner new written : Json} {s last : Segment} {parents walked : Pointer}

/-- The steps walked so far show in the failures of a route only. -/
theorem checkRoute_eq_ok (walked' : Pointer) (h : checkRoute walked value parents = .ok ()) :
    checkRoute walked' value parents = .ok () := by
  induction parents generalizing value walked walked' with
  | nil => rfl
  | cons s rest ih =>
      rw [checkRoute] at h ⊢
      cases hchild : value.child? s with
      | some next =>
          rw [hchild] at h
          exact ih _ h
      | none =>
          rw [hchild] at h
          dsimp only at h ⊢
          split at h
          · next hc => rw [if_pos hc]
          · cases h

theorem opened_of_child? (h : value.child? s = some inner) : opened value s = value := by
  rcases Json.child?_cases h with ⟨_, _, _, -, -, rfl⟩ | ⟨_, _, -, rfl⟩ <;> cases s <;> rfl

theorem descend_of_child? (h : value.child? s = some inner) : descend value s = .ok inner := by
  rcases Json.child?_cases h with ⟨name, before, after, hs, hn, rfl⟩ | ⟨before, after, rfl, rfl⟩
  · have hget : Members.get? name (before ++ (name, inner) :: after) = some inner :=
      Members.get?_append_cons hn
    cases s <;> cases hs <;> simp only [descend, hget, Option.getD_some]
  · have hget : (before ++ inner :: after)[before.length]? = some inner := by simp
    simp only [descend, hget]

/-- A write below a step that leads somewhere is a write in the value there. -/
theorem write_cons (h : value.child? s = some inner)
    (hw : write last new inner parents = .ok written) :
    write last new value (s :: parents) = .ok (value.putChild s written) := by
  rw [write, opened_of_child? h]
  exact bind_eq_ok_iff.mpr
    ⟨inner, descend_of_child? h, bind_eq_ok_iff.mpr ⟨written, hw, rfl⟩⟩

end Pointer

namespace Json

variable {value inner new written found left : Json} {s last : Segment} {parents p q : Pointer}
  {name : String}

theorem set_append_singleton_eq_ok_iff :
    value.set (parents ++ [last]) new = .ok written ↔
      (parents ++ [last]).any Segment.isWildcard = false ∧
        Pointer.checkRoute [] value parents = .ok () ∧
          Pointer.write last new value parents = .ok written := by
  unfold Json.set
  rw [List.getLast?_concat, List.dropLast_concat]
  split
  · next hwild => simp [hwild]
  · next hwild =>
      rw [Bool.not_eq_true] at hwild
      simp only [hwild, true_and]
      cases hroute : Pointer.checkRoute [] value parents with
      | error e => simp [bind, Except.bind, Except.mapError]
      | ok u =>
          cases hwrite : Pointer.write last new value parents <;>
            simp [bind, Except.bind, Except.mapError]

theorem set_singleton (hs : s.isWildcard = false) (h : Pointer.assign value s new = .ok written) :
    value.set [s] new = .ok written := by
  rw [← List.nil_append [s]]
  exact set_append_singleton_eq_ok_iff.mpr ⟨by simp [hs], rfl, h⟩

theorem set_object (hs : s.name? = some name) (members : List (String × Json)) (new : Json) :
    set (.object members) [s] new = .ok (.object (Members.insert name new members)) := by
  cases s <;> cases hs <;> rfl

/-- A write just past the end appends an item. -/
theorem set_past_end (items : List Json) (new : Json) :
    set (.array items) [.index items.length] new = .ok (.array (items ++ [new])) :=
  set_singleton rfl (by simp [Pointer.assign, Pointer.opened])

theorem set_cons (h : value.child? s = some inner) (hset : inner.set q new = .ok written) :
    value.set (s :: q) new = .ok (value.putChild s written) := by
  have hs := not_isWildcard_of_child? h
  rcases List.eq_nil_or_concat q with rfl | ⟨parents, last, rfl⟩
  · -- the value itself is exchanged
    cases hset
    rcases child?_cases h with ⟨name, before, after, hname, hn, rfl⟩ | ⟨before, after, rfl, rfl⟩
    · rw [putChild_object hname, set_object hname]
    · exact set_singleton rfl (by simp [Pointer.assign, Pointer.opened, putChild])
  · rw [List.concat_eq_append] at hset ⊢
    obtain ⟨hwild, hroute, hwrite⟩ := set_append_singleton_eq_ok_iff.mp hset
    rw [← List.cons_append]
    refine set_append_singleton_eq_ok_iff.mpr ⟨?_, ?_, ?_⟩
    · simpa [hs] using hwild
    · rw [Pointer.checkRoute, h]
      exact Pointer.checkRoute_eq_ok _ hroute
    · exact Pointer.write_cons h hwrite

end Json

/-! ## Sites -/

/-- What stands around the place of a pointer. -/
structure Site (p : Pointer) where
  plug : Json → Json
  get?_plug : ∀ value q, (plug value).get? (p ++ q) = value.get? q
  set_plug : ∀ {value q new written}, value.set q new = .ok written →
    (plug value).set (p ++ q) new = .ok (plug written)
  remove?_plug : ∀ {value q found left}, Json.remove? value q = some (found, left) →
    (plug value).remove? (p ++ q) = some (found, plug left)

namespace Site

def root : Site [] where
  plug := id
  get?_plug := fun _ _ => rfl
  set_plug := id
  remove?_plug := id

variable {p : Pointer} {s : Segment} {name : String}

def member (site : Site p) (hs : s.name? = some name) (before : List (String × Json))
    (hn : name ∉ Members.keys before) (after : List (String × Json)) : Site (p ++ [s]) where
  plug value := site.plug (.object (before ++ (name, value) :: after))
  get?_plug value q := by
    rw [List.append_assoc, site.get?_plug, List.singleton_append, Json.get?,
      Json.child?_member hs hn, Option.bind_some]
  set_plug h := by
    rw [List.append_assoc, List.singleton_append]
    refine site.set_plug ?_
    rw [Json.set_cons (Json.child?_member hs hn) h, Json.putChild_member hs hn]
  remove?_plug h := by
    rw [List.append_assoc, List.singleton_append]
    refine site.remove?_plug ?_
    rw [Json.remove?_cons (Json.child?_member hs hn) h, Json.putChild_member hs hn]

def item (site : Site p) (before after : List Json) : Site (p ++ [.index before.length]) where
  plug value := site.plug (.array (before ++ value :: after))
  get?_plug value q := by
    rw [List.append_assoc, site.get?_plug, List.singleton_append, Json.get?, Json.child?_item,
      Option.bind_some]
  set_plug h := by
    rw [List.append_assoc, List.singleton_append]
    refine site.set_plug ?_
    rw [Json.set_cons (Json.child?_item _ _ _) h, Json.putChild_item]
  remove?_plug h := by
    rw [List.append_assoc, List.singleton_append]
    refine site.remove?_plug ?_
    rw [Json.remove?_cons (Json.child?_item _ _ _) h, Json.putChild_item]

theorem get?_plug_self (site : Site p) (value : Json) : (site.plug value).get? p = some value := by
  have h := site.get?_plug value []
  rwa [List.append_nil] at h

/-- Below a place stand the sites of what is read from the value there. -/
theorem exists_below (site : Site p) {value found : Json} {q : Pointer}
    (h : value.get? q = some found) :
    ∃ below : Site (p ++ q), below.plug found = site.plug value := by
  induction q generalizing p value with
  | nil =>
      cases h
      rw [List.append_nil]
      exact ⟨site, rfl⟩
  | cons s rest ih =>
      obtain ⟨inner, hchild, hrest⟩ := Option.bind_eq_some_iff.mp h
      rw [← List.singleton_append, ← List.append_assoc]
      rcases Json.child?_cases hchild with
        ⟨name, before, after, hs, hn, rfl⟩ | ⟨before, after, rfl, rfl⟩
      · exact ih (site.member hs before hn after) hrest
      · exact ih (site.item before after) hrest

/-- Around every value that is read stands a site. -/
theorem exists_plug {document found : Json} (h : document.get? p = some found) :
    ∃ site : Site p, site.plug found = document :=
  root.exists_below h

end Site

end Curator
