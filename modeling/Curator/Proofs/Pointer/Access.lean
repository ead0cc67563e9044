import Curator.Pointer.Access
import Curator.Proofs.Json.Reordering

/-! # Access and the shape of documents

Reading, writing and removing by a pointer keep documents well-formed. Reading and
removing see no order of members: from documents that differ in it they give values and
remainders that differ in nothing else.
-/

namespace Curator

namespace Json

variable {value new found left : Json} {s : Segment} {p : Pointer}

theorem remove?_cons_cons (value : Json) (s t : Segment) (rest : Pointer) :
    value.remove? (s :: t :: rest) =
      (value.child? s).bind fun inner =>
        (inner.remove? (t :: rest)).bind fun (found, inner) =>
          some (found, value.putChild s inner) := by
  rw [remove?] <;> simp

/-! ## Well-formedness -/

theorem WellFormed.of_child? (h : value.WellFormed) (hc : value.child? s = some found) :
    found.WellFormed := by
  unfold child? at hc
  split at hc
  · exact h.of_get? hc
  · exact h.of_getElem? hc
  · exact h.of_get? hc
  · simp at hc

theorem WellFormed.insert {members : List (String × Json)} (h : WellFormed (.object members))
    (hnew : new.WellFormed) (name : String) :
    WellFormed (.object (Members.insert name new members)) := by
  refine wellFormed_object_iff.mpr ⟨h.distinct.insert name new, fun m hm => ?_⟩
  cases Members.mem_of_mem_insert hm with
  | inl he => exact he ▸ hnew
  | inr hm => exact (wellFormed_object_iff.mp h).2 m hm

theorem WellFormed.erase {members : List (String × Json)} (h : WellFormed (.object members))
    (name : String) : WellFormed (.object (Members.erase name members)) :=
  wellFormed_object_iff.mpr ⟨h.distinct.erase name, fun m hm =>
    (wellFormed_object_iff.mp h).2 m ((Members.erase_sublist name members).subset hm)⟩

theorem WellFormed.set_item {items : List Json} (h : WellFormed (.array items))
    (hnew : new.WellFormed) (i : Nat) : WellFormed (.array (items.set i new)) := by
  refine wellFormed_array_iff.mpr fun item hi => ?_
  cases List.mem_or_eq_of_mem_set hi with
  | inl hi => exact wellFormed_array_iff.mp h item hi
  | inr he => exact he ▸ hnew

theorem WellFormed.putChild (h : value.WellFormed) (hnew : new.WellFormed) (s : Segment) :
    (value.putChild s new).WellFormed := by
  unfold Json.putChild
  split
  · exact h.insert hnew _
  · exact h.set_item hnew _
  · exact h.insert hnew _
  · exact h

theorem WellFormed.of_get?_pointer (h : value.WellFormed) (hp : value.get? p = some found) :
    found.WellFormed := by
  induction p generalizing value with
  | nil => cases hp; exact h
  | cons s rest ih =>
      obtain ⟨inner, hinner, hrest⟩ := Option.bind_eq_some_iff.mp hp
      exact ih (h.of_child? hinner) hrest

theorem WellFormed.of_removeChild? (h : value.WellFormed)
    (hr : value.removeChild? s = some (found, left)) : left.WellFormed := by
  obtain ⟨inner, -, he⟩ := Option.map_eq_some_iff.mp hr
  cases he
  split
  · exact h.erase _
  · exact h.erase _
  · exact wellFormed_array_iff.mpr fun item hi =>
      wellFormed_array_iff.mp h item (List.mem_of_mem_eraseIdx hi)
  · exact h

theorem WellFormed.of_remove? (h : value.WellFormed)
    (hr : value.remove? p = some (found, left)) : left.WellFormed := by
  induction p generalizing value left with
  | nil => simp [remove?] at hr
  | cons s rest ih =>
      cases rest with
      | nil => exact h.of_removeChild? hr
      | cons t rest =>
          rw [remove?_cons_cons] at hr
          obtain ⟨inner, hinner, hr⟩ := Option.bind_eq_some_iff.mp hr
          obtain ⟨⟨_, below⟩, hbelow, hr⟩ := Option.bind_eq_some_iff.mp hr
          cases hr
          exact h.putChild (ih (h.of_child? hinner) hbelow) s

end Json

namespace Pointer

variable {value new result : Json} {s : Segment}

theorem wellFormed_opened (h : value.WellFormed) (s : Segment) : (opened value s).WellFormed := by
  unfold opened
  split
  · exact Json.wellFormed_emptyObject
  · exact h

theorem wellFormed_of_assign (h : value.WellFormed) (hnew : new.WellFormed)
    (ha : assign value s new = .ok result) : result.WellFormed := by
  have ho := wellFormed_opened h s
  unfold assign at ha
  split at ha
  · rename_i heq
    cases ha
    exact (heq ▸ ho).insert hnew _
  · rename_i heq
    cases ha
    exact (heq ▸ ho).insert hnew _
  · rename_i items i heq
    rw [heq] at ho
    split at ha
    · cases ha
      exact ho.set_item hnew i
    · split at ha
      · cases ha
        exact Json.wellFormed_array_iff.mpr
          (List.forall_mem_append.mpr ⟨Json.wellFormed_array_iff.mp ho, by simpa using hnew⟩)
      · simp at ha
  · simp at ha

theorem wellFormed_of_descend (h : value.WellFormed) (hd : descend value s = .ok result) :
    result.WellFormed := by
  have hmember : ∀ (members : List (String × Json)) (name : String),
      Json.WellFormed (.object members) →
      ((Members.get? name members).getD .emptyObject).WellFormed := by
    intro members name hm
    cases hg : Members.get? name members with
    | none => exact Json.wellFormed_emptyObject
    | some found => exact hm.of_get? hg
  unfold descend at hd
  split at hd
  · cases hd
    exact hmember _ _ h
  · cases hd
    exact hmember _ _ h
  · split at hd
    · cases hd
      exact h.of_getElem? ‹_›
    · simp at hd
  · simp at hd

theorem wellFormed_of_write {last : Segment} {p : Pointer} (h : value.WellFormed)
    (hnew : new.WellFormed) (hw : write last new value p = .ok result) : result.WellFormed := by
  induction p generalizing value result with
  | nil => exact wellFormed_of_assign h hnew hw
  | cons s parents ih =>
      have ho := wellFormed_opened h s
      simp only [write, bind, Except.bind] at hw
      cases hd : descend (opened value s) s with
      | error e => simp [hd] at hw
      | ok inner =>
          simp only [hd] at hw
          cases hi : write last new inner parents with
          | error e => simp [hi] at hw
          | ok written =>
              simp only [hi] at hw
              cases hw
              exact ho.putChild (ih (wellFormed_of_descend ho hd) hi) s

end Pointer

theorem Json.WellFormed.of_set {value new result : Json} {p : Pointer} (h : value.WellFormed)
    (hnew : new.WellFormed) (hs : value.set p new = .ok result) : result.WellFormed := by
  unfold Json.set at hs
  split at hs
  · simp at hs
  · split at hs
    · cases hs
      exact hnew
    · rename_i last _
      cases hc : Pointer.checkRoute [] value p.dropLast with
      | error e => simp [hc, bind, Except.bind, Except.mapError] at hs
      | ok u =>
          cases hw : Pointer.write last new value p.dropLast with
          | error e => simp [hc, hw, bind, Except.bind, Except.mapError] at hs
          | ok written =>
              simp only [hc, hw, bind, Except.bind, Except.mapError, Except.ok.injEq] at hs
              exact hs ▸ Pointer.wellFormed_of_write h hnew hw

/-! ## The order of members -/

namespace Json.SameUpToKeyOrder

variable {a b x y : Json}

theorem child? (h : SameUpToKeyOrder a b) (ha : a.WellFormed) (s : Segment) :
    Option.Rel SameUpToKeyOrder (a.child? s) (b.child? s) := by
  cases h.view ha with
  | array hitems =>
      cases s with
      | index i => exact forall₂_getElem? hitems i
      | _ => exact .none
  | object _ hmembers =>
      cases s with
      | key name => exact hmembers name
      | index i => exact hmembers (toString i)
      | wildcard => exact .none
  | _ => exact .none

theorem insert {ms ns : List (String × Json)} (h : SameUpToKeyOrder (.object ms) (.object ns))
    (hms : WellFormed (.object ms)) (hxy : SameUpToKeyOrder x y) (name : String) :
    SameUpToKeyOrder (.object (Members.insert name x ms)) (.object (Members.insert name y ns)) := by
  have hns := h.wellFormed hms
  cases h.view hms with
  | object _ hmembers =>
      refine object (hms.distinct.insert name x) (hns.distinct.insert name y) fun other => ?_
      rw [Members.get?_insert, Members.get?_insert]
      split
      · exact .some hxy
      · exact hmembers other

theorem erase {ms ns : List (String × Json)} (h : SameUpToKeyOrder (.object ms) (.object ns))
    (hms : WellFormed (.object ms)) (name : String) :
    SameUpToKeyOrder (.object (Members.erase name ms)) (.object (Members.erase name ns)) := by
  have hns := h.wellFormed hms
  cases h.view hms with
  | object _ hmembers =>
      refine object (hms.distinct.erase name) (hns.distinct.erase name) fun other => ?_
      rw [Members.get?_erase hms.distinct, Members.get?_erase hns.distinct]
      split
      · exact .none
      · exact hmembers other

theorem putChild (h : SameUpToKeyOrder a b) (ha : a.WellFormed) (hxy : SameUpToKeyOrder x y)
    (s : Segment) : SameUpToKeyOrder (a.putChild s x) (b.putChild s y) := by
  cases h.view ha with
  | array hitems =>
      cases s with
      | index i => exact array (forall₂_set hitems i hxy)
      | _ => exact h
  | object _ _ =>
      cases s with
      | key name => exact h.insert ha hxy name
      | index i => exact h.insert ha hxy (toString i)
      | wildcard => exact h
  | _ => exact h

theorem get? (h : SameUpToKeyOrder a b) (ha : a.WellFormed) (p : Pointer) :
    Option.Rel SameUpToKeyOrder (a.get? p) (b.get? p) := by
  induction p generalizing a b with
  | nil => exact .some h
  | cons s rest ih => exact rel_bind (h.child? ha s) fun x y hx hxy => ih hxy (ha.of_child? hx)

/-- Two removals that found and left values that differ in the order of members only. -/
abbrev Removals : Option (Json × Json) → Option (Json × Json) → Prop :=
  Option.Rel fun r r' => SameUpToKeyOrder r.1 r'.1 ∧ SameUpToKeyOrder r.2 r'.2

theorem removeChild? (h : SameUpToKeyOrder a b) (ha : a.WellFormed) (s : Segment) :
    Removals (a.removeChild? s) (b.removeChild? s) := by
  refine rel_map (h.child? ha s) fun x y _ hxy => ⟨hxy, ?_⟩
  cases h.view ha with
  | array hitems =>
      cases s with
      | index i => exact array (forall₂_eraseIdx hitems i)
      | _ => exact h
  | object _ _ =>
      cases s with
      | key name => exact h.erase ha name
      | index i => exact h.erase ha (toString i)
      | wildcard => exact h
  | _ => exact h

theorem remove? (h : SameUpToKeyOrder a b) (ha : a.WellFormed) (p : Pointer) :
    Removals (a.remove? p) (b.remove? p) := by
  induction p generalizing a b with
  | nil => exact .none
  | cons s rest ih =>
      cases rest with
      | nil => exact h.removeChild? ha s
      | cons t rest =>
          rw [Json.remove?_cons_cons, Json.remove?_cons_cons]
          refine rel_bind (h.child? ha s) fun x y hx hxy => ?_
          refine rel_bind (ih hxy (ha.of_child? hx)) fun r r' _ hr => ?_
          exact .some ⟨hr.1, h.putChild ha hr.2 s⟩

end Json.SameUpToKeyOrder

end Curator
