import Curator.Pointer.InPlace
import Curator.Proofs.Pointer.Writing

/-! # What stands in the way of a write

A write fails for a wildcard, for a step on its way that leads nowhere and cannot be created, or for
a container that does not take the last step. The look at the route finds all that could stop the
walk, so in place, too, a write that fails has changed nothing.
-/

namespace Curator

namespace Pointer

variable {value container inner new written found : Json} {s last : Segment}
  {p parents walked : Pointer} {reason : Obstacle} {name : String}
  {members : List (String × Json)}

/-! ## One step -/

/-- Why a container takes no value at a step. -/
inductive Refuses : Json → Segment → Obstacle → Prop where
  | scalar {container : Json} (h : container.Terminal) (s : Segment) :
      Refuses container s (.parent container.kind)
  | null (i : Nat) : Refuses .null (.index i) (.parent .null)
  | name (items : List Json) (name : String) : Refuses (.array items) (.key name) (.parent .array)
  | beyond {items : List Json} {i : Nat} (h : items.length < i) :
      Refuses (.array items) (.index i) (.outOfBounds i items.length)

theorem exists_name_of_isWildcard (hs : s.isWildcard = false) : ∃ name, s.name? = some name := by
  cases s with
  | key name => exact ⟨name, rfl⟩
  | index i => exact ⟨toString i, rfl⟩
  | wildcard => cases hs

theorem assign_object (hs : s.name? = some name) (members : List (String × Json)) (new : Json) :
    assign (.object members) s new = .ok (.object (Members.insert name new members)) := by
  cases s <;> cases hs <;> rfl

theorem assign_item (items : List Json) (i : Nat) (new : Json) :
    assign (.array items) (.index i) new =
      if i < items.length then .ok (.array (items.set i new))
      else if i = items.length then .ok (.array (items ++ [new]))
      else .error (.outOfBounds i items.length) := rfl

theorem assign_of_terminal (h : container.Terminal) (s : Segment) (new : Json) :
    assign container s new = .error (.parent container.kind) := by
  cases container <;> first | exact h.elim | cases s <;> rfl

theorem assign_eq_error_iff (hs : s.isWildcard = false) :
    assign container s new = .error reason ↔ Refuses container s reason := by
  constructor
  · intro h
    by_cases hterminal : container.Terminal
    · rw [assign_of_terminal hterminal] at h
      cases h
      exact .scalar hterminal s
    · cases container with
      | null =>
          cases s with
          | key name => cases h
          | index i =>
              cases h
              exact .null i
          | wildcard => cases hs
      | array items =>
          cases s with
          | key name =>
              cases h
              exact .name items name
          | index i =>
              rw [assign_item] at h
              split at h
              · cases h
              · split at h
                · cases h
                · cases h
                  exact .beyond (by omega)
          | wildcard => cases hs
      | object members =>
          obtain ⟨name, hname⟩ := exists_name_of_isWildcard hs
          rw [assign_object hname] at h
          cases h
      | _ => exact absurd trivial hterminal
  · intro h
    cases h with
    | scalar h => exact assign_of_terminal h s new
    | null i => rfl
    | name items name => rfl
    | beyond h => rw [assign_item, if_neg (by omega), if_neg (by omega)]

theorem eq_null_of_kind (h : container.kind = .null) : container = .null := by
  cases container <;> first | rfl | cases h

theorem exists_refuses_iff : (∃ reason, Refuses container s reason) ↔
    container.kind = .boolean ∨ container.kind = .number ∨ container.kind = .string ∨
      container.kind = .null ∧ (∃ i, s = .index i) ∨
      ∃ items, container = .array items ∧
        ((∃ name, s = .key name) ∨ ∃ i, s = .index i ∧ items.length < i) := by
  constructor
  · rintro ⟨reason, h⟩
    cases h with
    | scalar h =>
        rcases Json.terminal_iff.mp h with h | h | h
        · exact .inl h
        · exact .inr (.inl h)
        · exact .inr (.inr (.inl h))
    | null i => exact .inr (.inr (.inr (.inl ⟨rfl, i, rfl⟩)))
    | name items name => exact .inr (.inr (.inr (.inr ⟨items, rfl, .inl ⟨name, rfl⟩⟩)))
    | @beyond items i h => exact .inr (.inr (.inr (.inr ⟨items, rfl, .inr ⟨i, rfl, h⟩⟩)))
  · rintro (h | h | h | ⟨h, i, rfl⟩ | ⟨items, rfl, ⟨name, rfl⟩ | ⟨i, rfl, h⟩⟩)
    · exact ⟨_, .scalar (Json.terminal_iff.mpr (.inl h)) s⟩
    · exact ⟨_, .scalar (Json.terminal_iff.mpr (.inr (.inl h))) s⟩
    · exact ⟨_, .scalar (Json.terminal_iff.mpr (.inr (.inr h))) s⟩
    · obtain rfl := eq_null_of_kind h
      exact ⟨_, .null i⟩
    · exact ⟨_, .name items name⟩
    · exact ⟨_, .beyond h⟩

/-- What can be created is a name below an object or below null, or a position below an object. -/
theorem creatable_eq_false_iff : creatable found s = false ↔
    ¬ ((∃ name, s = .key name) ∧ (found.kind = .object ∨ found.kind = .null)) ∧
      ¬ ((∃ i, s = .index i) ∧ found.kind = .object) := by
  cases found <;> cases s <;> simp [creatable, Json.kind]

/-- A member that is missing, in a value that is an object or becomes one. -/
structure Missing (value : Json) (s : Segment) (name : String) (members : List (String × Json)) :
    Prop where
  name? : s.name? = some name
  opened : opened value s = .object members
  get? : Members.get? name members = none

theorem exists_missing (hc : creatable value s = true) (hmissing : value.child? s = none) :
    ∃ name members, Missing value s name members := by
  cases value with
  | null =>
      cases s with
      | key name => exact ⟨name, [], rfl, rfl, rfl⟩
      | _ => cases hc
  | object members =>
      cases s with
      | key name => exact ⟨name, members, rfl, rfl, hmissing⟩
      | index i => exact ⟨toString i, members, rfl, rfl, hmissing⟩
      | wildcard => cases hc
  | _ => cases s <;> cases hc

theorem missing_emptyObject (hs : s.name? = some name) : Missing .emptyObject s name [] :=
  ⟨hs, by cases s <;> rfl, rfl⟩

/-! ## The walk of a write, in place and not -/

/-- What a change leaves that changes nothing when it fails: the document afterwards and the
failure, if there was one. -/
def allOrNothing {ε : Type} (value : Json) : Except ε Json → Json × Option ε
  | .ok written => (written, none)
  | .error e => (value, some e)

theorem opened_of_assign_eq_error (h : assign value s new = .error reason) :
    opened value s = value := by
  cases value with
  | null =>
      cases s with
      | key name => cases h
      | _ => rfl
  | _ => cases s <;> rfl

theorem assignInPlace_eq (value : Json) (s : Segment) (new : Json) :
    assignInPlace value s new = allOrNothing value (assign value s new) := by
  unfold assignInPlace
  cases h : assign value s new with
  | ok written => rfl
  | error reason => exact congrArg (·, some reason) (opened_of_assign_eq_error h)

theorem enter_object (hs : s.name? = some name) (ho : opened value s = .object members) :
    enter value s = enterMember name members := by
  unfold enter
  rw [ho]
  cases s <;> cases hs <;> rfl

theorem enter_of_child? (h : value.child? s = some inner) : enter value s = (value, some inner) := by
  have ho := opened_of_child? h
  rcases Json.child?_cases h with ⟨name, before, after, hs, hn, rfl⟩ | ⟨before, after, rfl, rfl⟩
  · rw [enter_object hs ho, enterMember, Members.get?_append_cons hn]
  · exact congrArg (Json.array (before ++ inner :: after), ·) h

theorem descend_object (hs : s.name? = some name) (members : List (String × Json)) :
    descend (.object members) s = .ok ((Members.get? name members).getD .emptyObject) := by
  cases s <;> cases hs <;> rfl

/-- A write below a step that leads somewhere is, failing or not, a write in the value there. -/
theorem write_of_child? (h : value.child? s = some inner) (last : Segment) (new : Json)
    (parents : Pointer) :
    write last new value (s :: parents) = (write last new inner parents).map (value.putChild s) := by
  rw [write, opened_of_child? h, descend_of_child? h]
  change (write last new inner parents >>= fun below => .ok (value.putChild s below)) = _
  cases write last new inner parents <;> rfl

namespace Missing

variable (h : Missing value s name members)
include h

theorem enter_eq : enter value s = (.object (Members.insert name .emptyObject members),
    some .emptyObject) := by
  rw [enter_object h.name? h.opened, enterMember, h.get?]

theorem write_eq (hw : write last new .emptyObject parents = .ok written) :
    write last new value (s :: parents) = .ok (.object (Members.insert name written members)) := by
  rw [write, h.opened, descend_object h.name?, h.get?, Option.getD_none]
  refine bind_eq_ok_iff.mpr ⟨.emptyObject, rfl, bind_eq_ok_iff.mpr ⟨written, hw, ?_⟩⟩
  exact congrArg Except.ok (Json.putChild_object h.name? members)

/-- What was put in for the missing member gives way to what is written. -/
theorem writeInPlace_eq (hw : writeInPlace last new .emptyObject parents = (written, none)) :
    writeInPlace last new value (s :: parents) =
      (.object (Members.insert name written members), none) := by
  rw [writeInPlace, h.enter_eq]
  simp only [hw, Json.putChild_object h.name?, Members.insert_insert]

end Missing

/-- Below an object just created nothing stands in the way. -/
theorem exists_write_emptyObject (new : Json) (hlast : last.isWildcard = false)
    (hparents : ∀ t ∈ parents, t.isWildcard = false) :
    ∃ written, write last new .emptyObject parents = .ok written ∧
      writeInPlace last new .emptyObject parents = (written, none) := by
  induction parents with
  | nil =>
      obtain ⟨name, hname⟩ := exists_name_of_isWildcard hlast
      have hassign := assign_object hname [] new
      exact ⟨_, hassign, (assignInPlace_eq _ _ _).trans (congrArg (allOrNothing _) hassign)⟩
  | cons s rest ih =>
      obtain ⟨hs, hrest⟩ := List.forall_mem_cons.mp hparents
      obtain ⟨name, hname⟩ := exists_name_of_isWildcard hs
      obtain ⟨written, hwrite, hinPlace⟩ := ih hrest
      have hmissing := missing_emptyObject hname
      exact ⟨_, hmissing.write_eq hwrite, hmissing.writeInPlace_eq hinPlace⟩

/-- A route without obstacles: each step leads on, up to one that may be created. -/
inductive Clear : Json → Pointer → Prop where
  | here (value : Json) : Clear value []
  | step {value inner : Json} {s : Segment} {rest : Pointer} (h : value.child? s = some inner)
      (below : Clear inner rest) : Clear value (s :: rest)
  | create {value : Json} {s : Segment} (hc : creatable value s = true)
      (hmissing : value.child? s = none) (rest : Pointer) : Clear value (s :: rest)

theorem clear_of_checkRoute (h : checkRoute walked value parents = .ok ()) :
    Clear value parents := by
  induction parents generalizing value walked with
  | nil => exact .here value
  | cons s rest ih =>
      rw [checkRoute] at h
      cases hchild : value.child? s with
      | some inner =>
          rw [hchild] at h
          exact .step hchild (ih h)
      | none =>
          rw [hchild] at h
          dsimp only at h
          split at h
          · next hc => exact .create hc hchild rest
          · cases h

theorem checkRoute_append (h : value.get? before = some found) :
    checkRoute walked value (before ++ rest) = checkRoute (before.reverse ++ walked) found rest := by
  induction before generalizing value walked with
  | nil =>
      cases h
      rfl
  | cons t before ih =>
      obtain ⟨inner, hchild, hfound⟩ := Option.bind_eq_some_iff.mp h
      have hwalked : (t :: before).reverse ++ walked = before.reverse ++ t :: walked := by simp
      rw [List.cons_append, checkRoute, hchild, hwalked]
      exact ih hfound

theorem exists_of_checkRoute (h : checkRoute walked value parents = .error reason) :
    ∃ before s after found, parents = before ++ s :: after ∧ value.get? before = some found ∧
      found.child? s = none ∧ creatable found s = false ∧
      reason = .noRoute (walked.reverse ++ before ++ [s]) found.kind := by
  induction parents generalizing value walked with
  | nil => cases h
  | cons t rest ih =>
      rw [checkRoute] at h
      cases hchild : value.child? t with
      | some inner =>
          rw [hchild] at h
          obtain ⟨before, s, after, found, rfl, hfound, hnone, hc, rfl⟩ := ih h
          refine ⟨t :: before, s, after, found, rfl, ?_, hnone, hc, by simp⟩
          rw [Json.get?, hchild, Option.bind_some, hfound]
      | none =>
          rw [hchild] at h
          dsimp only at h
          split at h
          · cases h
          · next hc =>
              cases h
              exact ⟨[], t, rest, value, rfl, rfl, hchild, Bool.eq_false_iff.mpr hc, by simp⟩

/-- A walk that fails does so at the first step that leads nowhere, which cannot be created. -/
theorem checkRoute_eq_error_iff : checkRoute walked value parents = .error reason ↔
    ∃ before s after found, parents = before ++ s :: after ∧ value.get? before = some found ∧
      found.child? s = none ∧ creatable found s = false ∧
      reason = .noRoute (walked.reverse ++ before ++ [s]) found.kind := by
  refine ⟨exists_of_checkRoute, ?_⟩
  rintro ⟨before, s, after, found, rfl, hfound, hnone, hc, rfl⟩
  rw [checkRoute_append hfound, checkRoute, hnone]
  simp [hc]

namespace Clear

variable (h : Clear value parents) (hlast : last.isWildcard = false)
  (hparents : ∀ t ∈ parents, t.isWildcard = false)
include h hlast hparents

/-- On a clear route, only the container at its end can refuse a write. -/
theorem write_eq_error_iff : write last new value parents = .error reason ↔
    ∃ container, value.get? parents = some container ∧ Refuses container last reason := by
  induction h with
  | here value =>
      rw [write, assign_eq_error_iff hlast]
      simp [Json.get?]
  | @step value inner s rest hchild below ih =>
      rw [Json.get?, hchild, Option.bind_some, ← ih (List.forall_mem_cons.mp hparents).2,
        write_of_child? hchild]
      cases write last new inner rest with
      | ok written => simp [Except.map]
      | error e => exact Iff.rfl
  | @create value s hc hmissing rest =>
      obtain ⟨name, members, hmember⟩ := exists_missing hc hmissing
      obtain ⟨written, hwrite, -⟩ :=
        exists_write_emptyObject new hlast (List.forall_mem_cons.mp hparents).2
      rw [hmember.write_eq hwrite, Json.get?, hmissing]
      simp

/-- On a clear route, a write that fails in place leaves what was there. -/
theorem writeInPlace_eq :
    writeInPlace last new value parents = allOrNothing value (write last new value parents) := by
  induction h with
  | here value => exact assignInPlace_eq value last new
  | @step value inner s rest hchild below ih =>
      rw [writeInPlace, enter_of_child? hchild, write_of_child? hchild]
      simp only [ih (List.forall_mem_cons.mp hparents).2]
      cases write last new inner rest with
      | ok written => rfl
      | error e => exact congrArg (·, some e) (Json.putChild_self hchild)
  | @create value s hc hmissing rest =>
      -- from here on all is created, which takes any write, so nothing is left half done
      obtain ⟨name, members, hmember⟩ := exists_missing hc hmissing
      obtain ⟨written, hwrite, hinPlace⟩ :=
        exists_write_emptyObject new hlast (List.forall_mem_cons.mp hparents).2
      rw [hmember.write_eq hwrite, hmember.writeInPlace_eq hinPlace]
      rfl

end Clear

theorem any_isWildcard_iff : p.any Segment.isWildcard = true ↔ .wildcard ∈ p := by
  rw [List.any_eq_true]
  constructor
  · rintro ⟨s, hs, hwild⟩
    cases s <;> first | exact hs | cases hwild
  · exact fun h => ⟨.wildcard, h, rfl⟩

theorem isWildcard_eq_false (h : .wildcard ∉ parents ++ [last]) :
    last.isWildcard = false ∧ ∀ t ∈ parents, t.isWildcard = false := by
  have hany : (parents ++ [last]).any Segment.isWildcard = false :=
    Bool.eq_false_iff.mpr (any_isWildcard_iff.not.mpr h)
  obtain ⟨hparents, hlast⟩ := List.forall_mem_append.mp (List.any_eq_false.mp hany)
  exact ⟨Bool.eq_false_iff.mpr (hlast last (List.mem_singleton_self last)),
    fun t ht => Bool.eq_false_iff.mpr (hparents t ht)⟩

end Pointer

/-! ## Failing writes -/

namespace Json

open Pointer (Refuses allOrNothing creatable)

variable {value container found new : Json} {s last : Segment} {p parents before : Pointer}
  {e : Pointer.SetError} {reason : Pointer.Obstacle}

theorem set_of_wildcard (h : .wildcard ∈ p) (value new : Json) :
    value.set p new = .error (.unresolvedWildcard p) := by
  unfold set
  rw [if_pos (Pointer.any_isWildcard_iff.mpr h)]

section Route

variable (hwild : .wildcard ∉ parents ++ [last])
include hwild

theorem set_of_no_route (hroute : Pointer.checkRoute [] value parents = .error reason)
    (new : Json) :
    value.set (parents ++ [last]) new = .error (.obstacle (parents ++ [last]) reason) := by
  unfold set
  rw [if_neg (Pointer.any_isWildcard_iff.not.mpr hwild), List.getLast?_concat, List.dropLast_concat,
    hroute]
  rfl

theorem set_of_route (hroute : Pointer.checkRoute [] value parents = .ok ()) (new : Json) :
    value.set (parents ++ [last]) new =
      (Pointer.write last new value parents).mapError (.obstacle (parents ++ [last])) := by
  unfold set
  rw [if_neg (Pointer.any_isWildcard_iff.not.mpr hwild), List.getLast?_concat, List.dropLast_concat,
    hroute]
  rfl

end Route

theorem checkRoute_of_get? (h : value.get? parents = some container) :
    Pointer.checkRoute [] value parents = .ok () := by
  rw [← List.append_nil parents, Pointer.checkRoute_append h, Pointer.checkRoute]

/-- Why a write fails, with the failure that says so. -/
inductive Blocked (value : Json) (p : Pointer) : Pointer.SetError → Prop where
  | wildcard (h : .wildcard ∈ p) : Blocked value p (.unresolvedWildcard p)
  | route (hwild : .wildcard ∉ p) {before after : Pointer} {s last : Segment} {found : Json}
      (hp : p = before ++ s :: after ++ [last]) (hfound : value.get? before = some found)
      (hmissing : found.child? s = none) (hc : creatable found s = false) :
      Blocked value p (.obstacle p (.noRoute (before ++ [s]) found.kind))
  | target (hwild : .wildcard ∉ p) {parents : Pointer} {last : Segment} {container : Json}
      {reason : Pointer.Obstacle} (hp : p = parents ++ [last])
      (hcontainer : value.get? parents = some container) (h : Refuses container last reason) :
      Blocked value p (.obstacle p reason)

theorem blocked_of_set (h : value.set p new = .error e) : Blocked value p e := by
  by_cases hwild : .wildcard ∈ p
  · rw [set_of_wildcard hwild] at h
    cases h
    exact .wildcard hwild
  rcases List.eq_nil_or_concat p with rfl | ⟨parents, last, rfl⟩
  · -- the root gives way to anything
    cases h
  rw [List.concat_eq_append] at hwild h ⊢
  obtain ⟨hlast, hparents⟩ := Pointer.isWildcard_eq_false hwild
  cases hroute : Pointer.checkRoute [] value parents with
  | error reason =>
      rw [set_of_no_route hwild hroute] at h
      cases h
      obtain ⟨before, s, after, found, rfl, hfound, hmissing, hc, rfl⟩ :=
        Pointer.checkRoute_eq_error_iff.mp hroute
      exact .route hwild rfl hfound hmissing hc
  | ok u =>
      rw [set_of_route hwild hroute] at h
      cases hwrite : Pointer.write last new value parents with
      | ok written =>
          rw [hwrite] at h
          cases h
      | error reason =>
          rw [hwrite] at h
          cases h
          have hclear := Pointer.clear_of_checkRoute hroute
          obtain ⟨container, hcontainer, hrefuses⟩ :=
            (hclear.write_eq_error_iff hlast hparents).mp hwrite
          exact .target hwild rfl hcontainer hrefuses

/-- A write fails exactly for these reasons, and with these failures. -/
theorem set_eq_error_iff : value.set p new = .error e ↔ Blocked value p e := by
  refine ⟨blocked_of_set, fun h => ?_⟩
  cases h with
  | wildcard h => exact set_of_wildcard h value new
  | @route hwild before after s last found hp hfound hmissing hc =>
      subst hp
      have hroute : Pointer.checkRoute [] value (before ++ s :: after) =
          .error (.noRoute (before ++ [s]) found.kind) :=
        Pointer.checkRoute_eq_error_iff.mpr
          ⟨before, s, after, found, rfl, hfound, hmissing, hc, rfl⟩
      exact set_of_no_route hwild hroute new
  | @target hwild parents last container reason hp hcontainer hrefuses =>
      subst hp
      obtain ⟨hlast, hparents⟩ := Pointer.isWildcard_eq_false hwild
      have hroute := checkRoute_of_get? hcontainer
      have hclear := Pointer.clear_of_checkRoute hroute
      have hwrite : Pointer.write last new value parents = .error reason :=
        (hclear.write_eq_error_iff hlast hparents).mpr ⟨container, hcontainer, hrefuses⟩
      rw [set_of_route hwild hroute, hwrite]
      rfl

/-- In place a write does what it does to a copy, and when it fails the document is unchanged. -/
theorem setInPlace_eq (value : Json) (p : Pointer) (new : Json) :
    value.setInPlace p new = allOrNothing value (value.set p new) := by
  by_cases hwild : .wildcard ∈ p
  · rw [set_of_wildcard hwild, setInPlace, if_pos (Pointer.any_isWildcard_iff.mpr hwild)]
    rfl
  rcases List.eq_nil_or_concat p with rfl | ⟨parents, last, rfl⟩
  · rfl
  rw [List.concat_eq_append] at hwild ⊢
  obtain ⟨hlast, hparents⟩ := Pointer.isWildcard_eq_false hwild
  rw [setInPlace, if_neg (Pointer.any_isWildcard_iff.not.mpr hwild), List.getLast?_concat,
    List.dropLast_concat]
  dsimp only
  cases hroute : Pointer.checkRoute [] value parents with
  | error reason =>
      rw [set_of_no_route hwild hroute]
      rfl
  | ok u =>
      have hclear := Pointer.clear_of_checkRoute hroute
      dsimp only
      rw [set_of_route hwild hroute, hclear.writeInPlace_eq hlast hparents]
      cases Pointer.write last new value parents <;> rfl

theorem exists_blocked_iff : (∃ e, Blocked value p e) ↔
    .wildcard ∈ p ∨
    (∃ before s after last found, p = before ++ s :: after ++ [last] ∧
      value.get? before = some found ∧ found.child? s = none ∧ creatable found s = false) ∨
    ∃ parents last container, p = parents ++ [last] ∧ value.get? parents = some container ∧
      ∃ reason, Refuses container last reason := by
  constructor
  · rintro ⟨e, h⟩
    cases h with
    | wildcard h => exact .inl h
    | route hwild hp hfound hmissing hc =>
        exact .inr (.inl ⟨_, _, _, _, _, hp, hfound, hmissing, hc⟩)
    | target hwild hp hcontainer h => exact .inr (.inr ⟨_, _, _, hp, hcontainer, _, h⟩)
  · intro h
    by_cases hwild : .wildcard ∈ p
    · exact ⟨_, .wildcard hwild⟩
    rcases h with h | ⟨before, s, after, last, found, hp, hfound, hmissing, hc⟩ |
      ⟨parents, last, container, hp, hcontainer, reason, h⟩
    · exact absurd h hwild
    · exact ⟨_, .route hwild hp hfound hmissing hc⟩
    · exact ⟨_, .target hwild hp hcontainer h⟩

theorem isSome_setInPlace_iff : (value.setInPlace p new).2.isSome ↔ ∃ e, Blocked value p e := by
  have hfails : (∃ e, Blocked value p e) ↔ ∃ e, value.set p new = .error e :=
    exists_congr fun e => set_eq_error_iff.symm
  rw [hfails, setInPlace_eq]
  cases value.set p new <;> simp [allOrNothing]

/-- A write in place fails just for a wildcard, for a first step on the way to the parent that leads
nowhere and is neither a name below an object or null nor a position below an object, or for a
parent that is a scalar, null where a position is written, or an array where a name is written or a
position beyond its length. When it fails it leaves the document as it was, and it never fails for
want of a container on its way, after the look at the route. Its outcome is that of a write to a
copy. -/
theorem setInPlace_all_or_nothing (value : Json) (p : Pointer) (new : Json) :
    let outcome := value.setInPlace p new
    (outcome.2.isSome ↔
      .wildcard ∈ p ∨
      (∃ before s after last found, p = before ++ s :: after ++ [last] ∧
        value.get? before = some found ∧ found.child? s = none ∧
        ¬ ((∃ name, s = .key name) ∧ (found.kind = .object ∨ found.kind = .null)) ∧
        ¬ ((∃ i, s = .index i) ∧ found.kind = .object)) ∨
      ∃ parents last container, p = parents ++ [last] ∧ value.get? parents = some container ∧
        (container.kind = .boolean ∨ container.kind = .number ∨ container.kind = .string ∨
          container.kind = .null ∧ (∃ i, last = .index i) ∨
          ∃ items, container = .array items ∧
            ((∃ name, last = .key name) ∨ ∃ i, last = .index i ∧ items.length < i))) ∧
    (outcome.2.isSome → outcome.1 = value) ∧
    (∀ path, outcome.2 ≠ some (.obstacle path .noContainer)) ∧
    (∀ written, outcome = (written, none) ↔ value.set p new = .ok written) ∧
    ∀ e, outcome = (value, some e) ↔ value.set p new = .error e := by
  intro outcome
  refine ⟨?_, ?_⟩
  · simp only [← Pointer.exists_refuses_iff, ← Pointer.creatable_eq_false_iff]
    exact isSome_setInPlace_iff.trans exists_blocked_iff
  simp only [outcome, setInPlace_eq]
  cases hset : value.set p new with
  | ok written => exact ⟨nofun, fun _ => nofun, by simp [allOrNothing], by simp [allOrNothing]⟩
  | error e =>
      refine ⟨fun _ => rfl, fun path h => ?_, by simp [allOrNothing], by simp [allOrNothing]⟩
      cases h
      cases blocked_of_set hset with
      | target hwild hp hcontainer h => cases h

/-- The one past the end of an array can be written, the next cannot. -/
theorem setInPlace_all_or_nothing_of_beyond :
    let value : Json := .object [("a", .null), ("b", .object [("c", .array [.bool true])])]
    let p : Pointer := [.key "b", .key "c", .index 2]
    let outcome := value.setInPlace p (.bool false)
    outcome.2.isSome ∧ outcome.1 = value := by
  intro value p outcome
  have hlaw := setInPlace_all_or_nothing value p (.bool false)
  have hfails : outcome.2.isSome := by
    refine hlaw.1.mpr (.inr (.inr ⟨[.key "b", .key "c"], .index 2, .array [.bool true], rfl, ?_, ?_⟩))
    · simp [value, get?, child?, Members.get?]
    · exact .inr (.inr (.inr (.inr ⟨_, rfl, .inr ⟨2, rfl, by decide⟩⟩)))
  exact ⟨hfails, hlaw.2.1 hfails⟩

end Json

end Curator
