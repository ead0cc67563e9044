import Curator.Proofs.Comparison.Exactness
import Curator.Proofs.Pointer.Site

/-! # The places of changes

Below two objects or two arrays a comparison takes one step after another, and at each it
finds the changes below it, a value that is gone or a value that is new. So a change shows
what both documents have at its pointer, and no pointer leads through another.
-/

namespace Curator

namespace Json

/-- No member has the name that stands for a wildcard in a pointer. -/
def Undashed : Json → Prop
  | .object members => "-" ∉ Members.keys members
  | _ => True

/-- Every place in the document has a pointer, except that the text of the single empty name
reads as the root. -/
structure Traceable (document : Json) : Prop where
  wellFormed : document.WellFormed
  addressable : document.Addressable
  undashed : document.Everywhere Undashed

variable {value inner : Json} {s : Segment}

theorem Traceable.of_child? (h : value.Traceable) (hc : value.child? s = some inner) :
    inner.Traceable := by
  have hwellFormed := h.wellFormed.of_child? hc
  obtain ⟨-, haddressable, hundashed⟩ := h
  rcases child?_cases hc with ⟨name, before, after, -, -, rfl⟩ | ⟨before, after, -, rfl⟩
  · have hmem : (name, inner) ∈ before ++ (name, inner) :: after := List.mem_append_cons_self
    exact ⟨hwellFormed, (everywhere_object_iff.mp haddressable).2 _ hmem,
      (everywhere_object_iff.mp hundashed).2 _ hmem⟩
  · have hmem : inner ∈ before ++ inner :: after := List.mem_append_cons_self
    exact ⟨hwellFormed, (everywhere_array_iff.mp haddressable).2 _ hmem,
      (everywhere_array_iff.mp hundashed).2 _ hmem⟩

end Json

namespace Change

variable {depth : Nat} {path p q : Pointer} {s t : Segment} {old new x y : Json} {c d : Change}

/-! ## Steps of a comparison -/

/-- What a comparison finds at a place of which either side may have a value. -/
def atStep (depth : Nat) (path : Pointer) : Option Json → Option Json → List Change
  | some x, some y => between (depth + 1) path x y
  | some x, none => [removed path.render x]
  | none, some y => [added path.render y]
  | none, none => []

def newMembers (ms ns : List (String × Json)) : List (String × Json) :=
  ns.filter fun m => !Members.contains m.1 ms

theorem mem_newMembers {ms ns : List (String × Json)} {m : String × Json} :
    m ∈ newMembers ms ns ↔ m ∈ ns ∧ m.1 ∉ Members.keys ms := by
  rw [newMembers, List.mem_filter, Bool.not_eq_true', Members.contains, Option.isSome_eq_false_iff,
    Option.isNone_iff_eq_none, Members.get?_eq_none_iff]

theorem distinct_newMembers (ms : List (String × Json)) {ns : List (String × Json)}
    (h : Members.Distinct ns) :
    Members.Distinct (newMembers ms ns) := (List.filter_sublist.map Prod.fst).nodup h

/-- The steps below two values that are compared part by part, in order. -/
def steps : Json → Json → List Segment
  | .object ms, .object ns =>
    (ms.map fun m => .key m.1) ++ (newMembers ms ns).map fun m => .key m.1
  | .array xs, .array ys => (List.range (max xs.length ys.length)).map .index
  | _, _ => []

theorem memberChanges_eq_flatMap (ms ns : List (String × Json)) :
    memberChanges depth path ms ns =
      ms.flatMap fun m => atStep depth (path ++ [.key m.1]) (some m.2) (Members.get? m.1 ns) := by
  induction ms with
  | nil => rfl
  | cons m rest ih =>
      obtain ⟨name, value⟩ := m
      rw [memberChanges, ih, List.flatMap_cons]
      cases Members.get? name ns <;> rfl

/-- A step at the first position, and the others one further on. -/
theorem flatMap_range_succ {α : Type} (f : Nat → List α) (n : Nat) :
    (List.range (n + 1)).flatMap f = f 0 ++ (List.range n).flatMap fun i => f (i + 1) := by
  rw [List.range_succ_eq_map, List.flatMap_cons, List.flatMap_map]

theorem addedItems_eq_flatMap (depth position : Nat) (ys : List Json) :
    addedItems path position ys =
      (List.range ys.length).flatMap fun i =>
        atStep depth (path ++ [.index (position + i)]) none ys[i]? := by
  induction ys generalizing position with
  | nil => rfl
  | cons y ys ih =>
      rw [addedItems, ih, List.length_cons, flatMap_range_succ]
      simp only [List.getElem?_cons_succ, Nat.add_assoc, Nat.add_comm 1]
      rfl

theorem addedMembers_eq_flatMap (depth : Nat) (ms ns : List (String × Json)) :
    addedMembers path ms ns =
      (newMembers ms ns).flatMap fun m => atStep depth (path ++ [.key m.1]) none (some m.2) := by
  rw [addedMembers, List.map_eq_flatMap]
  rfl

/-- The items are compared position by position up to the longer length. -/
theorem itemChanges_eq_flatMap (position : Nat) (xs ys : List Json) :
    itemChanges depth path position xs ys =
      (List.range (max xs.length ys.length)).flatMap fun i =>
        atStep depth (path ++ [.index (position + i)]) xs[i]? ys[i]? := by
  induction xs generalizing position ys with
  | nil =>
      rw [itemChanges, addedItems_eq_flatMap depth, List.length_nil, Nat.zero_max]
      rfl
  | cons x xs ih =>
      cases ys with
      | nil =>
          rw [itemChanges, ih, List.length_cons, List.length_nil, Nat.max_zero, Nat.max_zero,
            flatMap_range_succ]
          simp only [List.getElem?_cons_succ, Nat.add_assoc, Nat.add_comm 1]
          rfl
      | cons y ys =>
          rw [itemChanges, ih, List.length_cons, List.length_cons, Nat.add_max_add_right,
            flatMap_range_succ]
          simp only [List.getElem?_cons_succ, Nat.add_assoc, Nat.add_comm 1]
          rfl

/-- Two objects or two arrays. Such values are compared part by part. -/
inductive Paired : Json → Json → Prop where
  | object (ms ns : List (String × Json)) : Paired (.object ms) (.object ns)
  | array (xs ys : List Json) : Paired (.array xs) (.array ys)

theorem Paired.symm (h : Paired old new) : Paired new old := by
  cases h with
  | object ms ns => exact .object ns ms
  | array xs ys => exact .array ys xs

theorem between_of_paired (hold : old.WellFormed) (hnew : new.WellFormed)
    (hdepth : depth ≤ depthLimit) (h : Paired old new) :
    between depth path old new =
      (steps old new).flatMap fun s =>
        atStep depth (path ++ [s]) (old.child? s) (new.child? s) := by
  unfold between
  rw [if_neg (Nat.not_lt.mpr hdepth)]
  cases h with
  | object ms ns =>
      dsimp only
      rw [memberChanges_eq_flatMap, addedMembers_eq_flatMap depth, steps, List.flatMap_append,
        List.flatMap_map, List.flatMap_map]
      congr 1
      · refine List.flatMap_congr fun m hm => ?_
        rw [Json.child?, Members.get?_of_mem hold.distinct hm]
        rfl
      · refine List.flatMap_congr fun m hm => ?_
        obtain ⟨hmem, hnot⟩ := mem_newMembers.mp hm
        rw [Json.child?, Json.child?, Members.get?_eq_none_iff.mpr hnot,
          Members.get?_of_mem hnew.distinct hmem]
  | array xs ys =>
      simp only [itemChanges_eq_flatMap, steps, List.flatMap_map, Nat.zero_add]
      rfl

theorem between_of_not_paired (h : ¬ (depth ≤ depthLimit ∧ Paired old new)) :
    between depth path old new = whole path old new := by
  unfold between
  split
  · rfl
  · next hdepth =>
      have hpaired : ¬ Paired old new := fun hp => h ⟨Nat.not_lt.mp hdepth, hp⟩
      cases old with
      | object ms =>
          cases new with
          | object ns => exact absurd (.object ms ns) hpaired
          | _ => rfl
      | array xs =>
          cases new with
          | array ys => exact absurd (.array xs ys) hpaired
          | _ => rfl
      | _ => rfl

/-- A comparison takes both values as wholes, or it takes them step by step. -/
theorem between_cases (hold : old.WellFormed) (hnew : new.WellFormed) :
    between depth path old new = whole path old new ∨
      between depth path old new =
        (steps old new).flatMap fun s =>
          atStep depth (path ++ [s]) (old.child? s) (new.child? s) := by
  by_cases h : depth ≤ depthLimit ∧ Paired old new
  · exact .inr (between_of_paired hold hnew h.1 h.2)
  · exact .inl (between_of_not_paired h)

/-- A step leads into two objects by a name or into two arrays by a position. -/
theorem mem_steps (hs : s ∈ steps old new) :
    (∃ name ms ns, s = .key name ∧ old = .object ms ∧ new = .object ns ∧
      (name ∈ Members.keys ms ∨ name ∈ Members.keys ns)) ∨
    ∃ i xs ys, s = .index i ∧ old = .array xs ∧ new = .array ys ∧
      (i < xs.length ∨ i < ys.length) := by
  unfold steps at hs
  split at hs
  · next ms ns =>
      left
      rcases List.mem_append.mp hs with hs | hs
      · obtain ⟨m, hm, rfl⟩ := List.mem_map.mp hs
        exact ⟨m.1, ms, ns, rfl, rfl, rfl, .inl (Members.mem_keys_of_mem hm)⟩
      · obtain ⟨m, hm, rfl⟩ := List.mem_map.mp hs
        have hmem := (mem_newMembers.mp hm).1
        exact ⟨m.1, ms, ns, rfl, rfl, rfl, .inr (Members.mem_keys_of_mem hmem)⟩
  · next xs ys =>
      right
      obtain ⟨i, hi, rfl⟩ := List.mem_map.mp hs
      have hlt := List.mem_range.mp hi
      exact ⟨i, xs, ys, rfl, rfl, rfl, by omega⟩
  · cases hs

theorem key_mem_steps {name : String} {ms ns : List (String × Json)}
    (h : name ∈ Members.keys ms ∨ name ∈ Members.keys ns) :
    .key name ∈ steps (.object ms) (.object ns) := by
  by_cases hname : name ∈ Members.keys ms
  · obtain ⟨m, hm, rfl⟩ := List.mem_map.mp hname
    exact List.mem_append_left _ (List.mem_map.mpr ⟨m, hm, rfl⟩)
  · obtain ⟨n, hn, rfl⟩ := List.mem_map.mp (h.resolve_left hname)
    exact List.mem_append_right _ (List.mem_map.mpr ⟨n, mem_newMembers.mpr ⟨hn, hname⟩, rfl⟩)

theorem index_mem_steps {i : Nat} {xs ys : List Json} (h : i < xs.length ∨ i < ys.length) :
    .index i ∈ steps (.array xs) (.array ys) :=
  List.mem_map.mpr ⟨i, List.mem_range.mpr (by omega), rfl⟩

theorem nodup_steps (hold : old.WellFormed) (hnew : new.WellFormed) : (steps old new).Nodup := by
  unfold steps
  split
  · next ms ns =>
      have hkeys : ∀ members : List (String × Json), Members.Distinct members →
          (members.map fun m => Segment.key m.1).Nodup := by
        intro members hd
        have hmap : (members.map fun m => Segment.key m.1) =
            (Members.keys members).map Segment.key := (List.map_map).symm
        rw [hmap]
        exact hd.map fun _ _ h => Segment.key.inj h
      have hnewKeys := hkeys _ (distinct_newMembers ms hnew.distinct)
      refine List.nodup_append.mpr ⟨hkeys ms hold.distinct, hnewKeys, ?_⟩
      rintro s hs t ht rfl
      obtain ⟨m, hm, rfl⟩ := List.mem_map.mp hs
      obtain ⟨n, hn, heq⟩ := List.mem_map.mp ht
      have hnot := (mem_newMembers.mp hn).2
      rw [Segment.key.inj heq] at hnot
      exact hnot (Members.mem_keys_of_mem hm)
  · exact List.nodup_range.map fun _ _ h => Segment.index.inj h
  · exact List.nodup_nil

/-! ## Comparisons whose pointers read back -/

open Segment (reread)

/-- Two documents at a pointer such that the pointers of their changes read back. -/
structure Comparable (path : Pointer) (old new : Json) : Prop where
  traceableOld : old.Traceable
  traceableNew : new.Traceable
  path_ne : path ≠ [.key ""]
  unnamed : path = [] → old.member? "" = none ∧ new.member? "" = none

namespace Comparable

theorem parse_render (h : Comparable path old new) :
    Pointer.parse path.render = path.map reread := Pointer.parse_render h.path_ne

theorem append_ne_empty (h : Comparable path old new) (hs : s ∈ steps old new) :
    path ++ [s] ≠ [.key ""] := by
  intro heq
  obtain ⟨hpath, rfl⟩ : path = [] ∧ s = .key "" := by
    simpa [List.append_eq_singleton_iff] using heq
  obtain ⟨hold, hnew⟩ := h.unnamed hpath
  rcases mem_steps hs with ⟨name, ms, ns, hname, rfl, rfl, hmem⟩ | ⟨i, xs, ys, hi, -, -, -⟩
  · cases hname
    rcases hmem with hmem | hmem
    · exact Members.get?_eq_none_iff.mp hold hmem
    · exact Members.get?_eq_none_iff.mp hnew hmem
  · cases hi

theorem parse_render_step (h : Comparable path old new) (hs : s ∈ steps old new) :
    Pointer.parse (Pointer.render (path ++ [s])) = path.map reread ++ [reread s] := by
  rw [Pointer.parse_render (h.append_ne_empty hs), List.map_append, List.map_singleton]

theorem step (h : Comparable path old new) (hs : s ∈ steps old new)
    (hx : old.child? s = some x) (hy : new.child? s = some y) : Comparable (path ++ [s]) x y where
  traceableOld := h.traceableOld.of_child? hx
  traceableNew := h.traceableNew.of_child? hy
  path_ne := h.append_ne_empty hs
  unnamed := by simp

/-- A name that reads back as a position still leads to the member of that name. -/
theorem reread_step (h : Comparable path old new) (hs : s ∈ steps old new) :
    (∃ name ms ns, s = .key name ∧ (reread s).name? = some name ∧
      old = .object ms ∧ new = .object ns) ∨
    ∃ i xs ys, s = .index i ∧ reread s = .index i ∧ old = .array xs ∧ new = .array ys := by
  rcases mem_steps hs with ⟨name, ms, ns, rfl, rfl, rfl, hmem⟩ | ⟨i, xs, ys, rfl, rfl, rfl, hlt⟩
  · refine .inl ⟨name, ms, ns, rfl, Segment.name?_reread_key ?_, rfl, rfl⟩
    rintro rfl
    exact hmem.elim h.traceableOld.undashed.root h.traceableNew.undashed.root
  · have hxs : xs.length ≤ Segment.positionBound := h.traceableOld.addressable.root
    have hys : ys.length ≤ Segment.positionBound := h.traceableNew.addressable.root
    exact .inr ⟨i, xs, ys, rfl, Segment.reread_index (by omega), rfl, rfl⟩

theorem child?_reread (h : Comparable path old new) (hs : s ∈ steps old new) :
    old.child? (reread s) = old.child? s ∧ new.child? (reread s) = new.child? s := by
  rcases h.reread_step hs with ⟨name, ms, ns, rfl, hname, rfl, rfl⟩ | ⟨i, xs, ys, rfl, hi, -, -⟩
  · exact ⟨Json.child?_object hname ms, Json.child?_object hname ns⟩
  · rw [hi]
    exact ⟨rfl, rfl⟩

theorem reread_injective (h : Comparable path old new) (hs : s ∈ steps old new)
    (ht : t ∈ steps old new) (heq : reread s = reread t) : s = t := by
  rcases h.reread_step hs with ⟨name, ms, ns, rfl, hname, rfl, rfl⟩ | ⟨i, xs, ys, rfl, hi, rfl, rfl⟩
  · rcases h.reread_step ht with ⟨other, _, _, rfl, hother, -, -⟩ | ⟨_, _, _, -, -, hold, -⟩
    · rw [heq, hother] at hname
      rw [Option.some.inj hname]
    · cases hold
  · rcases h.reread_step ht with ⟨_, _, _, -, -, hold, -⟩ | ⟨j, _, _, rfl, hj, -, -⟩
    · cases hold
    · rw [← hi, ← hj, heq]

end Comparable

/-! ## What a change shows -/

def before? : Change → Option Json
  | removed _ value => some value
  | modified _ old _ => some old
  | _ => none

def after? : Change → Option Json
  | added _ value => some value
  | modified _ _ new => some new
  | _ => none

/-- The change has a pointer below the place `p`, by the steps `q`, and shows what either
document has there, which is not the same. -/
structure Shows (p q : Pointer) (old new : Json) (c : Change) : Prop where
  place : ∃ text, c.path? = some text ∧ Pointer.parse text = p ++ q
  before : c.before? = old.get? q
  after : c.after? = new.get? q
  differ : ∀ x y, c.before? = some x → c.after? = some y → x.equal y = false

theorem shows_of_mem_whole (h : Comparable path old new) (hc : c ∈ whole path old new) :
    Shows (path.map reread) [] old new c := by
  unfold whole at hc
  split at hc
  · cases hc
  · next hdiffer =>
      cases List.mem_singleton.mp hc
      refine ⟨⟨_, rfl, by rw [h.parse_render, List.append_nil]⟩, rfl, rfl, ?_⟩
      rintro x y hx hy
      cases hx
      cases hy
      exact Bool.not_eq_true _ ▸ hdiffer

/-- A change found at a step shows what it shows below the step. -/
theorem exists_shows_of_mem_atStep (h : Comparable path old new) (hs : s ∈ steps old new)
    (hbelow : ∀ x y, old.child? s = some x → new.child? s = some y →
      c ∈ between (depth + 1) (path ++ [s]) x y →
        ∃ q, Shows ((path ++ [s]).map reread) q x y c)
    (hc : c ∈ atStep depth (path ++ [s]) (old.child? s) (new.child? s)) :
    ∃ q, Shows (path.map reread) (reread s :: q) old new c := by
  obtain ⟨hold, hnew⟩ := h.child?_reread hs
  have hparse := h.parse_render_step hs
  cases hx : old.child? s with
  | some x =>
      cases hy : new.child? s with
      | some y =>
          rw [hx, hy] at hc
          obtain ⟨q, ⟨text, hpath, htext⟩, hbefore, hafter, hdiffer⟩ := hbelow x y hx hy hc
          refine ⟨q, ⟨text, hpath, ?_⟩, ?_, ?_, hdiffer⟩
          · rw [htext, List.map_append, List.append_assoc]
            rfl
          · rw [hbefore, Json.get?, hold, hx, Option.bind_some]
          · rw [hafter, Json.get?, hnew, hy, Option.bind_some]
      | none =>
          rw [hx, hy] at hc
          cases List.mem_singleton.mp hc
          refine ⟨[], ⟨_, rfl, hparse⟩, ?_, ?_, nofun⟩
          · rw [Json.get?, hold, hx]; rfl
          · rw [Json.get?, hnew, hy]; rfl
  | none =>
      cases hy : new.child? s with
      | some y =>
          rw [hx, hy] at hc
          cases List.mem_singleton.mp hc
          refine ⟨[], ⟨_, rfl, hparse⟩, ?_, ?_, nofun⟩
          · rw [Json.get?, hold, hx]; rfl
          · rw [Json.get?, hnew, hy]; rfl
      | none =>
          rw [hx, hy] at hc
          cases hc

theorem exists_shows_of_mem_between (h : Comparable path old new)
    (hc : c ∈ between depth path old new) : ∃ q, Shows (path.map reread) q old new c := by
  induction old using Json.inductionOnSteps generalizing new depth path with
  | step old ih =>
      rcases between_cases h.traceableOld.wellFormed h.traceableNew.wellFormed with heq | heq
      · rw [heq] at hc
        exact ⟨[], shows_of_mem_whole h hc⟩
      · rw [heq] at hc
        obtain ⟨s, hs, hc⟩ := List.mem_flatMap.mp hc
        obtain ⟨q, hshows⟩ := exists_shows_of_mem_atStep h hs
          (fun x y hx hy hmem => ih s x hx (h.step hs hx hy) hmem) hc
        exact ⟨_, hshows⟩

/-! ## Changes apart from each other -/

def Apart (c d : Change) : Prop :=
  ∀ text text', c.path? = some text → d.path? = some text' →
    ¬ Pointer.parse text <+: Pointer.parse text' ∧ ¬ Pointer.parse text' <+: Pointer.parse text

/-- Changes below different steps are apart. -/
theorem apart_of_shows {q' : Pointer} (hst : s ≠ t) (hc : Shows p (s :: q) old new c)
    (hd : Shows p (t :: q') old new d) : Apart c d := by
  obtain ⟨text, hpath, htext⟩ := hc.place
  obtain ⟨text', hpath', htext'⟩ := hd.place
  intro u v hu hv
  cases hpath.symm.trans hu
  cases hpath'.symm.trans hv
  rw [htext, htext', List.prefix_append_right_inj, List.prefix_append_right_inj,
    List.cons_prefix_cons, List.cons_prefix_cons]
  exact ⟨fun h => hst h.1, fun h => hst h.1.symm⟩

theorem pairwise_between (h : Comparable path old new) :
    (between depth path old new).Pairwise Apart := by
  induction old using Json.inductionOnSteps generalizing new depth path with
  | step old ih =>
      rcases between_cases h.traceableOld.wellFormed h.traceableNew.wellFormed with heq | heq
      · rw [heq, whole]
        split
        · exact .nil
        · exact List.pairwise_singleton _ _
      · rw [heq]
        refine List.pairwise_flatMap.mpr ⟨fun s hs => ?_, ?_⟩
        · -- below one step the induction hypothesis applies, unless one side ends there
          cases hx : old.child? s with
          | some x =>
              cases hy : new.child? s with
              | some y => exact ih s x hx (h.step hs hx hy)
              | none => exact List.pairwise_singleton _ _
          | none =>
              cases new.child? s with
              | some y => exact List.pairwise_singleton _ _
              | none => exact .nil
        · have hnodup := nodup_steps h.traceableOld.wellFormed h.traceableNew.wellFormed
          refine List.Pairwise.imp_of_mem (fun {s t} hs ht hne c hc d hd => ?_) hnodup
          have hshows : ∀ {s c}, s ∈ steps old new →
              c ∈ atStep depth (path ++ [s]) (old.child? s) (new.child? s) →
                ∃ q, Shows (path.map reread) (reread s :: q) old new c := fun hs hc =>
            exists_shows_of_mem_atStep h hs
              (fun x y hx hy => exists_shows_of_mem_between (h.step hs hx hy)) hc
          obtain ⟨q, hc⟩ := hshows hs hc
          obtain ⟨q', hd⟩ := hshows ht hd
          exact apart_of_shows (fun heq => hne (h.reread_injective hs ht heq)) hc hd

end Change

end Curator
