import Curator.Proofs.Comparison.Places

/-! # Changes as an edit script

The additions and replacements among the changes of a comparison are written to the old document
in their order, and then the removals are carried out from the last to the first. That never
fails, and it leaves the new document up to the order of members. Each part of a comparison does
this at its own place, whatever stands around it.
-/

namespace Curator

/-! ## At a place -/

/-- From a document with one value at the place, `f` gives the document with another there. -/
def Carries (p : Pointer) (f : Json → Option Json) (a b : Json) : Prop :=
  ∀ site : Site p, f (site.plug a) = some (site.plug b)

namespace Carries

variable {p : Pointer} {s : Segment} {f g : Json → Option Json} {a b c : Json}

theorem trans (hf : Carries p f a b) (hg : Carries p g b c) :
    Carries p (fun document => (f document).bind g) a c := by
  intro site
  dsimp only
  rw [hf site, Option.bind_some, hg site]

theorem member {name : String} {before after : List (String × Json)} (h : Carries (p ++ [s]) f a b)
    (hs : s.name? = some name) (hn : name ∉ Members.keys before) :
    Carries p f (.object (before ++ (name, a) :: after)) (.object (before ++ (name, b) :: after)) :=
  fun site => h (site.member hs before hn after)

theorem item {before after : List Json} (h : Carries (p ++ [.index before.length]) f a b) :
    Carries p f (.array (before ++ a :: after)) (.array (before ++ b :: after)) :=
  fun site => h (site.item before after)

end Carries

namespace Change

variable {depth : Nat} {path p q : Pointer} {name text : String}
  {a b c old new value x y : Json} {changes more : List Change}

/-! ## Applying changes -/

def write (document : Json) : Change → Option Json
  | added path value => (document.set (.parse path) value).toOption
  | modified path _ new => (document.set (.parse path) new).toOption
  | _ => some document

def erase : Change → Json → Option Json
  | removed path _, document => (document.remove? (.parse path)).map Prod.snd
  | _, document => some document

def writeAll (changes : List Change) (document : Json) : Option Json :=
  changes.foldlM write document

def eraseAll (changes : List Change) (document : Json) : Option Json :=
  changes.foldrM erase document

/-- First every write in order, then every removal from the last to the first. -/
def patch (changes : List Change) (document : Json) : Option Json :=
  (writeAll changes document).bind (eraseAll changes)

theorem writeAll_append :
    writeAll (changes ++ more) = fun document => (writeAll changes document).bind (writeAll more) :=
  funext fun _ => List.foldlM_append

theorem eraseAll_append :
    eraseAll (changes ++ more) =
      fun document => (eraseAll more document).bind (eraseAll changes) :=
  funext fun _ => List.foldrM_append

/-! ## Parts of a script -/

/-- At a place, the writes of the changes lead from one value to a second, and their removals
from there to a third. -/
structure Leads (p : Pointer) (changes : List Change) (a b c : Json) : Prop where
  writes : Carries p (writeAll changes) a b
  erases : Carries p (eraseAll changes) b c

namespace Leads

theorem nil (p : Pointer) (a : Json) : Leads p [] a a a := ⟨fun _ => rfl, fun _ => rfl⟩

/-- What an addition and a replacement have in common. -/
theorem written {c : Change}
    (hwrite : ∀ document, c.write document = (document.set (.parse text) value).toOption)
    (herase : ∀ document, c.erase document = some document)
    (hpath : Pointer.parse text = p ++ q) (h : a.set q value = .ok b) : Leads p [c] a b b := by
  constructor
  · intro site
    simp [writeAll, hwrite, hpath, site.set_plug h, Except.toOption]
  · intro site
    simp [eraseAll, herase]

theorem added (hpath : Pointer.parse text = p ++ q) (h : a.set q value = .ok b) :
    Leads p [added text value] a b b := written (fun _ => rfl) (fun _ => rfl) hpath h

theorem modified (hpath : Pointer.parse text = p ++ q) (h : a.set q value = .ok b) :
    Leads p [modified text old value] a b b := written (fun _ => rfl) (fun _ => rfl) hpath h

/-- Of two parts the first one is written first and removed last. -/
theorem append {b' c' : Json} (hwrites : Carries p (writeAll changes) a b)
    (h : Leads p more b c c') (herases : Carries p (eraseAll changes) c' b') :
    Leads p (changes ++ more) a c b' := by
  constructor
  · rw [writeAll_append]
    exact hwrites.trans h.writes
  · rw [eraseAll_append]
    exact h.erases.trans herases

/-- A removal comes after all that the later changes do. -/
theorem removed {c' : Json} (h : Leads p changes a b c) (hpath : Pointer.parse text = p ++ q)
    (hremove : c.remove? q = some (x, c')) :
    Leads p (removed text value :: changes) a b c' := by
  have herase : Carries p (eraseAll [Change.removed text value]) c c' := by
    intro site
    simp [eraseAll, erase, hpath, site.remove?_plug hremove]
  exact append (fun _ => rfl) h herase

theorem patch (h : Leads [] changes a b c) : patch changes a = some c := by
  have hwrites : writeAll changes a = some b := h.writes .root
  rw [Change.patch, hwrites, Option.bind_some]
  exact h.erases .root

end Leads

/-- What the changes lead to at a place equals the new value. -/
def Revises (p : Pointer) (changes : List Change) (old new : Json) : Prop :=
  ∃ written left, Leads p changes old written left ∧ left.equal new = true

open Segment (reread positionBound)

theorem revises_whole (h : Comparable path old new) :
    Revises (path.map reread) (whole path old new) old new := by
  unfold whole
  split
  · next hequal => exact ⟨old, old, .nil _ old, hequal⟩
  · have hpath : Pointer.parse path.render = path.map reread ++ [] := by
      rw [h.parse_render, List.append_nil]
    exact ⟨new, new, .modified hpath rfl, Json.equal_refl h.traceableNew.wellFormed⟩

/-! ## Items -/

section Items

variable {xs ys : List Json} {i : Nat}

theorem parse_render_item (path : Pointer) (hi : i < positionBound) :
    Pointer.parse (Pointer.render (path ++ [.index i])) = path.map reread ++ [.index i] := by
  have hne : path ++ [.index i] ≠ [.key ""] := by simp [List.append_eq_singleton_iff]
  rw [Pointer.parse_render hne, List.map_append, List.map_singleton, Segment.reread_index hi]

theorem leads_addedItems (path : Pointer) (before ys : List Json)
    (hbound : before.length + ys.length ≤ positionBound) :
    Leads (path.map reread) (addedItems path before.length ys) (.array before)
      (.array (before ++ ys)) (.array (before ++ ys)) := by
  induction ys generalizing before with
  | nil =>
      rw [List.append_nil]
      exact .nil _ _
  | cons y ys ih =>
      rw [List.length_cons] at hbound
      have hfirst := Leads.added (parse_render_item path (by omega)) (Json.set_past_end before y)
      have hrest := ih (before ++ [y]) (by simp; omega)
      rw [List.length_append, List.length_singleton, List.append_assoc, List.singleton_append]
        at hrest
      exact Leads.append hfirst.writes hrest (fun _ => rfl)

/-- The items are revised from the first to the last, and surplus ones are taken out from the
last to the first, so that no position shifts before its turn. -/
theorem exists_leads_itemChanges (depth : Nat) (before : List Json)
    (hwellFormed : ∀ y ∈ ys, y.WellFormed) (hxs : before.length + xs.length ≤ positionBound)
    (hys : before.length + ys.length ≤ positionBound)
    (h : ∀ i x y, xs[i]? = some x → ys[i]? = some y →
      Revises (path.map reread ++ [.index (before.length + i)])
        (between (depth + 1) (path ++ [.index (before.length + i)]) x y) x y) :
    ∃ written left, List.Forall₂ (fun x y => x.equal y = true) left ys ∧
      Leads (path.map reread) (itemChanges depth path before.length xs ys) (.array (before ++ xs))
        (.array (before ++ written)) (.array (before ++ left)) := by
  induction xs generalizing before ys with
  | nil =>
      rw [List.append_nil]
      refine ⟨ys, ys, List.forall₂_same.mpr fun y hy => ?_, leads_addedItems path before ys hys⟩
      exact Json.equal_refl (hwellFormed y hy)
  | cons x xs ih =>
      rw [List.length_cons] at hxs
      cases ys with
      | nil =>
          obtain ⟨written, left, hequal, hrest⟩ := ih (before ++ [x]) hwellFormed
            (by simp; omega) (by simp; omega) (fun i x y _ hy => by cases hy)
          cases hequal
          have hlast := Json.remove?_item before [] x
          simp only [List.length_append, List.length_singleton, List.append_assoc,
            List.singleton_append] at hrest
          exact ⟨x :: written, [], .nil, hrest.removed (parse_render_item path (by omega)) hlast⟩
      | cons y ys =>
          rw [List.length_cons] at hys
          obtain ⟨x', x'', hfirst, hequal⟩ := h 0 x y rfl rfl
          have hshift : ∀ i, (before ++ [x']).length + i = before.length + (i + 1) := by
            intro i
            rw [List.length_append, List.length_singleton]
            omega
          obtain ⟨written, left, hall, hrest⟩ := ih (before ++ [x'])
            (fun y hy => hwellFormed y (List.mem_cons_of_mem _ hy)) (by simp; omega)
            (by simp; omega) (fun i x y hx hy => by
              rw [hshift]
              exact h (i + 1) x y hx hy)
          simp only [List.length_append, List.length_singleton, List.append_assoc,
            List.singleton_append] at hrest
          refine ⟨x' :: written, x'' :: left, hall.cons hequal, ?_⟩
          exact Leads.append hfirst.writes.item hrest hfirst.erases.item

theorem revises_itemChanges (h : Comparable path (.array xs) (.array ys))
    (hbelow : ∀ s ∈ steps (.array xs) (.array ys), ∀ x y, Json.child? (.array xs) s = some x →
      Json.child? (.array ys) s = some y →
        Revises ((path ++ [s]).map reread) (between (depth + 1) (path ++ [s]) x y) x y) :
    Revises (path.map reread) (itemChanges depth path 0 xs ys) (.array xs) (.array ys) := by
  have hxs : xs.length ≤ positionBound := h.traceableOld.addressable.root
  have hys : ys.length ≤ positionBound := h.traceableNew.addressable.root
  have hitems : ∀ i x y, xs[i]? = some x → ys[i]? = some y →
      Revises (path.map reread ++ [.index (0 + i)])
        (between (depth + 1) (path ++ [.index (0 + i)]) x y) x y := by
    intro i x y hx hy
    obtain ⟨hi, -⟩ := List.getElem?_eq_some_iff.mp hx
    have hitem := hbelow (.index i) (index_mem_steps (.inl hi)) x y hx hy
    rw [List.map_append, List.map_singleton,
      Segment.reread_index (Nat.lt_of_lt_of_le hi hxs)] at hitem
    rw [Nat.zero_add]
    exact hitem
  obtain ⟨written, left, hall, hleads⟩ := exists_leads_itemChanges depth []
    (Json.wellFormed_array_iff.mp h.traceableNew.wellFormed) (by simpa using hxs)
    (by simpa using hys) hitems
  exact ⟨_, _, hleads, Json.equalBy_array_iff.mpr hall⟩

end Items

/-! ## Members -/

section Members

variable {ms ns : List (String × Json)}

/-- The pointer to a member of the name reads back as a pointer to it. -/
structure Named (path : Pointer) (name : String) : Prop where
  step : (reread (.key name)).name? = some name
  place : Pointer.parse (Pointer.render (path ++ [.key name])) =
    path.map reread ++ [reread (.key name)]

theorem Comparable.named (h : Comparable path old new) (hs : .key name ∈ steps old new) :
    Named path name := by
  refine ⟨?_, h.parse_render_step hs⟩
  rcases h.reread_step hs with ⟨_, _, _, heq, hname, -, -⟩ | ⟨_, _, _, heq, -, -, -⟩
  · cases heq
    exact hname
  · cases heq

/-- New members are appended. -/
theorem leads_addedMembers (path : Pointer) (before news : List (String × Json))
    (hd : Members.Distinct (before ++ news)) (hnamed : ∀ m ∈ news, Named path m.1) :
    Leads (path.map reread)
      (news.map fun m => added (Pointer.render (path ++ [.key m.1])) m.2)
      (.object before) (.object (before ++ news)) (.object (before ++ news)) := by
  induction news generalizing before with
  | nil =>
      rw [List.append_nil]
      exact .nil _ _
  | cons m rest ih =>
      obtain ⟨name, value⟩ := m
      obtain ⟨hfirst, hnamed⟩ := List.forall_mem_cons.mp hnamed
      have hset := Json.set_object hfirst.step before value
      rw [Members.insert_of_not_mem hd.not_mem.1] at hset
      rw [List.append_cons] at hd
      have hrest := ih (before ++ [(name, value)]) hd hnamed
      rw [List.append_assoc, List.singleton_append] at hrest
      exact Leads.append (Leads.added hfirst.place hset).writes hrest (fun _ => rfl)

theorem distinct_append_newMembers {left : List (String × Json)} (hleft : Members.Distinct left)
    (hsubset : Members.keys left ⊆ Members.keys ms) (hns : Members.Distinct ns) :
    Members.Distinct (left ++ newMembers ms ns) := by
  rw [Members.Distinct, Members.keys_append]
  refine List.Nodup.append hleft (distinct_newMembers ms hns) fun name hname hnew => ?_
  obtain ⟨m, hm, rfl⟩ := List.mem_map.mp hnew
  exact (mem_newMembers.mp hm).2 (hsubset hname)

/-- Of the first members those that the second ones name are left, as equals of them. -/
structure Remains (ms ns left : List (String × Json)) : Prop where
  sublist : (Members.keys left).Sublist (Members.keys ms)
  rel : ∀ name ∈ Members.keys ms, Option.Rel (fun x y => x.equal y = true)
    (Members.get? name left) (Members.get? name ns)

namespace Remains

variable {left : List (String × Json)} {x' : Json}

theorem keep (h : Remains ms ns left) (hget : Members.get? name ns = some y)
    (hequal : x'.equal y = true) : Remains ((name, x) :: ms) ns ((name, x') :: left) := by
  refine ⟨h.sublist.cons_cons name, fun other hother => ?_⟩
  by_cases hsame : other = name
  · subst hsame
    rw [hget, Members.get?, if_pos rfl]
    exact .some hequal
  · rw [Members.get?, if_neg (Ne.symm hsame)]
    exact h.rel other (List.mem_of_ne_of_mem hsame hother)

theorem drop (h : Remains ms ns left) (hget : Members.get? name ns = none)
    (hnot : name ∉ Members.keys ms) : Remains ((name, x) :: ms) ns left := by
  refine ⟨h.sublist.cons name, fun other hother => ?_⟩
  by_cases hsame : other = name
  · subst hsame
    have hnone : Members.get? other left = none :=
      Members.get?_eq_none_iff.mpr fun hmem => hnot (h.sublist.subset hmem)
    rw [hget, hnone]
    exact .none
  · exact h.rel other (List.mem_of_ne_of_mem hsame hother)

/-- With the new members added they make an object that equals the second. -/
theorem equal (h : Remains ms ns left) (hms : Members.Distinct ms)
    (hns : Json.WellFormed (.object ns)) :
    Json.equal (.object (left ++ newMembers ms ns)) (.object ns) = true := by
  have hget : ∀ name, Members.get? name (newMembers ms ns) =
      if Members.contains name ms then none else Members.get? name ns := by
    intro name
    rw [newMembers, Members.get?_filter fun name => !Members.contains name ms]
    cases Members.contains name ms <;> rfl
  have hdistinct :=
    distinct_append_newMembers (h.sublist.nodup hms) h.sublist.subset hns.distinct
  refine Json.equal_object_of_rel hdistinct hns.distinct fun name => ?_
  rw [Members.get?_append, hget]
  by_cases hname : name ∈ Members.keys ms
  · have hcontains : Members.contains name ms = true := Members.isSome_get?_iff.mpr hname
    rw [if_pos hcontains, Option.or_none]
    exact h.rel name hname
  · have hnone : Members.get? name left = none :=
      Members.get?_eq_none_iff.mpr fun hmem => hname (h.sublist.subset hmem)
    rw [Members.contains, Members.get?_eq_none_iff.mpr hname, hnone]
    cases hy : Members.get? name ns with
    | some y => exact .some (Json.equal_refl (hns.of_get? hy))
    | none => exact .none

end Remains

/-- The members that stay are revised in order, and the others are taken out. -/
theorem exists_leads_memberChanges (depth : Nat) (before : List (String × Json))
    (hd : Members.Distinct (before ++ ms)) (hnamed : ∀ m ∈ ms, Named path m.1)
    (h : ∀ m ∈ ms, ∀ y, Members.get? m.1 ns = some y →
      Revises (path.map reread ++ [reread (.key m.1)])
        (between (depth + 1) (path ++ [.key m.1]) m.2 y) m.2 y) :
    ∃ written left, Members.keys written = Members.keys ms ∧ Remains ms ns left ∧
      ∀ after, Leads (path.map reread) (memberChanges depth path ms ns)
        (.object (before ++ (ms ++ after))) (.object (before ++ (written ++ after)))
        (.object (before ++ (left ++ after))) := by
  induction ms generalizing before with
  | nil => exact ⟨[], [], rfl, ⟨.slnil, fun _ => nofun⟩, fun after => .nil _ _⟩
  | cons m rest ih =>
      obtain ⟨name, x⟩ := m
      obtain ⟨hfirst, hnamed⟩ := List.forall_mem_cons.mp hnamed
      obtain ⟨hx, h⟩ := List.forall_mem_cons.mp h
      obtain ⟨hn, hnot⟩ := hd.not_mem
      have hexchange : ∀ x', Members.Distinct (before ++ [(name, x')] ++ rest) := by
        intro x'
        rw [← List.append_cons]
        exact hd.exchange x'
      cases hget : Members.get? name ns with
      | some y =>
          obtain ⟨x', x'', hchange, hequal⟩ := hx y hget
          obtain ⟨written, left, hkeys, hremains, hrest⟩ :=
            ih (before ++ [(name, x')]) (hexchange x') hnamed h
          refine ⟨(name, x') :: written, (name, x'') :: left, ?_, hremains.keep hget hequal,
            fun after => ?_⟩
          · rw [Members.keys_cons, Members.keys_cons, hkeys]
          · have hrest := hrest after
            rw [memberChanges, hget]
            simp only [List.append_assoc, List.singleton_append] at hrest
            exact Leads.append (hchange.writes.member hfirst.step hn) hrest
              (hchange.erases.member hfirst.step hn)
      | none =>
          obtain ⟨written, left, hkeys, hremains, hrest⟩ :=
            ih (before ++ [(name, x)]) (hexchange x) hnamed h
          refine ⟨(name, x) :: written, left, ?_, hremains.drop hget hnot, fun after => ?_⟩
          · rw [Members.keys_cons, Members.keys_cons, hkeys]
          · have hrest := hrest after
            rw [memberChanges, hget]
            simp only [List.append_assoc, List.singleton_append] at hrest
            exact hrest.removed hfirst.place (Json.remove?_member hfirst.step hn)

theorem revises_memberChanges (h : Comparable path (.object ms) (.object ns))
    (hbelow : ∀ s ∈ steps (.object ms) (.object ns), ∀ x y, Json.child? (.object ms) s = some x →
      Json.child? (.object ns) s = some y →
        Revises ((path ++ [s]).map reread) (between (depth + 1) (path ++ [s]) x y) x y) :
    Revises (path.map reread) (memberChanges depth path ms ns ++ addedMembers path ms ns)
      (.object ms) (.object ns) := by
  have hms := h.traceableOld.wellFormed.distinct
  have hns := h.traceableNew.wellFormed.distinct
  have holds : ∀ m ∈ ms, .key m.1 ∈ steps (.object ms) (.object ns) :=
    fun m hm => key_mem_steps (.inl (Members.mem_keys_of_mem hm))
  have hnews : ∀ m ∈ newMembers ms ns, .key m.1 ∈ steps (.object ms) (.object ns) :=
    fun m hm => key_mem_steps (.inr (Members.mem_keys_of_mem (mem_newMembers.mp hm).1))
  have hmembers : ∀ m ∈ ms, ∀ y, Members.get? m.1 ns = some y →
      Revises (path.map reread ++ [reread (.key m.1)])
        (between (depth + 1) (path ++ [.key m.1]) m.2 y) m.2 y := by
    intro m hm y hy
    have hmember := hbelow (.key m.1) (holds m hm) m.2 y (Members.get?_of_mem hms hm) hy
    rw [List.map_append, List.map_singleton] at hmember
    exact hmember
  obtain ⟨written, left, hkeys, hremains, hleads⟩ :=
    exists_leads_memberChanges depth [] hms (fun m hm => h.named (holds m hm)) hmembers
  have hdistinct : Members.Distinct written := by
    rw [Members.Distinct, hkeys]
    exact hms
  have hadded := leads_addedMembers path written (newMembers ms ns)
    (distinct_append_newMembers hdistinct (hkeys ▸ List.Subset.refl _) hns)
    (fun m hm => h.named (hnews m hm))
  have hwrites := (hleads []).writes
  rw [List.append_nil, List.append_nil] at hwrites
  exact ⟨_, _, Leads.append hwrites hadded (hleads (newMembers ms ns)).erases,
    hremains.equal hms h.traceableNew.wellFormed⟩

end Members

/-! ## Whole scripts -/

/-- The changes between two documents are an edit script from one to the other, at any place. -/
theorem revises_between (h : Comparable path old new) :
    Revises (path.map reread) (between depth path old new) old new := by
  induction old using Json.inductionOnSteps generalizing new depth path with
  | step old ih =>
      unfold between
      split
      · exact revises_whole h
      · split
        · split
          · exact revises_memberChanges h fun s hs x y hx hy => ih s x hx (h.step hs hx hy)
          · exact revises_whole h
        · split
          · exact revises_itemChanges h fun s hs x y hx hy => ih s x hx (h.step hs hx hy)
          · exact revises_whole h
        all_goals exact revises_whole h

end Change

namespace Comparison

/-- The changes of a comparison are an edit script from the old document to the new one. Their
pointers do not lead through each other, each of them shows what both documents have at its
pointer, and no replacement is by an equal value. -/
theorem patch_ofDocuments {old new : Json} (hold : old.Traceable) (hnew : new.Traceable)
    (hunnamed : old.member? "" = none) (hunnamed' : new.member? "" = none) :
    let changes := (ofDocuments old new).changes
    (∃ result, Change.patch changes old = some result ∧ result.equal new = true) ∧
      changes.Pairwise Change.Apart ∧
      (∀ c ∈ changes, ∃ text, c.path? = some text ∧
        c.before? = old.get? (.parse text) ∧ c.after? = new.get? (.parse text)) ∧
      ∀ path x y, Change.modified path x y ∈ changes → x.equal y = false := by
  have h : Change.Comparable [] old new := ⟨hold, hnew, nofun, fun _ => ⟨hunnamed, hunnamed'⟩⟩
  refine ⟨?_, Change.pairwise_between h, fun c hc => ?_, fun path x y hc => ?_⟩
  · have hrevises : Change.Revises [] (ofDocuments old new).changes old new :=
      Change.revises_between h
    obtain ⟨written, left, hleads, hequal⟩ := hrevises
    exact ⟨left, hleads.patch, hequal⟩
  · obtain ⟨q, ⟨text, hpath, hparse⟩, hbefore, hafter, -⟩ :=
      Change.exists_shows_of_mem_between h hc
    cases hparse
    exact ⟨text, hpath, hbefore, hafter⟩
  · obtain ⟨q, hshows⟩ := Change.exists_shows_of_mem_between h hc
    exact hshows.differ x y rfl rfl

/-- Items are taken out from behind, and members with digits, slashes or tildes in their names
come and go. -/
theorem patch_ofDocuments_of_mixed :
    let count (n : Nat) := Json.number (.ofCount n)
    let old := Json.object [("0", .array [count 1, count 2, count 3]),
      ("a/b", .object [("~", .null), ("7", count 4)]), ("list", .array [.null])]
    let new := Json.object [("list", .array [.object [("7", .bool true)], .null]),
      ("0", .array [count 1]), ("a/b", .object [("7", count 5)]), ("1", .null)]
    let changes := (Comparison.ofDocuments old new).changes
    changes.map Change.path? = ["/0/1", "/0/2", "/a~1b/~0", "/a~1b/7", "/list/0", "/list/1",
      "/1"].map some ∧
      (∃ result, Change.patch changes old = some result ∧ result.equal new = true) ∧
      ∃ c ∈ changes, c.path? = some "/a~1b/7" ∧ c.before? = some (count 4) ∧
        c.after? = some (count 5) := by
  intro count old new changes
  have hold : old.Traceable :=
    ⟨by simp [old, count],
      by simp [old, count, Json.Addressable, Json.Numbered, Segment.positionBound, UInt64.size],
      by simp [old, count, Json.Undashed]⟩
  have hnew : new.Traceable :=
    ⟨by simp [new, count],
      by simp [new, count, Json.Addressable, Json.Numbered, Segment.positionBound, UInt64.size],
      by simp [new, count, Json.Undashed]⟩
  have hpaths : changes.map Change.path? = ["/0/1", "/0/2", "/a~1b/~0", "/a~1b/7", "/list/0",
      "/list/1", "/1"].map some := by
    simp only [changes, old, new, count]
    decide +kernel
  obtain ⟨hpatch, -, hshows, -⟩ := patch_ofDocuments hold hnew rfl rfl
  have hmem : some "/a~1b/7" ∈ changes.map Change.path? := by
    rw [hpaths]
    decide
  obtain ⟨c, hc, hpath⟩ := List.mem_map.mp hmem
  obtain ⟨text, htext, hbefore, hafter⟩ := hshows c hc
  cases hpath.symm.trans htext
  exact ⟨hpaths, hpatch, c, hc, hpath, hbefore, hafter⟩

end Comparison

end Curator
