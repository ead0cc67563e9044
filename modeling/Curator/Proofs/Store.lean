import Curator.Store

/-! # A store over its history

Whatever a store is told, its selection stays the position of an entry or there is none, entries go
by replacing all of them only, and a submission changes the selected entry and no other. The log
grows at its end by each command, so replaying it on the first collection gives the present one.
-/

namespace Curator

namespace Collection

variable {c : Collection} {entries : List Entry} {i : Nat}

def InRange (c : Collection) : Prop := ∀ i, c.active = some i → i < c.entries.length

theorem inRange_ofEntries (entries : List Entry) : (ofEntries entries).InRange := fun _ => nofun

theorem inRange_of_withActive (h : withActive entries i = .ok c) : c.InRange := by
  unfold withActive checkIndex at h
  split at h
  · next hlt =>
      cases h
      intro j hj
      cases hj
      exact hlt
  · cases h

/-- An entry is active exactly when a position is. -/
theorem InRange.isSome_activeEntry? (h : c.InRange) :
    c.activeEntry?.isSome = c.active.isSome := by
  unfold activeEntry?
  cases hactive : c.active with
  | none => rfl
  | some i =>
      have hlt := h i hactive
      simp [get?, hlt]

/-- A selection that is dropped unless it is the position of an entry. -/
theorem inRange_filter (entries : List Entry) (active : Option Nat) :
    InRange ⟨entries, active.filter (· < entries.length)⟩ := by
  intro i hi
  obtain ⟨-, hlt⟩ := Option.filter_eq_some_iff.mp hi
  exact of_decide_eq_true hlt

/-- More entries leave the selection in range. -/
theorem InRange.mono (h : c.InRange) (hle : c.entries.length ≤ entries.length) :
    InRange { c with entries } :=
  fun i hi => Nat.lt_of_lt_of_le (h i hi) hle

/-! ## Submissions -/

theorem InRange.persist_of_some (h : c.InRange) (hactive : c.active = some i) (e : Entry) :
    c.persist e = { c with entries := c.entries.set i e.persisted } := by
  have hlt := h i hactive
  unfold persist
  rw [hactive]
  exact if_pos hlt

theorem persist_of_none (hactive : c.active = none) (e : Entry) :
    c.persist e = { c with entries := c.entries ++ [e.persisted] } := by
  unfold persist
  rw [hactive]

theorem InRange.persist (h : c.InRange) (e : Entry) : (c.persist e).InRange := by
  cases hactive : c.active with
  | none =>
      rw [persist_of_none hactive]
      exact h.mono (by simp)
  | some i =>
      rw [h.persist_of_some hactive]
      exact h.mono (by simp)

theorem length_le_persist (c : Collection) (e : Entry) :
    c.entries.length ≤ (c.persist e).entries.length := by
  unfold Collection.persist
  split
  · split <;> simp
  · simp

/-! ## Commands -/

theorem InRange.apply (h : c.InRange) (command : Command) : (c.apply command).InRange := by
  cases command with
  | replaceAll entries => exact inRange_filter entries c.active
  | addEntry e => exact h.mono (by simp)
  | submitNew e => exact h.persist e
  | submitEdit e => exact h.persist e
  | selectActive index => exact inRange_filter c.entries index

/-- Entries go by replacing all of them only. -/
theorem exists_of_length_apply_lt {command : Command}
    (h : (c.apply command).entries.length < c.entries.length) :
    ∃ entries, command = .replaceAll entries := by
  cases command with
  | replaceAll entries => exact ⟨entries, rfl⟩
  | addEntry e => exact absurd h (Nat.not_lt.mpr (by simp [Collection.apply]))
  | submitNew e => exact absurd h (Nat.not_lt.mpr (c.length_le_persist e))
  | submitEdit e => exact absurd h (Nat.not_lt.mpr (c.length_le_persist e))
  | selectActive index => exact absurd h (Nat.lt_irrefl _)

def replay (c : Collection) (commands : List Command) : Collection := commands.foldl apply c

theorem InRange.replay (h : c.InRange) (commands : List Command) : (c.replay commands).InRange := by
  induction commands generalizing c with
  | nil => exact h
  | cons command rest ih => exact ih (h.apply command)

end Collection

namespace Store

variable {c : Collection}

def receive (s : Store) (commands : List Command) : Store := commands.foldl dispatch s

/-- What a store received is logged, and the collection is what comes of it. -/
theorem receive_eq (s : Store) (commands : List Command) :
    s.receive commands = ⟨s.collection.replay commands, s.log ++ commands⟩ := by
  induction commands generalizing s with
  | nil => simp [receive, Collection.replay]
  | cons command rest ih =>
      change (s.dispatch command).receive rest = _
      rw [ih]
      simp [dispatch, Collection.replay]

/-- What a submission leaves, for either kind of it. -/
theorem collection_submission (s : Store) {command : Command} {e : Entry}
    (h : command = .submitNew e ∨ command = .submitEdit e) :
    (s.dispatch command).collection = s.collection.persist e := by
  rcases h with rfl | rfl <;> rfl

/-- Collections come with a selection in range or with none. On such a collection, after any
commands, the selection is still in range, so an entry is active if a position is; the log holds
the commands, and replaying it gives the collection. The next command takes entries away only if it
replaces all of them, and it is logged at the end. A submission keeps the selection and leaves its
entry, as stored and saved, in the selected place, all others being as before, or at the end where
nothing is selected. -/
theorem history_replays :
    (∀ entries, (Collection.ofEntries entries).InRange) ∧
    (∀ entries i c, Collection.withActive entries i = .ok c → c.InRange) ∧
    ∀ (c : Collection), c.InRange → ∀ commands : List Command,
      let store := (ofCollection c).receive commands
      let now := store.collection
      now.InRange ∧ now.activeEntry?.isSome = now.active.isSome ∧
      store.log = commands ∧ c.replay store.log = now ∧
      ∀ command, let next := (store.dispatch command).collection
        (next.entries.length < now.entries.length → ∃ entries, command = .replaceAll entries) ∧
        (store.dispatch command).log = store.log ++ [command] ∧
        ∀ e, command = .submitNew e ∨ command = .submitEdit e →
          next.active = now.active ∧
          (∀ i, now.active = some i →
            next.entries[i]? = some { e with isNew := false, saved := true } ∧
            next.entries.length = now.entries.length ∧
            ∀ j ≠ i, next.entries[j]? = now.entries[j]?) ∧
          (now.active = none →
            next.entries = now.entries ++ [{ e with isNew := false, saved := true }]) := by
  refine ⟨Collection.inRange_ofEntries, fun _ _ _ => Collection.inRange_of_withActive, ?_⟩
  intro c hc commands store now
  have hstore : store = ⟨c.replay commands, commands⟩ := receive_eq (ofCollection c) commands
  have hnow : now = c.replay commands := congrArg collection hstore
  have hlog : store.log = commands := congrArg log hstore
  have hrange : now.InRange := hnow ▸ hc.replay commands
  refine ⟨hrange, hrange.isSome_activeEntry?, hlog, by rw [hlog, hnow], fun command => ?_⟩
  refine ⟨Collection.exists_of_length_apply_lt, rfl, fun e he => ?_⟩
  rw [store.collection_submission he]
  cases hactive : now.active with
  | none =>
      rw [Collection.persist_of_none hactive]
      exact ⟨hactive, nofun, fun _ => rfl⟩
  | some i =>
      have hlt := hrange i hactive
      rw [hrange.persist_of_some hactive]
      refine ⟨hactive, fun j hj => ?_, nofun⟩
      cases hj
      exact ⟨List.getElem?_set_self hlt, List.length_set, fun j hj => List.getElem?_set_ne hj.symm⟩

/-- The selection goes with the entry that it was of, and the next submission comes last; once that
entry is selected, another submission takes its place. -/
theorem history_replays_of_dropped :
    let c : Collection :=
      ⟨[.stored "a" 1 "ann" .emptyObject, .stored "b" 2 "bob" .emptyObject], some 1⟩
    let e : Entry := { Entry.draft "ann" with name := "c" }
    let shrink : List Command := [.replaceAll [.draft "ann"]]
    let reselect : List Command := [.replaceAll [.draft "ann"], .submitNew e, .selectActive (some 1)]
    let shrunk := (ofCollection c).receive shrink
    let reselected := (ofCollection c).receive reselect
    c.InRange ∧ shrunk.collection.active = none ∧
      (shrunk.dispatch (.submitNew e)).collection.entries = [.draft "ann", e.persisted] ∧
      reselected.collection.active = some 1 ∧
      (reselected.dispatch (.submitEdit e)).collection.entries[1]? = some e.persisted := by
  intro c e shrink reselect shrunk reselected
  have hc : c.InRange := by
    intro i hi
    cases hi
    decide
  have hshrunk : shrunk.collection.active = none := rfl
  have hreselected : reselected.collection.active = some 1 := rfl
  obtain ⟨-, -, hhistory⟩ := history_replays
  have hfirst := ((hhistory c hc shrink).2.2.2.2 (.submitNew e)).2.2 e (.inl rfl)
  have hsecond := ((hhistory c hc reselect).2.2.2.2 (.submitEdit e)).2.2 e (.inr rfl)
  exact ⟨hc, hshrunk, hfirst.2.2 hshrunk, hreselected, (hsecond.2.1 1 hreselected).1⟩

end Store

end Curator
