import Curator.Workbench

/-! # What the operations of a workbench do

Whatever flushes goes through one function, so each operation is described by what that
function leaves: where an entry is selected, the workbench with the merged entry in its
place, and else the workbench as it was.
-/

namespace Curator.Workbench

variable {σ : Type} {w : Workbench σ} {i : Nat} {stored : Entry}

def merged (w : Workbench σ) (stored : Entry) : Entry :=
  (w.session.merge w.working w.pendingName stored w.state).1

def flushed (w : Workbench σ) (i : Nat) (stored : Entry) : Workbench σ :=
  { w with
    store := w.store.dispatch (.replaceAll (w.collection.replacing i (w.merged stored)))
    phase := .idle
    state := (w.session.merge w.working w.pendingName stored w.state).2 }

structure Selected (w : Workbench σ) (i : Nat) (stored : Entry) : Prop where
  active : w.collection.active = some i
  entry : w.collection.entries[i]? = some stored

theorem Selected.activeEntry?_eq (h : w.Selected i stored) :
    w.collection.activeEntry? = some stored := by
  rw [Collection.activeEntry?, h.active]
  exact h.entry

theorem selected_of_activeEntry? (h : w.collection.activeEntry? = some stored) :
    ∃ i, w.Selected i stored := by
  obtain ⟨i, hactive, hentry⟩ := Option.bind_eq_some_iff.mp h
  exact ⟨i, hactive, hentry⟩

theorem Selected.lt_length (h : w.Selected i stored) : i < w.collection.entries.length :=
  (List.getElem?_eq_some_iff.mp h.entry).choose

theorem Selected.unique {j : Nat} {other : Entry} (h : w.Selected i stored)
    (h' : w.Selected j other) : i = j ∧ stored = other := by
  cases h.active.symm.trans h'.active
  exact ⟨rfl, Option.some.inj (h.entry.symm.trans h'.entry)⟩

/-! ## Flushing -/

theorem Selected.flush_eq (h : w.Selected i stored) :
    w.flush = (.ok (w.merged stored), w.flushed i stored) := by
  rw [flush, h.active, h.activeEntry?_eq]
  rfl

theorem flush_of_none (h : w.collection.activeEntry? = none) :
    w.flush = (.error .noActiveEntry, w) := by
  rw [flush, h]
  cases w.collection.active <;> rfl

/-- A flush leaves the workbench alone, or it puts the merged entry into its place. -/
theorem flush_cases (w : Workbench σ) :
    w.flush.2 = w ∨ ∃ i stored, w.Selected i stored ∧ w.flush.2 = w.flushed i stored := by
  cases hactive : w.collection.activeEntry? with
  | none => exact .inl (by rw [flush_of_none hactive])
  | some stored =>
      obtain ⟨i, hs⟩ := selected_of_activeEntry? hactive
      exact .inr ⟨i, stored, hs, by rw [hs.flush_eq]⟩

/-- A flush that gives an entry has put it into its place. -/
theorem exists_of_flush {e : Entry} {w' : Workbench σ} (h : w.flush = (.ok e, w')) :
    ∃ i stored, w.Selected i stored ∧ e = w.merged stored ∧ w' = w.flushed i stored := by
  cases hactive : w.collection.activeEntry? with
  | none =>
      rw [flush_of_none hactive] at h
      cases h
  | some stored =>
      obtain ⟨i, hs⟩ := selected_of_activeEntry? hactive
      rw [hs.flush_eq] at h
      cases h
      exact ⟨i, stored, hs, rfl, rfl⟩

@[simp] theorem flushed_session : (w.flushed i stored).session = w.session := rfl

/-- The selection stays, since no entry goes. -/
theorem Selected.collection_flushed (h : w.Selected i stored) :
    (w.flushed i stored).collection =
      ⟨w.collection.entries.set i (w.merged stored), some i⟩ := by
  have hlt := h.lt_length
  change Collection.setEntries w.collection _ = _
  simp [Collection.setEntries, Collection.replacing, h.active, hlt]

theorem Selected.selected_flushed (h : w.Selected i stored) :
    (w.flushed i stored).Selected i (w.merged stored) := by
  have hlt := h.lt_length
  constructor
  · rw [h.collection_flushed]
  · rw [h.collection_flushed]
    exact List.getElem?_set_self hlt

theorem length_flush (w : Workbench σ) :
    w.flush.2.collection.entries.length = w.collection.entries.length := by
  rcases w.flush_cases with heq | ⟨i, stored, hs, heq⟩
  · rw [heq]
  · rw [heq, hs.collection_flushed, List.length_set]

theorem session_flush (w : Workbench σ) : w.flush.2.session = w.session := by
  rcases w.flush_cases with heq | ⟨i, stored, -, heq⟩
  · rw [heq]
  · rw [heq, flushed_session]

@[simp] theorem collection_loadActive (w : Workbench σ) :
    w.loadActive.collection = w.collection := by
  unfold loadActive
  split <;> rfl

@[simp] theorem session_loadActive (w : Workbench σ) : w.loadActive.session = w.session := by
  unfold loadActive
  split <;> rfl

/-! ## The operations that flush -/

theorem selectionWillChange_eq (w : Workbench σ) :
    w.selectionWillChange = (.ok (w.collection.activeEntry?.map w.merged), w.flush.2) := by
  unfold selectionWillChange
  cases h : w.collection.activeEntry? with
  | none => rw [flush_of_none h]; rfl
  | some stored =>
      obtain ⟨i, hselected⟩ := selected_of_activeEntry? h
      simp only [hselected.flush_eq]
      rfl

theorem teardown_snd (w : Workbench σ) (activeType : String) :
    (w.teardown activeType).2 = if activeType = w.session.editorType then w.flush.2 else w := by
  unfold teardown
  rw [selectionWillChange_eq]
  split <;> rfl

/-- Another entry is loaded after a flush, unless it does not exist. -/
theorem select_snd (w : Workbench σ) (index : Option Nat) :
    (w.select index).2 = w ∨
      (w.select index).2 = (w.flush.2.dispatch (.selectActive index)).loadActive := by
  unfold select
  rw [selectionWillChange_eq]
  dsimp only
  split
  · exact .inl rfl
  · exact .inr rfl

theorem clone_snd (w : Workbench σ) :
    w.clone.2 = w ∨
      ∃ source, w.collection.activeEntry? = some source ∧
        w.clone.2 = w.dispatch (.addEntry (w.session.copy source)) := by
  unfold clone
  cases h : w.collection.activeEntry? with
  | none => exact .inl rfl
  | some source => exact .inr ⟨source, rfl, rfl⟩

/-! ## Submissions -/

def submitted (w : Workbench σ) (i : Nat) (stored : Entry) : Workbench σ :=
  (w.flushed i stored).dispatch
    (if (w.merged stored).isNew then .submitNew (w.merged stored)
      else .submitEdit (w.merged stored))

theorem Selected.collection_submitted (h : w.Selected i stored) :
    (w.submitted i stored).collection =
      ⟨w.collection.entries.set i (w.merged stored).persisted, some i⟩ := by
  have hlt := h.lt_length
  have hpersist : (w.submitted i stored).collection =
      (w.flushed i stored).collection.persist (w.merged stored) := by
    unfold submitted
    split <;> rfl
  rw [hpersist, h.collection_flushed]
  simp [Collection.persist, hlt]

theorem submit_of_none {τ : Type} (h : w.collection.activeEntry? = none)
    (confirm : Entry → τ → Bool × τ) (asker : τ) :
    (w.submit confirm asker).1 = (.error .noActiveEntry, w) := by
  rw [submit, flush_of_none h]

def verdict (w : Workbench σ) (i : Nat) (stored : Entry) : Verdict :=
  checkSubmission (w.merged stored) (w.flushed i stored).collection (some i)

def outcomeOf (v : Verdict) (e : Entry) (answer : Bool) : SubmitOutcome :=
  if v.isBlocked then .blocked v else if answer then .submitted e v else .cancelled e v

@[simp] theorem verdict_outcomeOf (v : Verdict) (e : Entry) (answer : Bool) :
    (outcomeOf v e answer).verdict = v := by
  unfold outcomeOf
  repeat' split
  all_goals rfl

@[simp] theorem isSubmitted_outcomeOf (v : Verdict) (e : Entry) (answer : Bool) :
    (outcomeOf v e answer).isSubmitted = (!v.isBlocked && answer) := by
  unfold outcomeOf
  cases v.isBlocked <;> cases answer <;> rfl

theorem outcomeOf_eq_blocked_iff {v : Verdict} {e : Entry} {answer : Bool} :
    (∃ verdict, outcomeOf v e answer = .blocked verdict) ↔ v.isBlocked = true := by
  unfold outcomeOf
  cases v.isBlocked <;> cases answer <;> simp

theorem outcomeOf_eq_submitted {v : Verdict} {e : Entry} {answer : Bool}
    (h : (outcomeOf v e answer).isSubmitted = true) : outcomeOf v e answer = .submitted e v := by
  rw [isSubmitted_outcomeOf, Bool.and_eq_true, Bool.not_eq_true'] at h
  obtain ⟨hblocked, hanswer⟩ := h
  simp [outcomeOf, hblocked, hanswer]

/-- A submission goes no further than its flush unless it is confirmed, and whoever confirms is
left alone if it is blocked. -/
theorem Selected.submit_eq {τ : Type} (h : w.Selected i stored)
    (confirm : Entry → τ → Bool × τ) (asker : τ) :
    let e := w.merged stored
    let v := w.verdict i stored
    let outcome := outcomeOf v e (confirm e asker).1
    w.submit confirm asker =
      ((.ok outcome, if outcome.isSubmitted then w.submitted i stored else w.flushed i stored),
        if v.isBlocked then asker else (confirm e asker).2) := by
  intro e v outcome
  have hverdict : checkSubmission (w.merged stored) (w.flushed i stored).collection
      (w.flushed i stored).collection.active = w.verdict i stored := by
    rw [verdict, h.collection_flushed]
  rw [submit, h.flush_eq]
  simp only [outcome, outcomeOf, v, e, hverdict]
  cases (w.verdict i stored).isBlocked with
  | true => rfl
  | false => cases (confirm (w.merged stored) asker).1 <;> rfl

/-- A submission hands over the entry of its flush, or it stops after the flush. -/
theorem Selected.submit_cases {τ : Type} (h : w.Selected i stored)
    (confirm : Entry → τ → Bool × τ) (asker : τ) :
    (∃ verdict, (w.submit confirm asker).1 =
        (.ok (.submitted (w.merged stored) verdict), w.submitted i stored)) ∨
      ∃ outcome, outcome.isSubmitted = false ∧
        (w.submit confirm asker).1 = (.ok outcome, w.flushed i stored) := by
  rw [h.submit_eq confirm asker]
  dsimp only
  split
  · next hsubmitted => exact .inl ⟨_, by rw [outcomeOf_eq_submitted hsubmitted]⟩
  · next hstopped => exact .inr ⟨_, Bool.eq_false_iff.mpr hstopped, rfl⟩

end Curator.Workbench
