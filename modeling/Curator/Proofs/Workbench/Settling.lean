import Curator.Proofs.Workbench.SavedFlag

/-! # Flushing again changes nothing

The entry of a flush is the one that the working document makes of itself: cleaning gives
the same document, the metadata written into it are those of the entry, and a comparison
with itself finds no change. This stays so until another document is edited in or loaded.
Persisting an entry touches none of it.
-/

namespace Curator

namespace Workbench

variable {σ : Type} {w w' : Workbench σ} {i : Nat} {stored e : Entry}
  {answer : String → Json → Option Nat → Except Predicate.Failure Bool} {Valid : σ → Prop}

/-- The entry shows what the working document makes of it. Only a new entry follows the
pending name. -/
structure Shows (w : Workbench σ) (e : Entry) : Prop where
  document : e.document = (w.session.clean w.working w.state).1.map fun d =>
    w.session.metadata.writeOrKeep d (Metadata.fieldsOf e)
  description : e.description = e.document.bind w.session.metadata.descriptionOf
  fresh : e.isNew = true → e.name = w.pendingName ∧ e.version = 0 ∧ e.author = w.session.user

theorem shows_merged (w : Workbench σ) (stored : Entry) : w.Shows (w.merged stored) where
  document := rfl
  description := rfl
  fresh := by
    unfold merged Session.merge
    dsimp only
    split
    · exact fun _ => ⟨rfl, rfl, rfl⟩
    · next hold => exact fun hnew => absurd hnew hold

/-- Being new and being saved show nowhere in the document. -/
theorem Shows.persisted (h : w.Shows e) : w.Shows e.persisted :=
  ⟨h.document, h.description, nofun⟩

/-- Whether the evaluator's state or, for a stored entry, the pending name has moved on makes
no difference. -/
theorem Shows.congr (h : w.Shows e)
    (hanswers : w.session.evaluator.Answers answer Valid) (hvalid : Valid w.state)
    (hvalid' : Valid w'.state) (hsession : w'.session = w.session)
    (hworking : w'.working = w.working)
    (hname : e.isNew = true → w'.pendingName = w.pendingName) : w'.Shows e where
  document := by
    rw [hsession, hworking, (Session.clean_eq_of_valid hanswers w.working hvalid' hvalid).1]
    exact h.document
  description := by rw [hsession]; exact h.description
  fresh := by
    intro hnew
    rw [hname hnew, hsession]
    exact h.fresh hnew

/-- An entry keeps its name, version and author in a flush unless it is new and has others. -/
theorem merged_eq_of_named (h : e.isNew = true →
      e.name = w.pendingName ∧ e.version = 0 ∧ e.author = w.session.user) :
    let document := (w.session.clean w.working w.state).1.map fun d =>
      w.session.metadata.writeOrKeep d (Metadata.fieldsOf e)
    w.merged e = { e with
      document
      description := document.bind w.session.metadata.descriptionOf
      saved := e.saved && !Entry.documentChanged e.document document } := by
  have hnamed : (if e.isNew then
      { e with name := w.pendingName, version := 0, author := w.session.user } else e) = e := by
    split
    · next hnew =>
        obtain ⟨hname, hversion, hauthor⟩ := h hnew
        rw [← hname, ← hversion, ← hauthor]
    · rfl
  unfold merged Session.merge
  dsimp only
  rw [hnamed]

/-- A flush makes of such an entry the same again. -/
theorem Shows.merged_eq (h : w.Shows e) (he : e.WellFormed) : w.merged e = e := by
  have hsame : Entry.documentChanged e.document e.document = false := by
    rw [Entry.documentChanged_eq he he, Entry.sameDocument_refl he]
    rfl
  rw [merged_eq_of_named h.fresh, ← h.document, ← h.description, hsame, Bool.not_false,
    Bool.and_true]

/-! ## Settled workbenches -/

structure Settled (Valid : σ → Prop) (w : Workbench σ) (i : Nat) (e : Entry) : Prop where
  selected : w.Selected i e
  shows : w.Shows e
  wellFormed : w.WellFormed
  valid : Valid w.state

theorem Settled.merged_eq (h : w.Settled Valid i e) : w.merged e = e :=
  h.shows.merged_eq (h.wellFormed.of_getElem? h.selected.entry)

theorem Settled.set_eq (h : w.Settled Valid i e) :
    w.collection.entries.set i e = w.collection.entries := by
  obtain ⟨hlt, hentry⟩ := List.getElem?_eq_some_iff.mp h.selected.entry
  rw [← hentry, List.set_getElem_self]

theorem Settled.collection_flushed (h : w.Settled Valid i e) :
    (w.flushed i e).collection = w.collection := by
  rw [h.selected.collection_flushed, h.merged_eq, h.set_eq, ← h.selected.active]

/-- Flushing a settled workbench gives the entry and leaves the collection. -/
theorem Settled.flush_eq (h : w.Settled Valid i e) :
    w.flush = (.ok e, w.flushed i e) ∧ (w.flushed i e).collection = w.collection := by
  have hflush := h.selected.flush_eq
  rw [h.merged_eq] at hflush
  exact ⟨hflush, h.collection_flushed⟩

section Answering

variable (hanswers : w.session.evaluator.Answers answer Valid) (hvalid : Valid w.state)
include hanswers hvalid

theorem valid_flushed (i : Nat) (stored : Entry) : Valid (w.flushed i stored).state :=
  Session.valid_clean hanswers w.working hvalid

/-- One flush settles a workbench. -/
theorem settled_flushed (h : w.WellFormed) (hs : w.Selected i stored) :
    (w.flushed i stored).Settled Valid i (w.merged stored) where
  selected := hs.selected_flushed
  shows := (shows_merged w stored).congr hanswers hvalid (valid_flushed hanswers hvalid i stored)
    rfl rfl fun _ => rfl
  wellFormed := h.flushed hs
  valid := valid_flushed hanswers hvalid i stored

/-- So does a submission, with the entry as it was persisted. -/
theorem settled_submitted (h : w.WellFormed) (hs : w.Selected i stored) :
    (w.submitted i stored).Settled Valid i (w.merged stored).persisted where
  selected := by
    constructor
    · rw [hs.collection_submitted]
    · rw [hs.collection_submitted]
      exact List.getElem?_set_self hs.lt_length
  shows := (shows_merged w stored).persisted.congr hanswers hvalid
    (valid_flushed hanswers hvalid i stored) rfl rfl fun _ => rfl
  wellFormed := h.submitted hs
  valid := valid_flushed hanswers hvalid i stored

end Answering

def Action.replacesWorking : Action → Bool
  | .edit _ _ => true
  | .select _ => true
  | _ => false

/-- A persisted entry stays settled as long as its document is being worked on. -/
theorem Settled.step (h : w.Settled Valid i e)
    (hanswers : w.session.evaluator.Answers answer Valid) (he : e.persisted = e) {a : Action}
    (ha : a.replacesWorking = false) (hstep : w.Step a w') : w'.Settled Valid i e := by
  have hwellFormed := h.wellFormed.step hstep
  cases hstep with
  | edit document hd => cases ha
  | loaded index => cases ha
  | rename name =>
      -- a persisted entry is not new, and only new ones follow the pending name
      have hold : e.isNew = false := by rw [← he]; rfl
      refine ⟨⟨h.selected.active, h.selected.entry⟩, ?_, hwellFormed, h.valid⟩
      exact h.shows.congr hanswers h.valid h.valid rfl rfl fun hnew => by simp [hold] at hnew
  | unchanged => exact h
  | flushed _ hs =>
      have hsettled := settled_flushed hanswers h.valid h.wellFormed hs
      obtain ⟨rfl, rfl⟩ := h.selected.unique hs
      rwa [h.merged_eq] at hsettled
  | submitted hs _ =>
      have hsettled := settled_submitted hanswers h.valid h.wellFormed hs
      obtain ⟨rfl, rfl⟩ := h.selected.unique hs
      rwa [h.merged_eq, he] at hsettled
  | @copied source _ =>
      refine ⟨⟨h.selected.active, ?_⟩, ?_, hwellFormed, h.valid⟩
      · change (w.collection.entries ++ [w.session.copy source])[i]? = some e
        rw [List.getElem?_append_left h.selected.lt_length]
        exact h.selected.entry
      · exact h.shows.congr hanswers h.valid h.valid rfl rfl fun _ => rfl

theorem Settled.run (h : w.Settled Valid i e)
    (hanswers : w.session.evaluator.Answers answer Valid) (he : e.persisted = e)
    {actions : List Action} (ha : ∀ a ∈ actions, a.replacesWorking = false) :
    (w.run actions).Settled Valid i e := by
  induction actions generalizing w with
  | nil => exact h
  | cons a rest ih =>
      obtain ⟨hfirst, hrest⟩ := List.forall_mem_cons.mp ha
      exact ih (h.step hanswers he hfirst (w.step_perform a))
        (by rwa [(w.step_perform a).session_eq]) hrest

/-- The second of two flushes in a row gives the same entry and leaves the collection. After
a submission every flush gives the entry as it was persisted and leaves the collection, until
another document is edited in or loaded. -/
theorem flush_settles (hanswers : w.session.evaluator.Answers answer Valid) (h : w.WellFormed)
    (hvalid : Valid w.state) (hactive : w.collection.activeEntry? = some stored) :
    (∃ e w₁ w₂, w.flush = (.ok e, w₁) ∧ w₁.flush = (.ok e, w₂) ∧
      w₂.collection = w₁.collection) ∧
    ∀ {τ : Type} (confirm : Entry → τ → Bool × τ) (asker : τ) (e : Entry) (verdict : Verdict)
      (w₁ : Workbench σ), (w.submit confirm asker).1 = (.ok (.submitted e verdict), w₁) →
      ∀ actions : List Action, (∀ a ∈ actions, a.replacesWorking = false) →
        ∃ w₂, (w₁.run actions).flush = (.ok e.persisted, w₂) ∧
          w₂.collection = (w₁.run actions).collection := by
  obtain ⟨i, hs⟩ := selected_of_activeEntry? hactive
  constructor
  · obtain ⟨hagain, hcollection⟩ := (settled_flushed hanswers hvalid h hs).flush_eq
    exact ⟨_, _, _, hs.flush_eq, hagain, hcollection⟩
  · intro τ confirm asker e verdict w₁ hsubmit actions hactions
    rcases hs.submit_cases confirm asker with ⟨_, heq⟩ | ⟨outcome, houtcome, heq⟩
    · cases heq.symm.trans hsubmit
      have hsettled := (settled_submitted hanswers hvalid h hs).run hanswers rfl hactions
      exact ⟨_, hsettled.flush_eq.1, hsettled.flush_eq.2⟩
    · cases heq.symm.trans hsubmit
      cases houtcome

theorem flush_settles_of_draft :
    let session : Session Predicate.Cache :=
      { Session.plain "route" "ann" .cached with rules := ⟨[("/secret", "model.open != true")]⟩ }
    let w := ((Workbench.start session (.ofCollection ⟨[.draft "ann"], some 0⟩) .empty).setWorking
      (.object [("open", .bool true)])).setPendingName "a"
    (∃ e w₁ w₂, w.flush = (.ok e, w₁) ∧ w₁.flush = (.ok e, w₂) ∧
      w₂.collection = w₁.collection) ∧
    ∃ e verdict w₁ w₂, (w.submit (fun _ s => (true, s)) ()).1 = (.ok (.submitted e verdict), w₁) ∧
      w₁.flush = (.ok e.persisted, w₂) ∧ w₂.collection = w₁.collection := by
  intro session w
  have h : w.WellFormed := by
    have hstart : (Workbench.start session (.ofCollection ⟨[.draft "ann"], some 0⟩)
        .empty).WellFormed := WellFormed.start trivial (by simp [Store.ofCollection,
      Entry.WellFormed, Entry.draft])
    exact ⟨hstart.order, by simp [w, setWorking, setPendingName], hstart.entries⟩
  obtain ⟨hagain, hsettles⟩ :=
    flush_settles (w := w) Evaluator.answers_cached h Predicate.Cache.sound_empty rfl
  have hsubmits : w.submits 0 (.submit (fun _ s => (true, s)) ()) = true := by
    simp only [w, session]
    decide +kernel
  refine ⟨hagain, ?_⟩
  obtain ⟨e, verdict, w₁, hsubmit⟩ := exists_of_submits hsubmits
  obtain ⟨w₂, hflush, hcollection⟩ := hsettles _ _ e verdict w₁ hsubmit [] (by simp)
  exact ⟨e, verdict, w₁, w₂, hsubmit, hflush, hcollection⟩

end Workbench

end Curator
