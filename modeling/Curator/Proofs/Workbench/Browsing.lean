import Curator.Proofs.Session.Remaking
import Curator.Proofs.Workbench.Settling

/-! # Browsing

Entries that were flushed can be left and selected again without becoming others. A selected entry
has its own document for the working one, and without rules this one makes the same of itself, up
to the order of members. The order makes no difference to the saved flag.
-/

namespace Curator

open Json (SameUpToKeyOrder)

/-! ## Entries that differ in the order of members -/

/-- The other entry is this one, but for the order of members in its document and for the
description. -/
structure Entry.KeptAs (e e' : Entry) : Prop where
  name : e'.name = e.name
  version : e'.version = e.version
  author : e'.author = e.author
  isNew : e'.isNew = e.isNew
  saved : e'.saved = e.saved
  document : Option.Rel SameUpToKeyOrder e.document e'.document

namespace Entry

variable {a b c : Entry}

theorem KeptAs.refl (a : Entry) : a.KeptAs a := ⟨rfl, rfl, rfl, rfl, rfl, Json.rel_refl _⟩

theorem KeptAs.trans (hab : a.KeptAs b) (hbc : b.KeptAs c) : a.KeptAs c where
  name := hbc.name.trans hab.name
  version := hbc.version.trans hab.version
  author := hbc.author.trans hab.author
  isNew := hbc.isNew.trans hab.isNew
  saved := hbc.saved.trans hab.saved
  document := Json.rel_trans hab.document hbc.document

theorem sameDocument_of_rel (h : Option.Rel SameUpToKeyOrder a.document b.document)
    (ha : a.WellFormed) : a.sameDocument b = true := by
  unfold sameDocument
  unfold WellFormed at ha
  generalize a.document = before at h ha
  generalize b.document = after at h
  cases h with
  | none => rfl
  | some hsame => exact hsame.equalBy Number.same_self (fun _ _ _ => Number.same_trans) ha

end Entry

namespace Workbench

variable {σ : Type} {w w' : Workbench σ} {i : Nat} {stored e : Entry} {a : Action}
  {name version author : String}

/-! ## What flushes and what browses -/

/-- Whether an action does no more than flush and select. -/
def Action.browses : Action → Bool
  | .select _ => true
  | .selectionWillChange => true
  | .teardown _ => true
  | .flush => true
  | .test => true
  | _ => false

def flushes (w : Workbench σ) : Action → Bool
  | .select index => index.all (· < w.collection.entries.length)
  | .selectionWillChange => true
  | .teardown activeType => activeType == w.session.editorType
  | .flush => true
  | .submit _ _ => true
  | .test => true
  | _ => false

theorem select_of_flushes {index : Option Nat} (h : w.flushes (.select index) = true) :
    (w.select index).2 = (w.flush.2.dispatch (.selectActive index)).loadActive := by
  unfold select
  rw [selectionWillChange_eq]
  cases index with
  | none => rfl
  | some j =>
      have hlt : j < w.collection.entries.length := by simpa [flushes] using h
      simp [Collection.checkIndex, hlt]

/-! ## Entries that are made again -/

theorem Selected.loadActive_eq (h : w.Selected i e) :
    w.loadActive =
      { w with working := e.document.getD .emptyObject, pendingName := e.name } := by
  rw [loadActive, h.activeEntry?_eq]

/-- The entry at a position is made again of its own document, and also of the working one while
it is selected. -/
structure Resting (w : Workbench σ) (i : Nat) (e : Entry) : Prop where
  entry : w.collection.entries[i]? = some e
  fresh : e.isNew = true → e.version = 0 ∧ e.author = w.session.user
  reloads : Option.Rel SameUpToKeyOrder (w.session.make e (e.document.getD .emptyObject))
    e.document
  working : w.collection.active = some i →
    Option.Rel SameUpToKeyOrder (w.session.make e w.working) e.document ∧
      (e.isNew = true → e.name = w.pendingName)

/-- Whichever entry is loaded, it is its own document that comes to be worked on. -/
theorem Resting.loaded (h : w.Resting i e) (index : Option Nat) :
    (w.dispatch (.selectActive index)).loadActive.Resting i e where
  entry := by
    rw [collection_loadActive]
    exact h.entry
  fresh := by
    rw [session_loadActive]
    exact h.fresh
  reloads := by
    rw [session_loadActive]
    exact h.reloads
  working := by
    rw [collection_loadActive]
    intro hactive
    have hs : (w.dispatch (.selectActive index)).Selected i e := ⟨hactive, h.entry⟩
    rw [hs.loadActive_eq]
    exact ⟨h.reloads, fun _ => rfl⟩

theorem document_merged (hrules : w.session.rules = .empty) (stored : Entry) :
    (w.merged stored).document = w.session.make (w.merged stored) w.working := by
  rw [(shows_merged w stored).document, Session.clean_of_no_rules hrules]
  rfl

/-- The flush of an entry that is made again changes it in the order of members only. -/
theorem Resting.keptAs_merged (h : w.Resting i e) (hrules : w.session.rules = .empty)
    (hw : w.WellFormed) (hs : w.Selected i e) : e.KeptAs (w.merged e) := by
  obtain ⟨hworking, hname⟩ := h.working hs.active
  have hmerged := merged_eq_of_named fun hnew => ⟨hname hnew, h.fresh hnew⟩
  have hdocument : Option.Rel SameUpToKeyOrder e.document (w.merged e).document := by
    rw [hmerged, Session.clean_of_no_rules hrules]
    exact Json.rel_symm hworking
  have hwellFormed := hw.of_getElem? hs.entry
  have hsaved : (w.merged e).saved = e.saved := by
    rw [saved_merged hw hwellFormed, Entry.sameDocument_of_rel hdocument hwellFormed, Bool.and_true]
  refine ⟨?_, ?_, ?_, ?_, hsaved, hdocument⟩
  all_goals rw [hmerged]

section

variable (hrules : w.session.rules = .empty)
  (hnames : w.session.metadata.AtMembers name version author) (hw : w.WellFormed)
include hrules hnames hw

theorem resting_flushed (hs : w.Selected i stored) :
    (w.flushed i stored).Resting i (w.merged stored) := by
  have hshows := shows_merged w stored
  have hdocument := document_merged hrules stored
  refine ⟨hs.selected_flushed.entry, fun hnew => (hshows.fresh hnew).2, ?_, fun _ => ⟨?_, ?_⟩⟩
  · rw [hdocument]
    exact Session.make_make hnames hw.order _ hw.working
  · rw [hdocument]
    exact Json.rel_refl _
  · exact fun hnew => (hshows.fresh hnew).1

/-- Being new and being saved make no difference to the document. -/
theorem resting_submitted (hs : w.Selected i stored) :
    (w.submitted i stored).Resting i (w.merged stored).persisted := by
  have hflushed := resting_flushed hrules hnames hw hs
  have hentry : (w.submitted i stored).collection.entries[i]? =
      some (w.merged stored).persisted := by
    rw [hs.collection_submitted]
    exact List.getElem?_set_self hs.lt_length
  exact ⟨hentry, nofun, hflushed.reloads,
    fun _ => ⟨(hflushed.working hs.selected_flushed.active).1, nofun⟩⟩

theorem Resting.flush (h : w.Resting i e) :
    ∃ e', w.flush.2.Resting i e' ∧ e.KeptAs e' := by
  rcases w.flush_cases with heq | ⟨j, stored, hs, heq⟩
  · rw [heq]
    exact ⟨e, h, .refl e⟩
  · rw [heq]
    by_cases hji : j = i
    · subst hji
      cases hs.entry.symm.trans h.entry
      exact ⟨_, resting_flushed hrules hnames hw hs, h.keptAs_merged hrules hw hs⟩
    · -- another entry is flushed, and stays selected
      refine ⟨e, ⟨?_, h.fresh, h.reloads, ?_⟩, .refl e⟩
      · rw [hs.collection_flushed, List.getElem?_set_ne hji]
        exact h.entry
      · intro hactive
        cases hs.selected_flushed.active.symm.trans hactive
        exact absurd rfl hji

/-! ## Actions and runs -/

/-- What flushes an entry leaves it so that it is made again. -/
theorem exists_resting_of_flushes (hs : w.Selected i stored) (ha : w.flushes a = true) :
    ∃ e, (w.perform a).Resting i e := by
  have hflushed := resting_flushed hrules hnames hw hs
  have hflush : w.flush.2 = w.flushed i stored := by rw [hs.flush_eq]
  cases a with
  | select index =>
      rw [perform, select_of_flushes ha, hflush]
      exact ⟨_, hflushed.loaded index⟩
  | selectionWillChange =>
      rw [perform, selectionWillChange_eq, hflush]
      exact ⟨_, hflushed⟩
  | teardown activeType =>
      rw [perform, teardown_snd, if_pos (eq_of_beq ha), hflush]
      exact ⟨_, hflushed⟩
  | flush => exact ⟨_, hflush ▸ hflushed⟩
  | submit confirm asker =>
      rw [perform]
      rcases hs.submit_cases confirm asker with ⟨verdict, heq⟩ | ⟨outcome, -, heq⟩
      · rw [heq]
        exact ⟨_, resting_submitted hrules hnames hw hs⟩
      · rw [heq]
        exact ⟨_, hflushed⟩
  | test => exact ⟨_, hflush ▸ hflushed⟩
  | edit | rename | clone => cases ha

theorem Resting.step (h : w.Resting i e) (ha : a.browses = true) (hstep : w.Step a w') :
    ∃ e', w'.Resting i e' ∧ e.KeptAs e' := by
  have hflush := h.flush hrules hnames hw
  cases hstep with
  | unchanged => exact ⟨e, h, .refl e⟩
  | flushed _ hs =>
      rw [hs.flush_eq] at hflush
      exact hflush
  | loaded index =>
      obtain ⟨e', hresting, hkept⟩ := hflush
      exact ⟨e', hresting.loaded index, hkept⟩
  | @submitted a _ _ _ hsubmits =>
      -- only a submission submits, and it is no browsing
      cases a with
      | submit => cases ha
      | _ => cases hsubmits
  | edit | rename | copied => cases ha

theorem Resting.run (h : w.Resting i e) {actions : List Action}
    (hactions : ∀ a ∈ actions, a.browses = true) :
    ∃ e', (w.run actions).Resting i e' ∧ e.KeptAs e' := by
  induction actions generalizing w e with
  | nil => exact ⟨e, h, .refl e⟩
  | cons a rest ih =>
      obtain ⟨hfirst, hrest⟩ := List.forall_mem_cons.mp hactions
      have hstep := w.step_perform a
      obtain ⟨next, hnext, hkept⟩ := h.step hrules hnames hw hfirst hstep
      obtain ⟨last, hlast, hkept'⟩ := ih (by rwa [hstep.session_eq]) (by rwa [hstep.session_eq])
        (hw.step hstep) hnext hrest
      exact ⟨last, hlast, hkept.trans hkept'⟩

end

/-- Once an entry was flushed, selecting, leaving, closing and trying out keep its name, version
and author, whether it is new and whether it is saved, and its document up to the order of members,
as long as nothing is edited. -/
theorem browsing_keeps (hrules : w.session.rules = .empty)
    (hnames : w.session.metadata.AtMembers name version author) (h : w.WellFormed)
    (hs : w.Selected i stored) (ha : w.flushes a = true) {actions : List Action}
    (hactions : ∀ b ∈ actions, b.browses = true) :
    ∃ e e', (w.perform a).collection.entries[i]? = some e ∧
      ((w.perform a).run actions).collection.entries[i]? = some e' ∧ e.KeptAs e' := by
  have hsession := (w.step_perform a).session_eq
  obtain ⟨e, hresting⟩ := exists_resting_of_flushes hrules hnames h hs ha
  obtain ⟨e', hresting', hkept⟩ := hresting.run (by rwa [hsession]) (by rwa [hsession])
    (h.perform a) hactions
  exact ⟨e, e', hresting.entry, hresting'.entry, hkept⟩

/-- The empty name of a new entry is taken out of its document and written again at the end. -/
theorem browsing_keeps_of_unnamed :
    let other := Entry.stored "b" 2 "bob" (.array [.bool true])
    let w := (Workbench.start (.plain "route" "ann" .expressions)
      (.ofCollection ⟨[.draft "ann", other], some 0⟩) ()).setWorking (.object [("x", .bool true)])
    let actions : List Action := [.select (some 1), .teardown "route", .select (some 0), .test]
    ∃ e e', (w.perform .flush).collection.entries[0]? = some e ∧
      ((w.perform .flush).run actions).collection.entries[0]? = some e' ∧ e.KeptAs e' := by
  intro other w actions
  have hstart : (Workbench.start (.plain "route" "ann" .expressions)
      (.ofCollection ⟨[.draft "ann", other], some 0⟩) ()).WellFormed :=
    WellFormed.start trivial (by simp [Store.ofCollection, Entry.WellFormed, Entry.draft, other,
      Entry.stored])
  have h : w.WellFormed := ⟨hstart.order, by simp [w, setWorking], hstart.entries⟩
  have hs : w.Selected 0 (.draft "ann") := ⟨rfl, rfl⟩
  exact browsing_keeps rfl Metadata.atMembers_default h hs rfl (by decide)

end Workbench

end Curator
