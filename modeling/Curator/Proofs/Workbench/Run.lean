import Curator.Proofs.Entry
import Curator.Proofs.Session
import Curator.Proofs.Workbench.Flushing

/-! # Runs of a workbench

A run is any sequence of edits and operations. `Step` says once all that an action can come
to, and what runs keep is proved from it. Documents that are edited in have distinct names
in their objects, as every document that was read has; cleaning, writing metadata and
copying keep it so.
-/

namespace Curator

theorem Entry.WellFormed.persisted {e : Entry} (h : e.WellFormed) : e.persisted.WellFormed := h

namespace Metadata

variable {m : Metadata} {document : Json} {fields : List (Field × Json)}

theorem wellFormed_writeAll (h : document.WellFormed)
    (hfields : ∀ field ∈ fields, field.2.WellFormed) :
    (m.writeAll document fields).1.WellFormed := by
  induction fields generalizing document with
  | nil => exact h
  | cons field rest ih =>
      obtain ⟨hfield, hrest⟩ := List.forall_mem_cons.mp hfields
      rw [writeAll]
      split
      · next hset => exact ih (h.of_set hfield hset) hrest
      · exact h

theorem wellFormed_writeOrKeep (h : document.WellFormed)
    (hfields : ∀ field ∈ fields, field.2.WellFormed) :
    (m.writeOrKeep document fields).WellFormed := by
  have hwritten := @wellFormed_writeAll m _ _ h hfields
  unfold writeOrKeep
  split
  · next heq =>
      rw [heq] at hwritten
      exact hwritten
  · exact h

theorem wellFormed_fieldsOf (e : Entry) : ∀ field ∈ fieldsOf e, field.2.WellFormed := by
  simp [fieldsOf, Json.WellFormed]

end Metadata

namespace Session

variable {σ : Type} {session : Session σ}

theorem wellFormed_merge (horder : session.order.WellFormed) {working : Json}
    (hworking : working.WellFormed) (pendingName : String) (stored : Entry) (state : σ) :
    (session.merge working pendingName stored state).1.WellFormed := by
  unfold merge Entry.WellFormed
  dsimp only
  cases hclean : (session.clean working state).1 with
  | none => trivial
  | some kept =>
      exact Metadata.wellFormed_writeOrKeep (wellFormed_of_clean horder hworking hclean)
        (Metadata.wellFormed_fieldsOf _)

theorem wellFormed_copy {source : Entry} (h : source.WellFormed) :
    (session.copy source).WellFormed :=
  Metadata.wellFormed_writeOrKeep h.getD (by simp [Json.WellFormed])

end Session

namespace Workbench

variable {σ : Type} {w w' : Workbench σ}

/-! ## Actions -/

/-- What can be done at a workbench: the working document and the name of a new entry can be
edited, and the operations can be called. -/
inductive Action : Type 1 where
  | edit (document : Json) (h : document.WellFormed)
  | rename (name : String)
  | select (index : Option Nat)
  | selectionWillChange
  | teardown (activeType : String)
  | flush
  | submit {τ : Type} (confirm : Entry → τ → Bool × τ) (asker : τ)
  | test
  | clone

/-- The workbench after an action, whether it succeeds or fails. -/
def perform (w : Workbench σ) : Action → Workbench σ
  | .edit document _ => w.setWorking document
  | .rename name => w.setPendingName name
  | .select index => (w.select index).2
  | .selectionWillChange => w.selectionWillChange.2
  | .teardown activeType => (w.teardown activeType).2
  | .flush => w.flush.2
  | .submit confirm asker => (w.submit confirm asker).1.2
  | .test => w.test.2
  | .clone => w.clone.2

def submits (w : Workbench σ) (i : Nat) : Action → Bool
  | .submit confirm asker =>
    w.collection.active == some i &&
      match (w.submit confirm asker).1.1 with
      | .ok outcome => outcome.isSubmitted
      | .error _ => false
  | _ => false

theorem exists_of_submits {τ : Type} {i : Nat} {confirm : Entry → τ → Bool × τ} {asker : τ}
    (h : w.submits i (.submit confirm asker) = true) :
    ∃ e verdict w₁, (w.submit confirm asker).1 = (.ok (.submitted e verdict), w₁) := by
  obtain ⟨-, houtcome⟩ := Bool.and_eq_true_iff.mp h
  split at houtcome
  · next outcome heq =>
      cases outcome with
      | submitted e verdict => exact ⟨e, verdict, _, Prod.ext heq rfl⟩
      | _ => cases houtcome
  · cases houtcome

def run (w : Workbench σ) (actions : List Action) : Workbench σ := actions.foldl perform w

inductive Step (w : Workbench σ) : Action → Workbench σ → Prop where
  | edit (document : Json) (h : document.WellFormed) :
      Step w (.edit document h) (w.setWorking document)
  | rename (name : String) : Step w (.rename name) (w.setPendingName name)
  | unchanged (a : Action) : Step w a w
  | flushed (a : Action) {i : Nat} {stored : Entry} (h : w.Selected i stored) :
      Step w a (w.flushed i stored)
  | submitted {a : Action} {i : Nat} {stored : Entry} (h : w.Selected i stored)
      (ha : w.submits i a = true) : Step w a (w.submitted i stored)
  | loaded (index : Option Nat) :
      Step w (.select index) (w.flush.2.dispatch (.selectActive index)).loadActive
  | copied {source : Entry} (h : w.collection.activeEntry? = some source) :
      Step w .clone (w.dispatch (.addEntry (w.session.copy source)))

theorem step_flush (w : Workbench σ) (a : Action) : w.Step a w.flush.2 := by
  rcases w.flush_cases with heq | ⟨i, stored, hs, heq⟩
  · rw [heq]
    exact .unchanged a
  · rw [heq]
    exact .flushed a hs

theorem step_submit {τ : Type} (w : Workbench σ) (confirm : Entry → τ → Bool × τ) (asker : τ) :
    w.Step (.submit confirm asker) (w.submit confirm asker).1.2 := by
  cases hactive : w.collection.activeEntry? with
  | none =>
      rw [submit_of_none hactive]
      exact .unchanged _
  | some stored =>
      obtain ⟨i, hs⟩ := selected_of_activeEntry? hactive
      rcases hs.submit_cases confirm asker with ⟨verdict, heq⟩ | ⟨outcome, -, heq⟩
      · -- the outcome names the selected entry as submitted
        have hsubmits : w.submits i (.submit confirm asker) = true := by
          simp [submits, hs.active, heq, SubmitOutcome.isSubmitted]
        rw [heq]
        exact .submitted hs hsubmits
      · rw [heq]
        exact .flushed _ hs

theorem step_perform (w : Workbench σ) (a : Action) : w.Step a (w.perform a) := by
  cases a with
  | edit document h => exact .edit document h
  | rename name => exact .rename name
  | select index =>
      rw [perform]
      rcases w.select_snd index with heq | heq
      · rw [heq]
        exact .unchanged _
      · rw [heq]
        exact .loaded index
  | selectionWillChange =>
      rw [perform, selectionWillChange_eq]
      exact w.step_flush _
  | teardown activeType =>
      rw [perform, teardown_snd]
      split
      · exact w.step_flush _
      · exact .unchanged _
  | flush => exact w.step_flush _
  | submit confirm asker => exact w.step_submit confirm asker
  | test => exact w.step_flush _
  | clone =>
      rw [perform]
      rcases w.clone_snd with heq | ⟨source, hsource, heq⟩
      · rw [heq]
        exact .unchanged _
      · rw [heq]
        exact .copied hsource

theorem Step.session_eq {a : Action} (h : w.Step a w') : w'.session = w.session := by
  cases h with
  | loaded index =>
      rw [session_loadActive]
      exact w.session_flush
  | _ => rfl

/-! ## Well-formed documents -/

/-- The schema, the working document and the documents of the entries are well-formed. -/
structure WellFormed (w : Workbench σ) : Prop where
  order : w.session.order.WellFormed
  working : w.working.WellFormed
  entries : ∀ e ∈ w.collection.entries, e.WellFormed

namespace WellFormed

variable {i : Nat} {stored : Entry}

theorem of_getElem? (h : w.WellFormed) {e : Entry} (he : w.collection.entries[i]? = some e) :
    e.WellFormed := h.entries e (List.mem_of_getElem? he)

theorem of_active (h : w.WellFormed) (hs : w.collection.activeEntry? = some stored) :
    stored.WellFormed := by
  obtain ⟨i, hselected⟩ := selected_of_activeEntry? hs
  exact h.of_getElem? hselected.entry

theorem merged (h : w.WellFormed) (stored : Entry) : (w.merged stored).WellFormed :=
  Session.wellFormed_merge h.order h.working _ _ _

theorem set (h : w.WellFormed) {e : Entry} (he : e.WellFormed) (i : Nat) :
    ∀ other ∈ w.collection.entries.set i e, other.WellFormed := fun other hother =>
  (List.mem_or_eq_of_mem_set hother).elim (h.entries other) fun heq => heq ▸ he

theorem flushed (h : w.WellFormed) (hs : w.Selected i stored) :
    (w.flushed i stored).WellFormed where
  order := h.order
  working := h.working
  entries := by
    rw [hs.collection_flushed]
    exact h.set (h.merged stored) i

theorem submitted (h : w.WellFormed) (hs : w.Selected i stored) :
    (w.submitted i stored).WellFormed where
  order := h.order
  working := h.working
  entries := by
    rw [hs.collection_submitted]
    exact h.set (h.merged stored).persisted i

theorem flush (h : w.WellFormed) : w.flush.2.WellFormed := by
  rcases w.flush_cases with heq | ⟨i, stored, hs, heq⟩
  · rw [heq]
    exact h
  · rw [heq]
    exact h.flushed hs

theorem loadActive (h : w.WellFormed) : w.loadActive.WellFormed := by
  unfold Workbench.loadActive
  split
  · next e he => exact ⟨h.order, (h.of_active he).getD, h.entries⟩
  · exact ⟨h.order, Json.wellFormed_emptyObject, h.entries⟩

theorem start {session : Session σ} {store : Store} {state : σ}
    (horder : session.order.WellFormed) (hentries : ∀ e ∈ store.collection.entries, e.WellFormed) :
    (Workbench.start session store state).WellFormed :=
  loadActive ⟨horder, Json.wellFormed_emptyObject, hentries⟩

theorem step {a : Action} (h : w.WellFormed) (hstep : w.Step a w') : w'.WellFormed := by
  cases hstep with
  | edit document hd => exact ⟨h.order, hd, h.entries⟩
  | rename name => exact ⟨h.order, h.working, h.entries⟩
  | unchanged => exact h
  | flushed _ hs => exact h.flushed hs
  | submitted hs _ => exact h.submitted hs
  | loaded index => exact loadActive ⟨h.flush.order, h.flush.working, h.flush.entries⟩
  | copied hsource =>
      refine ⟨h.order, h.working, ?_⟩
      intro e he
      rcases List.mem_append.mp he with hold | hnew
      · exact h.entries e hold
      · rw [List.mem_singleton.mp hnew]
        exact Session.wellFormed_copy (h.of_active hsource)

theorem perform (h : w.WellFormed) (a : Action) : (w.perform a).WellFormed :=
  h.step (w.step_perform a)

theorem run (h : w.WellFormed) (actions : List Action) : (w.run actions).WellFormed := by
  induction actions generalizing w with
  | nil => exact h
  | cons a rest ih => exact ih (h.perform a)

end WellFormed

end Workbench

end Curator
