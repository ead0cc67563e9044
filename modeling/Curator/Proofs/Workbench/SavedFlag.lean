import Curator.Proofs.Comparison.Exactness
import Curator.Proofs.Workbench.Run

/-! # The saved flag

An entry counts as saved only while its document equals the one that was submitted, or the
one that it had at the start. A flush compares with the entry that it replaces, and
equality composes, so whatever is not a submission keeps this.
-/

namespace Curator

/-- The documents are equal values. An absent one counts as null. -/
def Entry.sameDocument (a b : Entry) : Bool :=
  (a.document.getD .null).equal (b.document.getD .null)

theorem Entry.sameDocument_refl {e : Entry} (h : e.WellFormed) : e.sameDocument e = true :=
  Json.equal_refl h

theorem Entry.sameDocument_trans {a b c : Entry} (hab : a.sameDocument b = true)
    (hbc : b.sameDocument c = true) : a.sameDocument c = true := Json.equal_trans hab hbc

theorem Entry.documentChanged_eq {a b : Entry} (ha : a.WellFormed) (hb : b.WellFormed) :
    Entry.documentChanged a.document b.document = !a.sameDocument b := by
  rw [documentChanged, Bool.not_eq_eq_eq_not, Bool.not_not, Bool.eq_iff_iff]
  exact Comparison.isEquivalent_ofOptional_iff ha hb

namespace Workbench

variable {σ : Type} {w w' : Workbench σ}

/-! ## One operation -/

theorem saved_merged (h : w.WellFormed) {stored : Entry} (hs : stored.WellFormed) :
    (w.merged stored).saved = (stored.saved && stored.sameDocument (w.merged stored)) := by
  have hchanged := Entry.documentChanged_eq hs (h.merged stored)
  have hsaved : (w.merged stored).saved =
      (stored.saved && !Entry.documentChanged stored.document (w.merged stored).document) := by
    unfold merged Session.merge
    dsimp only
    split <;> rfl
  rw [hsaved, hchanged, Bool.not_not]

/-- A flush keeps the flag of each entry exactly if it keeps the document. -/
theorem exists_saved_flush (h : w.WellFormed) {i : Nat} {stored : Entry}
    (hi : w.collection.entries[i]? = some stored) :
    ∃ e, w.flush.2.collection.entries[i]? = some e ∧
      e.saved = (stored.saved && stored.sameDocument e) := by
  have hstored := h.of_getElem? hi
  have hsame : stored.saved = (stored.saved && stored.sameDocument stored) := by
    rw [Entry.sameDocument_refl hstored, Bool.and_true]
  rcases w.flush_cases with heq | ⟨j, found, hs, heq⟩
  · rw [heq]
    exact ⟨stored, hi, hsame⟩
  · rw [heq, hs.collection_flushed]
    by_cases hij : j = i
    · subst hij
      -- the entry is the one that is flushed
      cases hs.entry.symm.trans hi
      exact ⟨w.merged stored, List.getElem?_set_self hs.lt_length, saved_merged h hstored⟩
    · exact ⟨stored, (List.getElem?_set_ne hij).trans hi, hsame⟩

/-- What counts as saved at a position was saved there before, with an equal document. -/
def KeptAt (i : Nat) (entries entries' : List Entry) : Prop :=
  ∀ e, entries'[i]? = some e → e.saved = true →
    ∃ stored, entries[i]? = some stored ∧ stored.saved = true ∧ stored.sameDocument e = true

theorem keptAt_refl {entries : List Entry} (h : ∀ e ∈ entries, e.WellFormed) (i : Nat) :
    KeptAt i entries entries := fun e he hsaved =>
  ⟨e, he, hsaved, Entry.sameDocument_refl (h e (List.mem_of_getElem? he))⟩

theorem keptAt_flush (h : w.WellFormed) (i : Nat) :
    KeptAt i w.collection.entries w.flush.2.collection.entries := by
  intro e he hsaved
  cases hstored : w.collection.entries[i]? with
  | none =>
      have hlt : i < w.flush.2.collection.entries.length :=
        (List.getElem?_eq_some_iff.mp he).choose
      rw [length_flush] at hlt
      exact absurd hstored (by simp [hlt])
  | some stored =>
      obtain ⟨e', he', hkept⟩ := exists_saved_flush h hstored
      cases he'.symm.trans he
      rw [hsaved, eq_comm, Bool.and_eq_true] at hkept
      exact ⟨stored, rfl, hkept⟩

/-- What is not a submission of an entry makes it count as saved in no other document. -/
theorem keptAt_step (h : w.WellFormed) {i : Nat} {a : Action} (hstep : w.Step a w')
    (ha : w.submits i a = false) : KeptAt i w.collection.entries w'.collection.entries := by
  have hrefl := keptAt_refl h.entries i
  have hflush := keptAt_flush h i
  cases hstep with
  | edit document hd => exact hrefl
  | rename name => exact hrefl
  | unchanged => exact hrefl
  | flushed _ hs =>
      rw [hs.flush_eq] at hflush
      exact hflush
  | @submitted _ j stored hs hj =>
      -- the submission was of another entry
      have hij : j ≠ i := by
        rintro rfl
        rw [hj] at ha
        cases ha
      rw [hs.collection_submitted]
      intro e he
      rw [List.getElem?_set_ne hij] at he
      exact hrefl e he
  | loaded index =>
      rw [collection_loadActive]
      exact hflush
  | @copied source _ =>
      intro e he hsaved
      change (w.collection.entries ++ [w.session.copy source])[i]? = some e at he
      rw [List.getElem?_append] at he
      split at he
      · exact hrefl e he hsaved
      · -- a copy does not count as saved
        cases List.mem_singleton.mp (List.mem_of_getElem? he)
        cases hsaved

/-! ## Runs -/

/-- Goes through a run with the workbench as it was when the entry at a position was last
submitted. -/
def lastSubmittedFrom (i : Nat) : Workbench σ → Workbench σ → List Action → Workbench σ
  | _, last, [] => last
  | now, last, a :: rest =>
    lastSubmittedFrom i (now.perform a) (if now.submits i a then now.perform a else last) rest

/-- The workbench just after the last submission of the entry at a position, or at the start
of the run if there was none. -/
def lastSubmitted (w : Workbench σ) (i : Nat) (actions : List Action) : Workbench σ :=
  lastSubmittedFrom i w w actions

/-- What counts as saved now has the document that it had then. -/
def Faithful (i : Nat) (now last : Workbench σ) : Prop :=
  ∀ e, now.collection.entries[i]? = some e → e.saved = true →
    ∃ base, last.collection.entries[i]? = some base ∧ base.sameDocument e = true

theorem faithful_refl (h : w.WellFormed) (i : Nat) : Faithful i w w := fun e he _ =>
  ⟨e, he, Entry.sameDocument_refl (h.of_getElem? he)⟩

theorem Faithful.perform {i : Nat} {last : Workbench σ} (hf : Faithful i w last)
    (h : w.WellFormed) (a : Action) :
    Faithful i (w.perform a) (if w.submits i a then w.perform a else last) := by
  split
  · exact faithful_refl (h.perform a) i
  · next ha =>
      intro e he hsaved
      obtain ⟨stored, hstored, hwas, hsame⟩ :=
        keptAt_step h (w.step_perform a) (Bool.not_eq_true _ ▸ ha) e he hsaved
      obtain ⟨base, hbase, hbefore⟩ := hf stored hstored hwas
      exact ⟨base, hbase, Entry.sameDocument_trans hbefore hsame⟩

theorem Faithful.run {i : Nat} {last : Workbench σ} (hf : Faithful i w last) (h : w.WellFormed)
    (actions : List Action) : Faithful i (w.run actions) (lastSubmittedFrom i w last actions) := by
  induction actions generalizing w last with
  | nil => exact hf
  | cons a rest ih => exact ih (hf.perform h a) (h.perform a)

/-- After any run, a flush keeps the flag of each entry exactly if it keeps the document, and
an entry that counts as saved has the document with which it was last submitted, or that it
had at the start. -/
theorem saved_run (h : w.WellFormed) (actions : List Action) (i : Nat) :
    (∀ stored, (w.run actions).collection.entries[i]? = some stored →
      ∃ e, (w.run actions).flush.2.collection.entries[i]? = some e ∧
        e.saved = (stored.saved && stored.sameDocument e)) ∧
    ∀ e, (w.run actions).collection.entries[i]? = some e → e.saved = true →
      ∃ base, (w.lastSubmitted i actions).collection.entries[i]? = some base ∧
        base.sameDocument e = true :=
  ⟨fun _ hstored => exists_saved_flush (h.run actions) hstored,
    (faithful_refl h i).run h actions⟩

theorem saved_run_of_submission :
    let session : Session Unit := .plain "route" "ann" .expressions
    let stored := Entry.stored "a" 1 "ann" (.object [("x", .bool true)])
    let w := Workbench.start session (.ofCollection ⟨[stored], some 0⟩) ()
    let actions : List Action :=
      [.edit (.object [("x", .bool false)]) (by simp), .submit (fun _ s => (true, s)) (), .test]
    ∃ e base, (w.run actions).collection.entries[0]? = some e ∧ e.saved = true ∧
      (w.lastSubmitted 0 actions).collection.entries[0]? = some base ∧
        base.sameDocument e = true := by
  intro session stored w actions
  have h : w.WellFormed := WellFormed.start trivial (by simp [Store.ofCollection, stored,
    Entry.WellFormed, Entry.stored])
  have hsaved : (w.run actions).collection.entries[0]?.map Entry.saved = some true := by
    simp only [w, actions, stored, session]
    decide +kernel
  obtain ⟨e, he, hsaved⟩ := Option.map_eq_some_iff.mp hsaved
  obtain ⟨base, hbase, hsame⟩ := (saved_run h actions 0).2 e he hsaved
  exact ⟨e, base, he, hsaved, hbase, hsame⟩

end Workbench

end Curator
