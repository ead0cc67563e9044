import Curator.Proofs.Submission
import Curator.Proofs.Workbench.Mirroring

/-! # The course of a submission

A submission flushes, checks, asks and hands over, in this order, and it stops at the first of
these steps that comes out against it. Whether it is blocked shows in the working document and
the names: metadata bring content into no document that was cleaned away, and take it from none.
-/

namespace Curator

open Metadata (fieldsOf)

namespace Entry

variable {e : Entry} {document new value : Json} {p : Pointer}

theorem hasDocument_of_isVoid_eq_false (hd : e.document = some document)
    (h : document.isVoid = false) : e.hasDocument = true := by
  rw [hasDocument, hd]
  cases document <;> simp_all [Json.isVoid]

/-- A document is not empty after a write, even at its root. -/
theorem hasDocument_of_sets (hd : e.document = some document)
    (h : Json.Sets new p value document) (hnew : new.Terminal) : e.hasDocument = true := by
  cases p with
  | nil =>
      cases h
      rw [hasDocument, hd]
      cases document <;> first | rfl | exact hnew.elim
  | cons s rest => exact hasDocument_of_isVoid_eq_false hd h.isVoid_eq_false

end Entry

namespace Workbench

variable {σ τ : Type} {w : Workbench σ} {i : Nat} {stored : Entry}

/-- A flushed entry has content just if cleaning leaves some of the working document. -/
theorem hasDocument_merged (w : Workbench σ) (stored : Entry) :
    (w.merged stored).hasDocument = (w.session.clean w.working w.state).1.isSome := by
  have hdocument := (w.shows_merged stored).document
  cases hclean : (w.session.clean w.working w.state).1 with
  | none =>
      rw [hclean, Option.map_none] at hdocument
      rw [Entry.hasDocument, hdocument]
      rfl
  | some cleaned =>
      rw [hclean, Option.map_some] at hdocument
      rw [Option.isSome_some]
      rcases w.session.metadata.writeOrKeep_cases cleaned (fieldsOf (w.merged stored)) with
        hall | hkeep
      · -- the author is the last to be written
        obtain ⟨named, -, hversion⟩ := Metadata.writeAll_cons_eq_none_iff.mp hall
        obtain ⟨versioned, -, hauthor⟩ := Metadata.writeAll_cons_eq_none_iff.mp hversion
        obtain ⟨written, hset, heq⟩ := Metadata.writeAll_cons_eq_none_iff.mp hauthor
        cases heq
        exact Entry.hasDocument_of_sets hdocument (Json.sets_of_set hset) trivial
      · rw [hkeep] at hdocument
        exact Entry.hasDocument_of_isVoid_eq_false hdocument (Json.solid_of_normalize hclean).root

/-! ## Refusals -/

/-- What speaks against the submission of an entry from a position: nothing is left of the
working document, or the entry is new and its name is missing or taken. -/
inductive Refused (w : Workbench σ) (i : Nat) (e : Entry) : Prop where
  | empty (h : (w.session.clean w.working w.state).1 = none)
  | unnamed (hnew : e.isNew = true) (h : w.pendingName = "")
  | taken {j : Nat} {other : Entry} (hnew : e.isNew = true)
      (hother : w.collection.entries[j]? = some other) (hj : j ≠ i)
      (hcontent : other.hasDocument = true) (hname : other.name = w.pendingName)

theorem Selected.nameTaken_iff (h : w.Selected i stored) {name : String} :
    nameTaken name (some i) 0 (w.flushed i stored).collection.entries = true ↔
      ∃ j other, w.collection.entries[j]? = some other ∧ j ≠ i ∧ other.hasDocument = true ∧
        other.name = name := by
  rw [Curator.nameTaken_iff, h.collection_flushed]
  refine exists_congr fun j => exists_congr fun other => ?_
  have hne : some (0 + j) ≠ some i ↔ j ≠ i := by simp
  rw [hne, and_congr_left_iff]
  rintro ⟨hj, -⟩
  rw [List.getElem?_set_ne (Ne.symm hj)]

/-- The checks block what is refused and nothing else. -/
theorem Selected.isBlocked_iff (h : w.Selected i stored) :
    (w.verdict i stored).isBlocked = true ↔ w.Refused i (w.merged stored) := by
  rw [verdict, isBlocked_checkSubmission_iff, h.nameTaken_iff, hasDocument_merged,
    Option.isSome_eq_false_iff, Option.isNone_iff_eq_none]
  constructor
  · rintro (hempty | ⟨hnew, hname⟩)
    · exact .empty hempty
    · rw [((w.shows_merged stored).fresh hnew).1] at hname
      rcases hname with hmissing | ⟨j, other, hother, hj, hcontent, htaken⟩
      · exact .unnamed hnew hmissing
      · exact .taken hnew hother hj hcontent htaken
  · rintro (hempty | ⟨hnew, hmissing⟩ | ⟨hnew, hother, hj, hcontent, htaken⟩)
    · exact .inl hempty
    · rw [((w.shows_merged stored).fresh hnew).1]
      exact .inr ⟨hnew, .inl hmissing⟩
    · rw [((w.shows_merged stored).fresh hnew).1]
      exact .inr ⟨hnew, .inr ⟨_, _, hother, hj, hcontent, htaken⟩⟩

/-! ## What comes of a submission -/

/-- Confirms as another one does, and notes each entry that it is shown. -/
def noting (confirm : Entry → τ → Bool × τ) (e : Entry) (asked : τ × List Entry) :
    Bool × (τ × List Entry) :=
  ((confirm e asked.1).1, (confirm e asked.1).2, asked.2 ++ [e])

def handover (e : Entry) : Command := if e.isNew then .submitNew e else .submitEdit e

/-- How a submission goes that flushes the entry `e`, comes to an outcome and leaves a workbench,
where `asked` are the entries that were shown for confirmation and `answer` is what comes back
when `e` is shown. -/
structure Protocol (w : Workbench σ) (i : Nat) (e : Entry) (flushed final : Workbench σ)
    (outcome : SubmitOutcome) (asked : List Entry) (answer : Bool) : Prop where
  log : ∃ entries, entries[i]? = some e ∧ final.store.log = w.store.log ++
    .replaceAll entries :: if outcome.isSubmitted then [handover e] else []
  blocked_iff : (∃ verdict, outcome = .blocked verdict) ↔ w.Refused i e
  asked_of_refused : w.Refused i e → asked = []
  asked_of_not_refused : ¬ w.Refused i e → asked = [e]
  submitted_iff : outcome.isSubmitted = true ↔ ¬ w.Refused i e ∧ answer = true
  collection : outcome.isSubmitted = false → final.collection = flushed.collection
  length_issues_le : outcome.verdict.issues.length ≤ 1
  issues_of_empty : (w.session.clean w.working w.state).1 = none →
    outcome.verdict.issues = [.emptyDocument]
  issues_of_space : e.isNew = true → ' ' ∈ e.name.toList → ¬ w.Refused i e →
    outcome.verdict.issues = [.nameHasSpaces e.name] ∧ outcome.verdict.isBlocked = false

/-- The entries are replaced once, and a submission adds the command that hands the entry over. -/
theorem Selected.log_eq (h : w.Selected i stored) (handed : Bool) :
    ∃ entries, entries[i]? = some (w.merged stored) ∧
      (if handed then w.submitted i stored else w.flushed i stored).store.log =
        w.store.log ++ .replaceAll entries ::
          if handed then [handover (w.merged stored)] else [] := by
  refine ⟨w.collection.replacing i (w.merged stored), List.getElem?_set_self h.lt_length, ?_⟩
  cases handed with
  | true => exact List.append_assoc _ _ _
  | false => rfl

theorem issues_verdict_of_empty (h : (w.session.clean w.working w.state).1 = none) (i : Nat)
    (stored : Entry) : (w.verdict i stored).issues = [.emptyDocument] := by
  have hcontent := hasDocument_merged w stored
  rw [h] at hcontent
  rw [verdict, checkSubmission_of_hasDocument_eq_false hcontent]

/-- A submission of the selected entry replaces the entries once, by those with the flushed entry
in its place. It is blocked just if the entry is refused, else the entry is confirmed once and,
if so answered, handed over. Short of that the collection is as the flush has left it. -/
theorem submit_protocol (hactive : w.collection.activeEntry? = some stored)
    (confirm : Entry → τ → Bool × τ) (asker : τ) :
    ∃ i e flushed outcome final asker' asked,
      w.collection.active = some i ∧ w.flush = (.ok e, flushed) ∧
      w.submit confirm asker = ((.ok outcome, final), asker') ∧
      w.submit (noting confirm) (asker, []) = ((.ok outcome, final), (asker', asked)) ∧
      w.Protocol i e flushed final outcome asked (confirm e asker).1 := by
  obtain ⟨i, hs⟩ := selected_of_activeEntry? hactive
  have hrefused := hs.isBlocked_iff
  refine ⟨i, w.merged stored, w.flushed i stored, _, _, _,
    if (w.verdict i stored).isBlocked then [] else [w.merged stored], hs.active, hs.flush_eq,
    hs.submit_eq confirm asker, ?_, ?_⟩
  · rw [hs.submit_eq (noting confirm) (asker, [])]
    cases (w.verdict i stored).isBlocked <;> rfl
  · exact {
      log := hs.log_eq _
      blocked_iff := outcomeOf_eq_blocked_iff.trans hrefused
      asked_of_refused := fun h => if_pos (hrefused.mpr h)
      asked_of_not_refused := fun h => if_neg (mt hrefused.mp h)
      submitted_iff := by
        rw [isSubmitted_outcomeOf, Bool.and_eq_true, ← hrefused, Bool.not_eq_true',
          Bool.not_eq_true]
      collection := fun h => by rw [if_neg (by rw [h]; exact Bool.false_ne_true)]
      length_issues_le := by
        rw [verdict_outcomeOf]
        exact length_issues_checkSubmission_le _ _ _
      issues_of_empty := fun h => by
        rw [verdict_outcomeOf]
        exact issues_verdict_of_empty h i stored
      issues_of_space := by
        intro hnew hspace hnot
        rw [← hrefused, Bool.not_eq_true] at hnot
        rw [verdict_outcomeOf]
        refine ⟨?_, hnot⟩
        rw [verdict, checkSubmission_of_space hnew hspace hnot] }

/-- A draft under a name with a space is shown and handed over, beside a stored entry under another
name. -/
theorem submit_protocol_of_draft :
    let entries : List Entry := [.stored "a" 1 "bob" (.object [("x", .bool true)]), .draft "ann"]
    let w := ((Workbench.start (.plain "route" "ann" .expressions)
      (.ofCollection ⟨entries, some 1⟩) ()).setWorking
      (.object [("x", .bool true)])).setPendingName "b c"
    ∃ e outcome final, w.submit (noting fun _ s => (true, s)) ((), []) =
        ((.ok outcome, final), ((), [e])) ∧
      outcome.isSubmitted = true ∧ outcome.verdict.issues = [.nameHasSpaces "b c"] := by
  intro entries w
  have hs : w.Selected 1 (.draft "ann") := ⟨rfl, rfl⟩
  have hnot : ¬ w.Refused 1 (w.merged (.draft "ann")) := by
    intro hrefused
    cases hrefused with
    | empty hempty =>
        have hleft : (w.session.clean w.working w.state).1.isSome = true := by
          simp only [w, entries]
          decide +kernel
        rw [hempty] at hleft
        cases hleft
    | unnamed hnew hmissing => exact absurd hmissing (by decide)
    | @taken j other hnew hother hj hcontent hname =>
        match j with
        | 0 =>
            cases hother
            exact absurd hname (by decide)
        | 1 => exact hj rfl
        | j + 2 => cases hother
  obtain ⟨i, e, flushed, outcome, final, _, asked, hactive, hflush, -, hsubmit, hp⟩ :=
    submit_protocol (w := w) hs.activeEntry?_eq (fun _ s => (true, s)) ()
  cases hs.active.symm.trans hactive
  cases hs.flush_eq.symm.trans hflush
  rw [hp.asked_of_not_refused hnot] at hsubmit
  exact ⟨_, outcome, final, hsubmit, hp.submitted_iff.mpr ⟨hnot, rfl⟩,
    (hp.issues_of_space rfl (by decide) hnot).1⟩

end Workbench

end Curator
