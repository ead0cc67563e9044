import Curator.Submission
import Mathlib.Data.List.Basic

/-! # What the checks before a submission find

A submission is blocked by its document or, if the entry is new, by its name. No more than one
issue is reported, and a space in a name blocks nothing.
-/

namespace Curator

variable {name : String} {index : Option Nat} {start : Nat} {entries : List Entry} {e : Entry}
  {c : Collection}

/-- A name is taken by an entry with content at another position. -/
theorem nameTaken_iff :
    nameTaken name index start entries = true ↔
      ∃ (j : Nat) (other : Entry), entries[j]? = some other ∧ some (start + j) ≠ index ∧
        other.hasDocument = true ∧ other.name = name := by
  induction entries generalizing start with
  | nil => simp [nameTaken]
  | cons first rest ih =>
      have hfirst : (some start != index && first.hasDocument && first.name == name) = true ↔
          some start ≠ index ∧ first.hasDocument = true ∧ first.name = name := by
        simp [and_assoc]
      rw [nameTaken, Bool.or_eq_true, hfirst, ih]
      constructor
      · rintro (h | ⟨j, other, hother, h⟩)
        · exact ⟨0, first, rfl, h⟩
        · exact ⟨j + 1, other, hother, by rwa [← Nat.add_assoc, Nat.add_right_comm]⟩
      · rintro ⟨j, other, hother, h⟩
        cases j with
        | zero =>
            cases hother
            exact .inl h
        | succ j => exact .inr ⟨j, other, hother, by rwa [Nat.add_right_comm, Nat.add_assoc]⟩

/-- The checks come to at most one issue. -/
theorem length_issues_checkSubmission_le (e : Entry) (c : Collection) (index : Option Nat) :
    (checkSubmission e c index).issues.length ≤ 1 := by
  unfold checkSubmission
  repeat' split
  all_goals simp

/-- Without a document nothing else is looked at. -/
theorem checkSubmission_of_hasDocument_eq_false (h : e.hasDocument = false) :
    checkSubmission e c index = ⟨[.emptyDocument]⟩ := by
  simp [checkSubmission, h]

theorem isBlocked_checkSubmission_iff :
    (checkSubmission e c index).isBlocked = true ↔
      e.hasDocument = false ∨
        e.isNew = true ∧ (e.name = "" ∨ nameTaken e.name index 0 c.entries = true) := by
  cases hdocument : e.hasDocument with
  | false =>
      rw [checkSubmission_of_hasDocument_eq_false hdocument]
      simp [Verdict.isBlocked, Issue.isBlocking, Issue.severity]
  | true =>
      cases hnew : e.isNew with
      | false => simp [checkSubmission, hdocument, hnew, Verdict.isBlocked]
      | true =>
          by_cases hempty : e.name = ""
          · simp [checkSubmission, hdocument, hnew, hempty, Verdict.isBlocked, Issue.isBlocking,
              Issue.severity]
          · cases htaken : nameTaken e.name index 0 c.entries with
            | true =>
                simp [checkSubmission, hdocument, hnew, hempty, htaken, Verdict.isBlocked,
                  Issue.isBlocking, Issue.severity]
            | false =>
                by_cases hspace : ' ' ∈ e.name.toList
                · simp [checkSubmission, hdocument, hnew, hempty, htaken, hspace, Verdict.isBlocked,
                    Issue.isBlocking, Issue.severity]
                · simp [checkSubmission, hdocument, hnew, hempty, htaken, hspace,
                    Verdict.isBlocked]

/-- A new name with a space is reported if nothing blocks, and nothing is blocked by it. -/
theorem checkSubmission_of_space (hnew : e.isNew = true) (hspace : ' ' ∈ e.name.toList)
    (h : (checkSubmission e c index).isBlocked = false) :
    checkSubmission e c index = ⟨[.nameHasSpaces e.name]⟩ := by
  rw [← Bool.not_eq_true, isBlocked_checkSubmission_iff] at h
  push Not at h
  obtain ⟨hdocument, hname⟩ := h
  obtain ⟨hgiven, hfree⟩ := hname hnew
  simp_all [checkSubmission]

end Curator
