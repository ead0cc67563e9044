import Curator.Proofs.Workbench.Flushing

/-! # When an operation fails

An operation fails for want of a selected entry, or because it is told to select one that does not
exist, and it finds out before it has changed anything. Rules, predicates and metadata can fail
within a flush, but they never make it fail.
-/

namespace Curator

/-- There is no active entry: nothing is selected, or a position beyond the entries is. -/
def Collection.Vacant (c : Collection) : Prop := ∀ i, c.active = some i → c.entries.length ≤ i

theorem Collection.vacant_iff {c : Collection} : c.Vacant ↔ c.activeEntry? = none := by
  obtain ⟨entries, active⟩ := c
  cases active with
  | none => simp [Vacant, activeEntry?]
  | some i => simp [Vacant, activeEntry?, get?]

theorem Collection.checkIndex_eq_error_iff {c : Collection} {index : Nat} {e : Error} :
    c.checkIndex index = .error e ↔
      c.entries.length ≤ index ∧ e = .indexOutOfRange index c.entries.length := by
  unfold checkIndex
  split
  · next hlt => exact ⟨nofun, fun h => absurd hlt (Nat.not_lt.mpr h.1)⟩
  · next hge => simpa [eq_comm] using fun _ => Nat.not_lt.mp hge

namespace Workbench

variable {σ τ α : Type} {w w' : Workbench σ} {e : Error}

/-- Operations that fail at once without an active entry, and give a result with one. -/
theorem eq_error_iff_vacant {outcome : Outcome σ α}
    (hnone : w.collection.activeEntry? = none → outcome = (.error .noActiveEntry, w))
    (hsome : ∀ i stored, w.Selected i stored → ∃ result after, outcome = (.ok result, after)) :
    outcome = (.error e, w') ↔ w.collection.Vacant ∧ e = .noActiveEntry ∧ w' = w := by
  rw [Collection.vacant_iff]
  cases hactive : w.collection.activeEntry? with
  | none => simp [hnone hactive, eq_comm]
  | some stored =>
      obtain ⟨i, hs⟩ := selected_of_activeEntry? hactive
      obtain ⟨result, after, hok⟩ := hsome i stored hs
      simp [hok]

theorem flush_eq_error_iff :
    w.flush = (.error e, w') ↔ w.collection.Vacant ∧ e = .noActiveEntry ∧ w' = w :=
  eq_error_iff_vacant flush_of_none fun _ _ hs => ⟨_, _, hs.flush_eq⟩

theorem Selected.test_eq {i : Nat} {stored : Entry} (h : w.Selected i stored) :
    w.test = (.ok (w.merged stored).document, w.flushed i stored) := by
  rw [test, h.flush_eq]
  rfl

theorem test_eq_error_iff :
    w.test = (.error e, w') ↔ w.collection.Vacant ∧ e = .noActiveEntry ∧ w' = w := by
  refine eq_error_iff_vacant (fun hnone => ?_) fun _ _ hs => ⟨_, _, hs.test_eq⟩
  rw [test, flush_of_none hnone]
  rfl

theorem Selected.clone_eq {i : Nat} {stored : Entry} (h : w.Selected i stored) :
    w.clone = (.ok (w.session.copy stored), w.dispatch (.addEntry (w.session.copy stored))) := by
  rw [clone, h.activeEntry?_eq]

theorem clone_eq_error_iff :
    w.clone = (.error e, w') ↔ w.collection.Vacant ∧ e = .noActiveEntry ∧ w' = w := by
  refine eq_error_iff_vacant (fun hnone => ?_) fun _ _ hs => ⟨_, _, hs.clone_eq⟩
  rw [clone, hnone]

/-- Nobody is asked for a confirmation that comes to nothing. -/
theorem submit_eq_error_iff {confirm : Entry → τ → Bool × τ} {asker asker' : τ} :
    w.submit confirm asker = ((.error e, w'), asker') ↔
      (w.collection.Vacant ∧ e = .noActiveEntry ∧ w' = w) ∧ asker' = asker := by
  have houtcome : (w.submit confirm asker).1 = (.error e, w') ↔
      w.collection.Vacant ∧ e = .noActiveEntry ∧ w' = w :=
    eq_error_iff_vacant (fun hnone => submit_of_none hnone confirm asker)
      fun _ _ hs => ⟨_, _, congrArg Prod.fst (hs.submit_eq confirm asker)⟩
  rw [Prod.ext_iff, houtcome]
  refine and_congr_right fun ⟨hvacant, _, _⟩ => ?_
  rw [submit, flush_of_none (Collection.vacant_iff.mp hvacant)]
  exact eq_comm

theorem selectionWillChange_ne_error (w : Workbench σ) (e : Error) (w' : Workbench σ) :
    w.selectionWillChange ≠ (.error e, w') := by
  rw [selectionWillChange_eq]
  exact nofun

theorem teardown_ne_error (w : Workbench σ) (activeType : String) (e : Error)
    (w' : Workbench σ) : w.teardown activeType ≠ (.error e, w') := by
  unfold teardown
  split
  · exact w.selectionWillChange_ne_error e w'
  · exact nofun

theorem select_eq_error_iff {index : Option Nat} :
    w.select index = (.error e, w') ↔
      ∃ j, index = some j ∧ w.collection.entries.length ≤ j ∧
        e = .indexOutOfRange j w.collection.entries.length ∧ w' = w := by
  unfold select
  rw [selectionWillChange_eq]
  cases index with
  | none => simp
  | some j =>
      dsimp only
      cases hchecked : w.collection.checkIndex j with
      | error fault =>
          obtain ⟨hlength, rfl⟩ := Collection.checkIndex_eq_error_iff.mp hchecked
          simp [hlength, eq_comm]
      | ok =>
          have hlt : ¬ w.collection.entries.length ≤ j := fun hlength => by
            cases hchecked.symm.trans (Collection.checkIndex_eq_error_iff.mpr ⟨hlength, rfl⟩)
          simp [hlt]

/-- Selecting fails just for a position without an entry; flushing, trying out, submitting and
cloning fail just without an active entry; and there is no other error. What fails leaves the whole
workbench as it was: the collection, the log, the working document, the pending name, the phase and
the evaluator. -/
theorem failures_announced (w : Workbench σ) :
    (∀ index e w', w.select index = (.error e, w') ↔
      ∃ j, index = some j ∧ w.collection.entries.length ≤ j ∧
        e = .indexOutOfRange j w.collection.entries.length ∧ w' = w) ∧
    (∀ e w', w.flush = (.error e, w') ↔
      w.collection.Vacant ∧ e = .noActiveEntry ∧ w' = w) ∧
    (∀ e w', w.test = (.error e, w') ↔
      w.collection.Vacant ∧ e = .noActiveEntry ∧ w' = w) ∧
    (∀ {τ : Type} (confirm : Entry → τ → Bool × τ) (asker : τ) e w' asker',
      w.submit confirm asker = ((.error e, w'), asker') ↔
        (w.collection.Vacant ∧ e = .noActiveEntry ∧ w' = w) ∧ asker' = asker) ∧
    (∀ e w', w.clone = (.error e, w') ↔
      w.collection.Vacant ∧ e = .noActiveEntry ∧ w' = w) ∧
    (∀ e w', w.selectionWillChange ≠ (.error e, w')) ∧
    ∀ activeType e w', w.teardown activeType ≠ (.error e, w') :=
  ⟨fun _ _ _ => select_eq_error_iff, fun _ _ => flush_eq_error_iff, fun _ _ => test_eq_error_iff,
    fun _ _ _ _ _ => submit_eq_error_iff, fun _ _ => clone_eq_error_iff,
    w.selectionWillChange_ne_error, w.teardown_ne_error⟩

end Workbench

end Curator
