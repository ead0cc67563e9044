import Curator.Proofs.Pointer.Access
import Curator.Proofs.Predicate.Evaluator
import Curator.Visibility.Hiding

/-! # Hiding, step by step

Hiding asks, removes and skips, and nothing else. A relation between the runs of two
evaluators that each of these steps keeps holds of whole runs, and so does a property of
one run. Hidden documents stay well-formed. Two documents that an evaluator and the pointers
do not tell apart are hidden from alike, with the same report.
-/

namespace Curator

def Json.itemCount? : Option Json → Option Nat
  | some (.array items) => some items.length
  | _ => none

theorem Json.itemCount?_eq_none {found : Option Json} (h : ∀ items, found ≠ some (.array items)) :
    itemCount? found = none := by
  unfold itemCount?
  split
  · next items => exact absurd rfl (h items)
  · rfl

namespace Visibility

variable {σ τ : Type} {evaluator : Evaluator σ} {evaluator' : Evaluator τ}

namespace Run

theorem hideWildcard_eq (path predicate : String) (p : Pointer) (place : Nat) (run : Run σ) :
    hideWildcard evaluator path predicate p place run =
      match Json.itemCount? (run.document.get? (p.take place)) with
      | some count =>
        if place + 1 = p.length then
          hideElements evaluator path predicate p (List.range count) run
        else hideBelow evaluator path predicate p (List.range count) run
      | none => run.skip path (.missingArray (Pointer.render (p.take place))) := by
  unfold hideWildcard Json.itemCount?
  dsimp only
  cases run.document.get? (p.take place) with
  | none => rfl
  | some found => cases found <;> rfl

/-- Each step of hiding takes related runs to related runs: both evaluators give the same
answers, both documents have arrays of the same length in the same places, and parts are
removed at the pointers of rules, with a position of an array put for a wildcard. -/
structure Related (evaluator : Evaluator σ) (evaluator' : Evaluator τ)
    (Removable : Pointer → Prop) (R : Run σ → Run τ → Prop) : Prop where
  ask : ∀ {run run'} path predicate index, R run run' →
    (run.ask evaluator path predicate index).1 = (run'.ask evaluator' path predicate index).1 ∧
      R (run.ask evaluator path predicate index).2 (run'.ask evaluator' path predicate index).2
  remove : ∀ {run run'} p, Removable p → R run run' → R (run.remove p) (run'.remove p)
  skip : ∀ {run run'} path reason, R run run' → R (run.skip path reason) (run'.skip path reason)
  itemCount : ∀ {run run'} p, R run run' →
    Json.itemCount? (run.document.get? p) = Json.itemCount? (run'.document.get? p)
  plain : ∀ path, Removable (Pointer.parse path)
  resolved : ∀ {run run'} path container count j, R run run' →
    Json.itemCount? (run.document.get? container) = some count → j < count →
      Removable ((Pointer.parse path).resolve [j])

theorem matching_subset (path predicate : String) (positions : List Nat) (run : Run σ) :
    (run.matching evaluator path predicate positions).1 ⊆ positions := by
  induction positions generalizing run with
  | nil => exact List.Subset.refl _
  | cons j rest ih =>
      have hrest := ih (run.ask evaluator path predicate (some j)).2
      simp only [matching]
      split
      · exact List.cons_subset_cons j hrest
      · exact List.Subset.trans hrest (List.subset_cons_self j rest)

namespace Related

variable {Removable : Pointer → Prop} {R : Run σ → Run τ → Prop} {run : Run σ} {run' : Run τ}
  {p : Pointer} {positions : List Nat}

theorem hidePlain (h : Related evaluator evaluator' Removable R) (path predicate : String)
    (hp : Removable p) (hr : R run run') : R (Run.hidePlain evaluator path predicate p run)
      (Run.hidePlain evaluator' path predicate p run') := by
  obtain ⟨hanswer, hasked⟩ := h.ask path predicate none hr
  simp only [Run.hidePlain, ← hanswer]
  split
  · exact h.remove p hp hasked
  · exact hasked

theorem hideBelow (h : Related evaluator evaluator' Removable R) (path predicate : String)
    (hp : ∀ j ∈ positions, Removable (p.resolve [j])) (hr : R run run') :
    R (Run.hideBelow evaluator path predicate p positions run)
      (Run.hideBelow evaluator' path predicate p positions run') := by
  induction positions generalizing run run' with
  | nil => exact hr
  | cons j rest ih =>
      obtain ⟨hfirst, hrest⟩ := List.forall_mem_cons.mp hp
      obtain ⟨hanswer, hasked⟩ := h.ask path predicate (some j) hr
      simp only [Run.hideBelow, ← hanswer]
      split
      · exact ih hrest (h.remove _ hfirst hasked)
      · exact ih hrest hasked

theorem matching (h : Related evaluator evaluator' Removable R) (path predicate : String)
    (positions : List Nat) (hr : R run run') :
    (run.matching evaluator path predicate positions).1 =
        (run'.matching evaluator' path predicate positions).1 ∧
      R (run.matching evaluator path predicate positions).2
        (run'.matching evaluator' path predicate positions).2 := by
  induction positions generalizing run run' with
  | nil => exact ⟨rfl, hr⟩
  | cons j rest ih =>
      obtain ⟨hanswer, hasked⟩ := h.ask path predicate (some j) hr
      obtain ⟨hothers, hrest⟩ := ih hasked
      exact ⟨by simp only [Run.matching, hanswer, hothers], hrest⟩

theorem hideElements (h : Related evaluator evaluator' Removable R) (path predicate : String)
    (hp : ∀ j ∈ positions, Removable (p.resolve [j])) (hr : R run run') :
    R (Run.hideElements evaluator path predicate p positions run)
      (Run.hideElements evaluator' path predicate p positions run') := by
  obtain ⟨hmatched, hasked⟩ := h.matching path predicate positions hr
  have hsubset : ∀ j ∈ (run.matching evaluator path predicate positions).1.reverse,
      Removable (p.resolve [j]) := fun j hj =>
    hp j (matching_subset path predicate positions run (List.mem_reverse.mp hj))
  simp only [Run.hideElements, ← hmatched]
  generalize (run.matching evaluator path predicate positions).1.reverse = matched at hsubset
  generalize (run.matching evaluator path predicate positions).2 = asked at hasked
  generalize (run'.matching evaluator' path predicate positions).2 = asked' at hasked
  induction matched generalizing asked asked' with
  | nil => exact hasked
  | cons j rest ih =>
      obtain ⟨hfirst, hrest⟩ := List.forall_mem_cons.mp hsubset
      exact ih hrest _ _ (h.remove _ hfirst hasked)

theorem hideWildcard (h : Related evaluator evaluator' Removable R) (path predicate : String)
    (place : Nat) (hr : R run run') :
    R (Run.hideWildcard evaluator path predicate (Pointer.parse path) place run)
      (Run.hideWildcard evaluator' path predicate (Pointer.parse path) place run') := by
  rw [hideWildcard_eq, hideWildcard_eq, ← h.itemCount ((Pointer.parse path).take place) hr]
  cases hcount : Json.itemCount? (run.document.get? ((Pointer.parse path).take place)) with
  | none => exact h.skip path _ hr
  | some count =>
      have hremovable : ∀ j ∈ List.range count, Removable ((Pointer.parse path).resolve [j]) :=
        fun j hj => h.resolved path _ count j hr hcount (List.mem_range.mp hj)
      dsimp only
      split
      · exact h.hideElements path predicate hremovable hr
      · exact h.hideBelow path predicate hremovable hr

theorem apply (h : Related evaluator evaluator' Removable R) (rule : String × String)
    (hr : R run run') : R (Run.apply evaluator run rule) (Run.apply evaluator' run' rule) := by
  obtain ⟨path, predicate⟩ := rule
  simp only [Run.apply]
  split
  · exact h.hidePlain path predicate (h.plain path) hr
  · exact h.hideWildcard path predicate _ hr
  · exact h.skip path _ hr

/-- What relates two runs at the start and is kept by each step relates them at the end. -/
theorem hide (h : Related evaluator evaluator' Removable R) (rules : RuleSet)
    {document document' : Json} {state : σ} {state' : τ}
    (hr : R ⟨document, .empty, state⟩ ⟨document', .empty, state'⟩) :
    R (Visibility.hide evaluator rules document state)
      (Visibility.hide evaluator' rules document' state') := by
  unfold Visibility.hide
  generalize Run.mk document Report.empty state = run at hr
  generalize Run.mk document' Report.empty state' = run' at hr
  induction rules.rules generalizing run run' with
  | nil => exact hr
  | cons rule rest ih => exact ih _ _ (h.apply rule hr)

end Related

theorem document_ask (run : Run σ) (path predicate : String) (index : Option Nat) :
    (run.ask evaluator path predicate index).2.document = run.document := by
  unfold ask
  split <;> rfl

/-- A property of documents that removing a part keeps is kept by each step. -/
theorem related_invariant {P : Json → Prop}
    (hremove : ∀ {document p found left}, P document →
      document.remove? p = some (found, left) → P left) :
    Related evaluator evaluator (fun _ => True) fun run run' => run = run' ∧ P run.document where
  ask := by
    rintro run _ path predicate index ⟨rfl, hp⟩
    exact ⟨rfl, rfl, by rw [document_ask]; exact hp⟩
  remove := by
    rintro run _ p - ⟨rfl, hp⟩
    refine ⟨rfl, ?_⟩
    unfold remove
    split
    · exact hremove hp ‹_›
    · exact hp
  skip := by
    rintro run _ path reason ⟨rfl, hp⟩
    exact ⟨rfl, hp⟩
  itemCount := by
    rintro run _ p ⟨rfl, -⟩
    rfl
  plain := fun _ => trivial
  resolved := fun _ _ _ _ _ _ _ => trivial

/-! ## Evaluators that answer by a function -/

/-- The runs have come to documents that stand in a relation, with the same report, and both
evaluators are in states in which they answer by the function. -/
structure Matched (D : Json → Json → Prop) (Valid : σ → Prop) (Valid' : τ → Prop) (run : Run σ)
    (run' : Run τ) : Prop where
  document : D run.document run'.document
  report : run.report = run'.report
  valid : Valid run.state
  valid' : Valid' run'.state

variable {answer : String → Json → Option Nat → Except Predicate.Failure Bool}
  {D : Json → Json → Prop} {Valid : σ → Prop} {Valid' : τ → Prop}

/-- A relation of documents that neither the answers nor the arrays tell apart, and that
removing the same part keeps. -/
structure Indistinct (answer : String → Json → Option Nat → Except Predicate.Failure Bool)
    (D : Json → Json → Prop) : Prop where
  answer : ∀ {a b} source index, D a b → answer source a index = answer source b index
  remove : ∀ {a b} p, D a b → Option.Rel (fun r r' => D r.2 r'.2) (a.remove? p) (b.remove? p)
  itemCount : ∀ {a b} p, D a b → Json.itemCount? (a.get? p) = Json.itemCount? (b.get? p)

theorem related_matched (h : evaluator.Answers answer Valid) (h' : evaluator'.Answers answer Valid')
    (hd : Indistinct answer D) :
    Related evaluator evaluator' (fun _ => True) (Matched D Valid Valid') where
  ask := by
    intro run run' path predicate index hr
    have hanswer : (evaluator.ask predicate run.document index run.state).1 =
        (evaluator'.ask predicate run'.document index run'.state).1 := by
      rw [h.answer_eq _ _ _ hr.valid, h'.answer_eq _ _ _ hr.valid',
        hd.answer predicate index hr.document]
    have hvalid := h.valid predicate run.document index hr.valid
    have hvalid' := h'.valid predicate run'.document index hr.valid'
    unfold ask
    generalize evaluator.ask predicate run.document index run.state = asked at hanswer hvalid
    generalize evaluator'.ask predicate run'.document index run'.state = asked' at hanswer hvalid'
    obtain ⟨outcome, state⟩ := asked
    obtain ⟨outcome', state'⟩ := asked'
    simp only at hanswer
    subst hanswer
    cases outcome with
    | ok b => exact ⟨rfl, hr.document, hr.report, hvalid, hvalid'⟩
    | error e =>
        exact ⟨rfl, hr.document, by simp only [hr.report], hvalid, hvalid'⟩
  remove := by
    intro run run' p _ hr
    have hrel := hd.remove p hr.document
    unfold Run.remove
    generalize run.document.remove? p = removed at hrel
    generalize run'.document.remove? p = removed' at hrel
    cases hrel with
    | none => exact hr
    | some hleft => exact ⟨hleft, by simp only [hr.report], hr.valid, hr.valid'⟩
  skip := by
    intro run run' path reason hr
    exact ⟨hr.document, by simp only [skip, hr.report], hr.valid, hr.valid'⟩
  itemCount := fun p hr => hd.itemCount p hr.document
  plain := fun _ => trivial
  resolved := fun _ _ _ _ _ _ _ => trivial

end Run

theorem wellFormed_hide (rules : RuleSet) {document : Json} (state : σ) (h : document.WellFormed) :
    (hide evaluator rules document state).document.WellFormed := by
  have hkept : Run.Related evaluator evaluator (fun _ => True)
      fun run run' => run = run' ∧ run.document.WellFormed :=
    Run.related_invariant fun hp hremove => hp.of_remove? hremove
  have hstart : (⟨document, .empty, state⟩ : Run σ) = ⟨document, .empty, state⟩ ∧
      document.WellFormed := ⟨rfl, h⟩
  exact (hkept.hide rules hstart).2

end Visibility

end Curator
