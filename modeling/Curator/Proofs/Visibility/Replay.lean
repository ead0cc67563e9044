import Curator.Proofs.Pointer.Site
import Curator.Proofs.Visibility.Hiding

/-! # The report as a log

A report lists the pointers of what was removed, in order. Removing at these pointers again
takes the document that was hidden from to the document that was left, whatever the evaluator
answers and however it fails.
-/

namespace Curator.Visibility

variable {σ : Type} {evaluator : Evaluator σ} {document : Json}

/-- Removes at each pointer of a report in turn, where every one has to lead to a value. -/
def replay (document : Json) (removed : List String) : Option Json :=
  removed.foldlM
    (fun document text => (document.remove? (Pointer.parse text)).map Prod.snd) document

namespace Run

variable {run : Run σ}

/-- The report of a run accounts for all that sets its document apart from the one it
started from. -/
structure Accounts (document : Json) (run : Run σ) : Prop where
  replay : Visibility.replay document run.report.removed = some run.document
  concrete : ∀ text ∈ run.report.removed, (Pointer.parse text).wildcards = []
  without : Json.Without document run.document

theorem accounts_start (document : Json) (state : σ) :
    Accounts document ⟨document, .empty, state⟩ where
  replay := rfl
  concrete := fun _ => nofun
  without := .refl document

theorem removed_ask (run : Run σ) (path predicate : String) (index : Option Nat) :
    (run.ask evaluator path predicate index).2.report.removed = run.report.removed := by
  unfold ask
  split <;> rfl

theorem Accounts.ask (h : Accounts document run) (path predicate : String) (index : Option Nat) :
    Accounts document (run.ask evaluator path predicate index).2 where
  replay := by rw [removed_ask, document_ask]; exact h.replay
  concrete := by rw [removed_ask]; exact h.concrete
  without := by rw [document_ask]; exact h.without

/-- A removal is logged at a pointer whose text reads back. -/
theorem Accounts.remove (h : Accounts document run) {p : Pointer}
    (hp : Pointer.parse p.render = p) : Accounts document (run.remove p) := by
  unfold Run.remove
  split
  · next found left hremoved =>
      constructor
      · have hlast : (run.document.remove? (Pointer.parse p.render)).map Prod.snd = some left := by
          rw [hp, hremoved]
          rfl
        have hbefore := h.replay
        unfold Visibility.replay at hbefore ⊢
        rw [List.foldlM_append, hbefore, Option.bind_eq_bind, Option.bind_some,
          List.foldlM_cons, hlast]
        rfl
      · have hlast : (Pointer.parse p.render).wildcards = [] := by
          rw [hp]
          exact Pointer.wildcards_eq_nil (Json.not_isWildcard_of_remove? hremoved)
        exact List.forall_mem_append.mpr ⟨h.concrete, List.forall_mem_singleton.mpr hlast⟩
      · exact h.without.trans (Json.without_of_remove? hremoved)
  · exact h

theorem count_le_of_addressable (hd : document.Addressable) {p : Pointer} {count : Nat}
    (h : Json.itemCount? (document.get? p) = some count) : count ≤ Segment.positionBound := by
  cases hfound : document.get? p with
  | none => rw [hfound] at h; cases h
  | some found =>
      rw [hfound] at h
      cases found with
      | array items =>
          cases h
          exact hd _ (Json.within_of_get? hfound)
      | _ => cases h

/-- Every step keeps the account. Positions read back because arrays stay as short as they
were. -/
theorem related_accounts (hd : document.Addressable) :
    Related evaluator evaluator (fun p => Pointer.parse p.render = p)
      fun run run' => run = run' ∧ Accounts document run where
  ask := by
    rintro run _ path predicate index ⟨rfl, h⟩
    exact ⟨rfl, rfl, h.ask path predicate index⟩
  remove := by
    rintro run _ p hp ⟨rfl, h⟩
    exact ⟨rfl, h.remove hp⟩
  skip := by
    rintro run _ path reason ⟨rfl, h⟩
    exact ⟨rfl, h.replay, h.concrete, h.without⟩
  itemCount := by
    rintro run _ p ⟨rfl, -⟩
    rfl
  plain := by
    intro path
    rw [← Pointer.resolve_nil (Pointer.parse path)]
    exact Pointer.parse_render_resolve path (fun _ => nofun)
  resolved := by
    rintro run _ path container count j ⟨rfl, h⟩ hcount hj
    refine Pointer.parse_render_resolve path (List.forall_mem_singleton.mpr ?_)
    have hbound := count_le_of_addressable (hd.without h.without) hcount
    omega

end Run

/-- Removing in order at the pointers that a report lists finds a value each time and leaves
the document that was left, member for member. None of the pointers has a wildcard, and
nothing was added, changed or moved. -/
theorem replay_hide (hd : document.Addressable) (rules : RuleSet) (state : σ) :
    let run := hide evaluator rules document state
    replay document run.report.removed = some run.document ∧
      (∀ text ∈ run.report.removed, (Pointer.parse text).wildcards = []) ∧
        Json.Without document run.document := by
  have hstart : (⟨document, .empty, state⟩ : Run σ) = ⟨document, .empty, state⟩ ∧
      Run.Accounts document ⟨document, .empty, state⟩ := ⟨rfl, Run.accounts_start document state⟩
  obtain ⟨-, hreplay, hconcrete, hwithout⟩ := (Run.related_accounts hd).hide rules hstart
  exact ⟨hreplay, hconcrete, hwithout⟩

/-- An evaluator that fails the first time and then holds every second time. -/
theorem replay_hide_of_two_rules :
    let evaluator : Evaluator Nat := ⟨fun _ _ _ asked =>
      (if asked = 0 then .error (.eval .indexOutsideRule) else .ok (asked % 2 = 1), asked + 1)⟩
    let rules : RuleSet := ⟨[("/items/-", "true"), ("/items/-/x", "true"), ("/note~1", "true")]⟩
    let item := Json.object [("x", .bool true)]
    let document := Json.object [("items", .array [item, item, item]), ("note/", .null)]
    let run := hide evaluator rules document 0
    run.report.removed = ["/items/1", "/items/0/x", "/note~1"] ∧
      replay document run.report.removed = some run.document := by
  intro evaluator rules item document run
  have hbound : 3 ≤ Segment.positionBound := by decide
  have hd : document.Addressable := by
    simp [document, item, Json.Addressable, Json.Numbered, hbound]
  refine ⟨?_, (replay_hide hd rules 0).1⟩
  simp only [run, document, item, rules, evaluator]
  decide +kernel

end Curator.Visibility
