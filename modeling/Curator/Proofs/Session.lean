import Curator.Proofs.Document.KeyOrder
import Curator.Proofs.Predicate.KeyOrder
import Curator.Proofs.Visibility.Hiding
import Curator.Session

/-! # Laws of cleaning

What is cleaned is well-formed. Two documents that differ in the order of members are
cleaned alike: predicates do not see this order, so the same fields are hidden, and what
is left is normalized to documents that differ in the order of members at most. The state
of an evaluator that answers by a function does not show either.
-/

namespace Curator

open Json (Alike SameUpToKeyOrder)

namespace Visibility.Run

variable {answer : String → Json → Option Nat → Except Predicate.Failure Bool}

theorem indistinct_eq : Indistinct answer (· = ·) where
  answer := fun _ _ h => by rw [h]
  remove := by
    rintro a _ p rfl
    cases a.remove? p with
    | none => exact .none
    | some r => exact .some rfl
  itemCount := fun _ h => by rw [h]

theorem indistinct_alike : Indistinct Predicate.evaluate Alike where
  answer := fun source index h => Predicate.evaluate_eq source h index
  remove := by
    intro a b p h
    have hrel := h.same.remove? h.wellFormed p
    generalize hremoved : a.remove? p = removed at hrel
    generalize b.remove? p = removed' at hrel
    cases hrel with
    | none => exact .none
    | some hleft => exact .some ⟨hleft.2, h.wellFormed.of_remove? hremoved⟩
  itemCount := by
    intro a b p h
    have hrel := h.same.get? h.wellFormed p
    generalize hfound : a.get? p = found at hrel
    generalize b.get? p = found' at hrel
    cases hrel with
    | none => rfl
    | some hsame =>
        cases hsame.view (h.wellFormed.of_get?_pointer hfound) with
        | array hitems => simp only [Json.itemCount?, hitems.length_eq]
        | _ => rfl

end Visibility.Run

namespace Session

variable {σ : Type} {session : Session σ}
  {answer : String → Json → Option Nat → Except Predicate.Failure Bool} {Valid : σ → Prop}
  {document document' : Json} {state state' : σ}

theorem wellFormed_of_clean (horder : session.order.WellFormed) (hd : document.WellFormed)
    {kept : Json} (h : (session.clean document state).1 = some kept) : kept.WellFormed :=
  (Visibility.wellFormed_hide session.rules state hd).of_normalize horder h

/-- The runs of the rules on two documents that are not told apart. -/
theorem matched_hide (h : session.evaluator.Answers answer Valid) {D : Json → Json → Prop}
    (hd : Visibility.Run.Indistinct answer D) (hdocument : D document document')
    (hstate : Valid state) (hstate' : Valid state') :
    Visibility.Run.Matched D Valid Valid
      (Visibility.hide session.evaluator session.rules document state)
      (Visibility.hide session.evaluator session.rules document' state') :=
  (Visibility.Run.related_matched h h hd).hide session.rules ⟨hdocument, rfl, hstate, hstate'⟩

theorem valid_clean (h : session.evaluator.Answers answer Valid) (document : Json)
    (hstate : Valid state) : Valid (session.clean document state).2.2 :=
  (matched_hide h Visibility.Run.indistinct_eq (Eq.refl document) hstate hstate).valid

/-- The state of the evaluator does not show in what is kept or reported. -/
theorem clean_eq_of_valid (h : session.evaluator.Answers answer Valid) (document : Json)
    (hstate : Valid state) (hstate' : Valid state') :
    (session.clean document state).1 = (session.clean document state').1 ∧
      (session.clean document state).2.1 = (session.clean document state').2.1 := by
  have hmatched := matched_hide h Visibility.Run.indistinct_eq (Eq.refl document) hstate hstate'
  exact ⟨congrArg (Json.normalize session.order) hmatched.document, hmatched.report⟩

/-- Documents that differ in the order of members are cleaned with the same report and to
documents that differ in it at most. Sorting leaves no difference. This is so for whoever
answers as the predicate language does, with a cache or without. -/
theorem clean_of_sameUpToKeyOrder (h : session.evaluator.Answers Predicate.evaluate Valid)
    (horder : session.order.WellFormed) (hd : document.WellFormed)
    (hsame : SameUpToKeyOrder document document') (hstate : Valid state)
    (hstate' : Valid state') :
    (session.clean document state).2.1 = (session.clean document' state').2.1 ∧
      Option.Rel SameUpToKeyOrder (session.clean document state).1
        (session.clean document' state').1 ∧
      (session.order = .sorted →
        (session.clean document state).1 = (session.clean document' state').1) := by
  -- the rules hide the same fields of both, so what is left differs as the documents did
  have hmatched := matched_hide h Visibility.Run.indistinct_alike ⟨hsame, hd⟩ hstate hstate'
  obtain ⟨hleft, hwellFormed⟩ := hmatched.document
  refine ⟨hmatched.report, hleft.normalize horder hwellFormed, fun hsorted => ?_⟩
  simp only [clean, hsorted]
  exact hleft.normalize_sorted hwellFormed

theorem clean_of_swapped_members :
    let session : Session Predicate.Cache :=
      { Session.plain "route" "ann" .cached with
        rules := ⟨[("/secret", "model.open != true")]⟩
        order := .sorted }
    let document := Json.object [("secret", .string "x"), ("open", .bool false)]
    let document' := Json.object [("open", .bool false), ("secret", .string "x")]
    (session.clean document .empty).2.1 = (session.clean document' .empty).2.1 ∧
      (session.clean document .empty).1 = (session.clean document' .empty).1 := by
  intro session document document'
  have hd : document.WellFormed := by
    simp [document, Json.WellFormed, Json.WellFormedMembers, Members.Distinct]
  have hsame : SameUpToKeyOrder document document' := .reorder (.swap _ _ _)
  obtain ⟨hreport, -, hsorted⟩ := @clean_of_sameUpToKeyOrder _ session _ _ _ _ _
    Evaluator.answers_cached trivial hd hsame Predicate.Cache.sound_empty
    Predicate.Cache.sound_empty
  exact ⟨hreport, hsorted rfl⟩

end Session

end Curator
