import Curator.Predicate.Evaluator
import Curator.Proofs.Members

/-! # What evaluators answer

An evaluator answers by a function when its state does not show in its answers. A cache
is such a state: as long as it holds only what reading gives, looking a source up and
reading it are the same.
-/

namespace Curator

variable {σ : Type} {answer : String → Json → Option Nat → Except Predicate.Failure Bool}

/-- In a valid state the evaluator answers as the function does, and it stays in valid
states. -/
structure Evaluator.Answers (evaluator : Evaluator σ)
    (answer : String → Json → Option Nat → Except Predicate.Failure Bool) (Valid : σ → Prop) :
    Prop where
  answer_eq : ∀ {state} source document index, Valid state →
    (evaluator.ask source document index state).1 = answer source document index
  valid : ∀ {state} source document index, Valid state →
    Valid (evaluator.ask source document index state).2

theorem Evaluator.answers_ofFunction :
    (ofFunction answer : Evaluator σ).Answers answer fun _ => True :=
  ⟨fun _ _ _ _ => rfl, fun _ _ _ _ => trivial⟩

theorem Evaluator.answers_expressions :
    (expressions : Evaluator σ).Answers Predicate.evaluate fun _ => True := answers_ofFunction

namespace Predicate.Cache

def Sound (cache : Cache) : Prop :=
  ∀ source p, Members.get? source cache.entries = some p → parse source = .ok p

theorem sound_empty : Sound empty := fun _ _ => nofun

theorem Sound.compile_eq {cache : Cache} (h : cache.Sound) (source : String) :
    (cache.compile source).1 = parse source := by
  unfold compile
  split
  · next p hp => exact (h source p hp).symm
  · split <;> simp [*]

theorem Sound.compile {cache : Cache} (h : cache.Sound) (source : String) :
    (cache.compile source).2.Sound := by
  unfold Cache.compile
  split
  · exact h
  · split
    · next p hparse =>
        intro other q hq
        rw [Members.get?_insert] at hq
        split at hq
        · next hname =>
            cases hq
            exact hname ▸ hparse
        · exact h other q hq
    · exact h

end Predicate.Cache

theorem Evaluator.answers_cached :
    Evaluator.cached.Answers Predicate.evaluate Predicate.Cache.Sound where
  answer_eq := by
    intro cache source document index h
    change (cache.compile source).1.bind _ = _
    rw [h.compile_eq]
    rfl
  valid := fun source _ _ h => h.compile source

end Curator
