/-! # Computations that may fail

When a sequence of two succeeds, what a sequence ensures of its result and of its failure, and
when two runs of one sequence go alike: both fail in the same way, or both give results that
stand in a relation.
-/

namespace Curator

variable {ε α β α' β' : Type}

theorem bind_eq_ok_iff {x : Except ε α} {f : α → Except ε β} {b : β} :
    (x >>= f) = .ok b ↔ ∃ a, x = .ok a ∧ f a = .ok b := by
  cases x with
  | error e => exact ⟨nofun, fun ⟨_, h, _⟩ => nomatch h⟩
  | ok a => exact ⟨fun h => ⟨a, rfl, h⟩, fun ⟨_, h, h'⟩ => by cases h; exact h'⟩

/-- A result has the one property, and a failure the other. -/
def Ensures (P : α → Prop) (Q : ε → Prop) : Except ε α → Prop
  | .ok a => P a
  | .error e => Q e

namespace Ensures

variable {P P' : α → Prop} {Q Q' : ε → Prop} {R : β → Prop} {x : Except ε α}

theorem bind {f : α → Except ε β} (h : Ensures P Q x) (hf : ∀ a, P a → Ensures R Q (f a)) :
    Ensures R Q (x >>= f) := by
  cases x with
  | error e => exact h
  | ok a => exact hf a h

theorem mono (h : Ensures P Q x) (hP : ∀ a, P a → P' a) (hQ : ∀ e, Q e → Q' e) :
    Ensures P' Q' x := by
  cases x with
  | error e => exact hQ e h
  | ok a => exact hP a h

end Ensures

/-- Both computations fail in the same way or give related results. -/
inductive SameOutcome (R : α → α' → Prop) : Except ε α → Except ε α' → Prop where
  | error (e : ε) : SameOutcome R (.error e) (.error e)
  | ok {a : α} {a' : α'} (h : R a a') : SameOutcome R (.ok a) (.ok a')

namespace SameOutcome

variable {R : α → α' → Prop} {S : β → β' → Prop} {x : Except ε α} {y : Except ε α'}

theorem bind {f : α → Except ε β} {g : α' → Except ε β'} (h : SameOutcome R x y)
    (hfg : ∀ a a', R a a' → SameOutcome S (f a) (g a')) : SameOutcome S (x >>= f) (y >>= g) := by
  cases h with
  | error e => exact .error e
  | ok h => exact hfg _ _ h

theorem map_eq {f : α → β} {g : α' → β} (h : SameOutcome R x y)
    (hfg : ∀ a a', R a a' → f a = g a') : x.map f = y.map g := by
  cases h with
  | error e => rfl
  | ok h => exact congrArg Except.ok (hfg _ _ h)

end SameOutcome

end Curator
