import Curator.Predicate.Eval

/-! # Evaluators

Whoever hides fields asks an evaluator whether a predicate holds. An evaluator may
carry a state from one question to the next. The evaluator of this library reads the
predicate and evaluates it; a cache spares it reading a source twice.
-/

namespace Curator

/-- Answers whether a predicate holds for a document and a position, and moves on to
the next state. -/
structure Evaluator (σ : Type) where
  ask : String → Json → Option Nat → σ → Except Predicate.Failure Bool × σ

namespace Evaluator

variable {σ : Type}

/-- An evaluator whose answers depend on the question alone. -/
def ofFunction (answer : String → Json → Option Nat → Except Predicate.Failure Bool) :
    Evaluator σ := ⟨fun source document index s => (answer source document index, s)⟩

def expressions : Evaluator σ := ofFunction Predicate.evaluate

end Evaluator

namespace Predicate

/-- The predicates that have been read so far, by source. Sources that cannot be read are
not kept. -/
structure Cache where
  entries : List (String × Compiled)

namespace Cache

def empty : Cache := ⟨[]⟩

def size (cache : Cache) : Nat := cache.entries.length

/-- Reads a predicate unless it is known. -/
def compile (cache : Cache) (source : String) : Except Failure Compiled × Cache :=
  match Members.get? source cache.entries with
  | some p => (.ok p, cache)
  | none =>
    match parse source with
    | .ok p => (.ok p, ⟨Members.insert source p cache.entries⟩)
    | .error e => (.error e, cache)

def evaluate (cache : Cache) (source : String) (document : Json) (index : Option Nat) :
    Except Failure Bool × Cache :=
  let (compiled, cache) := cache.compile source
  (compiled.bind fun p => (p.holds document index).mapError .eval, cache)

end Cache

end Predicate

/-- Evaluates predicates as expressions and keeps those that it has read. -/
def Evaluator.cached : Evaluator Predicate.Cache :=
  ⟨fun source document index cache => cache.evaluate source document index⟩

end Curator
