import Curator.Pointer.Access
import Curator.Predicate.Evaluator
import Curator.Visibility.Report
import Curator.Visibility.RuleSet

/-! # Hiding fields

The rules of a set are applied in order, each to the document that the earlier ones
left. A rule with a wildcard asks once for each element that its array has when the
rule starts. A rule that ends in its wildcard asks about all elements before it removes
any, and removes from the end, so that every position still names the element that was
asked about. An evaluation that fails hides nothing.
-/

namespace Curator.Visibility

/-- A document on its way through the rules, with the report so far and the state of
the evaluator. -/
structure Run (σ : Type) where
  document : Json
  report : Report
  state : σ

variable {σ : Type}

namespace Run

def ask (evaluator : Evaluator σ) (path predicate : String) (index : Option Nat) (run : Run σ) :
    Bool × Run σ :=
  match evaluator.ask predicate run.document index run.state with
  | (.ok answer, state) => (answer, { run with state })
  | (.error e, state) =>
    (false, { run with
      state
      report := { run.report with
        failed := run.report.failed ++ [⟨path, index, e.message⟩] } })

/-- Removes the value at a pointer, if there is one, and notes it. -/
def remove (p : Pointer) (run : Run σ) : Run σ :=
  match run.document.remove? p with
  | some (_, document) =>
    { run with
      document
      report := { run.report with removed := run.report.removed ++ [p.render] } }
  | none => run

def skip (path : String) (reason : SkipReason) (run : Run σ) : Run σ :=
  { run with report := { run.report with skipped := run.report.skipped ++ [⟨path, reason⟩] } }

def hidePlain (evaluator : Evaluator σ) (path predicate : String) (p : Pointer) (run : Run σ) :
    Run σ :=
  let (hidden, run) := run.ask evaluator path predicate none
  if hidden then run.remove p else run

/-- Applies a rule to the elements at the given positions, one after another. -/
def hideBelow (evaluator : Evaluator σ) (path predicate : String) (p : Pointer) :
    List Nat → Run σ → Run σ
  | [], run => run
  | j :: rest, run =>
    let (hidden, run) := run.ask evaluator path predicate (some j)
    hideBelow evaluator path predicate p rest (if hidden then run.remove (p.resolve [j]) else run)

def matching (evaluator : Evaluator σ) (path predicate : String) :
    List Nat → Run σ → List Nat × Run σ
  | [], run => ([], run)
  | j :: rest, run =>
    let (hidden, run) := run.ask evaluator path predicate (some j)
    let (others, run) := matching evaluator path predicate rest run
    (if hidden then j :: others else others, run)

def hideElements (evaluator : Evaluator σ) (path predicate : String) (p : Pointer)
    (positions : List Nat) (run : Run σ) : Run σ :=
  let (matched, run) := run.matching evaluator path predicate positions
  matched.reverse.foldl (fun run j => run.remove (p.resolve [j])) run

/-- Applies a rule whose only wildcard is at a place among its steps. -/
def hideWildcard (evaluator : Evaluator σ) (path predicate : String) (p : Pointer) (place : Nat)
    (run : Run σ) : Run σ :=
  let container : Pointer := p.take place
  match run.document.get? container with
  | some (.array items) =>
    let positions := List.range items.length
    if place + 1 = p.length then hideElements evaluator path predicate p positions run
    else hideBelow evaluator path predicate p positions run
  | _ => run.skip path (.missingArray container.render)

def apply (evaluator : Evaluator σ) (run : Run σ) (rule : String × String) : Run σ :=
  let (path, predicate) := rule
  let p := Pointer.parse path
  match p.wildcards with
  | [] => hidePlain evaluator path predicate p run
  | [place] => hideWildcard evaluator path predicate p place run
  | many => run.skip path (.nestedWildcard many.length)

end Run

def hide (evaluator : Evaluator σ) (rules : RuleSet) (document : Json) (state : σ) : Run σ :=
  rules.rules.foldl (Run.apply evaluator) ⟨document, .empty, state⟩

end Curator.Visibility
