import Curator.Document.NormalForm
import Curator.Metadata
import Curator.Visibility.Hiding

/-! # Sessions

A session holds what is needed to bring documents of one type into their stored form.
-/

namespace Curator

structure Session (σ : Type) where
  editorType : String
  user : String
  rules : RuleSet
  metadata : Metadata
  order : KeyOrder
  evaluator : Evaluator σ

namespace Session

variable {σ : Type}

/-- A session without rules, with the usual pointers and members in the order in which
they came. -/
def plain (editorType user : String) (evaluator : Evaluator σ) : Session σ :=
  ⟨editorType, user, .empty, .default, .preserve, evaluator⟩

/-- Hides fields and normalizes what is left. Also gives the report on the hidden fields and
the next state of the evaluator. -/
def clean (session : Session σ) (document : Json) (state : σ) :
    Option Json × Visibility.Report × σ :=
  let run := Visibility.hide session.evaluator session.rules document state
  (run.document.normalize session.order, run.report, run.state)

end Session

end Curator
