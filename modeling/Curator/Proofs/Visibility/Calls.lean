import Curator.Proofs.Visibility.Hiding

/-! # What an evaluator is asked

An evaluator that keeps a log of its calls answers as it does without, so hiding with it does what
hiding does and tells what was asked. A rule adds to the log, whatever was in it before.
-/

namespace Curator

structure Call where
  source : String
  document : Json
  index : Option Nat
  answer : Except Predicate.Failure Bool

namespace Call

/-- Whether the answer was that the predicate holds. A failure does not say so. -/
def holds (call : Call) : Bool :=
  match call.answer with
  | .ok answer => answer
  | .error _ => false

def failure? (path : String) (call : Call) : Option Visibility.Failed :=
  match call.answer with
  | .ok _ => none
  | .error e => some ⟨path, call.index, e.message⟩

end Call

variable {σ : Type}

/-- Notes every call behind the earlier ones. -/
def Evaluator.logged (evaluator : Evaluator σ) : Evaluator (σ × List Call) :=
  ⟨fun source document index s =>
    let asked := evaluator.ask source document index s.1
    (asked.1, asked.2, s.2 ++ [⟨source, document, index, asked.1⟩])⟩

theorem Evaluator.ask_logged (evaluator : Evaluator σ) (source : String) (document : Json)
    (index : Option Nat) (state : σ) (log : List Call) :
    evaluator.logged.ask source document index (state, log) =
      ((evaluator.ask source document index state).1, (evaluator.ask source document index state).2,
        log ++ [⟨source, document, index, (evaluator.ask source document index state).1⟩]) := rfl

namespace Visibility.Run

variable {evaluator : Evaluator σ} {path predicate : String} {run : Run σ} {log : List Call}

def withLog (run : Run σ) (log : List Call) : Run (σ × List Call) :=
  ⟨run.document, run.report, run.state, log⟩

theorem withLog_inj {run' : Run σ} {log' : List Call} (h : run.withLog log = run'.withLog log') :
    run = run' ∧ log = log' := by
  cases run
  cases run'
  cases h
  exact ⟨rfl, rfl⟩

/-! ## One call -/

def call (evaluator : Evaluator σ) (predicate : String) (index : Option Nat) (run : Run σ) : Call :=
  ⟨predicate, run.document, index, (evaluator.ask predicate run.document index run.state).1⟩

theorem ask_fst (run : Run σ) (path predicate : String) (index : Option Nat) :
    (run.ask evaluator path predicate index).1 = (run.call evaluator predicate index).holds := by
  unfold ask call Call.holds
  split <;> simp [*]

/-- Asking notes a failure and changes nothing else but the state. -/
theorem report_ask (run : Run σ) (path predicate : String) (index : Option Nat) :
    (run.ask evaluator path predicate index).2.report =
      { run.report with
        failed := run.report.failed ++
          ((run.call evaluator predicate index).failure? path).toList } := by
  unfold ask call Call.failure?
  split <;> simp [*]

theorem ask_withLog (run : Run σ) (log : List Call) (path predicate : String)
    (index : Option Nat) :
    (run.withLog log).ask evaluator.logged path predicate index =
      ((run.ask evaluator path predicate index).1,
        (run.ask evaluator path predicate index).2.withLog
          (log ++ [run.call evaluator predicate index])) := by
  simp only [ask, call, withLog, Evaluator.ask_logged]
  cases evaluator.ask predicate run.document index run.state with
  | mk outcome state => cases outcome <;> rfl

theorem remove_withLog (run : Run σ) (log : List Call) (p : Pointer) :
    (run.withLog log).remove p = (run.remove p).withLog log := by
  unfold remove withLog
  dsimp only
  cases run.document.remove? p <;> rfl

/-! ## The calls of a rule -/

theorem related_logged : Related evaluator.logged evaluator (fun _ => True)
    fun logged run => ∃ log, logged = run.withLog log where
  ask := by
    rintro _ run path predicate index ⟨log, rfl⟩
    rw [ask_withLog]
    exact ⟨rfl, _, rfl⟩
  remove := by
    rintro _ run p - ⟨log, rfl⟩
    exact ⟨log, remove_withLog run log p⟩
  skip := by
    rintro _ run path reason ⟨log, rfl⟩
    exact ⟨log, rfl⟩
  itemCount := by
    rintro _ run p ⟨log, rfl⟩
    rfl
  plain := fun _ => trivial
  resolved := fun _ _ _ _ _ _ _ => trivial

theorem related_appended (earlier : List Call) :
    Related evaluator.logged evaluator.logged (fun _ => True) fun run run' =>
      ∃ plain log, run = withLog plain (earlier ++ log) ∧ run' = withLog plain log where
  ask := by
    rintro _ _ path predicate index ⟨run, log, rfl, rfl⟩
    rw [ask_withLog, ask_withLog, List.append_assoc]
    exact ⟨rfl, _, _, rfl, rfl⟩
  remove := by
    rintro _ _ p - ⟨run, log, rfl, rfl⟩
    exact ⟨_, _, remove_withLog run _ p, remove_withLog run _ p⟩
  skip := by
    rintro _ _ path reason ⟨run, log, rfl, rfl⟩
    exact ⟨run.skip path reason, log, rfl, rfl⟩
  itemCount := by
    rintro _ _ p ⟨run, log, rfl, rfl⟩
    rfl
  plain := fun _ => trivial
  resolved := fun _ _ _ _ _ _ _ => trivial

def calls (evaluator : Evaluator σ) (run : Run σ) (rule : String × String) : List Call :=
  (Run.apply evaluator.logged (run.withLog []) rule).state.2

/-- With a log or without, a rule does the same, and its calls come behind the earlier ones. -/
theorem apply_withLog (evaluator : Evaluator σ) (run : Run σ) (log : List Call)
    (rule : String × String) :
    Run.apply evaluator.logged (run.withLog log) rule =
      (Run.apply evaluator run rule).withLog (log ++ run.calls evaluator rule) := by
  -- That a log changes nothing gives the run; that a log is only added to gives the calls.
  have hlogged : ∃ log, Run.apply evaluator.logged (run.withLog []) rule =
      (Run.apply evaluator run rule).withLog log := related_logged.apply rule ⟨[], rfl⟩
  have happended : ∃ plain own,
      Run.apply evaluator.logged (run.withLog log) rule = withLog plain (log ++ own) ∧
        Run.apply evaluator.logged (run.withLog []) rule = withLog plain own :=
    (related_appended log).apply rule ⟨run, [], by rw [List.append_nil], rfl⟩
  obtain ⟨_, hplain⟩ := hlogged
  obtain ⟨plain, own, hbehind, hown⟩ := happended
  obtain ⟨rfl, -⟩ := withLog_inj (hplain.symm.trans hown)
  rw [hbehind, calls, hown]
  rfl

end Visibility.Run

end Curator
