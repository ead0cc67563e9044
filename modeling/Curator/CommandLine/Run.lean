import Curator.CommandLine.Display
import Curator.CommandLine.Outcome
import Curator.CommandLine.Request
import Curator.Comparison.Unified
import Curator.Settings
import Curator.Workbench

/-! # Running a command line

A command reads its files in a fixed order and fails at the first that cannot be used.
What it prints comes before a failure that it leads to.
-/

namespace Curator.CommandLine

variable {m : Type → Type} [Monad m]

def readFile {α : Type} (files : Files m) (decode : String → Option α) (path : String) :
    ExceptT Failure m α := do
  match ← files.read? path with
  | none => throw (.cannotRead path)
  | some text =>
    match decode text with
    | none => throw (.invalidJson path)
    | some value => return value

def loadSession (files : Files m) (path user : String) : ExceptT Failure m (Session Unit) :=
  ExceptT.adapt .error do
    let settings ← Settings.load files path
    settings.session files user Evaluator.expressions

/-- Cleans a document. When nothing is left of it, an empty object is. -/
def clean (files : Files m) (settings document : String) (output : Option String) :
    ExceptT Failure m Outcome := do
  let session ← loadSession files settings Request.defaultUser
  let document ← readFile files Json.readFile? document
  let (cleaned, _, _) := session.clean document ()
  let text := prettyLine (cleaned.getD .emptyObject)
  match output with
  | none => return .printing text
  | some path =>
    if ← files.write path text then return .noting ("OK Wrote " ++ path ++ "\n")
    else throw (.error .unreadable)

def diff (files : Files m) (old new : String) (form : DiffForm) : ExceptT Failure m Outcome := do
  let old ← readFile files Json.readFile? old
  let new ← readFile files Json.readFile? new
  let comparison := Comparison.ofDocuments old new
  return .printing <| match form with
    | .text => Unified.text old new
    | .json => prettyLine comparison.toJson
    | .summary => comparisonText comparison

/-- The entry that a submission was about. A blocked one stays selected. -/
def submittedEntry (bench : Workbench Unit) : SubmitOutcome → Except Failure Entry
  | .cancelled e _ => .ok e
  | .submitted e _ => .ok e
  | .blocked _ =>
    match bench.collection.activeEntry? with
    | some e => .ok e
    | none => .error (.error .noActiveEntry)

/-- Checks an entry as a submission would that is never confirmed. -/
def check (files : Files m) (r : CheckRequest) : ExceptT Failure m Outcome := do
  let session ← loadSession files r.settings r.user
  let entries ← readFile files Entry.readListFile? r.collection
  let collection ← (Collection.withActive entries r.index).mapError Failure.error
  let mut bench := Workbench.start session (.ofCollection collection) ()
  if let some path := r.document then
    bench := bench.setWorking (← readFile files Json.readFile? path)
  if let some name := r.name then
    bench := bench.setPendingName name
  let ((result, flushed), _) := bench.submit (fun _ asked => (false, asked)) ()
  let outcome ← result.mapError Failure.error
  let e ← submittedEntry flushed outcome
  let verdict := outcome.verdict
  let output := if r.json then prettyLine (checkJson e verdict) else checkText e verdict
  return ⟨output, none, if verdict.isBlocked then some (.blocked verdict) else none⟩

def Request.run (files : Files m) : Request → ExceptT Failure m Outcome
  | .clean settings document output => CommandLine.clean files settings document output
  | .diff old new form => CommandLine.diff files old new form
  | .check request => CommandLine.check files request

def run (files : Files m) (environmentUser : Option String) (words : List String) : m Outcome := do
  match Request.read environmentUser words with
  | .error stop => return .ofStop stop
  | .ok request =>
    match ← (request.run files).run with
    | .ok outcome => return outcome
    | .error f => return .failing f

end Curator.CommandLine
