import Curator.Comparison.Lines
import Curator.Session
import Curator.Store
import Curator.Submission

/-! # The workbench

Edits go into a working document. When the selection changes, the editor closes, or the
entry is submitted or tried out, the working document is flushed: it is cleaned, shown
the metadata of its entry, compared with the stored document, and put into the
collection. All that can fail comes before the store is told anything.
-/

namespace Curator

/-- Whether a flush is going on. From outside it never is. -/
inductive Phase where
  | idle | flushing
deriving DecidableEq

def Phase.title : Phase → String
  | idle => "idle"
  | flushing => "flushing"

/-- A session at work on a store, with the working document, the name that a new entry is
to have, and the state of the evaluator. -/
structure Workbench (σ : Type) where
  session : Session σ
  store : Store
  working : Json
  pendingName : String
  phase : Phase
  state : σ

inductive SubmitOutcome where
  | blocked (verdict : Verdict)
  | cancelled (e : Entry) (verdict : Verdict)
  | submitted (e : Entry) (verdict : Verdict)

namespace SubmitOutcome

def verdict : SubmitOutcome → Verdict
  | blocked v => v
  | cancelled _ v => v
  | submitted _ v => v

def isSubmitted : SubmitOutcome → Bool
  | submitted _ _ => true
  | _ => false

def toJson : SubmitOutcome → Json
  | blocked v => .object [("outcome", .string "blocked"), ("report", v.toJson)]
  | cancelled e v =>
    .object [("outcome", .string "cancelled"), ("entry", e.toJson), ("report", v.toJson)]
  | submitted e v =>
    .object [("outcome", .string "submitted"), ("entry", e.toJson), ("report", v.toJson)]

end SubmitOutcome

def Entry.documentChanged (before after : Option Json) : Bool :=
  !(Comparison.ofOptional before after).isEquivalent

namespace Session

variable {σ : Type}

/-- The entry that a working document makes of a stored one. A new entry takes the pending
name and the current user. A document that cannot show its metadata stays as cleaned. -/
def merge (session : Session σ) (working : Json) (pendingName : String) (stored : Entry)
    (state : σ) : Entry × σ :=
  let (cleaned, _, state) := session.clean working state
  let named : Entry :=
    if stored.isNew then { stored with name := pendingName, version := 0, author := session.user }
    else stored
  let document := cleaned.map fun d => session.metadata.writeOrKeep d (Metadata.fieldsOf named)
  let description := document.bind session.metadata.descriptionOf
  let changed := Entry.documentChanged stored.document document
  ({ named with document, description, saved := named.saved && !changed }, state)

/-- A copy of an entry under a name of its own. If the name and the version cannot be
written, its document stays as it is. -/
def copy (session : Session σ) (source : Entry) : Entry :=
  let name := source.name ++ "_clone"
  let stored := source.document.getD .emptyObject
  let document := session.metadata.writeOrKeep stored
    [(.name, .string name), (.version, .number (.ofCount 0))]
  { name, version := 0, author := session.user, description := source.description
    document := some document, isNew := true, saved := false }

end Session

namespace Workbench

variable {σ : Type}

abbrev Outcome (σ α : Type) := Except Error α × Workbench σ

def collection (w : Workbench σ) : Collection := w.store.collection

/-- Takes over the selected entry, or starts with an empty document. -/
def loadActive (w : Workbench σ) : Workbench σ :=
  match w.collection.activeEntry? with
  | some e => { w with working := e.document.getD .emptyObject, pendingName := e.name }
  | none => { w with working := .emptyObject, pendingName := "" }

def start (session : Session σ) (store : Store) (state : σ) : Workbench σ :=
  loadActive ⟨session, store, .emptyObject, "", .idle, state⟩

def dispatch (w : Workbench σ) (command : Command) : Workbench σ :=
  { w with store := w.store.dispatch command }

def setWorking (w : Workbench σ) (document : Json) : Workbench σ := { w with working := document }

def setPendingName (w : Workbench σ) (name : String) : Workbench σ := { w with pendingName := name }

/-- Puts the working document into the selected entry. -/
def flush (w : Workbench σ) : Outcome σ Entry :=
  match w.collection.active, w.collection.activeEntry? with
  | some index, some stored =>
    let w := { w with phase := .flushing }
    let (e, state) := w.session.merge w.working w.pendingName stored w.state
    let w := { w with phase := .idle, state }
    (.ok e, w.dispatch (.replaceAll (w.collection.replacing index e)))
  | _, _ => (.error .noActiveEntry, w)

/-- Flushes if an entry is selected. -/
def selectionWillChange (w : Workbench σ) : Outcome σ (Option Entry) :=
  match w.collection.activeEntry? with
  | none => (.ok none, w)
  | some _ =>
    let (result, w) := w.flush
    (result.map some, w)

/-- Changes the selection, which has to exist. The old one is flushed before the new one
is loaded. -/
def select (w : Workbench σ) (index : Option Nat) : Outcome σ Unit :=
  let checked := match index with
    | some i => w.collection.checkIndex i
    | none => .ok ()
  match checked with
  | .error e => (.error e, w)
  | .ok () =>
    match w.selectionWillChange with
    | (.error e, w) => (.error e, w)
    | (.ok _, w) => (.ok (), (w.dispatch (.selectActive index)).loadActive)

/-- Flushes when the editor of the active type closes. -/
def teardown (w : Workbench σ) (activeType : String) : Outcome σ (Option Entry) :=
  if activeType = w.session.editorType then w.selectionWillChange else (.ok none, w)

/-- Flushes for a trial and gives the document. -/
def test (w : Workbench σ) : Outcome σ (Option Json) :=
  let (result, w) := w.flush
  (result.map Entry.document, w)

/-- Adds a copy of the selected entry, as it is stored, as a new entry. -/
def clone (w : Workbench σ) : Outcome σ Entry :=
  match w.collection.activeEntry? with
  | some source =>
    let e := w.session.copy source
    (.ok e, w.dispatch (.addEntry e))
  | none => (.error .noActiveEntry, w)

/-- Flushes and checks the selected entry and, unless it is blocked, has it confirmed and
hands it to the store. Whoever confirms may carry a state. -/
def submit {τ : Type} (w : Workbench σ) (confirm : Entry → τ → Bool × τ) (asker : τ) :
    Outcome σ SubmitOutcome × τ :=
  match w.flush with
  | (.error e, w) => ((.error e, w), asker)
  | (.ok e, w) =>
    let verdict := checkSubmission e w.collection w.collection.active
    if verdict.isBlocked then ((.ok (.blocked verdict), w), asker)
    else
      let (confirmed, asker) := confirm e asker
      if confirmed then
        let command := if e.isNew then Command.submitNew e else Command.submitEdit e
        ((.ok (.submitted e verdict), w.dispatch command), asker)
      else ((.ok (.cancelled e verdict), w), asker)

end Workbench

end Curator
