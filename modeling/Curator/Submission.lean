import Curator.Collection

/-! # Checks before a submission

The checks run in a fixed order and stop at the first issue that blocks. A document has
to have content. The name of a new entry has to be given and to differ from those of
the other entries with content, and it should have no space.
-/

namespace Curator

inductive Severity where
  | warning | error
deriving DecidableEq

def Severity.title : Severity → String
  | warning => "warning"
  | error => "error"

inductive Issue where
  | emptyDocument
  | missingName
  | duplicateName (name : String)
  | nameHasSpaces (name : String)
deriving DecidableEq

namespace Issue

def severity : Issue → Severity
  | nameHasSpaces _ => .warning
  | _ => .error

def isBlocking (i : Issue) : Bool := i.severity == .error

def message : Issue → String
  | emptyDocument => "No data inputted to form"
  | missingName => "A name must be provided"
  | duplicateName _ => "Config name must be unique"
  | nameHasSpaces _ => "Config names cannot contain spaces"

def toJson : Issue → Json
  | emptyDocument => .object [("kind", .string "empty_document")]
  | missingName => .object [("kind", .string "missing_name")]
  | duplicateName name => .object [("kind", .string "duplicate_name"), ("name", .string name)]
  | nameHasSpaces name => .object [("kind", .string "name_has_spaces"), ("name", .string name)]

end Issue

structure Verdict where
  issues : List Issue

namespace Verdict

def isOk (v : Verdict) : Bool := v.issues.isEmpty

def isBlocked (v : Verdict) : Bool := v.issues.any Issue.isBlocking

def blocking (v : Verdict) : List Issue := v.issues.filter Issue.isBlocking

def warnings (v : Verdict) : List Issue := v.issues.filter fun i => !i.isBlocking

def toJson (v : Verdict) : Json := .object [("issues", .array (v.issues.map Issue.toJson))]

end Verdict

/-- Whether an entry with content, at another position than `index`, has a name. The
entries start at the position `start`. -/
def nameTaken (name : String) (index : Option Nat) (start : Nat) : List Entry → Bool
  | [] => false
  | e :: rest =>
    (some start != index && e.hasDocument && e.name == name) ||
      nameTaken name index (start + 1) rest

def checkSubmission (e : Entry) (c : Collection) (index : Option Nat) : Verdict :=
  if !e.hasDocument then ⟨[.emptyDocument]⟩
  else if !e.isNew then ⟨[]⟩
  else if e.name.isEmpty then ⟨[.missingName]⟩
  else if nameTaken e.name index 0 c.entries then ⟨[.duplicateName e.name]⟩
  else if e.name.toList.contains ' ' then ⟨[.nameHasSpaces e.name]⟩
  else ⟨[]⟩

end Curator
