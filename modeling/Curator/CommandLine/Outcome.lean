import Curator.CommandLine.Arguments
import Curator.Error
import Curator.Submission

/-! # Outcomes of a command line -/

namespace Curator.CommandLine

inductive Failure where
  | usage
  | cannotRead (path : String)
  | invalidJson (path : String)
  | blocked (verdict : Verdict)
  | error (e : Error)

namespace Failure

def message? : Failure → Option String
  | usage => none
  | cannotRead path => some ("Cannot read " ++ path)
  | invalidJson path => some ("Invalid JSON in " ++ path)
  | blocked verdict =>
    some ("submission blocked: " ++
      String.intercalate "; " (verdict.blocking.map Issue.message))
  | error e => e.message?

def exitCode : Failure → Nat
  | usage => 2
  | blocked _ => 2
  | cannotRead _ => 1
  | invalidJson _ => 1
  | error _ => 1

end Failure

/-- What a command prints, what it notes beside that, and how it fails after that. -/
structure Outcome where
  output : String
  note : Option String
  failure : Option Failure

namespace Outcome

def printing (output : String) : Outcome := ⟨output, none, none⟩

def noting (note : String) : Outcome := ⟨"", some note, none⟩

def failing (f : Failure) : Outcome := ⟨"", none, some f⟩

def exitCode (o : Outcome) : Nat := (o.failure.map Failure.exitCode).getD 0

def versionText : String := "cfged 0.1.0\n"

def helpText : String := String.join
  ["Usage: cfged [-v] COMMAND\n\n",
    "  clean -c FILE DOCUMENT [-o FILE]\n",
    "    Remove hidden fields and empty values from a document\n",
    "  diff OLD NEW [--json | --text]\n",
    "    Compare two documents\n",
    "  check -c FILE --collection FILE -i INDEX [-u USER] [-n NAME] [-d FILE] [--json]\n",
    "    Flush an entry of a collection and run the submission checks\n"]

def ofStop : Stop → Outcome
  | .usage => failing .usage
  | .help => printing helpText
  | .version => printing versionText

end Outcome

end Curator.CommandLine
