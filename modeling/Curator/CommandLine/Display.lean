import Curator.Comparison.Lines
import Curator.Entry.Codec
import Curator.Submission

/-! # What commands show -/

namespace Curator.CommandLine

def prettyLine (document : Json) : String := document.pretty ++ "\n"

def changeText : Change → String
  | .added path value => "  + " ++ path ++ " " ++ value.compact ++ "\n"
  | .removed path value => "  - " ++ path ++ " " ++ value.compact ++ "\n"
  | .modified path old new => "  ~ " ++ path ++ " " ++ old.compact ++ " -> " ++ new.compact ++ "\n"
  | .lineAdded content => "  + " ++ content
  | .lineRemoved content => "  - " ++ content

def comparisonText (c : Comparison) : String :=
  if c.isEquivalent then "OK Documents are equivalent.\n"
  else
    "Diff " ++ toString c.changes.length ++ " changes (similarity " ++ c.similarity.fixed 2 ++
      ")\n\n" ++ String.join (c.changes.map changeText)

def issueText (i : Issue) : String := "  " ++ i.severity.title ++ " " ++ i.message ++ "\n"

def entryText (e : Entry) : String :=
  "Entry " ++ e.name ++ " v" ++ toString e.version.toNat ++ " by " ++ e.author ++ " (" ++
    (if e.saved then "saved" else "modified") ++ ")\n" ++
    match e.document with
    | some document => prettyLine document
    | none => "(empty document)\n"

def checkText (e : Entry) (verdict : Verdict) : String :=
  entryText e ++ "\n" ++
    if verdict.isOk then "OK Ready to submit.\n"
    else String.join (verdict.issues.map issueText)

def checkJson (e : Entry) (verdict : Verdict) : Json :=
  .object [("blocked", .bool verdict.isBlocked), ("entry", e.toJson),
    ("issues", .array (verdict.issues.map Issue.toJson))]

end Curator.CommandLine
