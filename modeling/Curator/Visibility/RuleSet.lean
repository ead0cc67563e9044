import Curator.ByteOrder
import Curator.Json.Record
import Curator.Pointer

/-! # Rule sets

A rule gives, for a pointer, the predicate under which the field there is hidden. The
rules of a set are kept in the byte order of their pointers, one for each.
-/

namespace Curator

/-- Rules in pointer order: the text of a pointer and the source of a predicate. -/
structure RuleSet where
  rules : List (String × String)
deriving DecidableEq

namespace RuleSet

inductive Fault where
  | notAnObject
  | notAString (path : String)
  | nestedWildcard (path : String) (count : Nat)
deriving DecidableEq

def Fault.message : Fault → String
  | notAnObject => "Invalid rule set: rules must be a JSON object"
  | notAString path => "Invalid rule set: predicate for " ++ path ++ " must be a string"
  | nestedWildcard path count =>
    "Rule " ++ path ++ " has " ++ toString count ++ " wildcards; only one is supported"

def empty : RuleSet := ⟨[]⟩

/-- Puts a rule in its place, over the one for the same pointer. -/
def insertRule (path predicate : String) : List (String × String) → List (String × String)
  | [] => [(path, predicate)]
  | (key, old) :: rest =>
    if path = key then (path, predicate) :: rest
    else if ByteOrder.lt path key then (path, predicate) :: (key, old) :: rest
    else (key, old) :: insertRule path predicate rest

def insert (rules : RuleSet) (path predicate : String) : RuleSet :=
  ⟨insertRule path predicate rules.rules⟩

def get? (rules : RuleSet) (path : String) : Option String := Members.get? path rules.rules

def erase (rules : RuleSet) (path : String) : RuleSet := ⟨Members.erase path rules.rules⟩

def size (rules : RuleSet) : Nat := rules.rules.length

def ofList (rules : List (String × String)) : RuleSet :=
  rules.foldl (fun set (path, predicate) => set.insert path predicate) empty

/-- The rules of a document: an object of predicates by pointer. -/
def ofJson (document : Json) : Except Fault RuleSet :=
  match document with
  | .object members =>
    members.foldlM (fun set (path, value) =>
      match value with
      | .string predicate => .ok (set.insert path predicate)
      | _ => .error (.notAString path)) empty
  | _ => .error .notAnObject

/-- The rules of what is written, if that is an object of strings. -/
def ofWritten? : Json.Written → Option RuleSet
  | .object members =>
    members.foldlM (fun set (path, value) => do
      let path ← path
      match value with
      | .string (some predicate) => some (set.insert path predicate)
      | _ => none) empty
  | _ => none

/-- The rules of a text that holds an object of strings. The text is read as a document
first, so of the values that a pointer is given only the last has to be a string. -/
def read? (text : String) : Option RuleSet :=
  Json.read? text >>= fun document => ofWritten? (.ofJson document)

def toJson (rules : RuleSet) : Json :=
  .object (rules.rules.map fun (path, predicate) => (path, .string predicate))

/-- The rules with more than one wildcard. These are never applied. -/
def unsupported (rules : RuleSet) : List Fault :=
  rules.rules.filterMap fun (path, _) =>
    let count := (Pointer.parse path).wildcards.length
    if 1 < count then some (.nestedWildcard path count) else none

end RuleSet

end Curator
