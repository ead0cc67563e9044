import Curator.Json

/-! # Pruning of empty values

Null and the empty string are empty, and so is a container that holds nothing but
empty values. A document is cleaned of all of them.
-/

namespace Curator.Json

mutual

/-- The document without its empty values, if anything is left. -/
def prune : Json → Option Json
  | .null => none
  | .string s => if s.isEmpty then none else some (.string s)
  | .array items =>
    match pruneItems items with
    | [] => none
    | kept => some (.array kept)
  | .object members =>
    match pruneMembers members with
    | [] => none
    | kept => some (.object kept)
  | .bool b => some (.bool b)
  | .number n => some (.number n)
termination_by structural value => value

def pruneItems : List Json → List Json
  | [] => []
  | item :: rest =>
    match prune item with
    | none => pruneItems rest
    | some kept => kept :: pruneItems rest
termination_by structural items => items

def pruneMembers : List (String × Json) → List (String × Json)
  | [] => []
  | (name, value) :: rest =>
    match prune value with
    | none => pruneMembers rest
    | some kept => (name, kept) :: pruneMembers rest
termination_by structural members => members

end

end Curator.Json
