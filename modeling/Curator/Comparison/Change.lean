import Curator.Json.Equality
import Curator.Pointer

/-! # Changes between documents

A change adds, removes or replaces the value at a pointer, or adds or removes a line
of text.
-/

namespace Curator

inductive Change where
  | added (path : String) (value : Json)
  | removed (path : String) (value : Json)
  | modified (path : String) (old new : Json)
  | lineAdded (content : String)
  | lineRemoved (content : String)

namespace Change

def path? : Change → Option String
  | added path _ => some path
  | removed path _ => some path
  | modified path _ _ => some path
  | lineAdded _ => none
  | lineRemoved _ => none

def toJson : Change → Json
  | added path value =>
    .object [("kind", .string "added"), ("path", .string path), ("value", value)]
  | removed path value =>
    .object [("kind", .string "removed"), ("path", .string path), ("value", value)]
  | modified path old new =>
    .object [("kind", .string "modified"), ("path", .string path), ("old", old), ("new", new)]
  | lineAdded content =>
    .object [("kind", .string "line_added"), ("content", .string content)]
  | lineRemoved content =>
    .object [("kind", .string "line_removed"), ("content", .string content)]

/-- Containers nested deeper than this are compared as a whole. -/
def depthLimit : Nat := 128

def whole (path : Pointer) (old new : Json) : List Change :=
  if old.equal new then [] else [modified path.render old new]

def addedMembers (path : Pointer) (old new : List (String × Json)) : List Change :=
  (new.filter fun m => !Members.contains m.1 old).map fun (name, value) =>
    added (Pointer.render (path ++ [.key name])) value

/-- The items of the new array from a position on, when the old one has ended. -/
def addedItems (path : Pointer) (position : Nat) : List Json → List Change
  | [] => []
  | item :: rest =>
    added (Pointer.render (path ++ [.index position])) item :: addedItems path (position + 1) rest

mutual

/-- The changes between two values at a place, which `depth` containers enclose. Members
come in the order of the old object, then the added ones in the order of the new. -/
def between (depth : Nat) (path : Pointer) (old new : Json) : List Change :=
  if depthLimit < depth then whole path old new
  else
    match old with
    | .object ms =>
      match new with
      | .object ns => memberChanges depth path ms ns ++ addedMembers path ms ns
      | _ => whole path (.object ms) new
    | .array xs =>
      match new with
      | .array ys => itemChanges depth path 0 xs ys
      | _ => whole path (.array xs) new
    | .null => whole path .null new
    | .bool b => whole path (.bool b) new
    | .number n => whole path (.number n) new
    | .string s => whole path (.string s) new
termination_by structural old

def memberChanges (depth : Nat) (path : Pointer) (old new : List (String × Json)) :
    List Change :=
  match old with
  | [] => []
  | (name, value) :: rest =>
    (match Members.get? name new with
      | some other => between (depth + 1) (path ++ [.key name]) value other
      | none => [removed (Pointer.render (path ++ [.key name])) value]) ++
      memberChanges depth path rest new
termination_by structural old

def itemChanges (depth : Nat) (path : Pointer) (position : Nat) (old new : List Json) :
    List Change :=
  match old with
  | [] => addedItems path position new
  | item :: rest =>
    match new with
    | [] =>
      removed (Pointer.render (path ++ [.index position])) item ::
        itemChanges depth path (position + 1) rest []
    | other :: more =>
      between (depth + 1) (path ++ [.index position]) item other ++
        itemChanges depth path (position + 1) rest more
termination_by structural old

end

end Change

end Curator
