import Curator.Json
import Curator.Pointer

/-! # Access to documents by pointers

Reading follows the steps; writing creates the names that are missing on the way;
removing takes out the value that reading would find. A write looks at its whole
route first, so a failed one has changed nothing.
-/

namespace Curator

/-- The value one step below. Wildcards lead nowhere. -/
def Json.child? : Json → Segment → Option Json
  | .object members, .key name => Members.get? name members
  | .array items, .index i => items[i]?
  | .object members, .index i => Members.get? (toString i) members
  | _, _ => none

/-- Exchanges the value one step below, where there is one. -/
def Json.putChild (value : Json) (s : Segment) (new : Json) : Json :=
  match value, s with
  | .object members, .key name => .object (Members.insert name new members)
  | .array items, .index i => .array (items.set i new)
  | .object members, .index i => .object (Members.insert (toString i) new members)
  | _, _ => value

def Json.get? : Json → Pointer → Option Json
  | value, [] => some value
  | value, s :: rest => (value.child? s).bind (·.get? rest)

/-- The document with another value at a place that exists. -/
def Json.replace? : Json → Pointer → Json → Option Json
  | _, [], new => some new
  | value, s :: rest, new => do
    let inner ← value.child? s
    let inner ← inner.replace? rest new
    return value.putChild s inner

namespace Pointer

/-- What stands in the way of a write. -/
inductive Obstacle where
  | noRoute (upTo : Pointer) (found : Json.Kind)
  | noContainer
  | outOfBounds (index length : Nat)
  | parent (found : Json.Kind)

/-- Why a write failed. -/
inductive SetError where
  | unresolvedWildcard (path : Pointer)
  | obstacle (path : Pointer) (reason : Obstacle)

def Obstacle.message : Obstacle → String
  | noRoute upTo found => "cannot traverse " ++ upTo.render ++ " (" ++ found.phrase ++ ")"
  | noContainer => "intermediate node is not a container"
  | outOfBounds index length =>
    "index " ++ toString index ++ " out of bounds (len " ++ toString length ++ ")"
  | parent found => "parent is " ++ found.phrase

def SetError.message : SetError → String
  | unresolvedWildcard path => "Pointer " ++ path.render ++ " contains an unresolved wildcard"
  | obstacle path reason => "Cannot set " ++ path.render ++ ": " ++ reason.message

/-- Whether a step that leads nowhere may be created below a value. -/
def creatable : Json → Segment → Bool
  | .object _, .key _ => true
  | .null, .key _ => true
  | .object _, .index _ => true
  | _, _ => false

/-- Follows the steps to the parent until one is missing, which has to be one that may
be created. `walked` holds the steps behind, last first. -/
def checkRoute (walked : Pointer) : Json → Pointer → Except Obstacle Unit
  | _, [] => .ok ()
  | value, s :: rest =>
    match value.child? s with
    | some next => checkRoute (s :: walked) next rest
    | none =>
      if creatable value s then .ok () else .error (.noRoute (s :: walked).reverse value.kind)

/-- Null gives way to an object when a name is written below it. -/
def opened (value : Json) (s : Segment) : Json :=
  match value, s with
  | .null, .key _ => .emptyObject
  | _, _ => value

/-- Writes one step below a value. A position may be the one just past the end of an
array. -/
def assign (value : Json) (s : Segment) (new : Json) : Except Obstacle Json :=
  match opened value s, s with
  | .object members, .key name => .ok (.object (Members.insert name new members))
  | .object members, .index i => .ok (.object (Members.insert (toString i) new members))
  | .array items, .index i =>
    if i < items.length then .ok (.array (items.set i new))
    else if i = items.length then .ok (.array (items ++ [new]))
    else .error (.outOfBounds i items.length)
  | other, _ => .error (.parent other.kind)

/-- The value one step below, a new object standing in for a missing member. -/
def descend (value : Json) (s : Segment) : Except Obstacle Json :=
  match value, s with
  | .object members, .key name => .ok ((Members.get? name members).getD .emptyObject)
  | .object members, .index i => .ok ((Members.get? (toString i) members).getD .emptyObject)
  | .array items, .index i =>
    match items[i]? with
    | some item => .ok item
    | none => .error .noContainer
  | _, _ => .error .noContainer

/-- Writes below the parent that `parents` leads to. -/
def write (last : Segment) (new : Json) : Json → Pointer → Except Obstacle Json
  | value, [] => assign value last new
  | value, s :: parents => do
    let value := opened value s
    let inner ← descend value s
    let inner ← write last new inner parents
    return value.putChild s inner

end Pointer

/-- The document after a write. Missing names on the way are created. -/
def Json.set (value : Json) (p : Pointer) (new : Json) : Except Pointer.SetError Json :=
  if p.any Segment.isWildcard then .error (.unresolvedWildcard p)
  else
    match p.getLast? with
    | none => .ok new
    | some last =>
      let attempt := do
        Pointer.checkRoute [] value p.dropLast
        Pointer.write last new value p.dropLast
      attempt.mapError (.obstacle p)

/-- Takes out the value one step below, giving it and what is left. -/
def Json.removeChild? (value : Json) (s : Segment) : Option (Json × Json) :=
  (value.child? s).map fun found =>
    (found,
      match value, s with
      | .object members, .key name => .object (Members.erase name members)
      | .object members, .index i => .object (Members.erase (toString i) members)
      | .array items, .index i => .array (items.eraseIdx i)
      | _, _ => value)

/-- Takes out the value at a pointer, giving it and what is left. The root stays. -/
def Json.remove? : Json → Pointer → Option (Json × Json)
  | _, [] => none
  | value, [s] => value.removeChild? s
  | value, s :: rest => do
    let inner ← value.child? s
    let (found, inner) ← inner.remove? rest
    return (found, value.putChild s inner)

end Curator
