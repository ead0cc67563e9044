import Curator.Pointer.Access

/-! # Changes in place

A change in place goes down into the document itself. On its way a write opens nulls and creates the
members that are missing, and what it has changed by the time it fails stays changed.
-/

namespace Curator

/-- Lets an action work on the value at a pointer, in its place. Gives the document afterwards and
what the action gave. -/
def Json.modify? {β : Type} (action : Json → Json × β) : Json → Pointer → Option (Json × β)
  | value, [] => some (action value)
  | value, s :: rest => do
    let inner ← value.child? s
    let (inner, result) ← inner.modify? action rest
    return (value.putChild s inner, result)

namespace Pointer

/-- The object with a member of that name, a new object if it was missing, and this member. -/
def enterMember (name : String) (members : List (String × Json)) : Json × Option Json :=
  match Members.get? name members with
  | some inner => (.object members, some inner)
  | none => (.object (Members.insert name .emptyObject members), some .emptyObject)

/-- One step down. Gives the value as the step leaves it, and the value below if there is one. -/
def enter (value : Json) (s : Segment) : Json × Option Json :=
  match opened value s, s with
  | .object members, .key name => enterMember name members
  | .object members, .index i => enterMember (toString i) members
  | .array items, .index i => (.array items, items[i]?)
  | other, _ => (other, none)

/-- Writes one step below a value. Gives the value afterwards and what stood in the way. -/
def assignInPlace (value : Json) (s : Segment) (new : Json) : Json × Option Obstacle :=
  match assign value s new with
  | .ok written => (written, none)
  | .error reason => (opened value s, some reason)

/-- Writes below the parent that `parents` leads to. -/
def writeInPlace (last : Segment) (new : Json) : Json → Pointer → Json × Option Obstacle
  | value, [] => assignInPlace value last new
  | value, s :: parents =>
    match enter value s with
    | (entered, some inner) =>
      let (inner, failure) := writeInPlace last new inner parents
      (entered.putChild s inner, failure)
    | (entered, none) => (entered, some .noContainer)

/-- Takes out the value one step below, if there is one. -/
def takeOut (s : Segment) (value : Json) : Json × Option Json :=
  match value, s with
  | .object members, .key name => (.object (Members.erase name members), Members.get? name members)
  | .object members, .index i =>
    (.object (Members.erase (toString i) members), Members.get? (toString i) members)
  | .array items, .index i =>
    if i < items.length then (.array (items.eraseIdx i), items[i]?) else (value, none)
  | _, _ => (value, none)

end Pointer

/-- Writes at a pointer, after a look at the whole route. Gives the document afterwards and the
failure, if there was one. -/
def Json.setInPlace (value : Json) (p : Pointer) (new : Json) : Json × Option Pointer.SetError :=
  if p.any Segment.isWildcard then (value, some (.unresolvedWildcard p))
  else
    match p.getLast? with
    | none => (new, none)
    | some last =>
      match Pointer.checkRoute [] value p.dropLast with
      | .error reason => (value, some (.obstacle p reason))
      | .ok () =>
        let (left, failure) := Pointer.writeInPlace last new value p.dropLast
        (left, failure.map (.obstacle p))

/-- Removes what stands at a pointer. Gives the document afterwards and what was removed, if
anything was. -/
def Json.removeInPlace (value : Json) (p : Pointer) : Json × Option Json :=
  match p.getLast? with
  | none => (value, none)
  | some last => (value.modify? (Pointer.takeOut last) p.dropLast).getD (value, none)

end Curator
