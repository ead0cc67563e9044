import Curator.ByteOrder
import Curator.Json
import Curator.Pointer

/-! # The order of members

Documents of one kind show the members of their objects in one order: as they came,
by name, or as a JSON schema declares them. A schema reaches below a document by
its properties, its items and its additional properties.
-/

namespace Curator

inductive KeyOrder where
  | preserve
  | sorted
  | declared (schema : Json)

namespace KeyOrder

mutual

def sortKeys : Json → Json
  | .array items => .array (sortItems items)
  | .object members =>
    .object ((sortMembers members).mergeSort fun a b => ByteOrder.le a.1 b.1)
  | .null => .null
  | .bool b => .bool b
  | .number n => .number n
  | .string s => .string s
termination_by structural value => value

def sortItems : List Json → List Json
  | [] => []
  | item :: rest => sortKeys item :: sortItems rest
termination_by structural items => items

def sortMembers : List (String × Json) → List (String × Json)
  | [] => []
  | (name, value) :: rest => (name, sortKeys value) :: sortMembers rest
termination_by structural members => members

end

/-- The schema of a member: its declared property, else the additional properties if
these are given by an object. -/
def propertySchema (name : String) (schema : Json) : Option Json :=
  match (schema.member? "properties").bind (·.member? name) with
  | some property => some property
  | none =>
    match schema.member? "additionalProperties" with
    | some (.object members) => some (.object members)
    | _ => none

/-- The schema of an item: its place in a tuple, or the one for all items. -/
def itemSchema (position : Nat) (schema : Json) : Option Json :=
  match schema.member? "items" with
  | some (.array tuple) => tuple[position]?
  | other => other

def declaredNames : Option Json → List String
  | some schema =>
    match schema.member? "properties" with
    | some (.object properties) => Members.keys properties
    | _ => []
  | none => []

/-- Puts the members with the given names first, in the order of these names. -/
def promote (names : List String) (members : List (String × Json)) : List (String × Json) :=
  names.filterMap (fun name => (Members.get? name members).map (name, ·)) ++
    members.filter fun m => !names.contains m.1

mutual

def bySchema (schema : Option Json) : Json → Json
  | .array items => .array (itemsBySchema schema 0 items)
  | .object members => .object (promote (declaredNames schema) (membersBySchema schema members))
  | .null => .null
  | .bool b => .bool b
  | .number n => .number n
  | .string s => .string s
termination_by structural value => value

def itemsBySchema (schema : Option Json) (position : Nat) : List Json → List Json
  | [] => []
  | item :: rest =>
    bySchema (schema.bind (itemSchema position)) item ::
      itemsBySchema schema (position + 1) rest
termination_by structural items => items

def membersBySchema (schema : Option Json) : List (String × Json) → List (String × Json)
  | [] => []
  | (name, value) :: rest =>
    (name, bySchema (schema.bind (propertySchema name)) value) :: membersBySchema schema rest
termination_by structural members => members

end

def stepSchema (schema : Json) : Segment → Option Json
  | .key name => propertySchema name schema
  | .index position => itemSchema position schema
  | .wildcard => itemSchema 0 schema

def schemaAt (schema : Json) (p : Pointer) : Option Json := p.foldlM stepSchema schema

/-- Orders a value that sits at the place `root` of its document. -/
def apply (order : KeyOrder) (root : Pointer) (value : Json) : Json :=
  match order with
  | .preserve => value
  | .sorted => sortKeys value
  | .declared schema => bySchema (schemaAt schema root) value

end KeyOrder

end Curator
