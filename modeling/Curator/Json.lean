import Curator.Number
import Curator.Members

/-! # Documents

A document is a JSON value whose objects keep the order of their members. The
names of an object are meant to be distinct; reading and every edit keep them so,
and `Json.WellFormed` says it of a whole document.
-/

namespace Curator

inductive Json where
  | null
  | bool (b : Bool)
  | number (n : Number)
  | string (s : String)
  | array (items : List Json)
  | object (members : List (String × Json))

namespace Json

inductive Kind where
  | null | boolean | number | string | array | object
deriving DecidableEq

namespace Kind

def name : Kind → String
  | null => "null"
  | boolean => "boolean"
  | number => "number"
  | string => "string"
  | array => "array"
  | object => "object"

/-- The name with its article, where it takes one. -/
def phrase : Kind → String
  | null => "null"
  | boolean => "a boolean"
  | number => "a number"
  | string => "a string"
  | array => "an array"
  | object => "an object"

end Kind

def kind : Json → Kind
  | .null => .null
  | .bool _ => .boolean
  | .number _ => .number
  | .string _ => .string
  | .array _ => .array
  | .object _ => .object

def emptyObject : Json := .object []

def member? (name : String) : Json → Option Json
  | .object members => Members.get? name members
  | _ => none

mutual

/-- Every object within has distinct names. -/
def WellFormed : Json → Prop
  | .array items => WellFormedItems items
  | .object members => Members.Distinct members ∧ WellFormedMembers members
  | _ => True
termination_by structural value => value

def WellFormedItems : List Json → Prop
  | [] => True
  | item :: rest => WellFormed item ∧ WellFormedItems rest
termination_by structural items => items

def WellFormedMembers : List (String × Json) → Prop
  | [] => True
  | (_, value) :: rest => WellFormed value ∧ WellFormedMembers rest
termination_by structural members => members

end

end Json

end Curator
