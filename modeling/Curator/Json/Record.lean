import Curator.Json.Written

/-! # Records

A record is written as an object of its fields or as an array of them in order. In an
object a field may be missing and stands only once, and other members are passed over
whatever they hold. An array may stop early but has nothing after the last field.
-/

namespace Curator.Json

/-- The fields of a record as they were written. -/
structure Record where
  positional : Bool
  fields : List (String × Written)

namespace Record

/-- The members with the names of fields, if no such name comes twice. -/
def collect (names : List String) :
    List (Option String × Written) → List (String × Written) → Option (List (String × Written))
  | [], found => some found.reverse
  | (name, value) :: rest, found => do
    let name ← name
    if names.contains name then
      if Members.contains name found then none else collect names rest ((name, value) :: found)
    else collect names rest found

def ofWritten? (names : List String) : Written → Option Record
  | .object members => (collect names members []).map (⟨false, ·⟩)
  | .array items => if items.length ≤ names.length then some ⟨true, names.zip items⟩ else none
  | _ => none

def field? (r : Record) (name : String) : Option Written := Members.get? name r.fields

/-- Reads a field that may be missing, which then has a default. -/
def fieldD {α : Type} (r : Record) (name : String) (decode : Written → Option α) (default : α) :
    Option α :=
  match r.field? name with
  | some value => decode value
  | none => some default

end Record

namespace Written

def asString? : Written → Option String
  | .string s => s
  | _ => none

def asBool? : Written → Option Bool
  | .bool b => some b
  | _ => none

def asNat? : Written → Option Nat
  | .number n => n.bind Number.toNat?
  | _ => none

/-- Null stands for an absent value. -/
def asOption? {α : Type} (decode : Written → Option α) : Written → Option (Option α)
  | .null => some none
  | value => (decode value).map some

def asList? {α : Type} (decode : Written → Option α) : Written → Option (List α)
  | .array items => items.mapM decode
  | _ => none

mutual

/-- A document as it is written. -/
def ofJson : Json → Written
  | .null => .null
  | .bool b => .bool b
  | .number n => .number (some n)
  | .string s => .string (some s)
  | .array items => .array (ofItems items)
  | .object members => .object (ofMembers members)
termination_by structural value => value

def ofItems : List Json → List Written
  | [] => []
  | item :: rest => ofJson item :: ofItems rest
termination_by structural items => items

def ofMembers : List (String × Json) → List (Option String × Written)
  | [] => []
  | (name, value) :: rest => (some name, ofJson value) :: ofMembers rest
termination_by structural members => members

end

end Written

end Curator.Json
