import Curator.Members
import Curator.Toml

/-! # Sections of a TOML document

A section is read field by field. It may be a table, or an array that holds the fields
in their order. A date reads as a table with a single member.
-/

namespace Curator.Toml

/-- The name under which a date stands in the table that it reads as. -/
def dateKey : String := "$__toml_private_datetime"

def asString? : Toml → Option String
  | .string s => some s
  | _ => none

def asTable? : Toml → Option (List (String × Toml))
  | .table members => some members
  | .dateTime text => some [(dateKey, .string text)]
  | _ => none

/-- The members that a value gives to a section with the named fields. -/
def asSection? (names : List String) : Toml → Option (List (String × Toml))
  | .array items => some (names.zip items)
  | value => value.asTable?

def isVacant : Toml → Bool
  | .array items => items.isEmpty
  | .table members => members.isEmpty
  | _ => false

/-- Reads a field of a section. A missing one has a default. -/
def fieldD {α : Type} (name : String) (read : Toml → Option α) (default : α)
    (members : List (String × Toml)) : Option α :=
  match Members.get? name members with
  | some value => read value
  | none => some default

end Curator.Toml
