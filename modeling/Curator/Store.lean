import Curator.Collection

/-! # The store

The store holds the collection. It is changed by commands only, and keeps a log of
these. A submitted entry counts as persisted at once.
-/

namespace Curator

inductive Command where
  | replaceAll (entries : List Entry)
  | addEntry (e : Entry)
  | submitNew (e : Entry)
  | submitEdit (e : Entry)
  | selectActive (index : Option Nat)

namespace Command

def title : Command → String
  | replaceAll _ => "ReplaceAll"
  | addEntry _ => "AddEntry"
  | submitNew _ => "SubmitNew"
  | submitEdit _ => "SubmitEdit"
  | selectActive _ => "SelectActive"

def payload : Command → Json
  | replaceAll entries => .array (entries.map Entry.toJson)
  | addEntry e => e.toJson
  | submitNew e => e.toJson
  | submitEdit e => e.toJson
  | selectActive (some i) => .number (.ofCount i)
  | selectActive none => .null

def toJson (c : Command) : Json :=
  .object [("command", .string c.title), ("payload", c.payload)]

end Command

/-- An entry as the store keeps it once it was submitted. -/
def Entry.persisted (e : Entry) : Entry := { e with isNew := false, saved := true }

namespace Collection

/-- Puts a submitted entry in the place of the selected one, or at the end. -/
def persist (c : Collection) (e : Entry) : Collection :=
  match c.active with
  | some i =>
    if i < c.entries.length then { c with entries := c.entries.set i e.persisted }
    else { c with entries := c.entries ++ [e.persisted] }
  | none => { c with entries := c.entries ++ [e.persisted] }

/-- What a command does to the collection. Selecting a position without an entry selects
nothing. -/
def apply (c : Collection) : Command → Collection
  | .replaceAll entries => c.setEntries entries
  | .addEntry e => { c with entries := c.entries ++ [e] }
  | .submitNew e => c.persist e
  | .submitEdit e => c.persist e
  | .selectActive index => { c with active := index.filter (· < c.entries.length) }

end Collection

/-- The collection with the commands that it received, oldest first. -/
structure Store where
  collection : Collection
  log : List Command

namespace Store

def ofCollection (c : Collection) : Store := ⟨c, []⟩

def dispatch (s : Store) (command : Command) : Store :=
  ⟨s.collection.apply command, s.log ++ [command]⟩

end Store

end Curator
