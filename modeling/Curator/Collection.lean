import Curator.Entry.Codec
import Curator.Error

/-! # Collections

A collection is a list of entries, one of which may be selected.
-/

namespace Curator

structure Collection where
  entries : List Entry
  active : Option Nat

namespace Collection

def ofEntries (entries : List Entry) : Collection := ⟨entries, none⟩

def checkIndex (c : Collection) (index : Nat) : Except Error Unit :=
  if index < c.entries.length then .ok ()
  else .error (.indexOutOfRange index c.entries.length)

def withActive (entries : List Entry) (active : Nat) : Except Error Collection :=
  ((ofEntries entries).checkIndex active).map fun _ => ⟨entries, some active⟩

def get? (c : Collection) (index : Nat) : Option Entry := c.entries[index]?

def activeEntry? (c : Collection) : Option Entry := c.active.bind c.get?

/-- The entries with another one at a position. Without one there they stay as they are. -/
def replacing (c : Collection) (index : Nat) (e : Entry) : List Entry := c.entries.set index e

/-- Another list of entries. A selection beyond it is dropped. -/
def setEntries (c : Collection) (entries : List Entry) : Collection :=
  ⟨entries, c.active.filter (· < entries.length)⟩

def toJson (c : Collection) : Json :=
  .object [("entries", .array (c.entries.map Entry.toJson)),
    ("active", match c.active with
      | some i => .number (.ofCount i)
      | none => .null)]

/-- Reads a collection. In an object the selection may be missing. -/
def ofWritten? (written : Json.Written) : Option Collection := do
  let r ← Json.Record.ofWritten? ["entries", "active"] written
  let entries ← (← r.field? "entries").asList? (Entry.ofWritten? none)
  let active ←
    match r.field? "active" with
    | some value => value.asOption? Json.Written.asNat?
    | none => if r.positional then none else some none
  return ⟨entries, active⟩

def read? (text : String) : Option Collection := Json.Written.read? text >>= ofWritten?

end Collection

end Curator
