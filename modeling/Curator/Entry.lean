import Curator.Json

/-! # Entries

An entry is a document under a name, with what the store needs to know about it.
-/

namespace Curator

structure Entry where
  name : String
  /-- Zero for entries that were never stored. -/
  version : UInt64
  author : String
  /-- Read from the document whenever it is flushed. -/
  description : Option String
  /-- Absent when nothing is left of the document. -/
  document : Option Json
  isNew : Bool
  /-- Cleared when a flush changes the document. -/
  saved : Bool

namespace Entry

def stored (name : String) (version : UInt64) (author : String) (document : Json) : Entry :=
  ⟨name, version, author, none, some document, false, true⟩

def draft (author : String) : Entry := ⟨"", 0, author, none, none, true, false⟩

/-- Whether the entry carries a document with any content. -/
def hasDocument (e : Entry) : Bool :=
  match e.document with
  | none => false
  | some .null => false
  | some (.object members) => !members.isEmpty
  | some (.array items) => !items.isEmpty
  | some _ => true

end Entry

end Curator
