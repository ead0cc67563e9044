import Curator.Entry
import Curator.Json.Record

/-! # Entries as records -/

namespace Curator.Entry

def fieldNames : List String :=
  ["name", "version", "author", "description", "configData", "isNew", "savedInBackend"]

/-- The record of an entry. An absent description or document is left out. -/
def toJson (e : Entry) : Json :=
  .object <|
    [("name", .string e.name), ("version", .number (.ofCount e.version.toNat)),
      ("author", .string e.author)] ++
    (e.description.map fun d => ("description", Json.string d)).toList ++
    (e.document.map fun d => ("configData", d)).toList ++
    [("isNew", .bool e.isNew), ("savedInBackend", .bool e.saved)]

/-- Reads the record of an entry. Only the name has to be there. The document nests no
deeper than a limit. -/
def ofWritten? (limit : Option Nat) (written : Json.Written) : Option Entry := do
  let r ← Json.Record.ofWritten? fieldNames written
  let name ← (← r.field? "name").asString?
  let version ← r.fieldD "version" Json.Written.asNat? 0
  let author ← r.fieldD "author" Json.Written.asString? ""
  let description ← r.fieldD "description" (Json.Written.asOption? Json.Written.asString?) none
  let document ←
    r.fieldD "configData" (Json.Written.asOption? (Json.Written.toJsonWithin? limit)) none
  let isNew ← r.fieldD "isNew" Json.Written.asBool? false
  let saved ← r.fieldD "savedInBackend" Json.Written.asBool? false
  return ⟨name, .ofNat version, author, description, document, isNew, saved⟩

def read? (text : String) : Option Entry := Json.Written.read? text >>= ofWritten? none

def readList? (text : String) : Option (List Entry) :=
  Json.Written.read? text >>= Json.Written.asList? (ofWritten? none)

/-- Reads a list of entries from the text of a file. A document stands two containers
deep in it. -/
def readListFile? (text : String) : Option (List Entry) :=
  Json.Written.read? text >>= Json.Written.asList? (ofWritten? (some (Json.fileNesting - 2)))

end Curator.Entry
