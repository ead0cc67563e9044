import Curator.Entry
import Curator.Json.Printer
import Curator.Json.Record
import Curator.Pointer.Access

/-! # Metadata in documents

The name, version, author and description of an entry also stand in its document, each
at a pointer that a map gives.
-/

namespace Curator

namespace Metadata

inductive Field where
  | name | version | author | description
deriving DecidableEq

namespace Field

def all : List Field := [name, version, author, description]

def title : Field → String
  | name => "name"
  | version => "version"
  | author => "author"
  | description => "description"

end Field

inductive Fault where
  | root (field : Field)
  | wildcard (field : Field)
deriving DecidableEq

def Fault.message : Fault → String
  | root field => "metadata field '" ++ field.title ++ "' cannot point at the document root"
  | wildcard field => "metadata field '" ++ field.title ++ "' cannot contain a wildcard"

end Metadata

/-- The pointers, as text, of the metadata fields. -/
structure Metadata where
  name : String
  version : String
  author : String
  description : String
deriving DecidableEq

namespace Metadata

def default : Metadata := ⟨"/name", "/version", "/author", "/description"⟩

def path (m : Metadata) : Field → String
  | .name => m.name
  | .version => m.version
  | .author => m.author
  | .description => m.description

def pointer (m : Metadata) (field : Field) : Pointer := Pointer.parse (m.path field)

def fault? (m : Metadata) (field : Field) : Option Fault :=
  if (m.pointer field).isEmpty then some (.root field)
  else if (m.pointer field).any Segment.isWildcard then some (.wildcard field)
  else none

/-- Refuses pointers to the root and pointers with wildcards, at the first such field. -/
def validate (m : Metadata) : Except Fault Unit :=
  match Field.all.findSome? m.fault? with
  | some fault => .error fault
  | none => .ok ()

def get? (m : Metadata) (document : Json) (field : Field) : Option Json :=
  document.get? (m.pointer field)

def set (m : Metadata) (document : Json) (field : Field) (value : Json) :
    Except Pointer.SetError Json :=
  document.set (m.pointer field) value

/-- Writes fields in order until a write fails. Gives the document so far and the failure,
if there was one. -/
def writeAll (m : Metadata) : Json → List (Field × Json) → Json × Option Pointer.SetError
  | document, [] => (document, none)
  | document, (field, value) :: rest =>
    match m.set document field value with
    | .ok document => writeAll m document rest
    | .error e => (document, some e)

def fieldsOf (e : Entry) : List (Field × Json) :=
  [(.name, .string e.name), (.version, .number (.ofCount e.version.toNat)),
    (.author, .string e.author)]

def mirror (m : Metadata) (document : Json) (e : Entry) : Json × Option Pointer.SetError :=
  m.writeAll document (fieldsOf e)

/-- The document with some fields written, or as it was if one of them cannot be. -/
def writeOrKeep (m : Metadata) (document : Json) (fields : List (Field × Json)) : Json :=
  match m.writeAll document fields with
  | (written, none) => written
  | (_, some _) => document

/-- The description that a document holds. A value that is not a string counts as its
text, and null as absent. -/
def descriptionOf (m : Metadata) (document : Json) : Option String :=
  match m.get? document .description with
  | none => none
  | some .null => none
  | some (.string s) => some s
  | some other => some other.compact

def toJson (m : Metadata) : Json :=
  .object (Field.all.map fun field => (field.title, .string (m.path field)))

/-- Reads a map. A missing field has its default pointer. -/
def ofWritten? (written : Json.Written) : Option Metadata := do
  let r ← Json.Record.ofWritten? (Field.all.map Field.title) written
  let name ← r.fieldD "name" Json.Written.asString? default.name
  let version ← r.fieldD "version" Json.Written.asString? default.version
  let author ← r.fieldD "author" Json.Written.asString? default.author
  let description ← r.fieldD "description" Json.Written.asString? default.description
  return ⟨name, version, author, description⟩

def read? (text : String) : Option Metadata := Json.Written.read? text >>= ofWritten?

end Metadata

end Curator
