import Curator.Error
import Curator.Files
import Curator.Path
import Curator.Session
import Curator.Toml.Document
import Curator.Toml.Section

/-! # Settings

The settings of a session are given in TOML: the type of the editor and the order of
members, the metadata pointers, and the rules. The schema of an order stands in a file of
its own, whose path is seen from the folder of the settings.
-/

namespace Curator

/-- The kinds of member orders that settings can name. -/
inductive Settings.Order where
  | preserve | sorted | schema
deriving DecidableEq

structure Settings where
  editorType : String
  order : Settings.Order
  schema : Option String
  metadata : Metadata
  rules : RuleSet
  /-- Where the settings were loaded from. -/
  folder : Option String

namespace Settings

namespace Order

def all : List Order := [preserve, sorted, schema]

def title : Order → String
  | preserve => "preserve"
  | sorted => "sorted"
  | schema => "schema"

def ofTitle? (title : String) : Option Order := all.find? (·.title == title)

/-- Reads a title, or a table in which it names something vacant. -/
def ofToml? : Toml → Option Order
  | .string title => ofTitle? title
  | .table [(title, value)] => if value.isVacant then ofTitle? title else none
  | _ => none

end Order

def readEditor? (value : Toml) : Option (String × Order × Option String) := do
  let members ← value.asSection? ["type", "ordering", "schema"]
  let editorType ← Toml.fieldD "type" Toml.asString? "" members
  let order ← Toml.fieldD "ordering" Order.ofToml? .preserve members
  let schema ← Toml.fieldD "schema" (fun v => v.asString?.map some) none members
  return (editorType, order, schema)

def readMetadata? (value : Toml) : Option Metadata := do
  let members ← value.asSection? (Metadata.Field.all.map Metadata.Field.title)
  let field (f : Metadata.Field) :=
    Toml.fieldD f.title Toml.asString? (Metadata.default.path f) members
  return ⟨← field .name, ← field .version, ← field .author, ← field .description⟩

def readRules? (value : Toml) : Option RuleSet := do
  let members ← value.asTable?
  members.foldlM (fun rules (path, predicate) =>
    predicate.asString?.map (rules.insert path)) RuleSet.empty

/-- Reads settings without a look at their meaning. -/
def ofToml? (members : List (String × Toml)) : Option Settings := do
  let (editorType, order, schema) ←
    Toml.fieldD "editor" readEditor? ("", .preserve, none) members
  let metadata ← Toml.fieldD "metadata" readMetadata? .default members
  let rules ← Toml.fieldD "rules" readRules? .empty members
  return { editorType, order, schema, metadata, rules, folder := none }

/-- Reads settings. Their metadata pointers have to serve. -/
def parse (text : String) : Except Error Settings :=
  match Toml.read? text >>= ofToml? with
  | none => .error .malformedToml
  | some settings =>
    match settings.metadata.validate with
    | .ok () => .ok settings
    | .error fault => .error (.invalidSettings (.metadata fault))

def editorJson (s : Settings) : Json :=
  .object ([("type", .string s.editorType), ("ordering", .string s.order.title)] ++
    (s.schema.map fun path => ("schema", Json.string path)).toList)

def schemaPath (s : Settings) : Option String :=
  s.schema.map fun path =>
    match s.folder with
    | some folder => Path.join folder path
    | none => path

variable {m : Type → Type} [Monad m]

def load (files : Files m) (path : String) : ExceptT Error m Settings := do
  if ← files.isPresent path then
    match ← files.read? path with
    | none => throw .unreadable
    | some text =>
      let settings ← parse text
      return { settings with folder := Path.parent? path }
  else throw (.settingsNotFound path)

/-- The order of members, for which a schema may have to be read. -/
def keyOrder (files : Files m) (s : Settings) : ExceptT Error m KeyOrder := do
  match s.order with
  | .preserve => return .preserve
  | .sorted => return .sorted
  | .schema =>
    match s.schemaPath with
    | none => throw (.invalidSettings .missingSchema)
    | some path =>
      match ← files.read? path with
      | none => throw .unreadable
      | some text =>
        match Json.readFile? text with
        | none => throw .malformedJson
        | some schema => return .declared schema

def session {σ : Type} (files : Files m) (s : Settings) (user : String)
    (evaluator : Evaluator σ) : ExceptT Error m (Session σ) := do
  let order ← s.keyOrder files
  return { editorType := s.editorType, user, rules := s.rules, metadata := s.metadata, order,
           evaluator }

end Settings

end Curator
