import Curator.Members
import Curator.Toml.Scalar

/-! # TOML documents

A document is a row of statements: keys with values, and headers that say into which table
the next keys go. A table has one place of definition. Tables that a header or a dotted
key passes through come into being on the way and may be defined later, by the same kind
of statement.
-/

namespace Curator.Toml

/-- A member of a table that is being built. A table that only came into being on the way to
another is implicit; one that a dotted key made is dotted. -/
inductive Node where
  | value (v : Toml)
  | table (isImplicit isDotted : Bool) (members : List (String × Node))
  | tables (elements : List (List (String × Node)))

mutual

def Node.toToml : Node → Toml
  | .value v => v
  | .table _ _ members => .table (membersToToml members)
  | .tables elements => .array (elementsToToml elements)
termination_by structural node => node

def Node.membersToToml : List (String × Node) → List (String × Toml)
  | [] => []
  | (name, node) :: rest => (name, node.toToml) :: membersToToml rest
termination_by structural members => members

def Node.elementsToToml : List (List (String × Node)) → List Toml
  | [] => []
  | members :: rest => .table (membersToToml members) :: elementsToToml rest
termination_by structural elements => elements

end

abbrev Body := List (String × Node)

/-- Changes the table at the end of a path and makes the tables that are missing on the way.
Of several tables of one name the last is meant. A dotted key passes only through tables
that are implicit. -/
def Body.descend (isDotted : Bool) (change : Bool → Body → Option Body) :
    Bool → List String → Body → Option Body
  | here, [], body => change here body
  | _, key :: path, body =>
    match Members.get? key body with
    | none => do
      let inner ← descend isDotted change isDotted path []
      return Members.insert key (.table true isDotted inner) body
    | some (.table innerImplicit innerDotted inner) =>
      if isDotted && !innerImplicit then none
      else do
        let inner ← descend isDotted change innerDotted path inner
        return Members.insert key (.table innerImplicit innerDotted inner) body
    | some (.tables elements) => do
      let last ← elements.getLast?
      let inner ← descend isDotted change false path last
      return Members.insert key (.tables (elements.dropLast ++ [inner])) body
    | some (.value _) => none

/-- Adds a value under a dotted key. The key must be new, and a table that a dotted key goes
into must be one that dotted keys made. -/
def Body.addValue (path : List String) (value : Toml) (body : Body) : Option Body := do
  let key ← path.getLast?
  let parents := path.dropLast
  body.descend true (fun inDotted body =>
    if inDotted == parents.isEmpty || Members.contains key body then none
    else some (body ++ [(key, .value value)])) false parents

def Body.addValues (entries : List (List String × Toml)) (body : Body) : Option Body :=
  entries.foldlM (fun body (path, value) => body.addValue path value) body

/-- A header with the keys under it. -/
structure Section where
  isArray : Bool
  path : List String
  entries : List (List String × Toml)

/-- Adds the table of a section. It may take over an implicit table that no dotted key
made; a section of an array adds an element. -/
def Body.addSection (s : Section) (body : Body) : Option Body := do
  let key ← s.path.getLast?
  body.descend false (fun _ body =>
    if s.isArray then do
      let elements ← match Members.get? key body with
        | none => some []
        | some (.tables elements) => some elements
        | some _ => none
      let inner ← Body.addValues s.entries []
      return Members.insert key (.tables (elements ++ [inner])) body
    else do
      let start ← match Members.get? key body with
        | none => some []
        | some (.table true false inner) => some inner
        | some _ => none
      let inner ← Body.addValues s.entries start
      return Members.insert key (.table false false inner) body) false s.path.dropLast

/-- Reads the values of an array up to its bracket. -/
def itemsFrom (value : Scan Toml) : Nat → Scan (List Toml)
  | 0, _ => none
  | fuel + 1, cs =>
    match skipSpace cs with
    | ']' :: rest => some ([], rest)
    | cs => do
      let (item, rest) ← value cs
      match skipSpace rest with
      | ',' :: rest => do
        let (items, rest) ← itemsFrom value fuel rest
        return (item :: items, rest)
      | ']' :: rest => return ([item], rest)
      | _ => none

def entry? (value : Scan Toml) (cs : List Char) : Option ((List String × Toml) × List Char) := do
  let (path, rest) ← key? cs
  let rest ← char? '=' rest
  let (v, rest) ← value (skipBlanks rest)
  return ((path, v), rest)

/-- Reads one or more entries of an inline table up to its brace. -/
def entriesFrom (value : Scan Toml) : Nat → Scan (List (List String × Toml))
  | 0, _ => none
  | fuel + 1, cs => do
    let (entry, rest) ← entry? value cs
    match skipBlanks rest with
    | ',' :: rest => do
      let (entries, rest) ← entriesFrom value fuel rest
      return (entry :: entries, rest)
    | '\x7d' :: rest => return ([entry], rest)
    | _ => none

/-- Reads a value in which containers nest at most so deep. -/
def value? : Nat → Scan Toml
  | levels, '[' :: rest =>
    match levels with
    | 0 => none
    | levels + 1 => do
      let (items, rest) ← itemsFrom (value? levels) (rest.length + 1) rest
      return (.array items, rest)
  | levels, '\x7b' :: rest =>
    match levels with
    | 0 => none
    | levels + 1 =>
      match skipBlanks rest with
      | '\x7d' :: rest => some (.table [], rest)
      | _ => do
        let (entries, rest) ← entriesFrom (value? levels) (rest.length + 1) rest
        let body ← Body.addValues entries []
        return (.table (Node.membersToToml body), rest)
  | _, cs => scalar? cs

/-- Reads what may end a line: blanks, a comment, and a line end unless the text ends. -/
def endOfLine? (cs : List Char) : Option (List Char) :=
  match skipComment (skipBlanks cs) with
  | [] => some []
  | cs => lineEnd? cs

def header? : Scan (Bool × List String)
  | '[' :: '[' :: rest => do
    let (path, rest) ← key? rest
    let rest ← char? ']' rest
    let rest ← char? ']' rest
    return ((true, path), rest)
  | '[' :: rest => do
    let (path, rest) ← key? rest
    let rest ← char? ']' rest
    return ((false, path), rest)
  | _ => none

/-- Reads the entries and sections of a text: those before the first header, and the
sections after them. -/
def statementsFrom : Nat → List Char → Option (List (List String × Toml) × List Section)
  | 0, _ => none
  | fuel + 1, cs =>
    match skipSpace cs with
    | [] => some ([], [])
    | '[' :: rest => do
      let ((isArray, path), rest) ← header? ('[' :: rest)
      let rest ← endOfLine? rest
      let (entries, sections) ← statementsFrom fuel rest
      return ([], ⟨isArray, path, entries⟩ :: sections)
    | cs => do
      let (entry, rest) ← entry? (value? nestingLimit) cs
      let rest ← endOfLine? rest
      let (entries, sections) ← statementsFrom fuel rest
      return (entry :: entries, sections)

/-- Reads a document, which may start with a byte order mark. -/
def read? (text : String) : Option (List (String × Toml)) := do
  let cs := match text.toList with
    | '\uFEFF' :: rest => rest
    | cs => cs
  let (entries, sections) ← statementsFrom (cs.length + 1) cs
  let root ← Body.addValues entries []
  let root ← sections.foldlM (fun body s => Body.addSection s body) root
  return Node.membersToToml root

end Curator.Toml
