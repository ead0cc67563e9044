import Curator.Json

/-! # Text of documents

Documents are written in member order, either compactly or with two spaces of
indentation for each level. Strings escape the quotation mark, the backslash and
the control characters, and nothing else.
-/

namespace Curator.Json

def escapeChar (c : Char) : List Char :=
  match c with
  | '"' => ['\\', '"']
  | '\\' => ['\\', '\\']
  | '\n' => ['\\', 'n']
  | '\r' => ['\\', 'r']
  | '\t' => ['\\', 't']
  | '\x08' => ['\\', 'b']
  | '\x0c' => ['\\', 'f']
  | c =>
    if c.toNat < 0x20 then
      ['\\', 'u', '0', '0', Nat.digitChar (c.toNat / 16), Nat.digitChar (c.toNat % 16)]
    else [c]

def quote (s : String) : String :=
  String.ofList ('"' :: s.toList.flatMap escapeChar ++ ['"'])

mutual

def compact : Json → String
  | .null => "null"
  | .bool true => "true"
  | .bool false => "false"
  | .number n => n.render
  | .string s => quote s
  | .array items => "[" ++ ",".intercalate (compactItems items) ++ "]"
  | .object members => "\x7b" ++ ",".intercalate (compactMembers members) ++ "\x7d"
termination_by structural value => value

def compactItems : List Json → List String
  | [] => []
  | item :: rest => compact item :: compactItems rest
termination_by structural items => items

def compactMembers : List (String × Json) → List String
  | [] => []
  | (name, value) :: rest => (quote name ++ ":" ++ compact value) :: compactMembers rest
termination_by structural members => members

end

/-- The start of a line that is indented by `level` steps. -/
def newLine (level : Nat) : String := "\n" ++ String.ofList (List.replicate (2 * level) ' ')

/-- The lines of a container between its brackets. Empty containers stay on one line. -/
def block (level : Nat) (lines : List String) : String :=
  if lines.isEmpty then ""
  else newLine (level + 1) ++ ("," ++ newLine (level + 1)).intercalate lines ++ newLine level

mutual

/-- The document with one member or item a line, inside `level` containers. -/
def prettyAt (level : Nat) : Json → String
  | .array items => "[" ++ block level (prettyItems (level + 1) items) ++ "]"
  | .object members => "\x7b" ++ block level (prettyMembers (level + 1) members) ++ "\x7d"
  | .null => "null"
  | .bool b => if b then "true" else "false"
  | .number n => n.render
  | .string s => quote s
termination_by structural value => value

def prettyItems (level : Nat) : List Json → List String
  | [] => []
  | item :: rest => prettyAt level item :: prettyItems level rest
termination_by structural items => items

def prettyMembers (level : Nat) : List (String × Json) → List String
  | [] => []
  | (name, value) :: rest =>
    (quote name ++ ": " ++ prettyAt level value) :: prettyMembers level rest
termination_by structural members => members

end

def pretty (value : Json) : String := prettyAt 0 value

end Curator.Json
