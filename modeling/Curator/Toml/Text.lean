import Curator.Digits
import Curator.Toml

/-! # Strings, keys and spaces of TOML texts

A scanner takes what it is for from the front of a text and gives the rest.
-/

namespace Curator.Toml

abbrev Scan (α : Type) := List Char → Option (α × List Char)

def isBlank (c : Char) : Bool := c == ' ' || c == '\t'

/-- Whether a character may stand in a comment or a string as it is. Control characters
other than the tab may not. -/
def isPlain (c : Char) : Bool := c == '\t' || (0x20 ≤ c.toNat && c.toNat != 0x7f)

def isBareKey (c : Char) : Bool := c.isAlphanum || c == '_' || c == '-'

def skipBlanks (cs : List Char) : List Char := cs.dropWhile isBlank

/-- What follows a line end, which is a line feed, with or without a carriage return. -/
def lineEnd? : List Char → Option (List Char)
  | '\n' :: rest => some rest
  | '\r' :: '\n' :: rest => some rest
  | _ => none

def skipComment : List Char → List Char
  | '#' :: rest => rest.dropWhile isPlain
  | cs => cs

/-- Skips blanks, comments and line ends, as far as there are any. -/
def skipLines : Nat → List Char → List Char
  | 0, cs => cs
  | fuel + 1, cs =>
    let cs := skipComment (skipBlanks cs)
    match lineEnd? cs with
    | some rest => skipLines fuel rest
    | none => cs

def skipSpace (cs : List Char) : List Char := skipLines (cs.length + 1) cs

/-- The character that an escape stands for, from behind its backslash. -/
def escape? : Scan Char
  | 'b' :: rest => some ('\x08', rest)
  | 't' :: rest => some ('\t', rest)
  | 'n' :: rest => some ('\n', rest)
  | 'f' :: rest => some ('\x0c', rest)
  | 'r' :: rest => some ('\r', rest)
  | '"' :: rest => some ('"', rest)
  | '\\' :: rest => some ('\\', rest)
  | 'u' :: rest => code 4 rest
  | 'U' :: rest => code 8 rest
  | _ => none
where
  /-- A character by its number in so many hexadecimal digits. -/
  code (width : Nat) (cs : List Char) : Option (Char × List Char) := do
    let n ← if cs.length < width then none else Digits.hexValue? (cs.take width)
    if n.isValidChar then some (Char.ofNat n, cs.drop width) else none

/-- A string of one line up to its closing mark. Double quotation marks allow escapes. -/
def lineString? (mark : Char) : Nat → Scan (List Char)
  | 0, _ => none
  | fuel + 1, cs =>
    match cs with
    | [] => none
    | c :: rest =>
      if c = mark then some ([], rest)
      else if c = '\\' && mark == '"' then do
        let (c, rest) ← escape? rest
        let (body, rest) ← lineString? mark fuel rest
        return (c :: body, rest)
      else if isPlain c then do
        let (body, rest) ← lineString? mark fuel rest
        return (c :: body, rest)
      else none

def skipGaps : List Char → List Char
  | ' ' :: rest => skipGaps rest
  | '\t' :: rest => skipGaps rest
  | '\n' :: rest => skipGaps rest
  | '\r' :: '\n' :: rest => skipGaps rest
  | cs => cs

/-- What follows a backslash at the end of a line: the text goes on at its next character. -/
def joinLines? (cs : List Char) : Option (List Char) :=
  (lineEnd? (skipBlanks cs)).map skipGaps

/-- A string of several lines up to its three closing marks. One or two marks may stand
inside, also right before the closing ones. Line ends become line feeds. -/
def blockString? (mark : Char) : Nat → Scan (List Char)
  | 0, _ => none
  | fuel + 1, cs =>
    match cs with
    | [] => none
    | c :: rest =>
      if c = mark then
        let count := (cs.takeWhile (· == mark)).length
        if 5 < count then none
        else if 3 ≤ count then some (List.replicate (count - 3) mark, cs.drop count)
        else do
          let (body, rest) ← blockString? mark fuel (cs.drop count)
          return (List.replicate count mark ++ body, rest)
      else if c = '\\' && mark == '"' then
        match joinLines? rest with
        | some rest => blockString? mark fuel rest
        | none => do
          let (c, rest) ← escape? rest
          let (body, rest) ← blockString? mark fuel rest
          return (c :: body, rest)
      else
        match lineEnd? cs with
        | some rest => do
          let (body, rest) ← blockString? mark fuel rest
          return ('\n' :: body, rest)
        | none =>
          if isPlain c then do
            let (body, rest) ← blockString? mark fuel rest
            return (c :: body, rest)
          else none

/-- A string in any of its four forms. A line end right after three opening marks does not
count. -/
def string? : Scan String
  | '"' :: '"' :: '"' :: rest => block '"' rest
  | '\'' :: '\'' :: '\'' :: rest => block '\'' rest
  | '"' :: rest => line '"' rest
  | '\'' :: rest => line '\'' rest
  | _ => none
where
  block (mark : Char) (cs : List Char) : Option (String × List Char) :=
    let cs := (lineEnd? cs).getD cs
    (blockString? mark (cs.length + 1) cs).map fun (body, rest) => (String.ofList body, rest)
  line (mark : Char) (cs : List Char) : Option (String × List Char) :=
    (lineString? mark (cs.length + 1) cs).map fun (body, rest) => (String.ofList body, rest)

/-- One part of a key: bare, or a string of one line. -/
def keyPart? (cs : List Char) : Option (String × List Char) :=
  match cs with
  | '"' :: rest => string?.line '"' rest
  | '\'' :: rest => string?.line '\'' rest
  | _ =>
    let name := cs.takeWhile isBareKey
    if name.isEmpty then none else some (String.ofList name, cs.dropWhile isBareKey)

/-- The parts of a key between dots, with the blanks around them. -/
def keyParts? : Nat → Scan (List String)
  | 0, _ => none
  | fuel + 1, cs => do
    let (part, rest) ← keyPart? (skipBlanks cs)
    match skipBlanks rest with
    | '.' :: rest => do
      let (parts, rest) ← keyParts? fuel rest
      return (part :: parts, rest)
    | rest => return ([part], rest)

/-- The greatest number of parts of a key, and of containers inside each other. -/
def nestingLimit : Nat := 79

def key? (cs : List Char) : Option (List String × List Char) := do
  let (parts, rest) ← keyParts? (cs.length + 1) cs
  if parts.length ≤ nestingLimit then some (parts, rest) else none

end Curator.Toml
