import Curator.Json

/-! # Documents as written

A JSON text is first read as it stands: names may repeat, and a number beyond the
floats or a string with half a surrogate pair denotes nothing. Only a part of the
text that is used has to denote something, so the choice of what to refuse is left
to the reader of a value.
-/

namespace Curator.Json

/-- A JSON text by its grammar alone. -/
inductive Written where
  | null
  | bool (b : Bool)
  | number (n : Option Number)
  | string (s : Option String)
  | array (items : List Written)
  | object (members : List (Option String × Written))

namespace Written

/-- The marks that a text consists of, spaces apart. -/
inductive Mark where
  | openArray | closeArray | openObject | closeObject | comma | colon
  | text (s : Option String)
  | leaf (value : Written)

def isSpace (c : Char) : Bool := c == ' ' || c == '\t' || c == '\n' || c == '\r'

/-- The code units of a string up to its closing quotation mark, and the rest. -/
def stringUnits : List Char → Option (List Nat × List Char)
  | [] => none
  | '"' :: rest => some ([], rest)
  | '\\' :: 'u' :: a :: b :: c :: d :: rest => do
    let unit ← Digits.hexValue? [a, b, c, d]
    let (units, rest) ← stringUnits rest
    return (unit :: units, rest)
  | '\\' :: c :: rest => do
    let unit ← match c with
      | '"' | '\\' | '/' => some c
      | 'b' => some '\x08'
      | 'f' => some '\x0c'
      | 'n' => some '\n'
      | 'r' => some '\r'
      | 't' => some '\t'
      | _ => none
    let (units, rest) ← stringUnits rest
    return (unit.toNat :: units, rest)
  | c :: rest =>
    if c.toNat < 0x20 then none
    else do
      let (units, rest) ← stringUnits rest
      return (c.toNat :: units, rest)

def isHighSurrogate (unit : Nat) : Bool := 0xD800 ≤ unit && unit < 0xDC00

def isLowSurrogate (unit : Nat) : Bool := 0xDC00 ≤ unit && unit < 0xE000

/-- The characters of a row of code units, if every surrogate has its other half. -/
def decodeUnits : List Nat → Option (List Char)
  | [] => some []
  | [unit] => if isHighSurrogate unit || isLowSurrogate unit then none else some [Char.ofNat unit]
  | high :: low :: rest =>
    if isHighSurrogate high && isLowSurrogate low then
      (decodeUnits rest).map
        (Char.ofNat (0x10000 + (high - 0xD800) * 0x400 + (low - 0xDC00)) :: ·)
    else if isHighSurrogate high || isLowSurrogate high then none
    else (decodeUnits (low :: rest)).map (Char.ofNat high :: ·)

/-- A numeral and the rest. A leading zero stands alone. -/
def numeral? (cs : List Char) : Option (Numeral × List Char) := do
  let (negative, cs) := match cs with
    | '-' :: rest => (true, rest)
    | _ => (false, cs)
  let (whole, cs) ← Digits.split? cs
  if whole.head? == some '0' && whole.length != 1 then none
  else
    let (fraction, cs) ← match cs with
      | '.' :: rest => (Digits.split? rest).map fun (ds, rest) => (some ds, rest)
      | _ => some (none, cs)
    let (exponent, cs) ← match cs with
      | c :: rest =>
        if c == 'e' || c == 'E' then
          let (sign, rest) : Int × List Char := match rest with
            | '-' :: rest => (-1, rest)
            | '+' :: rest => (1, rest)
            | _ => (1, rest)
          (Digits.split? rest).map fun (ds, rest) => (some (sign * Digits.value ds), rest)
        else some (none, cs)
      | [] => some (none, cs)
    return (⟨negative, whole, fraction, exponent⟩, cs)

/-- The first mark of a text that starts with none of the spaces, and the rest. -/
def mark? : List Char → Option (Mark × List Char)
  | '[' :: rest => some (.openArray, rest)
  | ']' :: rest => some (.closeArray, rest)
  | '\x7b' :: rest => some (.openObject, rest)
  | '\x7d' :: rest => some (.closeObject, rest)
  | ',' :: rest => some (.comma, rest)
  | ':' :: rest => some (.colon, rest)
  | '"' :: rest => do
    let (units, rest) ← stringUnits rest
    return (.text ((decodeUnits units).map String.ofList), rest)
  | 'n' :: 'u' :: 'l' :: 'l' :: rest => some (.leaf .null, rest)
  | 't' :: 'r' :: 'u' :: 'e' :: rest => some (.leaf (.bool true), rest)
  | 'f' :: 'a' :: 'l' :: 's' :: 'e' :: rest => some (.leaf (.bool false), rest)
  | cs => (numeral? cs).map fun (t, rest) => (.leaf (.number t.toNumber?), rest)

/-- The marks of a text. Each takes a character at least, so the length of the text
is fuel enough. -/
def marksFrom : Nat → List Char → Option (List Mark)
  | 0, cs => if cs.isEmpty then some [] else none
  | fuel + 1, cs =>
    match cs.dropWhile isSpace with
    | [] => some []
    | cs => do
      let (mark, rest) ← mark? cs
      let marks ← marksFrom fuel rest
      return mark :: marks

def marks? (text : String) : Option (List Mark) :=
  let cs := text.toList
  marksFrom cs.length cs

/-- A container that is still open, with what it holds so far, last first. -/
inductive Frame where
  | array (items : List Written)
  | object (members : List (Option String × Written)) (name : Option String)

/-- What may come next, inside the open containers. -/
inductive Stage where
  | wantsValue (outer : List Frame)
  | wantsItem (outer : List Frame)
  | wantsName (first : Bool) (members : List (Option String × Written)) (outer : List Frame)
  | wantsColon (members : List (Option String × Written)) (name : Option String)
      (outer : List Frame)
  | complete (value : Written) (outer : List Frame)

def Stage.beginValue (outer : List Frame) : Mark → Option Stage
  | .openArray => some (.wantsItem outer)
  | .openObject => some (.wantsName true [] outer)
  | .text s => some (.complete (.string s) outer)
  | .leaf value => some (.complete value outer)
  | _ => none

def Stage.next : Stage → Mark → Option Stage
  | .wantsValue outer, mark => beginValue outer mark
  | .wantsItem outer, .closeArray => some (.complete (.array []) outer)
  | .wantsItem outer, mark => beginValue (.array [] :: outer) mark
  | .wantsName true _ outer, .closeObject => some (.complete (.object []) outer)
  | .wantsName _ members outer, .text s => some (.wantsColon members s outer)
  | .wantsColon members name outer, .colon => some (.wantsValue (.object members name :: outer))
  | .complete value (.array items :: outer), .comma =>
    some (.wantsValue (.array (value :: items) :: outer))
  | .complete value (.array items :: outer), .closeArray =>
    some (.complete (.array (value :: items).reverse) outer)
  | .complete value (.object members name :: outer), .comma =>
    some (.wantsName false ((name, value) :: members) outer)
  | .complete value (.object members name :: outer), .closeObject =>
    some (.complete (.object ((name, value) :: members).reverse) outer)
  | _, _ => none

/-- Reads a text that holds one value and nothing else. -/
def read? (text : String) : Option Written := do
  let marks ← marks? text
  match ← marks.foldlM Stage.next (.wantsValue []) with
  | .complete value [] => some value
  | _ => none

mutual

def nesting : Written → Nat
  | .array items => nestingItems items + 1
  | .object members => nestingMembers members + 1
  | _ => 0
termination_by structural value => value

def nestingItems : List Written → Nat
  | [] => 0
  | item :: rest => max (nesting item) (nestingItems rest)
termination_by structural items => items

def nestingMembers : List (Option String × Written) → Nat
  | [] => 0
  | (_, value) :: rest => max (nesting value) (nestingMembers rest)
termination_by structural members => members

end

mutual

/-- The document that a text denotes, if all of its parts denote something. Of two
members of one name the last value counts, at the place of the first. -/
def toJson? : Written → Option Json
  | .null => some .null
  | .bool b => some (.bool b)
  | .number n => n.map .number
  | .string s => s.map .string
  | .array items => (toItems? items).map .array
  | .object members => (toMembers? members).map fun ms => .object (Members.ofList ms)
termination_by structural value => value

def toItems? : List Written → Option (List Json)
  | [] => some []
  | item :: rest => do
    let item ← toJson? item
    let rest ← toItems? rest
    return item :: rest
termination_by structural items => items

def toMembers? : List (Option String × Written) → Option (List (String × Json))
  | [] => some []
  | (name, value) :: rest => do
    let name ← name
    let value ← toJson? value
    let rest ← toMembers? rest
    return (name, value) :: rest
termination_by structural members => members

end

/-- The document that a text denotes, if it nests no deeper than a limit. -/
def toJsonWithin? (limit : Option Nat) (written : Written) : Option Json :=
  if limit.all (written.nesting ≤ ·) then written.toJson? else none

end Written

def read? (text : String) : Option Json := Written.read? text >>= Written.toJson?

def fileNesting : Nat := 127

/-- Reads a document from the text of a file, whose nesting is limited. -/
def readFile? (text : String) : Option Json :=
  Written.read? text >>= Written.toJsonWithin? (some fileNesting)

end Curator.Json
