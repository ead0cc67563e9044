import Curator.Digits
import Curator.Slashed

/-! # Pointers

A pointer names a place in a document by the steps that lead there from the root:
names, positions and, in rules only, the wildcard that stands for some position.
Its text puts a slash before each step.
-/

namespace Curator

/-- One step of a pointer. On an object a position counts as the name it spells. -/
inductive Segment where
  | key (name : String)
  | index (position : Nat)
  | wildcard
deriving DecidableEq

abbrev Pointer := List Segment

namespace Segment

def isWildcard : Segment → Bool
  | wildcard => true
  | _ => false

/-- Digits only, without a leading zero unless the token is the digit zero. -/
def isPosition (token : List Char) : Bool :=
  !token.isEmpty && token.all Char.isDigit && (token == ['0'] || token.head? != some '0')

/-- Positions stay below this bound; a longer row of digits is a name. -/
def positionBound : Nat := UInt64.size

/-- Inside a token, `~1` stands for a slash and `~0` for a tilde. -/
def unescape : List Char → List Char
  | '~' :: '1' :: rest => '/' :: unescape rest
  | '~' :: '0' :: rest => '~' :: unescape rest
  | c :: rest => c :: unescape rest
  | [] => []

def escapeChar (c : Char) : List Char :=
  if c = '~' then ['~', '0'] else if c = '/' then ['~', '1'] else [c]

def escape (name : List Char) : List Char := name.flatMap escapeChar

/-- The step that a token between slashes stands for. -/
def ofToken (token : List Char) : Segment :=
  if token = ['-'] then wildcard
  else if isPosition token && Digits.value token < positionBound then index (Digits.value token)
  else key (String.ofList (unescape token))

def token : Segment → List Char
  | key name => escape name.toList
  | index position => Digits.ofNat position
  | wildcard => ['-']

def render (s : Segment) : String := String.ofList s.token

end Segment

namespace Pointer

/-- Reads a pointer. The empty text and a single slash name the root, and the first
slash may be missing. -/
def ofChars : List Char → Pointer
  | [] => []
  | ['/'] => []
  | '/' :: rest => (Slashed.split rest).map Segment.ofToken
  | cs => (Slashed.split cs).map Segment.ofToken

def parse (text : String) : Pointer := ofChars text.toList

def toChars : Pointer → List Char
  | [] => ['/']
  | p => p.flatMap fun s => '/' :: s.token

def render (p : Pointer) : String := String.ofList (toChars p)

/-- The places of the wildcards among the steps, from the left. -/
def wildcardsFrom (start : Nat) : Pointer → List Nat
  | [] => []
  | s :: rest =>
    if s.isWildcard then start :: wildcardsFrom (start + 1) rest
    else wildcardsFrom (start + 1) rest

def wildcards (p : Pointer) : List Nat := wildcardsFrom 0 p

/-- Puts the given positions for the wildcards from the left. Wildcards beyond them
stay, and positions beyond the wildcards are not used. -/
def resolve : Pointer → List Nat → Pointer
  | [], _ => []
  | .wildcard :: rest, i :: more => .index i :: resolve rest more
  | s :: rest, positions => s :: resolve rest positions

/-- The text of a rule pointer with its wildcards resolved. -/
def indexed (text : String) (positions : List Nat) : String :=
  render (resolve (parse text) positions)

end Pointer

end Curator
