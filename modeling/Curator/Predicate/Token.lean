/-! # Tokens of predicates

The source of a predicate is cut into words, numerals, quoted texts and symbols,
each as long as it can be, with spaces between them. Places in a source are counted
in bytes.
-/

namespace Curator.Predicate

inductive Keyword where
  | returns | yes | no | null | undefined
deriving DecidableEq

/-- The quotation marks that may enclose a text. -/
inductive Quote where
  | double | single
deriving DecidableEq

inductive Symbol where
  | strictEqual | strictNotEqual | equal | notEqual
  | less | lessEqual | greater | greaterEqual
  | and | or | bang | minus
  | openParen | closeParen | openBracket | closeBracket
  | dot | comma | semicolon
deriving DecidableEq

/-- A token. Quoted texts are kept as written, without their marks. -/
inductive Token where
  | keyword (k : Keyword)
  | ident (name : String)
  | number (digits : String)
  | quoted (mark : Quote) (raw : String)
  | symbol (s : Symbol)
deriving DecidableEq

/-- A token with the bytes that it covers, from `start` to just before `stop`. -/
structure Located where
  token : Token
  start : Nat
  stop : Nat
deriving DecidableEq

namespace Quote

def char : Quote → Char
  | double => '"'
  | single => '\''

def ofChar? (c : Char) : Option Quote := [double, single].find? (·.char == c)

end Quote

namespace Keyword

def all : List Keyword := [returns, yes, no, null, undefined]

def spelling : Keyword → String
  | returns => "return"
  | yes => "true"
  | no => "false"
  | null => "null"
  | undefined => "undefined"

end Keyword

namespace Symbol

/-- The symbols, those of more characters first. -/
def all : List Symbol :=
  [strictEqual, strictNotEqual, equal, notEqual, lessEqual, greaterEqual, and, or, less,
    greater, bang, minus, openParen, closeParen, openBracket, closeBracket, dot, comma, semicolon]

def spelling : Symbol → String
  | strictEqual => "==="
  | strictNotEqual => "!=="
  | equal => "=="
  | notEqual => "!="
  | less => "<"
  | lessEqual => "<="
  | greater => ">"
  | greaterEqual => ">="
  | and => "&&"
  | or => "||"
  | bang => "!"
  | minus => "-"
  | openParen => "("
  | closeParen => ")"
  | openBracket => "["
  | closeBracket => "]"
  | dot => "."
  | comma => ","
  | semicolon => ";"

end Symbol

def Token.className : Token → String
  | keyword .returns => "Return"
  | keyword .yes => "True"
  | keyword .no => "False"
  | keyword .null => "Null"
  | keyword .undefined => "Undefined"
  | ident _ => "Ident"
  | number _ => "Number"
  | quoted .double _ => "String"
  | quoted .single _ => "SingleQuoteString"
  | symbol .strictEqual => "StrictEq"
  | symbol .strictNotEqual => "StrictNotEq"
  | symbol .equal => "EqEq"
  | symbol .notEqual => "NotEq"
  | symbol .less => "Lt"
  | symbol .lessEqual => "Lte"
  | symbol .greater => "Gt"
  | symbol .greaterEqual => "Gte"
  | symbol .and => "And"
  | symbol .or => "Or"
  | symbol .bang => "Bang"
  | symbol .minus => "Minus"
  | symbol .openParen => "LParen"
  | symbol .closeParen => "RParen"
  | symbol .openBracket => "LBracket"
  | symbol .closeBracket => "RBracket"
  | symbol .dot => "Dot"
  | symbol .comma => "Comma"
  | symbol .semicolon => "Semi"

/-- The text that a token keeps, for the classes that keep one. -/
def Token.text? : Token → Option String
  | ident name => some name
  | number digits => some digits
  | quoted _ raw => some raw
  | _ => none

def isSpace (c : Char) : Bool := c == ' ' || c == '\t' || c == '\r' || c == '\n'

def isWordStart (c : Char) : Bool := c.isAlpha || c == '_' || c == '$'

def isWordPart (c : Char) : Bool := isWordStart c || c.isDigit

/-- The class of a word: a keyword if it spells one, else an identifier. -/
def Token.ofWord (word : String) : Token :=
  match Keyword.all.find? (·.spelling == word) with
  | some k => .keyword k
  | none => .ident word

/-- The number of characters of the numeral at the front: digits and, if digits follow
it, a point with these. -/
def numeralLength (cs : List Char) : Nat :=
  let whole := (cs.takeWhile Char.isDigit).length
  match cs.drop whole with
  | '.' :: rest =>
    let fraction := (rest.takeWhile Char.isDigit).length
    if fraction = 0 then whole else whole + 1 + fraction
  | _ => whole

/-- The characters up to the closing mark. A backslash takes the next character with
it, which may not be a line feed. -/
def quotedBody? (mark : Quote) : List Char → Option (List Char)
  | [] => none
  | '\\' :: c :: rest =>
    if c = '\n' then none else (quotedBody? mark rest).map fun body => '\\' :: c :: body
  | c :: rest =>
    if c = mark.char then some []
    else if c = '\\' then none
    else (quotedBody? mark rest).map (c :: ·)

/-- The token at the front of a text and the number of its characters. -/
def Token.first? (cs : List Char) : Option (Token × Nat) :=
  match cs with
  | [] => none
  | c :: rest =>
    if isWordStart c then
      let word := cs.takeWhile isWordPart
      some (ofWord (String.ofList word), word.length)
    else if c.isDigit then
      let length := numeralLength cs
      some (.number (String.ofList (cs.take length)), length)
    else
      match Quote.ofChar? c with
      | some mark =>
        (quotedBody? mark rest).map fun body =>
          (.quoted mark (String.ofList body), body.length + 2)
      | none =>
        (Symbol.all.find? fun s => s.spelling.toList.isPrefixOf cs).map fun s =>
          (.symbol s, s.spelling.length)

def byteLength : List Char → Nat
  | [] => 0
  | c :: rest => c.utf8Size + byteLength rest

/-- The tokens of a text that starts at the byte `start`, or the byte at which no token
begins. Spaces and tokens take a character at least, so the length of the text is fuel
enough. -/
def tokensFrom : Nat → Nat → List Char → Except Nat (List Located)
  | _, _, [] => .ok []
  | 0, start, _ :: _ => .error start
  | fuel + 1, start, c :: rest =>
    if isSpace c then tokensFrom fuel (start + c.utf8Size) rest
    else
      match Token.first? (c :: rest) with
      | none => .error start
      | some (token, length) => do
        let stop := start + byteLength ((c :: rest).take length)
        let tokens ← tokensFrom fuel stop ((c :: rest).drop length)
        return ⟨token, start, stop⟩ :: tokens

/-- Cuts a source into tokens, or gives the byte at which none begins. -/
def tokenize (source : String) : Except Nat (List Located) :=
  let cs := source.toList
  tokensFrom cs.length 0 cs

def unescape : List Char → List Char
  | '\\' :: c :: rest =>
    (if c = 'n' then '\n' else if c = 't' then '\t' else if c = 'r' then '\r' else c) ::
      unescape rest
  | c :: rest => c :: unescape rest
  | [] => []

end Curator.Predicate
