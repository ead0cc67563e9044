import Curator.Predicate.Expr

/-! # Reading predicates

```text
program  := 'return'? or ';'?
or       := and ('||' and)*
and      := eq ('&&' eq)*
eq       := cmp (('==' | '===' | '!=' | '!==') cmp)*
cmp      := unary (('<' | '<=' | '>' | '>=') unary)*
unary    := '!' unary | '-' unary | postfix
postfix  := primary ('.' name | '[' or ']')*
primary  := number | string | 'true' | 'false' | 'null' | 'undefined'
          | 'model' | 'index' | builtin '(' arguments ')' | '(' or ')'
```

The levels above `unary` are chains of operands, so a reader for `unary` gives one
for all of them. The number of `unary` levels that may still open decreases on the
way down, and the reader is defined by recursion on it.
-/

namespace Curator.Predicate

/-- A failure to read, with the byte at which it was noticed. -/
structure ParseError where
  position : Nat
  reason : ParseFailure
deriving DecidableEq

/-- What a reader of expressions gives: one and the tokens after it. -/
abbrev Parsed := Except ParseError (Expr × List Located)

namespace Parser

/-- The place of the next token, or the end of the source. -/
def here (stop : Nat) : List Located → Nat
  | t :: _ => t.start
  | [] => stop

/-- The tokens after a symbol that has to come next. -/
def expect (stop : Nat) (s : Symbol) (ts : List Located) : Except ParseError (List Located) :=
  match ts with
  | t :: rest => if t.token = .symbol s then .ok rest else .error ⟨t.start, .expected s⟩
  | [] => .error ⟨stop, .expected s⟩

/-- The tokens after an optional one. -/
def skip (token : Token) : List Located → List Located
  | t :: rest => if t.token = token then rest else t :: rest
  | [] => []

def orOp? : Token → Option BinaryOp
  | .symbol .or => some .or
  | _ => none

def andOp? : Token → Option BinaryOp
  | .symbol .and => some .and
  | _ => none

def equalityOp? : Token → Option BinaryOp
  | .symbol .equal => some .equal
  | .symbol .strictEqual => some .equal
  | .symbol .notEqual => some .notEqual
  | .symbol .strictNotEqual => some .notEqual
  | _ => none

def comparisonOp? : Token → Option BinaryOp
  | .symbol .less => some .less
  | .symbol .lessEqual => some .lessEqual
  | .symbol .greater => some .greater
  | .symbol .greaterEqual => some .greaterEqual
  | _ => none

/-- Reads operators and operands after a first operand, grouping to the left. Each
round takes an operator, so the number of tokens is fuel enough. -/
def chainFrom (op? : Token → Option BinaryOp) (operand : List Located → Parsed) :
    Nat → Expr → List Located → Parsed
  | _, left, [] => .ok (left, [])
  | 0, left, ts => .ok (left, ts)
  | fuel + 1, left, t :: rest =>
    match op? t.token with
    | some op => do
      let (right, rest) ← operand rest
      chainFrom op? operand fuel (.binary op left right) rest
    | none => .ok (left, t :: rest)

def chain (op? : Token → Option BinaryOp) (operand : List Located → Parsed)
    (ts : List Located) : Parsed := do
  let (left, rest) ← operand ts
  chainFrom op? operand rest.length left rest

def expression (unary : List Located → Parsed) : List Located → Parsed :=
  chain orOp? (chain andOp? (chain equalityOp? (chain comparisonOp? unary)))

/-- The name of a property. Keywords are names here. -/
def propertyName? : Token → Option String
  | .ident name => some name
  | .keyword k => some k.spelling
  | _ => none

def suffixesFrom (stop : Nat) (inner : List Located → Parsed) :
    Nat → Expr → List Located → Parsed
  | 0, object, ts => .ok (object, ts)
  | _, object, [] => .ok (object, [])
  | fuel + 1, object, t :: rest =>
    match t.token with
    | .symbol .dot =>
      match rest with
      | [] => .error ⟨stop, .expectedProperty⟩
      | n :: rest =>
        match propertyName? n.token with
        | some name => suffixesFrom stop inner fuel (.member object name) rest
        | none => .error ⟨n.start, .expectedProperty⟩
    | .symbol .openBracket => do
      let (key, rest) ← inner rest
      let rest ← expect stop .closeBracket rest
      suffixesFrom stop inner fuel (.subscript object key) rest
    | _ => .ok (object, t :: rest)

def argumentsFrom (inner : List Located → Parsed) :
    Nat → List Located → Except ParseError (List Expr × List Located)
  | 0, ts => .ok ([], ts)
  | fuel + 1, ts => do
    let (first, rest) ← inner ts
    match rest with
    | t :: rest =>
      if t.token = .symbol .comma then do
        let (more, rest) ← argumentsFrom inner fuel rest
        return (first :: more, rest)
      else return ([first], t :: rest)
    | [] => return ([first], [])

/-- Reads arguments up to a closing parenthesis, which may come at once. -/
def arguments (inner : List Located → Parsed) :
    List Located → Except ParseError (List Expr × List Located)
  | t :: rest =>
    if t.token = .symbol .closeParen then .ok ([], t :: rest)
    else argumentsFrom inner (t :: rest).length (t :: rest)
  | [] => argumentsFrom inner 1 []

/-- Reads the arguments of a function in parentheses. `position` is that of its name. -/
def call (stop : Nat) (inner : List Located → Parsed) (function : Builtin) (position : Nat)
    (ts : List Located) : Parsed := do
  let ts ← expect stop .openParen ts
  let (given, ts) ← arguments inner ts
  let ts ← expect stop .closeParen ts
  if given.length = function.arity then return (.call function given, ts)
  else .error ⟨position, .arity function given.length⟩

/-- The value of a numeral. One without fraction is an integer where it fits; one
beyond the floats is null. -/
def numberLiteral (text : List Char) : Option Json :=
  let whole := text.takeWhile Char.isDigit
  let numeral : Option Numeral :=
    match text.dropWhile Char.isDigit with
    | [] => some ⟨false, whole, none, none⟩
    | '.' :: fraction =>
      if fraction.isEmpty || !fraction.all Char.isDigit then none
      else some ⟨false, whole, some fraction, none⟩
    | _ => none
  if whole.isEmpty then none
  else numeral.map fun t =>
    match t.toBinary64? with
    | some x => .number (Number.ofBinary64 x)
    | none => .null

def primary (stop : Nat) (inner : List Located → Parsed) : List Located → Parsed
  | [] => .error ⟨stop, .expectedExpression⟩
  | t :: rest =>
    match t.token with
    | .keyword .yes => .ok (.literal (.bool true), rest)
    | .keyword .no => .ok (.literal (.bool false), rest)
    | .keyword .null => .ok (.literal .null, rest)
    | .keyword .undefined => .ok (.literal .null, rest)
    | .number digits =>
      match numberLiteral digits.toList with
      | some value => .ok (.literal value, rest)
      | none => .error ⟨t.start, .invalidNumber digits⟩
    | .quoted _ raw => .ok (.literal (.string (String.ofList (unescape raw.toList))), rest)
    | .ident name =>
      if name = "model" then .ok (.model, rest)
      else if name = "index" then .ok (.index, rest)
      else
        match Builtin.ofName? name with
        | some function => call stop inner function t.start rest
        | none => .error ⟨t.start, .unknownIdentifier name⟩
    | .symbol .openParen => do
      let (inside, rest) ← inner rest
      let rest ← expect stop .closeParen rest
      return (inside, rest)
    | other => .error ⟨t.start, .unexpectedToken other⟩

/-- Reads a unary expression in which at most so many unary levels may open. -/
def unary (stop : Nat) : Nat → List Located → Parsed
  | 0, ts => .error ⟨here stop ts, .tooDeep⟩
  | levels + 1, ts =>
    match ts with
    | ⟨.symbol .bang, _, _⟩ :: rest => do
      let (operand, rest) ← unary stop levels rest
      return (.not operand, rest)
    | ⟨.symbol .minus, _, _⟩ :: rest => do
      let (operand, rest) ← unary stop levels rest
      return (.negate operand, rest)
    | _ => do
      let inner := expression (unary stop levels)
      let (object, rest) ← primary stop inner ts
      suffixesFrom stop inner rest.length object rest

def program (stop : Nat) (ts : List Located) : Except ParseError Expr := do
  let (e, rest) ← expression (unary stop maxNesting) (skip (.keyword .returns) ts)
  match skip (.symbol .semicolon) rest with
  | [] => return e
  | t :: _ => .error ⟨t.start, .trailingInput⟩

end Parser

structure Compiled where
  source : String
  expr : Expr

/-- Reads a predicate. A source of too many tokens fails at the first one too many. -/
def parse (source : String) : Except Failure Compiled :=
  match tokenize source with
  | .error position => .error (.lex position)
  | .ok tokens =>
    match tokens[maxTokens]? with
    | some t => .error (.parse t.start .tooLong)
    | none =>
      match Parser.program source.utf8ByteSize tokens with
      | .ok e => .ok ⟨source, e⟩
      | .error e => .error (.parse e.position e.reason)

end Curator.Predicate
