import Curator.Json
import Curator.Predicate.Token

/-! # Expressions of predicates -/

namespace Curator.Predicate

inductive BinaryOp where
  | or | and | equal | notEqual | less | lessEqual | greater | greaterEqual
deriving DecidableEq

inductive Builtin where
  | present | empty | len | contains
deriving DecidableEq

namespace Builtin

def all : List Builtin := [present, empty, len, contains]

/-- The name in a source. -/
def spelling : Builtin → String
  | present => "exists"
  | empty => "empty"
  | len => "len"
  | contains => "contains"

/-- The name in messages. -/
def title : Builtin → String
  | present => "Exists"
  | empty => "Empty"
  | len => "Len"
  | contains => "Contains"

def ofName? (name : String) : Option Builtin := all.find? (·.spelling == name)

def arity : Builtin → Nat
  | contains => 2
  | _ => 1

end Builtin

/-- An expression. `model` is the document and `index` the position of the element
that a rule with a wildcard asks about. -/
inductive Expr where
  | literal (value : Json)
  | model
  | index
  | member (object : Expr) (name : String)
  | subscript (object key : Expr)
  | not (operand : Expr)
  | negate (operand : Expr)
  | binary (op : BinaryOp) (left right : Expr)
  | call (function : Builtin) (arguments : List Expr)

inductive ParseFailure where
  | tooLong
  | tooDeep
  | expectedExpression
  | invalidNumber (text : String)
  | unknownIdentifier (name : String)
  | unexpectedToken (token : Token)
  | arity (function : Builtin) (count : Nat)
  | expected (symbol : Symbol)
  | expectedProperty
  | trailingInput
deriving DecidableEq

inductive EvalFailure where
  | indexOutsideRule
  | cannotNegate (kind : Json.Kind)
  | invalidIndex (n : Number)
  | cannotIndexWith (kind : Json.Kind)
  | cannotCompare (left right : Json.Kind)
  | notComparable
  | noArguments (function : Builtin)
  | lengthOf (kind : Json.Kind)
  | containsNeedsTwo
  | containsOn (haystack needle : Json.Kind)
  | other (message : String)
deriving DecidableEq

/-- Why a predicate gives no answer. Places are bytes of its source. Whoever answers in another way
than by reading and evaluating it may have reasons of its own, in its own words. -/
inductive Failure where
  | lex (position : Nat)
  | parse (position : Nat) (reason : ParseFailure)
  | eval (reason : EvalFailure)
  | other (message : String)
deriving DecidableEq

/-- The deepest nesting of unary operators, parentheses, subscripts and arguments. -/
def maxNesting : Nat := 64

def maxTokens : Nat := 1024

def ParseFailure.message : ParseFailure → String
  | tooLong => "predicate longer than " ++ toString maxTokens ++ " tokens"
  | tooDeep => "expression nested too deeply"
  | expectedExpression => "expected an expression"
  | invalidNumber text => "invalid number '" ++ text ++ "'"
  | unknownIdentifier name => "unknown identifier '" ++ name ++ "'"
  | unexpectedToken token => "unexpected token " ++ token.className
  | arity function count =>
    function.title ++ " takes " ++ toString function.arity ++ " argument(s), got " ++ toString count
  | expected symbol => "expected '" ++ symbol.spelling ++ "'"
  | expectedProperty => "expected a property name after '.'"
  | trailingInput => "unexpected trailing input"

def EvalFailure.message : EvalFailure → String
  | indexOutsideRule => "'index' used outside of an array rule"
  | cannotNegate kind => "cannot negate a " ++ kind.name
  | invalidIndex n => "invalid array index " ++ n.render
  | cannotIndexWith kind => "cannot index with a " ++ kind.name
  | cannotCompare left right => "cannot compare " ++ left.name ++ " with " ++ right.name
  | notComparable => "numbers are not comparable"
  | noArguments function => function.title ++ " called without arguments"
  | lengthOf kind => "len() of a " ++ kind.name
  | containsNeedsTwo => "contains() needs two arguments"
  | containsOn haystack needle =>
    "contains() on a " ++ haystack.name ++ " with a " ++ needle.name
  | other message => message

def Failure.message : Failure → String
  | lex position => "Unexpected character at byte " ++ toString position ++ " in predicate"
  | parse position reason =>
    "Predicate parse error at byte " ++ toString position ++ ": " ++ reason.message
  | eval reason => "Predicate evaluation error: " ++ reason.message
  | other message => message

end Curator.Predicate
