import Curator.ByteOrder
import Curator.Json.Equality
import Curator.Predicate.Parser

/-! # Evaluation of predicates

A predicate is evaluated over a document and, for rules with a wildcard, the position
of an element. Looking up what is not there gives null. A predicate holds when its
value is truthy.
-/

namespace Curator

/-- Null, false, zero and the empty string are not truthy. -/
def Json.truthy : Json → Bool
  | .null => false
  | .bool b => b
  | .number n => !n.isZero
  | .string s => !s.isEmpty
  | .array _ => true
  | .object _ => true

/-- Null, the empty string and containers without content. -/
def Json.isVoid : Json → Bool
  | .null => true
  | .string s => s.isEmpty
  | .array items => items.isEmpty
  | .object members => members.isEmpty
  | _ => false

namespace Predicate

/-- Numbers compare as quantities and strings by their bytes; nothing else compares. -/
def order (left right : Json) : Except EvalFailure Ordering :=
  match left, right with
  | .number a, .number b =>
    match a.toBinary64?, b.toBinary64? with
    | some x, some y => .ok (compare x.rank y.rank)
    | _, _ => .error .notComparable
  | .string a, .string b =>
    .ok (if ByteOrder.lt a b then .lt else if ByteOrder.lt b a then .gt else .eq)
  | a, b => .error (.cannotCompare a.kind b.kind)

def occursIn (needle : List Char) : List Char → Bool
  | [] => needle.isEmpty
  | c :: rest => needle.isPrefixOf (c :: rest) || occursIn needle rest

/-- The property of a value. Arrays and strings have a length. -/
def property (object : Json) (name : String) : Json :=
  match object with
  | .array items => if name = "length" then .number (.ofCount items.length) else .null
  | .string s => if name = "length" then .number (.ofCount s.length) else .null
  | .object members => (Members.get? name members).getD .null
  | _ => .null

/-- The value that a key selects. A position selects an item of an array and is a name
elsewhere. -/
def select (object key : Json) : Except EvalFailure Json :=
  match key with
  | .string name => .ok (property object name)
  | .number n =>
    match n.toNat? with
    | none => .error (.invalidIndex n)
    | some position =>
      match object with
      | .array items => .ok (items[position]?.getD .null)
      | other => .ok (property other (toString position))
  | .null => .ok .null
  | other => .error (.cannotIndexWith other.kind)

def negate (value : Json) : Except EvalFailure Json :=
  match value with
  | .number n =>
    match n.toBinary64? with
    | some x => .ok (.number (Number.ofBinary64 x.neg))
    | none => .error (.cannotNegate value.kind)
  | other => .error (.cannotNegate other.kind)

def len (value : Json) : Except EvalFailure Json :=
  match value with
  | .string s => .ok (.number (.ofCount s.length))
  | .array items => .ok (.number (.ofCount items.length))
  | .object members => .ok (.number (.ofCount members.length))
  | other => .error (.lengthOf other.kind)

/-- Whether a string holds a part, an array an item, or an object a name. Null holds
nothing. -/
def contains (haystack needle : Json) : Except EvalFailure Json :=
  match haystack, needle with
  | .string h, .string n => .ok (.bool (occursIn n.toList h.toList))
  | .array items, n => .ok (.bool (items.any (·.looselyEqual n)))
  | .object members, .string name => .ok (.bool (Members.contains name members))
  | .null, _ => .ok (.bool false)
  | h, n => .error (.containsOn h.kind n.kind)

def BinaryOp.accepts : BinaryOp → Ordering → Bool
  | .less, c => c == .lt
  | .lessEqual, c => c != .gt
  | .greater, c => c == .gt
  | _, c => c != .lt

/-- The value of an expression. The logical operators evaluate their right side only
where the left one does not decide. -/
def eval (document : Json) (index : Option Nat) : Expr → Except EvalFailure Json
  | .literal value => .ok value
  | .model => .ok document
  | .index =>
    match index with
    | some i => .ok (.number (.ofCount i))
    | none => .error .indexOutsideRule
  | .member object name => do
    let object ← eval document index object
    return property object name
  | .subscript object key => do
    let object ← eval document index object
    let key ← eval document index key
    select object key
  | .not operand => do
    let value ← eval document index operand
    return .bool (!value.truthy)
  | .negate operand => do
    let value ← eval document index operand
    negate value
  | .binary .or left right => do
    let a ← eval document index left
    if a.truthy then return .bool true
    else
      let b ← eval document index right
      return .bool b.truthy
  | .binary .and left right => do
    let a ← eval document index left
    if a.truthy then
      let b ← eval document index right
      return .bool b.truthy
    else return .bool false
  | .binary .equal left right => do
    let a ← eval document index left
    let b ← eval document index right
    return .bool (a.looselyEqual b)
  | .binary .notEqual left right => do
    let a ← eval document index left
    let b ← eval document index right
    return .bool (!a.looselyEqual b)
  | .binary op left right => do
    let a ← eval document index left
    let b ← eval document index right
    let c ← order a b
    return .bool (op.accepts c)
  | .call function [] => .error (.noArguments function)
  | .call .present (a :: _) => do
    let a ← eval document index a
    return .bool (a.kind != .null)
  | .call .empty (a :: _) => do
    let a ← eval document index a
    return .bool a.isVoid
  | .call .len (a :: _) => do
    let a ← eval document index a
    len a
  | .call .contains [a] => do
    let _ ← eval document index a
    .error .containsNeedsTwo
  | .call .contains (a :: b :: _) => do
    let a ← eval document index a
    let b ← eval document index b
    contains a b
termination_by structural e => e

def Compiled.holds (p : Compiled) (document : Json) (index : Option Nat) :
    Except EvalFailure Bool :=
  (eval document index p.expr).map Json.truthy

def evaluate (source : String) (document : Json) (index : Option Nat) : Except Failure Bool := do
  let p ← parse source
  (p.holds document index).mapError .eval

end Predicate

end Curator
