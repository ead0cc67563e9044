import Curator.Json

/-! # Equality of documents

Two documents are equal when they agree up to the order of members in each object.
Numbers are compared as values, or as quantities for the looser relation of the
predicate language.
-/

namespace Curator.Json

mutual

/-- Equality up to the order of members, with a given equality of numbers. -/
def equalBy (numbers : Number → Number → Bool) : Json → Json → Bool
  | .null, .null => true
  | .bool a, .bool b => a == b
  | .number a, .number b => numbers a b
  | .string a, .string b => a == b
  | .array xs, .array ys => equalItems numbers xs ys
  | .object ms, .object ns => ms.length == ns.length && equalMembers numbers ms ns
  | _, _ => false
termination_by structural value => value

def equalItems (numbers : Number → Number → Bool) : List Json → List Json → Bool
  | [], [] => true
  | x :: xs, y :: ys => equalBy numbers x y && equalItems numbers xs ys
  | _, _ => false
termination_by structural items => items

/-- Every member on the left has an equal one of its name on the right. -/
def equalMembers (numbers : Number → Number → Bool) :
    List (String × Json) → List (String × Json) → Bool
  | [], _ => true
  | (name, x) :: rest, ns =>
    (match Members.get? name ns with
      | some y => equalBy numbers x y
      | none => false) && equalMembers numbers rest ns
termination_by structural members => members

end

def equal : Json → Json → Bool := equalBy Number.same

/-- Equality in which numbers count as quantities. -/
def looselyEqual : Json → Json → Bool := equalBy Number.sameQuantity

end Curator.Json
