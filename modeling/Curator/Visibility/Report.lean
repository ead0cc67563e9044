import Curator.Json

/-! # Reports on hidden fields -/

namespace Curator.Visibility

inductive SkipReason where
  | nestedWildcard (count : Nat)
  | missingArray (container : String)
deriving DecidableEq

structure Skipped where
  path : String
  reason : SkipReason
deriving DecidableEq

structure Failed where
  path : String
  index : Option Nat
  message : String
deriving DecidableEq

/-- What was removed, in order, and which rules or evaluations came to nothing. -/
structure Report where
  removed : List String
  skipped : List Skipped
  failed : List Failed
deriving DecidableEq

def Report.empty : Report := ⟨[], [], []⟩

def Skipped.toJson (s : Skipped) : Json :=
  .object (("path", .string s.path) ::
    match s.reason with
    | .nestedWildcard count =>
      [("reason", .string "nested_wildcard"), ("count", .number (.ofCount count))]
    | .missingArray container =>
      [("reason", .string "missing_array"), ("container", .string container)])

def Failed.toJson (f : Failed) : Json :=
  .object [("path", .string f.path),
    ("index", match f.index with
      | some i => .number (.ofCount i)
      | none => .null),
    ("message", .string f.message)]

def Report.toJson (r : Report) : Json :=
  .object [("removed", .array (r.removed.map .string)),
    ("skipped", .array (r.skipped.map Skipped.toJson)),
    ("failed", .array (r.failed.map Failed.toJson))]

end Curator.Visibility
