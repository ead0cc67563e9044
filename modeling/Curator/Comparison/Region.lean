import Curator.Binary64
import Curator.Comparison.Compaction

/-! # Regions of a comparison

A script is read as regions that are the same on both sides and, between these, regions
in which some tokens gave way to others.
-/

namespace Curator

/-- A region with the places at which it starts in both sequences. -/
inductive Region (α : Type) where
  | same (oldAt newAt : Nat) (tokens : List α)
  | changed (oldAt newAt : Nat) (removed added : List α)

namespace Region

variable {α : Type}

def oldTokens : Region α → List α
  | same _ _ ts => ts
  | changed _ _ removed _ => removed

def newTokens : Region α → List α
  | same _ _ ts => ts
  | changed _ _ _ added => added

def oldStart : Region α → Nat
  | same oldAt _ _ => oldAt
  | changed oldAt _ _ _ => oldAt

def newStart : Region α → Nat
  | same _ newAt _ => newAt
  | changed _ newAt _ _ => newAt

def oldStop (r : Region α) : Nat := r.oldStart + r.oldTokens.length

def newStop (r : Region α) : Nat := r.newStart + r.newTokens.length

/-- A region that is being collected. A changed one takes its place in the old sequence
from its first deletion and its place in the new one from its first insertion, if it has
one of these. -/
inductive Pending (α : Type) where
  | nothing
  | same (oldAt newAt : Nat) (tokens : List α)
  | deleted (oldAt newAt : Nat) (removed : List α)
  | inserted (oldAt newAt : Nat) (added : List α)
  | both (oldAt newAt : Nat) (removed added : List α)

def Pending.finish : Pending α → List (Region α)
  | nothing => []
  | same oldAt newAt ts => [.same oldAt newAt ts]
  | deleted oldAt newAt ts => [.changed oldAt newAt ts []]
  | inserted oldAt newAt ts => [.changed oldAt newAt [] ts]
  | both oldAt newAt removed added => [.changed oldAt newAt removed added]

/-- Takes up a step of a script at the given places: the region that it ends, if any, and
the one that it goes on with. -/
def Pending.push (oldAt newAt : Nat) (pending : Pending α) (e : Edit α) :
    List (Region α) × Pending α :=
  match pending, e with
  | .same o n us, .keep ts => ([], .same o n (us ++ ts))
  | other, .keep ts => (other.finish, .same oldAt newAt ts)
  | .deleted o n us, .delete ts _ => ([], .deleted o n (us ++ ts))
  | .inserted _ n us, .delete ts _ => ([], .both oldAt n ts us)
  | .both o n us vs, .delete ts _ => ([], .both o n (us ++ ts) vs)
  | other, .delete ts stored => (other.finish, .deleted oldAt stored ts)
  | .deleted o _ us, .insert ts _ => ([], .both o newAt us ts)
  | .inserted o n us, .insert ts _ => ([], .inserted o n (us ++ ts))
  | .both o n us vs, .insert ts _ => ([], .both o n us (vs ++ ts))
  | other, .insert ts stored => (other.finish, .inserted stored newAt ts)

/-- Collects the regions of a script whose next step is at the given places. -/
def ofScriptFrom (oldAt newAt : Nat) (pending : Pending α) : Script α → List (Region α)
  | [] => pending.finish
  | e :: rest =>
    let (finished, pending) := pending.push oldAt newAt e
    finished ++
      ofScriptFrom (oldAt + e.oldTokens.length) (newAt + e.newTokens.length) pending rest

def ofScript (script : Script α) : List (Region α) := ofScriptFrom 0 0 .nothing script

def compare [BEq α] (old new : List α) : List (Region α) :=
  ofScript (Script.find old new).compact

def sameCount : List (Region α) → Nat
  | [] => 0
  | same _ _ ts :: rest => ts.length + sameCount rest
  | changed _ _ _ _ :: rest => sameCount rest

end Region

end Curator
