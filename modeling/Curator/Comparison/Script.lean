import Curator.Comparison.Snake

/-! # Edit scripts

A script turns one sequence into another by keeping, deleting and inserting runs of
tokens. It is found by dividing both sequences at middle snakes.
-/

namespace Curator

/-- A step of a script, with its tokens. A deletion also holds the place in the new
sequence at which it was made, and an insertion the place in the old one. -/
inductive Edit (α : Type) where
  | keep (tokens : List α)
  | delete (tokens : List α) (newAt : Nat)
  | insert (tokens : List α) (oldAt : Nat)

abbrev Script (α : Type) := List (Edit α)

namespace Edit

variable {α : Type}

def tokens : Edit α → List α
  | keep ts => ts
  | delete ts _ => ts
  | insert ts _ => ts

def oldTokens : Edit α → List α
  | keep ts => ts
  | delete ts _ => ts
  | insert _ _ => []

def newTokens : Edit α → List α
  | keep ts => ts
  | delete _ _ => []
  | insert ts _ => ts

end Edit

namespace Script

variable {α : Type}

/-- The sequence that a script starts from. -/
def old (script : Script α) : List α := script.flatMap Edit.oldTokens

/-- The sequence that a script leads to. -/
def new (script : Script α) : List α := script.flatMap Edit.newTokens

def keeping (ts : List α) : Script α := if ts.isEmpty then [] else [.keep ts]

variable [BEq α]

/-- The script for two sequences that start at the given places. Every split leaves
fewer tokens on both sides, so their number is fuel enough. -/
def findFrom : Nat → Nat → Nat → List α → List α → Script α
  | 0, oldAt, newAt, old, new => [.delete old newAt, .insert new (oldAt + old.length)]
  | fuel + 1, oldAt, newAt, old, new =>
    let front := Snake.commonPrefix old new
    let oldRest := old.drop front
    let newRest := new.drop front
    let back := Snake.commonSuffix oldRest newRest
    let oldInner := oldRest.take (oldRest.length - back)
    let newInner := newRest.take (newRest.length - back)
    let oldStart := oldAt + front
    let newStart := newAt + front
    let inner : Script α :=
      if oldInner.isEmpty && newInner.isEmpty then []
      else if newInner.isEmpty then [.delete oldInner newStart]
      else if oldInner.isEmpty then [.insert newInner oldStart]
      else
        match Snake.middle oldInner newInner with
        | some (x, y) =>
          findFrom fuel oldStart newStart (oldInner.take x) (newInner.take y) ++
            findFrom fuel (oldStart + x) (newStart + y) (oldInner.drop x) (newInner.drop y)
        | none => [.delete oldInner newStart, .insert newInner (oldStart + oldInner.length)]
    keeping (old.take front) ++ inner ++ keeping (oldRest.drop (oldRest.length - back))

def find (old new : List α) : Script α :=
  findFrom (old.length + new.length + 1) 0 0 old new

end Script

end Curator
