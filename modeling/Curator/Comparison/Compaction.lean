import Curator.Comparison.Script

/-! # Compaction of edit scripts

An insertion can move over kept tokens that it repeats, and deletions and insertions
beside each other can change places. Every deletion and then every insertion is moved as
far to the front and then as far to the back as it goes, joining those of its kind on
the way. The places that the steps hold move along with them over kept tokens only.
-/

namespace Curator.Script

variable {α : Type} [BEq α]

/-- A script seen from one of its steps. The steps before it come nearest first. -/
structure Focus (α : Type) where
  before : Script α
  here : Edit α
  after : Script α

/-- How many leading tokens agree with a run that is repeated without end. The last argument
is what is left of the present round. -/
def repetition (round : List α) : List α → List α → Nat
  | [], _ => 0
  | u :: us, t :: ts => if u == t then repetition round us ts + 1 else 0
  | u :: us, [] =>
    match round with
    | t :: ts => if u == t then repetition round us ts + 1 else 0
    | [] => 0

def keepFirst (ts : List α) : Script α → Script α
  | .keep us :: rest => .keep (ts ++ us) :: rest
  | rest => .keep ts :: rest

def keepLast (ts : List α) : Script α → Script α
  | .keep us :: rest => .keep (us ++ ts) :: rest
  | rest => .keep ts :: rest

/-- Moves a step to the front as far as it goes. -/
def moveUp : Script α → Edit α → Script α → Focus α
  | .keep us :: before, .insert ts oldAt, after =>
    let count := repetition ts.reverse us.reverse ts.reverse
    let moved := us.drop (us.length - count)
    let here := Edit.insert ((moved ++ ts).take ts.length) (oldAt - count)
    if count = 0 then ⟨.keep us :: before, .insert ts oldAt, after⟩
    else if count < us.length then
      ⟨.keep (us.take (us.length - count)) :: before, here, keepFirst moved after⟩
    else moveUp before here (keepFirst moved after)
  | .delete us newAt :: before, .insert ts oldAt, after =>
    moveUp before (.insert ts oldAt) (.delete us newAt :: after)
  | .insert us oldAt :: before, .delete ts newAt, after =>
    moveUp before (.delete ts newAt) (.insert us oldAt :: after)
  | .insert us oldAt :: before, .insert ts _, after =>
    moveUp before (.insert (us ++ ts) oldAt) after
  | .delete us newAt :: before, .delete ts _, after =>
    moveUp before (.delete (us ++ ts) newAt) after
  | before, here, after => ⟨before, here, after⟩

/-- Moves a step to the back as far as it goes. -/
def moveDown : Script α → Edit α → Script α → Focus α
  | before, .insert ts oldAt, .keep us :: after =>
    let count := repetition ts us ts
    let moved := us.take count
    let here := Edit.insert ((ts ++ moved).drop count) (oldAt + count)
    if count = 0 then ⟨before, .insert ts oldAt, .keep us :: after⟩
    else if count < us.length then
      ⟨keepLast moved before, here, .keep (us.drop count) :: after⟩
    else moveDown (keepLast moved before) here after
  | before, .insert ts oldAt, .delete us newAt :: after =>
    moveDown (.delete us newAt :: before) (.insert ts oldAt) after
  | before, .delete ts newAt, .insert us oldAt :: after =>
    moveDown (.insert us oldAt :: before) (.delete ts newAt) after
  | before, .insert ts oldAt, .insert us _ :: after =>
    moveDown before (.insert (ts ++ us) oldAt) after
  | before, .delete ts newAt, .delete us _ :: after =>
    moveDown before (.delete (ts ++ us) newAt) after
  | before, here, after => ⟨before, here, after⟩

def settle (before : Script α) (here : Edit α) (after : Script α) : Focus α :=
  let up := moveUp before here after
  moveDown up.before up.here up.after

/-- The number of steps and of their tokens. -/
def weight : Script α → Nat
  | [] => 0
  | e :: rest => e.tokens.length + 1 + weight rest

/-- Settles the chosen steps from the front on. Every round joins two chosen steps or leaves
fewer steps behind the one in focus, so the square of the weight is fuel enough. -/
def settleFrom (chosen : Edit α → Bool) : Nat → Script α → Script α → Script α
  | _, before, [] => before.reverse
  | 0, before, rest => before.reverse ++ rest
  | fuel + 1, before, e :: rest =>
    if chosen e then
      let settled := settle before e rest
      settleFrom chosen fuel (settled.here :: settled.before) settled.after
    else settleFrom chosen fuel (e :: before) rest

def isDelete : Edit α → Bool
  | .delete _ _ => true
  | _ => false

def isInsert : Edit α → Bool
  | .insert _ _ => true
  | _ => false

def settleAll (chosen : Edit α → Bool) (script : Script α) : Script α :=
  settleFrom chosen (weight script * weight script) [] script

/-- Settles the deletions, then the insertions. -/
def compact (script : Script α) : Script α := settleAll isInsert (settleAll isDelete script)

end Curator.Script
