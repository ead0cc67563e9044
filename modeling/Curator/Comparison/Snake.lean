/-! # Middle snakes

The edit graph of two sequences has a step for every deletion and insertion and free
diagonals for equal tokens. Searching it from both ends at once finds a place in the
middle of a shortest way through it, where the sequences can be split.
-/

namespace Curator.Snake

def commonPrefix {α : Type} [BEq α] : List α → List α → Nat
  | a :: as, b :: bs => if a == b then commonPrefix as bs + 1 else 0
  | _, _ => 0

def commonSuffix {α : Type} [BEq α] (as bs : List α) : Nat :=
  commonPrefix as.reverse bs.reverse

/-- For every diagonal, how far along the first sequence the search has come. Diagonals
may be negative; `origin` is the place of diagonal zero. -/
structure Frontier where
  origin : Nat
  reached : Array Nat

namespace Frontier

def start (radius : Nat) : Frontier := ⟨radius + 1, Array.replicate (2 * radius + 3) 0⟩

def get (v : Frontier) (diagonal : Int) : Nat := v.reached.getD (diagonal + v.origin).toNat 0

def set (v : Frontier) (diagonal : Int) (x : Nat) : Frontier :=
  { v with reached := v.reached.setIfInBounds (diagonal + v.origin).toNat x }

/-- Where a way of `d` edits enters a diagonal: from the neighbour that has come
further. -/
def enter (v : Frontier) (d diagonal : Int) : Nat :=
  if diagonal == -d || (diagonal != d && v.get (diagonal - 1) < v.get (diagonal + 1)) then
    v.get (diagonal + 1)
  else v.get (diagonal - 1) + 1

end Frontier

/-- The diagonals that a way of `d` edits can end on, from the highest. -/
def diagonals (d : Nat) : List Int := (List.range (d + 1)).map fun i : Nat => (d : Int) - 2 * i

variable {α : Type} [BEq α]

/-- The number of equal tokens from two places on. -/
def run (old new : Array α) (x y : Nat) : Nat → Nat
  | 0 => 0
  | fuel + 1 =>
    match old[x]?, new[y]? with
    | some a, some b => if a == b then run old new (x + 1) (y + 1) fuel + 1 else 0
    | _, _ => 0

/-- Follows the equal tokens from a place, which may lie outside the second sequence. -/
def follow (old new : Array α) (x : Nat) (y : Int) : Nat :=
  if y < 0 then x else x + run old new x y.toNat old.size

/-- One sweep over the diagonals, until a place is found. -/
def sweep (step : Frontier → Int → Frontier × Option (Nat × Nat)) :
    Frontier → List Int → Frontier × Option (Nat × Nat)
  | v, [] => (v, none)
  | v, k :: rest =>
    match step v k with
    | (v, some place) => (v, some place)
    | (v, none) => sweep step v rest

/-- Searches ways of `d`, `d + 1`, … edits from the front of the sequences and of the
reversed sequences in turn, until two of them meet. -/
def search (old new oldBack newBack : Array α) :
    Nat → Nat → Frontier → Frontier → Option (Nat × Nat)
  | 0, _, _, _ => none
  | fuel + 1, d, forward, backward =>
    let delta : Int := (old.size : Int) - new.size
    let odd := delta % 2 != 0
    let fore (v : Frontier) (k : Int) : Frontier × Option (Nat × Nat) :=
      let x₀ := v.enter d k
      let y₀ : Int := x₀ - k
      let x := follow old new x₀ y₀
      (v.set k x,
        if odd && (k - delta).natAbs < d && old.size ≤ x + backward.get (delta - k) then
          some (x₀, y₀.toNat)
        else none)
    match sweep fore forward (diagonals d) with
    | (_, some place) => some place
    | (forward, none) =>
      let back (v : Frontier) (k : Int) : Frontier × Option (Nat × Nat) :=
        let x := follow oldBack newBack (v.enter d k) (v.enter d k - k)
        let y : Int := x - k
        (v.set k x,
          if !odd && (k - delta).natAbs ≤ d && old.size ≤ x + forward.get (delta - k) then
            some (old.size - x, (new.size - y).toNat)
          else none)
      match sweep back backward (diagonals d) with
      | (_, some place) => some place
      | (backward, none) => search old new oldBack newBack fuel (d + 1) forward backward

/-- Where to split two sequences. -/
def middle (old new : List α) : Option (Nat × Nat) :=
  let radius := (old.length + new.length + 1) / 2 + 1
  search old.toArray new.toArray old.reverse.toArray new.reverse.toArray radius 0
    (.start radius) (.start radius)

end Curator.Snake
