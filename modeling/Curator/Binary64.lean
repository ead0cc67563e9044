/-! # Finite 64-bit floating-point numbers

A finite number of the binary format is a sign and the low 63 bits of its
encoding, read as a natural number. That number grows with the absolute value,
so two floats are compared by comparing integers. Rounding is exact: a quotient
of natural numbers goes to the nearest float, a tie to the even one.
-/

namespace Curator

/-- The encoding of the least normal float, two to the 52nd. It is also the least
significand of full length. -/
def Binary64.leastNormal : Nat := 4503599627370496

/-- The first encoding that is not finite, 2047 times the least normal one. -/
def Binary64.infinity : Nat := 9218868437227405312

/-- A finite float. `magnitude` is the encoding without its sign bit. -/
structure Binary64 where
  negative : Bool
  magnitude : Nat
  finite : magnitude < Binary64.infinity
deriving DecidableEq

/-- The quotient of two natural numbers, a half rounded to the even neighbour. -/
def roundHalfEven (num den : Nat) : Nat :=
  let floor := num / den
  let rest := num % den
  if 2 * rest < den || (2 * rest == den && floor % 2 == 0) then floor else floor + 1

/-- The quotient `num / den` measured in units of `2 ^ unit`. -/
def inUnits (num den : Nat) (unit : Int) : Nat × Nat :=
  if 0 ≤ unit then (num, den * Nat.pow 2 unit.toNat) else (num * Nat.pow 2 (-unit).toNat, den)

/-- The exponent of the last place of `num / den` when it is written with
`precision` binary digits, but never below `least`. -/
def lastPlace (precision : Nat) (least : Int) (num den : Nat) : Int :=
  let unit : Int := (num.log2 : Int) - den.log2 - precision
  let (n, d) := inUnits num den unit
  max least (if n / d < Nat.pow 2 precision then unit else unit + 1)

/-- The nearest number to `num / den` with `precision` binary digits and no place
below `2 ^ least`, as a significand and an exponent. -/
def nearestBinary (precision : Nat) (least : Int) (num den : Nat) : Nat × Int :=
  let unit := lastPlace precision least num den
  let (n, d) := inUnits num den unit
  (roundHalfEven n d, unit)

namespace Binary64

def zero (negative : Bool) : Binary64 := ⟨negative, 0, by decide⟩

/-- The nearest float to `num / den`, absent when that is beyond the finite range. -/
def ofRatio? (negative : Bool) (num den : Nat) : Option Binary64 :=
  if num = 0 then some (zero negative)
  else
    let (significand, exponent) := nearestBinary 53 (-1074) num den
    let magnitude := (exponent + 1074).toNat * leastNormal + significand
    if h : magnitude < infinity then some ⟨negative, magnitude, h⟩ else none

def ofInt? (i : Int) : Option Binary64 := ofRatio? (decide (i < 0)) i.natAbs 1

/-- The float is `significand * 2 ^ exponent`, up to its sign. -/
def significand (x : Binary64) : Nat :=
  if x.magnitude < leastNormal then x.magnitude else leastNormal + x.magnitude % leastNormal

def exponent (x : Binary64) : Int := (max (x.magnitude / leastNormal) 1 : Nat) - 1075

def ratio (x : Binary64) : Nat × Nat := inUnits x.significand 1 (-x.exponent)

/-- The place of a float in the order of the numbers. The two zeros share one. -/
def rank (x : Binary64) : Int := if x.negative then -(x.magnitude : Int) else x.magnitude

def isZero (x : Binary64) : Bool := x.magnitude == 0

def neg (x : Binary64) : Binary64 := { x with negative := !x.negative }

def toInt? (x : Binary64) : Option Int :=
  let (num, den) := x.ratio
  if num % den = 0 then
    let value : Int := (num / den : Nat)
    some (if x.negative then -value else value)
  else none

end Binary64

/-- The share `2 * part / whole` computed in 32-bit floats and widened: both operands
are rounded before they are divided. A part is counted on both sides of a comparison,
so the share is at most one; two empty sides are alike. -/
def diceRatio (part whole : Nat) : Binary64 :=
  let single (num den : Nat) : Nat × Nat :=
    if num = 0 then (0, 1)
    else
      let (significand, exponent) := nearestBinary 24 (-149) num den
      inUnits significand 1 (-exponent)
  let (num, den) :=
    if whole = 0 then (1, 1)
    else
      let (n₁, d₁) := single (2 * part) 1
      let (n₂, d₂) := single whole 1
      single (n₁ * d₂) (d₁ * n₂)
  (Binary64.ofRatio? false num den).getD (Binary64.zero false)

end Curator
