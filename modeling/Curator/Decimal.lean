import Curator.Binary64
import Curator.Digits

/-! # Decimal text of floats

A decimal is a natural coefficient and a power of ten. Reading one gives the
nearest float; writing a float gives the fewest digits that read back as it, and
of two such decimals the nearer one.
-/

namespace Curator

/-- The number `coefficient * 10 ^ exponent`. -/
structure Decimal where
  coefficient : Nat
  exponent : Int
deriving DecidableEq

namespace Decimal

def digits (d : Decimal) : List Char := Digits.ofNat d.coefficient

def leading (d : Decimal) : Int := d.exponent + d.digits.length - 1

/-- The nearest float, absent beyond the finite range. Decimals far outside the
range are settled by their leading exponent alone. -/
def toBinary64? (negative : Bool) (d : Decimal) : Option Binary64 :=
  if d.coefficient = 0 || d.leading < -400 then some (Binary64.zero negative)
  else if 400 < d.leading then none
  else if 0 ≤ d.exponent then
    Binary64.ofRatio? negative (d.coefficient * Nat.pow 10 d.exponent.toNat) 1
  else Binary64.ofRatio? negative d.coefficient (Nat.pow 10 (-d.exponent).toNat)

/-- The exponent of the first decimal digit of `num / den`. -/
def leadingOfRatio (num den : Nat) : Int :=
  let reaches (e : Int) : Bool :=
    if 0 ≤ e then Nat.pow 10 e.toNat * den ≤ num else den ≤ num * Nat.pow 10 (-e).toNat
  let start : Int := ((num.log2 : Int) - den.log2) * 30103 / 100000 - 2
  (List.range 5).foldl (fun e _ => if reaches (e + 1) then e + 1 else e) start

def inDecimalUnits (num den : Nat) (unit : Int) : Nat × Nat :=
  if 0 ≤ unit then (num, den * Nat.pow 10 unit.toNat) else (num * Nat.pow 10 (-unit).toNat, den)

/-- The one or two decimals with `count` digits that enclose a float, the nearer
one first. -/
def neighbours (x : Binary64) (count : Nat) : List Decimal :=
  let (num, den) := x.ratio
  let unit := leadingOfRatio num den - (count - 1 : Nat)
  let (n, d) := inDecimalUnits num den unit
  let below : Decimal := ⟨n / d, unit⟩
  let above : Decimal := ⟨n / d + 1, unit⟩
  let rest := n % d
  if rest = 0 then [below]
  else if 2 * rest < d || (2 * rest == d && n / d % 2 == 0) then [below, above]
  else [above, below]

def readsBackAs (x : Binary64) (d : Decimal) : Bool :=
  (d.toBinary64? false).any fun y => y.magnitude == x.magnitude

/-- Trailing zeros of the coefficient move into the exponent. -/
def trim : Nat → Decimal → Decimal
  | 0, d => d
  | fuel + 1, d =>
    if d.coefficient ≠ 0 && d.coefficient % 10 == 0 then
      trim fuel ⟨d.coefficient / 10, d.exponent + 1⟩
    else d

/-- The shortest decimal that reads back as the absolute value of a float. -/
def shortest (x : Binary64) : Decimal :=
  if x.isZero then ⟨0, 0⟩
  else
    let found := (List.range 17).findSome? fun n =>
      (neighbours x (n + 1)).find? (readsBackAs x)
    trim 20 (found.getD ⟨x.ratio.1 / x.ratio.2, 0⟩)

def positional (d : Decimal) : String :=
  let ds := d.digits
  let split := d.leading + 1
  if split ≤ 0 then "0." ++ String.ofList (List.replicate (-split).toNat '0' ++ ds)
  else
    let whole := ds.take split.toNat
    let zeros := List.replicate (split.toNat - ds.length) '0'
    let fraction := ds.drop split.toNat
    String.ofList (whole ++ zeros) ++ "." ++
      (if fraction.isEmpty then "0" else String.ofList fraction)

/-- The decimal with one digit before the point and a signed exponent. -/
def scientific (d : Decimal) : String :=
  let fraction := d.digits.drop 1
  String.ofList (d.digits.take 1) ++
    (if fraction.isEmpty then "" else "." ++ String.ofList fraction) ++
    "e" ++ (if d.leading < 0 then "-" else "+") ++ toString d.leading.natAbs

end Decimal

/-- Which leading exponents are written without an exponent part. -/
structure FloatLayout where
  leastPositional : Int
  greatestPositional : Int

def FloatLayout.render (layout : FloatLayout) (x : Binary64) : String :=
  let d := Decimal.shortest x
  let sign := if x.negative then "-" else ""
  if layout.leastPositional ≤ d.leading && d.leading ≤ layout.greatestPositional then
    sign ++ d.positional
  else sign ++ d.scientific

/-- A non-negative float with a fixed number of decimal places, a half rounded to
the even neighbour. -/
def Binary64.fixed (places : Nat) (x : Binary64) : String :=
  let (num, den) := x.ratio
  let scaled := roundHalfEven (num * Nat.pow 10 places) den
  let ds := Digits.ofNat (scaled % Nat.pow 10 places)
  toString (scaled / Nat.pow 10 places) ++ "." ++
    String.ofList (List.replicate (places - ds.length) '0' ++ ds)

end Curator
