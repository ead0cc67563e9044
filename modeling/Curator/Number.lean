import Curator.Decimal
import Curator.Digits

/-! # Numbers of documents

A number is an integer that fits 64 bits, signed or unsigned, or a finite float.
The two are different values even where they denote the same quantity; a
comparison of quantities goes through the nearest float.
-/

namespace Curator

/-- An integer that fits 64 bits, signed or unsigned. -/
structure Integer where
  val : Int
  lower : -9223372036854775808 ≤ val
  upper : val < 18446744073709551616
deriving DecidableEq

inductive Number where
  | integer (i : Integer)
  | float (x : Binary64)
deriving DecidableEq

namespace Number

/-- Floats keep `1.0` and `1e+16` apart from integers; from `1e+16` on and below
`1e-5` they are written with an exponent. -/
def layout : FloatLayout := ⟨-5, 15⟩

def render : Number → String
  | .integer i => toString i.val
  | .float x => layout.render x

def ofInt? (i : Int) : Option Number :=
  if h : -9223372036854775808 ≤ i ∧ i < 18446744073709551616 then
    some (.integer ⟨i, h.1, h.2⟩)
  else none

/-- A count of things. Counts beyond the integers stay at the greatest one. -/
def ofCount (n : Nat) : Number :=
  .integer ⟨(min n 18446744073709551615 : Nat), by omega, by omega⟩

/-- The natural number that an integer stands for. Floats stand for none. -/
def toNat? : Number → Option Nat
  | .integer i => if 0 ≤ i.val then some i.val.toNat else none
  | .float _ => none

theorem toNat?_ofCount {n : Nat} (h : n < UInt64.size) : (ofCount n).toNat? = some n := by
  have hmin : min n 18446744073709551615 = n := by
    simp only [UInt64.size] at h
    omega
  simp [ofCount, toNat?, hmin]

def toBinary64? : Number → Option Binary64
  | .integer i => Binary64.ofInt? i.val
  | .float x => some x

/-- A float without fraction becomes an integer where it is below `2 ^ 63` in
absolute value. -/
def ofBinary64 (x : Binary64) : Number :=
  match x.toInt? with
  | some i =>
    if h : -9223372036854775808 < i ∧ i < 9223372036854775808 then .integer ⟨i, by omega, by omega⟩
    else .float x
  | none => .float x

/-- Equality of values: integers and floats differ, the two zeros do not. -/
def same : Number → Number → Bool
  | .integer i, .integer j => i == j
  | .float x, .float y => x.rank == y.rank
  | _, _ => false

/-- Equality of quantities, by way of the nearest floats. -/
def sameQuantity (a b : Number) : Bool :=
  a.toBinary64?.map Binary64.rank == b.toBinary64?.map Binary64.rank

def isZero (n : Number) : Bool := n.toBinary64?.all Binary64.isZero

end Number

/-- A number as written: an optional minus sign, digits, an optional fraction and
an optional exponent. -/
structure Numeral where
  negative : Bool
  whole : List Char
  fraction : Option (List Char)
  exponent : Option Int

/-- The nearest float, if there is one. -/
def Numeral.toBinary64? (t : Numeral) : Option Binary64 :=
  let fraction := t.fraction.getD []
  let decimal : Decimal :=
    ⟨Digits.value (t.whole ++ fraction), t.exponent.getD 0 - (fraction.length : Int)⟩
  decimal.toBinary64? t.negative

/-- A numeral without fraction and exponent denotes an integer where one fits, except
that minus zero is a float. All others denote the nearest float, if there is one. -/
def Numeral.toNumber? (t : Numeral) : Option Number :=
  let float := t.toBinary64?.map Number.float
  if t.fraction.isNone && t.exponent.isNone then
    let n := Digits.value t.whole
    let value : Int := if t.negative then -(n : Int) else n
    if t.negative && n == 0 then float else Number.ofInt? value <|> float
  else float

end Curator
