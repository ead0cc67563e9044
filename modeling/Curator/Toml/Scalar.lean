import Curator.Number
import Curator.Toml.Text

/-! # Numbers, truth values, dates and times of TOML texts -/

namespace Curator.Toml

/-- Digits of some kind, each underscore between two of them. -/
def groupedFrom (digit : Char → Bool) : List Char → List Char × List Char
  | '_' :: c :: rest =>
    if digit c then
      let (ds, rest) := groupedFrom digit rest
      (c :: ds, rest)
    else ([], '_' :: c :: rest)
  | c :: rest =>
    if digit c then
      let (ds, rest) := groupedFrom digit rest
      (c :: ds, rest)
    else ([], c :: rest)
  | [] => ([], [])

/-- One or more digits with underscores between them. -/
def grouped? (digit : Char → Bool) : Scan (List Char)
  | c :: rest =>
    if digit c then
      let (ds, rest) := groupedFrom digit rest
      some (c :: ds, rest)
    else none
  | [] => none

def sign : List Char → Bool × List Char
  | '-' :: rest => (true, rest)
  | '+' :: rest => (false, rest)
  | cs => (false, cs)

/-- Decimal digits without a leading zero, unless it is the only one. -/
def whole? : Scan (List Char)
  | '0' :: rest => some (['0'], rest)
  | cs => grouped? Char.isDigit cs

/-- An integer that fits 64 bits with a sign. -/
def fitting? (i : Int) : Option Int :=
  if -9223372036854775808 ≤ i ∧ i < 9223372036854775808 then some i else none

/-- The digits of a number in another base, after its mark. -/
def based? (base : Nat) (cs : List Char) : Option (Int × List Char) := do
  let inBase (c : Char) : Bool := (Digits.hex? c).any (· < base)
  let (ds, rest) ← grouped? inBase cs
  let value := ds.foldl (fun n c => n * base + (Digits.hex? c).getD 0) 0
  let i ← fitting? value
  return (i, rest)

def integer? : Scan Int
  | '0' :: 'x' :: rest => based? 16 rest
  | '0' :: 'o' :: rest => based? 8 rest
  | '0' :: 'b' :: rest => based? 2 rest
  | cs => do
    let (negative, cs) := sign cs
    let (ds, rest) ← whole? cs
    let n : Int := Digits.value ds
    let i ← fitting? (if negative then -n else n)
    return (i, rest)

def fraction? : Scan (Option (List Char))
  | '.' :: rest => (grouped? Char.isDigit rest).map fun (ds, rest) => (some ds, rest)
  | cs => some (none, cs)

def exponent? : Scan (Option Int)
  | c :: rest =>
    if c == 'e' || c == 'E' then
      let (negative, rest) := sign rest
      (grouped? Char.isDigit rest).map fun (ds, rest) =>
        let n : Int := Digits.value ds
        (some (if negative then -n else n), rest)
    else some (none, c :: rest)
  | [] => some (none, [])

/-- A number with a fraction or an exponent, infinity, or no number. A positive one has to be
within the floats. The text is that of the source. -/
def float? (cs : List Char) : Option (String × List Char) := do
  let (negative, body) := sign cs
  let source (rest : List Char) := String.ofList (cs.take (cs.length - rest.length))
  match body with
  | 'i' :: 'n' :: 'f' :: rest => return (source rest, rest)
  | 'n' :: 'a' :: 'n' :: rest => return (source rest, rest)
  | _ =>
    let (whole, rest) ← whole? body
    let (fraction, rest) ← fraction? rest
    let (exponent, rest) ← exponent? rest
    if fraction.isNone && exponent.isNone then none
    else
      let numeral : Numeral := ⟨negative, whole, fraction, exponent⟩
      if numeral.toBinary64?.isNone && !negative then none
      else return (source rest, rest)

/-- A number of exactly so many digits between two bounds. -/
def bounded? (width least greatest : Nat) (cs : List Char) : Option (Nat × List Char) :=
  let ds := cs.take width
  let n := Digits.value ds
  if ds.length = width && ds.all Char.isDigit && least ≤ n && n ≤ greatest then
    some (n, cs.drop width)
  else none

def char? (c : Char) : List Char → Option (List Char)
  | d :: rest => if d = c then some rest else none
  | [] => none

def isLeapYear (year : Nat) : Bool :=
  year % 4 == 0 && (year % 100 != 0 || year % 400 == 0)

def daysIn (year month : Nat) : Nat :=
  if month = 2 then if isLeapYear year then 29 else 28
  else if [4, 6, 9, 11].contains month then 30
  else 31

def padded (width n : Nat) : String :=
  let ds := Digits.ofNat n
  String.ofList (List.replicate (width - ds.length) '0' ++ ds)

def date? (cs : List Char) : Option (String × List Char) := do
  let (year, cs) ← bounded? 4 0 9999 cs
  let (month, cs) ← bounded? 2 1 12 (← char? '-' cs)
  let (day, cs) ← bounded? 2 1 (daysIn year month) (← char? '-' cs)
  return (padded 4 year ++ "-" ++ padded 2 month ++ "-" ++ padded 2 day, cs)

/-- The fraction of a second. Nine places count, and zeros at their end do not. -/
def secondFraction? : Scan String
  | '.' :: rest => do
    let (ds, rest) ← Digits.split? rest
    let kept := ((ds.take 9).reverse.dropWhile (· == '0')).reverse
    return (if kept.isEmpty then "" else "." ++ String.ofList kept, rest)
  | cs => some ("", cs)

def time? (cs : List Char) : Option (String × List Char) := do
  let (hour, cs) ← bounded? 2 0 23 cs
  let (minute, cs) ← bounded? 2 0 59 (← char? ':' cs)
  let (second, cs) ← bounded? 2 0 60 (← char? ':' cs)
  let (fraction, cs) ← secondFraction? cs
  return (padded 2 hour ++ ":" ++ padded 2 minute ++ ":" ++ padded 2 second ++ fraction, cs)

/-- The distance from universal time, if it is given. -/
def offset : List Char → String × List Char
  | 'Z' :: rest => ("Z", rest)
  | 'z' :: rest => ("Z", rest)
  | c :: rest =>
    let read : Option (String × List Char) := do
      if c == '+' || c == '-' then
        let (hour, cs) ← bounded? 2 0 23 rest
        let (minute, cs) ← bounded? 2 0 59 (← char? ':' cs)
        let mark := if hour = 0 && minute == 0 then '+' else c
        return (String.ofList [mark] ++ padded 2 hour ++ ":" ++ padded 2 minute, cs)
      else none
    read.getD ("", c :: rest)
  | [] => ("", [])

/-- A date, a time, or both with an optional offset, in their usual text. -/
def dateTime? (cs : List Char) : Option (String × List Char) :=
  match date? cs with
  | none => time? cs
  | some (date, rest) =>
    let both : Option (String × List Char) := do
      match rest with
      | c :: rest =>
        if c == 'T' || c == 't' || c == ' ' then
          let (time, rest) ← time? rest
          let (zone, rest) := offset rest
          return (date ++ "T" ++ time ++ zone, rest)
        else none
      | [] => none
    some (both.getD (date, rest))

def isNumberStart (c : Char) : Bool := c == '+' || c == '-' || c.isDigit

def scalar? (cs : List Char) : Option (Toml × List Char) :=
  match cs with
  | [] => none
  | c :: _ =>
    if c == '"' || c == '\'' then (string? cs).map fun (s, rest) => (.string s, rest)
    else if isNumberStart c then
      match dateTime? cs with
      | some (text, rest) => some (.dateTime text, rest)
      | none =>
        match float? cs with
        | some (text, rest) => some (.float text, rest)
        | none => (integer? cs).map fun (i, rest) => (.integer i, rest)
    else
      match cs with
      | 't' :: 'r' :: 'u' :: 'e' :: rest => some (.bool true, rest)
      | 'f' :: 'a' :: 'l' :: 's' :: 'e' :: rest => some (.bool false, rest)
      | 'i' :: 'n' :: 'f' :: rest => some (.float "inf", rest)
      | 'n' :: 'a' :: 'n' :: rest => some (.float "nan", rest)
      | _ => none

end Curator.Toml
