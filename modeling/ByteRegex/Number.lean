import ByteRegex.Numeral

/-!
Numbers given as arguments. They have the precision of 53 bits and a limited range, so a decimal is
read as the nearest of them. The text of a number has the fewest decimal digits that are read back
as the same number.
-/

namespace ByteRegex

/-- Zero has a sign of its own, and what is beyond the range is infinite. -/
inductive Number where
  | finite (x : Rat)
  | negativeZero
  | infinite (negative : Bool)
deriving DecidableEq

namespace Number

def roundDiv (n d : Nat) : Nat :=
  let q := n / d
  let r := n % d
  if 2 * r < d then q
  else if d < 2 * r then q + 1
  else q + q % 2

def power (base : Nat) (exponent : Int) : Rat :=
  if exponent < 0 then 1 / Nat.pow base exponent.natAbs else Nat.pow base exponent.toNat

/-- The exponent of the last power of a base up to a positive number, which is `guess` or the one
below it. -/
def leadingPlace (base : Nat) (guess : Int) (x : Rat) : Int :=
  if power base guess ≤ x then guess else guess - 1

def leadingBit (x : Rat) : Int :=
  leadingPlace 2 ((x.num.natAbs.log2 : Int) - x.den.log2) x

def leadingDigit (x : Rat) : Int :=
  leadingPlace 10
    (((Numeral.digits 10 x.num.natAbs).length : Int) - (Numeral.digits 10 x.den).length) x

def inUnits (unit x : Rat) : Nat := roundDiv (x / unit).num.natAbs (x / unit).den

/-- Rounds a magnitude to 53 bits. The last of them is at no lower place than the least magnitude,
two to the power of -1074. -/
def nearest (x : Rat) : Rat :=
  let lastBit := leadingBit x - 52
  let unit := power 2 (if lastBit < -1074 then -1074 else lastBit)
  inUnits unit x * unit

def ofMagnitude (negative : Bool) (x : Rat) : Number :=
  let rounded := nearest x
  if power 2 1024 ≤ rounded then .infinite negative
  else if rounded.num = 0 ∧ negative then .negativeZero
  else .finite (if negative then -rounded else rounded)

/-- The number written as a sign and digits times a power of ten. One with more than 400 places
before the point is beyond the range, and one with more than 400 zeros behind it is rounded to
zero. -/
def ofDecimal (negative : Bool) (digits : Nat) (exponent : Int) : Number :=
  let places : Int := (Numeral.digits 10 digits).length + exponent
  if digits = 0 ∨ places < -400 then ofMagnitude negative 0
  else if 400 < places then .infinite negative
  else ofMagnitude negative (digits * power 10 exponent)

/-- Digits, and the power of ten of the place before the first of them: the value is `0.digits`
times that power. -/
structure Decimal where
  digits : List Nat
  point : Int

def withDigits? (x : Rat) (count : Nat) : Option Nat :=
  let unit := power 10 (leadingDigit x - count + 1)
  let low := (x / unit).floor.toNat
  let reads (n : Nat) : Bool := nearest (n * unit) = x
  match reads low, reads (low + 1) with
  | true, true => some (inUnits unit x)
  | true, false => some low
  | false, true => some (low + 1)
  | false, false => none

/-- The shortest decimal that is read back as a positive number. The nearest one of seventeen digits
always is. -/
def shortest (x : Rat) : Decimal :=
  let shorter := (List.range 16).findSome? fun k => (withDigits? x (k + 1)).map fun n => (k + 1, n)
  let written := shorter.getD (17, inUnits (power 10 (leadingDigit x - 16)) x)
  let digits := Numeral.digits 10 written.2
  ⟨Numeral.significant digits, leadingDigit x + 1 + ((digits.length : Int) - written.1)⟩

/-- Positional notation up to twenty-one places before the point and six zeros after it, and powers
of ten beyond. -/
def Decimal.codes (d : Decimal) : List Nat :=
  let digits := d.digits.map Numeral.digitCode
  let count : Int := digits.length
  if count ≤ d.point ∧ d.point ≤ 21 then
    digits ++ List.replicate (d.point - count).toNat 48
  else if 0 < d.point ∧ d.point ≤ 21 then
    digits.take d.point.toNat ++ 46 :: digits.drop d.point.toNat
  else if -6 < d.point ∧ d.point ≤ 0 then
    48 :: 46 :: List.replicate (-d.point).toNat 48 ++ digits
  else Numeral.scientific d.digits (d.point - 1)

def exactLimit : Nat := 9007199254740992

def codes : Number → List Nat
  | .finite x =>
    if x.den = 1 ∧ x.num.natAbs ≤ exactLimit then Numeral.codes 10 x.num
    else if x < 0 then 45 :: (shortest (-x)).codes
    else (shortest x).codes
  | .negativeZero => [45, 48]
  | .infinite negative =>
    let magnitude := "Infinity".toList.map Char.toNat
    if negative then 45 :: magnitude else magnitude

def text (x : Number) : List Char := Numeral.text x.codes

def toInt? : Number → Option Int
  | .finite x => if x.den = 1 then some x.num else none
  | .negativeZero => some 0
  | .infinite _ => none

def Decimal.whole (d : Decimal) : Int :=
  Numeral.value 10 d.digits * Nat.pow 10 (d.point - d.digits.length).toNat

/-- The whole number that the text of a number denotes. Beyond the exact ones the text may have
zeros where the value has other digits. -/
def shown? (x : Number) : Option Int :=
  x.toInt?.map fun n =>
    if n.natAbs ≤ exactLimit then n
    else if n < 0 then -(shortest (-n)).whole
    else (shortest n).whole

end Number

end ByteRegex
