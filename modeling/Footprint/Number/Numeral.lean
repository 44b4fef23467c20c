import Footprint.Number.Binary64
import Footprint.Number.Digit

/-!
# Numerals

A numeral is a sign, decimal digits with at most one point and an optional exponent of ten, or
`0x`, hexadecimal digits with at most one point and an exponent of two. Its value is the nearest
binary64 number.

Decimal digits are read with limited room. The nineteen leading digits settle the value when
everything they leave open rounds to one number. A numeral that they do not settle is read digit by
digit, and there is a place for only 800 digits before the point: every further one of them makes
the value ten times smaller. So the value is the nearest number whenever the numeral is settled or
has at most 800 digits before the point.
-/

namespace Footprint

structure Numeral where
  negative : Bool
  /-- hexadecimal digits and an exponent of two, rather than decimal digits and one of ten -/
  hexadecimal : Bool
  /-- the values of all digits, most significant first -/
  digits : List Nat
  /-- how many of the digits stand behind the point -/
  places : Nat
  exponent : Int

namespace Numeral

def radixOf (hexadecimal : Bool) : Radix := if hexadecimal then .hexadecimal else .decimal

/-- a text that starts with `0x` and goes on is hexadecimal; the flag, and the text behind it -/
def splitRadix : Bytes → Bool × Bytes
  | z :: x :: b :: rest =>
    if z = Bytes.zero ∧ Bytes.lower x = 120 then (true, b :: rest) else (false, z :: x :: b :: rest)
  | s => (false, s)

/-- the fraction behind a point, and the rest -/
def splitFraction (radix : Radix) : Bytes → Bytes × Bytes
  | [] => ([], [])
  | b :: rest =>
    if b = Bytes.point then (rest.takeWhile radix.isSpaced, rest.dropWhile radix.isSpaced)
    else ([], b :: rest)

/-- written exponents grow up to five digits and ignore what follows -/
def exponentLimit : Nat := 10000

/-- the value of the digits of an exponent -/
def exponentValue (s : Bytes) : Nat :=
  (s.filterMap Radix.decimal.digit?).foldl
    (fun e d => if e < exponentLimit then e * 10 + d else e) 0

/-- an exponent without its mark: a sign and digits, the first byte being a digit -/
def signedExponent? (s : Bytes) : Option Int :=
  let (negative, digits) := splitSign s
  if (digits.head?.any Radix.decimal.isDigit) && digits.all Radix.decimal.isSpaced then
    some (if negative then -exponentValue digits else exponentValue digits)
  else none

/-- what follows the digits: the exponent, which only a decimal numeral may leave out -/
def exponent? (hexadecimal : Bool) : Bytes → Option Int
  | [] => if hexadecimal then none else some 0
  | mark :: rest =>
    if Bytes.lower mark = (if hexadecimal then 112 else 101) then signedExponent? rest else none

/-- reads a numeral that takes up the whole text -/
def read? (s : Bytes) : Option Numeral :=
  let (negative, s) := splitSign s
  let (hexadecimal, s) := splitRadix s
  let radix := radixOf hexadecimal
  let whole := s.takeWhile radix.isSpaced
  let (fraction, rest) := splitFraction radix (s.dropWhile radix.isSpaced)
  let places := (fraction.filterMap radix.digit?).length
  let digits := (whole ++ fraction).filterMap radix.digit?
  if digits.isEmpty || !separated radix.isDigit (if hexadecimal then .digit else .other) s then none
  else (exponent? hexadecimal rest).map fun exponent =>
    { negative, hexadecimal, digits, places, exponent }

/-- the digits as one whole number -/
def significand (n : Numeral) : Nat := (radixOf n.hexadecimal).value n.digits

/-- the base of the exponent -/
def base (n : Numeral) : Nat := if n.hexadecimal then 2 else 10

/-- the power of the base by which the significand counts -/
def scale (n : Numeral) : Int :=
  n.exponent - (if n.hexadecimal then 4 * n.places else n.places)

/-- the magnitude is `numerator / denominator` -/
def numerator (n : Numeral) : Nat := n.significand * n.base.pow n.scale.toNat

def denominator (n : Numeral) : Nat := n.base.pow (-n.scale).toNat

/-- the nearest binary64 number, unless the magnitude is out of range -/
def nearest? (n : Numeral) : Option Float :=
  Binary64.ofRatio? n.negative n.numerator n.denominator

/-! ### Long decimal numerals -/

/-- how many leading digits may settle the value -/
def leadLength : Nat := 19

/-- how many digits before the point have a place -/
def wholeCapacity : Nat := 800

/-- the digits from the first one that is not zero -/
def significant (n : Numeral) : List Nat := n.digits.dropWhile (· = 0)

/-- the digits before the point, from the first one that is not zero -/
def wholeDigits (n : Numeral) : List Nat :=
  (n.digits.take (n.digits.length - n.places)).dropWhile (· = 0)

/-- the digits before the point that have no place -/
def surplus (n : Numeral) : Nat := n.wholeDigits.length - wholeCapacity

/-- the numeral that keeps the leading digits only -/
def lead (n : Numeral) : Numeral :=
  { n with
    digits := n.significant.take leadLength
    places := 0
    exponent := n.scale + (n.significant.drop leadLength).length }

/-- the numeral one unit above in its last digit, written as a single digit of that value -/
def above (n : Numeral) : Numeral := { n with digits := [n.significand + 1] }

/-- the leading digits decide the value: nothing but zeros follows them, or they and their
successor round to the same number -/
def settled (n : Numeral) : Bool :=
  n.hexadecimal || (n.significant.drop leadLength).all (· = 0) ||
    n.lead.nearest?.map Float.toBits == n.lead.above.nearest?.map Float.toBits

/-- the numeral as it is read: without the places that a long one has lost -/
def placed (n : Numeral) : Numeral :=
  if n.settled then n else { n with exponent := n.exponent - n.surplus }

/-- the value of a numeral, unless the magnitude is out of range -/
def value? (n : Numeral) : Option Float := n.placed.nearest?

end Numeral

end Footprint
