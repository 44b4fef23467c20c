import Footprint.Number.Fixed

/-!
# Decimals with an exponent

A positive ratio lies between two powers of ten (`leadingPlace`), so it has a first digit and can be
rounded to any number of significant digits. A decimal is written with an exponent or with all its
places around the point.
-/

namespace Footprint

/-- `digits * 10 ^ exponent` -/
structure Decimal where
  digits : Nat
  exponent : Int
  deriving DecidableEq

namespace Decimal

/-- a power of ten as a ratio -/
def powerNumerator (exponent : Int) : Nat := Nat.pow 10 exponent.toNat

def powerDenominator (exponent : Int) : Nat := Nat.pow 10 (-exponent).toNat

/-- the number of decimal digits -/
def digitCount (n : Nat) : Nat := (Nat.toDigits 10 n).length

/-- the power of ten of the first digit of a positive ratio -/
def leadingPlace (num den : Nat) : Int :=
  if den ≤ num then (digitCount (num / den) : Int) - 1
  else -(digitCount ((den - 1) / num) : Int)

/-- the decimal of `count` significant digits nearest to a positive ratio, ties to even; a carry out
of the first digit makes it the next power of ten -/
def significant (count num den : Nat) : Decimal :=
  let place := leadingPlace num den - (count - 1 : Nat)
  let digits := roundDiv (num * powerDenominator place) (den * powerNumerator place)
  if digits = Nat.pow 10 count then ⟨Nat.pow 10 (count - 1), place + 1⟩ else ⟨digits, place⟩

/-! ### text -/

/-- an exponent with its sign and at least two digits -/
def exponentText (e : Int) : Bytes :=
  Bytes.ofString "e" ++ SignStyle.always.text (e < 0) ++
    (if e.natAbs < 10 then Bytes.zero :: decimal e.natAbs else decimal e.natAbs)

/-- the place of the first digit -/
def leading (d : Decimal) : Int := d.exponent + digitCount d.digits - 1

/-- one digit, a point if there are more, and the exponent -/
def scientificText (d : Decimal) : Bytes :=
  (match decimal d.digits with
    | first :: [] => [first]
    | first :: rest => first :: Bytes.point :: rest
    | [] => []) ++ exponentText d.leading

/-- all digits around the point, without an exponent -/
def positionalText (d : Decimal) : Bytes :=
  let ds := decimal d.digits
  if 0 ≤ d.exponent then ds ++ List.replicate d.exponent.toNat Bytes.zero
  else
    let places := (-d.exponent).toNat
    if places < ds.length then
      ds.take (ds.length - places) ++ Bytes.point :: ds.drop (ds.length - places)
    else Bytes.zero :: Bytes.point :: List.replicate (places - ds.length) Bytes.zero ++ ds

end Decimal

/-- a number with ten significant digits and an exponent; both zeros are written without a sign -/
def scientific (x : Float) : Bytes :=
  match Binary64.number x with
  | .nan => Bytes.ofString "NaN"
  | .infinite negative => SignStyle.always.text negative ++ Bytes.ofString "Inf"
  | .finite negative units =>
    if units = 0 then [Bytes.zero]
    else SignStyle.onlyMinus.text negative ++
      (Decimal.significant 10 units Binary64.unitsPerOne).scientificText

end Footprint
