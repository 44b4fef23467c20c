import Footprint.Number.Binary64
import Footprint.Number.Digit

/-!
# Numbers with two decimal places

The exact value is rounded to hundredths, ties to the even one, and all its digits are written. The
sign is that of the number, also where only zeros are left of it.
-/

namespace Footprint

/-- whether a number that is not negative shows a plus -/
inductive SignStyle where
  | onlyMinus
  | always
  deriving DecidableEq

namespace SignStyle

def text (style : SignStyle) (negative : Bool) : Bytes :=
  if negative then [Bytes.minus]
  else match style with
    | .onlyMinus => []
    | .always => [Bytes.plus]

end SignStyle

namespace Fixed

/-- a magnitude in hundredths -/
def hundredths (units : Nat) : Nat := roundDiv (100 * units) Binary64.unitsPerOne

/-- the two digits of a number below a hundred -/
def twoDigits (n : Nat) : Bytes := [UInt8.ofNat (48 + n / 10), UInt8.ofNat (48 + n % 10)]

/-- a whole number of hundredths -/
def magnitude (n : Nat) : Bytes := decimal (n / 100) ++ Bytes.point :: twoDigits (n % 100)

/-- the text of a number; an infinity always shows its sign -/
def render (style : SignStyle) (x : Number) : Bytes :=
  match x with
  | .nan => style.text false ++ Bytes.ofString "NaN"
  | .infinite negative => SignStyle.always.text negative ++ Bytes.ofString "Inf"
  | .finite negative units => style.text negative ++ magnitude (hundredths units)

end Fixed

/-- a number with two places -/
def fixed (x : Float) : Bytes := Fixed.render .onlyMinus (Binary64.number x)

/-- a number with two places and a sign -/
def signedFixed (x : Float) : Bytes := Fixed.render .always (Binary64.number x)

end Footprint
