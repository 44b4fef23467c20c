import Footprint.Number.Decimal

/-!
# The shortest decimal

Of all decimals that read back as a given binary64 number, the one with the fewest digits, and of
those the nearest.
-/

namespace Footprint

namespace Decimal

/-- the magnitude nearest to a decimal, as bits -/
def nearest (d : Decimal) : Nat :=
  Binary64.nearest (d.digits * powerNumerator d.exponent * Binary64.unitsPerOne)
    (powerDenominator d.exponent)

/-- trailing zeros moved into the exponent, at most `fuel` of them -/
def strip : Nat → Decimal → Decimal
  | 0, d => d
  | fuel + 1, d =>
    if d.digits ≠ 0 ∧ d.digits % 10 = 0 then strip fuel ⟨d.digits / 10, d.exponent + 1⟩ else d

/-- the form without trailing zeros -/
def reduce (d : Decimal) : Decimal := strip (digitCount d.digits) d

/-- the decimal of `count` digits nearest to a positive number of units among those that read back
as it -/
def readingBack? (count units : Nat) : Option Decimal :=
  let bits := Binary64.nearest units 1
  let place := leadingPlace units Binary64.unitsPerOne - (count - 1 : Nat)
  let num := units * powerDenominator place
  let den := Binary64.unitsPerOne * powerNumerator place
  let low : Decimal := ⟨num / den, place⟩
  let high : Decimal := ⟨num / den + 1, place⟩
  let closer : Decimal := ⟨roundDiv num den, place⟩
  [closer, low, high].find? fun d => d.nearest == bits

/-- a number of units with all its digits -/
def ofUnits (units : Nat) : Decimal := ⟨units * Nat.pow 5 1074, -1074⟩

/-- the fewest digits that read back as a positive number of units, the nearest such decimal; with
seventeen digits some decimal always does -/
def shortest (units : Nat) : Decimal :=
  (((List.range 17).findSome? fun k => readingBack? (k + 1) units).getD (ofUnits units)).reduce

/-- numbers below a ten-thousandth and from a million on are written with an exponent -/
def generalText (d : Decimal) : Bytes :=
  if d.leading < -4 ∨ 6 ≤ d.leading then d.scientificText else d.positionalText

end Decimal

/-- the shortest decimal text that reads back as the same number -/
def general (x : Float) : Bytes :=
  match Binary64.number x with
  | .nan => Bytes.ofString "NaN"
  | .infinite negative => SignStyle.always.text negative ++ Bytes.ofString "Inf"
  | .finite negative units =>
    SignStyle.onlyMinus.text negative ++
      (if units = 0 then [Bytes.zero] else (Decimal.shortest units).generalText)

end Footprint
