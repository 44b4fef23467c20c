import Footprint.Number.Numeral
import Footprint.Text.Blank
import Footprint.Text.Quoted

/-!
# Sizes

The text of a size is a numeral, an infinity or NaN, with blanks around it ignored.
-/

namespace Footprint.Size

/-- infinities with an optional sign and NaN without one, in any letter case -/
def special? (s : Bytes) : Option Float :=
  let (negative, rest) := splitSign s
  let word := rest.map Bytes.lower
  if word = Bytes.ofString "inf" ∨ word = Bytes.ofString "infinity" then
    some (Binary64.infinity negative)
  else if s.map Bytes.lower = Bytes.ofString "nan" then some Binary64.nan
  else none

/-- a size without blanks around it -/
def ofTrimmed? (s : Bytes) : Option Float :=
  match special? s with
  | some x => some x
  | none => (Numeral.read? s).bind Numeral.value?

/-- the size that a text denotes -/
def read? (s : Bytes) : Option Float := ofTrimmed? (trim s)

/-- the complaint about a text that denotes no size -/
def complaint (s : Bytes) : Bytes := Bytes.ofString "invalid size " ++ quote s

/-- the size that a text denotes, or the complaint about it -/
def parse (s : Bytes) : Except Bytes Float :=
  match read? s with
  | some x => .ok x
  | none => .error (complaint s)

end Footprint.Size
