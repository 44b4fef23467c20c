/-!
# Byte strings

Names, file contents and printed text are byte strings: they need not be valid UTF-8, and they are
ordered byte by byte.
-/

namespace Footprint

/-- a string of bytes, ordered bytewise -/
abbrev Bytes := List UInt8

namespace Bytes

/-- the UTF-8 encoding of a text -/
def ofString (s : String) : Bytes := s.toList.flatMap String.utf8EncodeChar

/-! ### bytes with a meaning of their own -/

def newline : UInt8 := 10
def carriageReturn : UInt8 := 13
def space : UInt8 := 32
def quote : UInt8 := 34
def percent : UInt8 := 37
def plus : UInt8 := 43
def comma : UInt8 := 44
def minus : UInt8 := 45
def point : UInt8 := 46
def slash : UInt8 := 47
def zero : UInt8 := 48
def equals : UInt8 := 61
def backslash : UInt8 := 92
def underscore : UInt8 := 95

/-- upper-case ASCII letters become lower-case, all other bytes stay -/
def lower (b : UInt8) : UInt8 := if 65 ≤ b ∧ b ≤ 90 then b + 32 else b

/-- the value of a hexadecimal digit in either case -/
def hexValue? (b : UInt8) : Option Nat :=
  if 48 ≤ b ∧ b ≤ 57 then some (b.toNat - 48)
  else if 97 ≤ lower b ∧ lower b ≤ 102 then some ((lower b).toNat - 87)
  else none

/-- the lower-case digit of a value below sixteen -/
def hexDigit (n : Nat) : UInt8 := UInt8.ofNat (if n < 10 then 48 + n else 87 + n)

/-- the lowest `width` hexadecimal digits of `n`, most significant first -/
def hex : Nat → Nat → Bytes
  | 0, _ => []
  | width + 1, n => hex width (n / 16) ++ [hexDigit (n % 16)]

theorem ofString_append (s t : String) : ofString (s ++ t) = ofString s ++ ofString t := by
  simp [ofString]

theorem length_hex (width n : Nat) : (hex width n).length = width := by
  induction width generalizing n with
  | zero => rfl
  | succ width ih => simp [hex, ih]

end Bytes

end Footprint
