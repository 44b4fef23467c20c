import Footprint.Text.Bytes

/-!
# Digits and separators

The radix of a numeral, its digits, and the rule for underscores between digits: each one stands
directly behind a digit and directly before another. A radix mark such as `0x` counts as a digit
there.
-/

namespace Footprint

inductive Radix where
  | binary
  | octal
  | decimal
  | hexadecimal
  deriving DecidableEq

namespace Radix

def base : Radix → Nat
  | .binary => 2
  | .octal => 8
  | .decimal => 10
  | .hexadecimal => 16

/-- the value of a byte as a digit of this radix -/
def digit? (radix : Radix) (b : UInt8) : Option Nat :=
  (Bytes.hexValue? b).filter (· < radix.base)

def isDigit (radix : Radix) (b : UInt8) : Bool := (radix.digit? b).isSome

/-- a digit or an underscore -/
def isSpaced (radix : Radix) (b : UInt8) : Bool := radix.isDigit b || b == Bytes.underscore

/-- the number that digit values spell, most significant first -/
def value (radix : Radix) (digits : List Nat) : Nat :=
  digits.foldl (fun n d => n * radix.base + d) 0

end Radix

/-- what stands before a byte of a numeral -/
inductive Neighbour where
  | digit
  | underscore
  | other
  deriving DecidableEq

/-- every underscore stands between two digits, `last` being what stands before the text -/
def separated (isDigit : UInt8 → Bool) (last : Neighbour) : Bytes → Bool
  | [] => last ≠ .underscore
  | b :: rest =>
    if isDigit b then separated isDigit .digit rest
    else if b == Bytes.underscore then last == .digit && separated isDigit .underscore rest
    else last ≠ .underscore && separated isDigit .other rest

/-- a leading sign, and the rest; `true` for a minus -/
def splitSign : Bytes → Bool × Bytes
  | [] => (false, [])
  | b :: rest =>
    if b = Bytes.minus then (true, rest)
    else if b = Bytes.plus then (false, rest)
    else (false, b :: rest)

/-- decimal digits of a number -/
def decimal (n : Nat) : Bytes := (Nat.toDigits 10 n).map fun c => UInt8.ofNat c.toNat

theorem decimal_of_lt_ten {n : Nat} (h : n < 10) : decimal n = [UInt8.ofNat (48 + n)] := by
  simp [decimal, Nat.toDigits_of_lt_base h, Nat.toNat_digitChar_of_lt_ten h]

theorem decimal_of_ten_le {n : Nat} (h : 10 ≤ n) :
    decimal n = decimal (n / 10) ++ [UInt8.ofNat (48 + n % 10)] := by
  have hlt : n % 10 < 10 := Nat.mod_lt _ (by decide)
  simp [decimal, Nat.toDigits_of_base_le (by decide) h, Nat.toNat_digitChar_of_lt_ten hlt]

end Footprint
