import Footprint.Number.Digit

/-!
# Whole numbers of 64 bits

A whole number is a sign and digits in a radix that the text announces: `0x`, `0o` or `0b` with
something behind it, a leading zero for octal, else decimal. Underscores may stand between digits.
-/

namespace Footprint

/-- why a text is no whole number of 64 bits -/
inductive IntegerFault where
  | malformed
  | outOfRange
  deriving DecidableEq

namespace IntegerFault

def message : IntegerFault → Bytes
  | .malformed => Bytes.ofString "parse error"
  | .outOfRange => Bytes.ofString "value out of range"

end IntegerFault

namespace Integer

/-- the radix that a letter behind a zero stands for -/
def radixOfLetter? (b : UInt8) : Option Radix :=
  if Bytes.lower b = 98 then some .binary
  else if Bytes.lower b = 111 then some .octal
  else if Bytes.lower b = 120 then some .hexadecimal
  else none

/-- the radix that the text announces, and the text behind the announcement -/
def splitRadix (s : Bytes) : Radix × Bytes :=
  match s with
  | [] => (.decimal, [])
  | z :: rest =>
    if z ≠ Bytes.zero then (.decimal, s)
    else
      match rest with
      | mark :: b :: more =>
        match radixOfLetter? mark with
        | some radix => (radix, b :: more)
        | none => (.octal, rest)
      | _ => (.octal, rest)

/-- the largest magnitude of 64 bits -/
def limit : Nat := Nat.pow 2 64 - 1

/-- the digits behind `n`, read up to the first that is none or leads past the limit -/
def accumulate (radix : Radix) (n : Nat) : Bytes → Except IntegerFault Nat
  | [] => .ok n
  | b :: rest =>
    if b = Bytes.underscore then accumulate radix n rest
    else
      match radix.digit? b with
      | none => .error .malformed
      | some d =>
        if limit < n * radix.base + d then .error .outOfRange
        else accumulate radix (n * radix.base + d) rest

/-- a magnitude without sign -/
def magnitude (s : Bytes) : Except IntegerFault Nat :=
  if s.isEmpty then .error .malformed
  else
    let (radix, digits) := splitRadix s
    match accumulate radix 0 digits with
    | .error e => .error e
    | .ok n =>
      if separated radix.isDigit (if radix = .decimal then .other else .digit) digits then .ok n
      else .error .malformed

/-- a whole number of 64 bits with its sign -/
def read (s : Bytes) : Except IntegerFault Int :=
  let (negative, rest) := splitSign s
  match magnitude rest with
  | .error e => .error e
  | .ok n =>
    if negative then if Nat.pow 2 63 < n then .error .outOfRange else .ok (-n)
    else if Nat.pow 2 63 ≤ n then .error .outOfRange
    else .ok n

end Integer

end Footprint
