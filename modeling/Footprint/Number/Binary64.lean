/-!
# Binary64 numbers as whole units

Every finite binary64 number is a sign and a whole number of units of `2^-1074`. The bits without
the sign, read as a number `b`, stand for `unitsOf b` units, and they grow with the magnitude. So
rounding a ratio to the nearest binary64 number is one division of natural numbers: with `shift`
the places that do not fit into 53 bits, the rounded quotient is the significand, and adding it to
`shift * 2^52` gives the bits, a carry into the next power of two included.
-/

namespace Footprint

/-- what a binary64 value stands for, a finite magnitude in units of `2^-1074` -/
inductive Number where
  | nan
  | infinite (negative : Bool)
  | finite (negative : Bool) (units : Nat)
  deriving DecidableEq

/-- the whole number nearest to `num / den`, the even one of two -/
def roundDiv (num den : Nat) : Nat :=
  let q := num / den
  let r := num % den
  if 2 * r < den then q
  else if den < 2 * r then q + 1
  else q + q % 2

namespace Binary64

/-- units in one -/
def unitsPerOne : Nat := Nat.pow 2 1074

/-- the bits of infinity, above those of every finite magnitude -/
def infinityBits : Nat := 2047 * Nat.pow 2 52

/-- the sign bit -/
def signBit : Nat := Nat.pow 2 63

/-- the units of a magnitude given by its bits -/
def unitsOf (bits : Nat) : Nat :=
  let exponent := bits / Nat.pow 2 52
  let fraction := bits % Nat.pow 2 52
  if exponent = 0 then fraction else (Nat.pow 2 52 + fraction) * Nat.pow 2 (exponent - 1)

/-- the places of a number of units that a significand of 53 bits leaves out -/
def surplus (units : Nat) : Nat := units.log2 - 52

/-- the bits of the magnitude nearest to `num / den` units, ties to the even significand; from
`infinityBits` on, the magnitude is out of range -/
def nearest (num den : Nat) : Nat :=
  let shift := surplus (num / den)
  shift * Nat.pow 2 52 + roundDiv num (den * Nat.pow 2 shift)

def ofBits (negative : Bool) (bits : Nat) : Float :=
  Float.ofBits (UInt64.ofNat (if negative then signBit + bits else bits))

/-- the binary64 number nearest to a ratio, if it is in range -/
def ofRatio? (negative : Bool) (num den : Nat) : Option Float :=
  let bits := nearest (num * unitsPerOne) den
  if bits < infinityBits then some (ofBits negative bits) else none

/-- a magnitude in units, rounded where it has more than 53 significant bits -/
def ofUnits (negative : Bool) (units : Nat) : Float := ofBits negative (nearest units 1)

def nan : Float := Float.ofBits 0x7ff8000000000000

def infinity (negative : Bool) : Float := ofBits negative infinityBits

/-- the number that bits stand for -/
def numberOf (bits : Nat) : Number :=
  let negative := decide (signBit ≤ bits)
  let magnitude := bits % signBit
  if magnitude < infinityBits then .finite negative (unitsOf magnitude)
  else if magnitude = infinityBits then .infinite negative
  else .nan

def number (x : Float) : Number := numberOf x.toBits.toNat

/-- the exact remainder of a division toward zero, with the sign of the dividend -/
def rem (x y : Float) : Float :=
  match number x, number y with
  | .finite negative u, .finite _ v => if v = 0 then nan else ofUnits negative (u % v)
  | .finite _ _, .infinite _ => x
  | _, _ => nan

/-- neither NaN nor infinite -/
def isFinite (x : Float) : Bool :=
  match number x with
  | .finite _ _ => true
  | _ => false

end Binary64

/-- rounding moves a ratio by at most one half -/
theorem roundDiv_close (num den : Nat) (h : 0 < den) :
    2 * (roundDiv num den * den) ≤ 2 * num + den ∧
      2 * num ≤ 2 * (roundDiv num den * den) + den := by
  have hdiv := Nat.div_add_mod num den
  have hmod := Nat.mod_lt num h
  have hcomm : num / den * den = den * (num / den) := Nat.mul_comm _ _
  unfold roundDiv
  simp only
  split
  · omega
  · split
    · rw [Nat.add_mul]; omega
    · have hbit : num / den % 2 = 0 ∨ num / den % 2 = 1 := by omega
      rcases hbit with hb | hb <;> rw [hb, Nat.add_mul] <;> omega

end Footprint
