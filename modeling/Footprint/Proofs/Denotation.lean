import Mathlib.Algebra.Order.Field.Basic
import Mathlib.Data.Nat.Digits.Defs
import Footprint.Proofs.Rounding
import Footprint.Proofs.Spelling

/-!
# What numerals denote

A spelling denotes a rational (`Spelling.magnitude`). Reading keeps less than that: of the exponent
it counts five digits (`Spelling.counted`, `Numeral.exponentValue_eq_ofDigits`), which matters to
exponents beyond `9999` only (`Spelling.counted_eq_magnitude`), and a long decimal numeral may lose
places (`Spelling.kept`). The value is the nearest number to what is kept (`Numeral.value?_spec`,
`Spelling.kept_eq`).
-/

namespace Footprint

/-! ### digits -/

namespace Radix

/-- the number that digits spell, their underscores left out -/
def number (radix : Radix) (s : Bytes) : ℕ :=
  Nat.ofDigits radix.base (s.filterMap radix.digit?).reverse

theorem foldl_horner (radix : Radix) (digits : List ℕ) (a : ℕ) :
    digits.foldl (fun n d => n * radix.base + d) a =
      a * radix.base ^ digits.length + Nat.ofDigits radix.base digits.reverse := by
  induction digits generalizing a with
  | nil => simp
  | cons d rest ih =>
    rw [List.foldl_cons, ih, List.reverse_cons, Nat.ofDigits_append, List.length_reverse,
      Nat.ofDigits_singleton, List.length_cons]
    ring

theorem value_eq_ofDigits (radix : Radix) (digits : List ℕ) :
    radix.value digits = Nat.ofDigits radix.base digits.reverse := by
  rw [value, foldl_horner, Nat.zero_mul, Nat.zero_add]

theorem number_append (radix : Radix) (s t : Bytes) : radix.number (s ++ t) =
    radix.number s * radix.base ^ (t.filterMap radix.digit?).length + radix.number t := by
  unfold number
  rw [List.filterMap_append, List.reverse_append, Nat.ofDigits_append, List.length_reverse]
  ring

theorem lt_base_of_digit? {radix : Radix} {s : Bytes} {d : ℕ}
    (hd : d ∈ s.filterMap radix.digit?) : d < radix.base := by
  obtain ⟨b, -, hb⟩ := List.mem_filterMap.mp hd
  simpa using (Option.filter_eq_some_iff.mp hb).2

end Radix

/-! ### exponents -/

namespace Numeral

def countDigit (e d : ℕ) : ℕ := if e < exponentLimit then e * 10 + d else e

theorem exponentValue_eq (s : Bytes) :
    exponentValue s = (s.filterMap Radix.decimal.digit?).foldl countDigit 0 := rfl

/-- once the limit is reached no digit counts -/
theorem foldl_countDigit_of_le {e : ℕ} (he : exponentLimit ≤ e) (digits : List ℕ) :
    digits.foldl countDigit e = e := by
  induction digits with
  | nil => rfl
  | cons d rest ih => rw [List.foldl_cons, countDigit, if_neg (not_lt.mpr he), ih]

/-- behind a first digit that is not zero, as many count as make five digits -/
theorem foldl_countDigit (k : ℕ) {e : ℕ} {digits : List ℕ} (hk : k ≤ 4)
    (hlow : 10 ^ (4 - k) ≤ e) (hhigh : e < 10 ^ (5 - k)) (hdigits : ∀ d ∈ digits, d < 10) :
    digits.foldl countDigit e = (digits.take k).foldl (fun n d => n * 10 + d) e := by
  induction digits generalizing k e with
  | nil => rw [List.take_nil]; rfl
  | cons d rest ih =>
    cases k with
    | zero => exact foldl_countDigit_of_le hlow _
    | succ k =>
      have hd : d < 10 := hdigits d List.mem_cons_self
      have hlimit : e < 10 ^ 4 := hhigh.trans_le (Nat.pow_le_pow_right (by decide) (by omega))
      have hstep : countDigit e d = e * 10 + d := if_pos hlimit
      have hpow : 10 ^ (4 - k) = 10 ^ (4 - (k + 1)) * 10 := by
        rw [← pow_succ]
        congr 1
        omega
      have hpow' : 10 ^ (5 - k) = 10 ^ (5 - (k + 1)) * 10 := by
        rw [← pow_succ]
        congr 1
        omega
      rw [List.foldl_cons, List.take_succ_cons, List.foldl_cons, hstep]
      exact ih k (by omega) (by omega) (by omega)
        fun d' hd' => hdigits d' (List.mem_cons_of_mem _ hd')

/-- leading zeros do not count -/
theorem foldl_countDigit_dropWhile (digits : List ℕ) :
    digits.foldl countDigit 0 = (digits.dropWhile (· = 0)).foldl countDigit 0 := by
  induction digits with
  | nil => rfl
  | cons d rest ih =>
    by_cases hd : d = 0
    · subst hd
      exact ih
    · rw [List.dropWhile_cons_of_neg (by simpa using hd)]

/-- **An exponent counts with its first five digits**, leading zeros aside. -/
theorem exponentValue_eq_ofDigits (s : Bytes) : exponentValue s =
    Nat.ofDigits 10 (((s.filterMap Radix.decimal.digit?).dropWhile (· = 0)).take 5).reverse := by
  have hdigits : ∀ d ∈ (s.filterMap Radix.decimal.digit?).dropWhile (· = 0), d < 10 :=
    fun d hd => Radix.lt_base_of_digit? (List.dropWhile_subset _ hd)
  have hhead := List.head?_dropWhile_not (fun d : ℕ => decide (d = 0))
    (s.filterMap Radix.decimal.digit?)
  rw [exponentValue_eq, foldl_countDigit_dropWhile]
  generalize (s.filterMap Radix.decimal.digit?).dropWhile (· = 0) = digits at hdigits hhead
  cases digits with
  | nil => rfl
  | cons d rest =>
    have hd : d < 10 := hdigits d List.mem_cons_self
    have hpos : d ≠ 0 := by simpa using hhead
    have hfirst : countDigit 0 d = d := by
      show (if 0 < 10000 then 0 * 10 + d else 0) = d
      simp
    have hhorner := Radix.foldl_horner .decimal (rest.take 4) d
    rw [List.foldl_cons, hfirst, foldl_countDigit 4 le_rfl (by omega) (by omega)
      fun d' hd' => hdigits d' (List.mem_cons_of_mem _ hd'), List.take_succ_cons, List.reverse_cons,
      Nat.ofDigits_append, List.length_reverse, Nat.ofDigits_singleton]
    refine hhorner.trans ?_
    show d * 10 ^ _ + _ = _ + 10 ^ _ * d
    rw [Nat.mul_comm, Nat.add_comm]
    rfl

/-- an exponent below the limit counts in full -/
theorem exponentValue_of_lt {s : Bytes} (h : Radix.decimal.number s < exponentLimit) :
    exponentValue s = Radix.decimal.number s := by
  have hcount : ∀ (digits : List ℕ) (e : ℕ),
      digits.foldl (fun n d => n * Radix.decimal.base + d) e < exponentLimit →
        digits.foldl countDigit e = digits.foldl (fun n d => n * Radix.decimal.base + d) e := by
    intro digits
    induction digits with
    | nil => exact fun _ _ => rfl
    | cons d rest ih =>
      intro e he
      -- the digits behind only add to what is counted so far
      have hle : e ≤ rest.foldl (fun n d => n * Radix.decimal.base + d) (e * 10 + d) := by
        have hpos : 0 < Radix.decimal.base ^ rest.length := Nat.pow_pos (by decide)
        rw [Radix.foldl_horner]
        have := Nat.le_mul_of_pos_right (e * 10 + d) hpos
        omega
      have hstep : countDigit e d = e * 10 + d := if_pos (hle.trans_lt he)
      rw [List.foldl_cons, List.foldl_cons, hstep]
      exact ih _ he
  rw [Radix.number, ← Radix.value_eq_ofDigits] at h ⊢
  exact hcount _ 0 h

/-! ### magnitudes -/

def magnitude (n : Numeral) : ℚ := n.significand * (n.base : ℚ) ^ n.scale

/-- the digits before the point that the value is read without -/
def lost (n : Numeral) : ℕ := if n.settled then 0 else n.surplus

theorem lost_eq_zero {n : Numeral} (h : n.settled = true ∨ n.wholeDigits.length ≤ 800) :
    n.lost = 0 := by
  unfold lost
  split
  · rfl
  · next hsettled => exact Nat.sub_eq_zero_of_le (h.resolve_left hsettled)

section
variable (n : Numeral)

theorem base_pos : 0 < n.base := by
  unfold base
  split <;> decide

theorem denominator_pos : 0 < n.denominator := Nat.pow_pos n.base_pos

theorem magnitude_eq_div : n.magnitude = n.numerator / n.denominator := by
  have hpow : ∀ k : ℕ, ((n.base.pow k : ℕ) : ℚ) = (n.base : ℚ) ^ k := Nat.cast_pow n.base
  have hbase : (n.base : ℚ) ≠ 0 := Nat.cast_ne_zero.mpr n.base_pos.ne'
  have hscale : n.scale = (n.scale.toNat : ℤ) - ((-n.scale).toNat : ℤ) := by omega
  unfold magnitude numerator denominator
  rw [Nat.cast_mul, hpow, hpow, mul_div_assoc, ← zpow_natCast, ← zpow_natCast, ← zpow_sub₀ hbase,
    ← hscale]

theorem magnitude_placed : n.placed.magnitude = n.magnitude / 10 ^ n.lost := by
  unfold placed lost
  split
  · simp
  · next h =>
    have hdecimal : n.hexadecimal = false := by
      cases hhex : n.hexadecimal with
      | false => rfl
      | true => exact absurd (by rw [settled, hhex]; rfl) h
    have hbase : n.base = 10 := by rw [base, hdecimal]; rfl
    have hscale : ({ n with exponent := n.exponent - n.surplus } : Numeral).scale =
        n.scale - n.surplus := by
      unfold scale
      dsimp only
      omega
    show (n.significand : ℚ) * (n.base : ℚ) ^ _ = n.significand * (n.base : ℚ) ^ n.scale / _
    rw [hscale, hbase, zpow_sub₀ (by norm_num), zpow_natCast, mul_div_assoc]
    norm_cast

/-- **The value is the nearest number to what is left of the magnitude.** -/
theorem value?_spec {x : ℚ} (hx : x = n.magnitude / 10 ^ n.lost) :
    (x < Binary64.overflow → ∃ v bits, n.value? = some v ∧ Binary64.NearestFinite x bits ∧
      v.toBits.toNat = (if n.negative then 2 ^ 63 else 0) + bits) ∧
    (Binary64.overflow ≤ x → n.value? = none) := by
  have hnegative : n.placed.negative = n.negative := by
    unfold placed
    split <;> rfl
  rw [← magnitude_placed, magnitude_eq_div] at hx
  rw [← hnegative]
  exact Binary64.ofRatio?_spec n.placed.negative n.placed.numerator n.placed.denominator_pos hx

end

end Numeral

namespace Spelling

/-- the number that the digits spell around the point -/
def significand (p : Spelling) : ℚ :=
  p.radix.number p.whole +
    p.radix.number (p.fraction.getD []) / p.radix.base ^ p.numeral.places

/-- what the exponent is a power of -/
def exponentBase (p : Spelling) : ℚ := if p.hexadecimal then 2 else 10

/-- the written exponent -/
def power (p : Spelling) : ℤ :=
  p.exponent.elim 0 fun e => e.signed (Radix.decimal.number e.digits)

/-- the written exponent with its first five digits only, leading zeros aside -/
def countedPower (p : Spelling) : ℤ :=
  p.exponent.elim 0 fun e => e.signed (Nat.ofDigits 10
    (((e.digits.filterMap Radix.decimal.digit?).dropWhile (· = 0)).take 5).reverse)

/-- the magnitude denoted -/
def magnitude (p : Spelling) : ℚ := p.significand * p.exponentBase ^ p.power

/-- the magnitude denoted if five digits of the exponent count -/
def counted (p : Spelling) : ℚ := p.significand * p.exponentBase ^ p.countedPower

/-- the magnitude that is left when it is rounded -/
def kept (p : Spelling) : ℚ := p.counted / 10 ^ p.numeral.lost

variable (p : Spelling)

theorem exponent_numeral : p.numeral.exponent = p.countedPower := by
  unfold numeral countedPower
  simp only [Numeral.exponentValue_eq_ofDigits]

theorem significand_numeral : (p.numeral.significand : ℚ) =
    p.significand * p.radix.base ^ p.numeral.places := by
  have hbase : (p.radix.base : ℚ) ≠ 0 := by
    unfold radix Numeral.radixOf
    cases p.hexadecimal <;> norm_num [Radix.base]
  have hnumber : p.numeral.significand = p.radix.number p.spaced := Radix.value_eq_ofDigits _ _
  have hsplit : p.radix.number p.spaced = p.radix.number p.whole *
      p.radix.base ^ p.numeral.places + p.radix.number (p.fraction.getD []) :=
    Radix.number_append _ _ _
  rw [hnumber, hsplit, significand, add_mul, div_mul_cancel₀ _ (pow_ne_zero _ hbase)]
  push_cast
  rfl

theorem magnitude_numeral : p.numeral.magnitude = p.counted := by
  unfold Numeral.magnitude counted
  rw [significand_numeral, ← exponent_numeral, mul_assoc]
  congr 1
  have hhex : p.numeral.hexadecimal = p.hexadecimal := rfl
  unfold exponentBase Numeral.scale Numeral.base radix Numeral.radixOf
  rw [hhex]
  generalize p.numeral.exponent = e
  generalize p.numeral.places = k
  cases p.hexadecimal with
  | true =>
    show (16 : ℚ) ^ k * 2 ^ (e - ((4 * k : ℕ) : ℤ)) = 2 ^ e
    have hfour : (2 : ℚ) ^ (4 * k) = 16 ^ k := by rw [pow_mul]; norm_num
    rw [zpow_sub₀ (by norm_num), zpow_natCast, hfour]
    field_simp
  | false =>
    show (10 : ℚ) ^ k * 10 ^ (e - (k : ℤ)) = 10 ^ e
    rw [zpow_sub₀ (by norm_num), zpow_natCast]
    field_simp

theorem countedPower_eq_power (h : p.power.natAbs ≤ 9999) : p.countedPower = p.power := by
  rw [← exponent_numeral]
  unfold power numeral at *
  dsimp only
  cases he : p.exponent with
  | none => rfl
  | some e =>
    rw [he, Option.elim_some] at h
    have hlt : Radix.decimal.number e.digits < Numeral.exponentLimit := by
      show _ < 10000
      unfold ExponentText.signed at h
      split at h <;> omega
    rw [Option.elim_some, Option.elim_some, Numeral.exponentValue_of_lt hlt]

theorem magnitude_of_whole (hdecimal : p.hexadecimal = false) (hwhole : p.fraction = none) :
    p.magnitude = p.radix.number p.whole * 10 ^ p.power := by
  have hfraction : p.radix.number (p.fraction.getD []) = 0 := by rw [hwhole]; rfl
  have hbase : p.exponentBase = 10 := by rw [exponentBase, hdecimal]; rfl
  rw [magnitude, significand, hfraction, hbase, Nat.cast_zero, zero_div, add_zero]

theorem counted_eq_magnitude (hpower : p.power.natAbs ≤ 9999) : p.counted = p.magnitude := by
  rw [counted, countedPower_eq_power p hpower, magnitude]

theorem kept_eq_counted
    (hplaced : p.numeral.settled = true ∨ p.numeral.wholeDigits.length ≤ 800) :
    p.kept = p.counted := by
  rw [kept, Numeral.lost_eq_zero hplaced, pow_zero, div_one]

theorem kept_of_not_settled (h : p.numeral.settled = false) :
    p.kept = p.counted / 10 ^ (p.numeral.wholeDigits.length - 800) := by
  have hlost : p.numeral.lost = p.numeral.wholeDigits.length - 800 := by
    rw [Numeral.lost, h]
    rfl
  rw [kept, hlost]

/-- losing places makes a number smaller -/
theorem kept_le_counted : p.kept ≤ p.counted := by
  have hbase : 0 < p.exponentBase := by
    unfold exponentBase
    split <;> norm_num
  have hsignificand : 0 ≤ p.significand := add_nonneg (Nat.cast_nonneg _)
    (div_nonneg (Nat.cast_nonneg _) (pow_nonneg (Nat.cast_nonneg _) _))
  have hcounted : 0 ≤ p.counted := mul_nonneg hsignificand (zpow_pos hbase _).le
  exact div_le_self hcounted (one_le_pow₀ (by norm_num))

theorem kept_eq : p.kept = p.numeral.magnitude / 10 ^ p.numeral.lost := by
  rw [kept, magnitude_numeral]

end Spelling

end Footprint
