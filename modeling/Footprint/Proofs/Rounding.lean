import Mathlib.Algebra.Order.Field.Rat
import Mathlib.Algebra.Order.Ring.Abs
import Mathlib.Data.Nat.Log
import Mathlib.Order.Monotone.Basic
import Mathlib.Tactic.FieldSimp
import Mathlib.Tactic.Linarith
import Mathlib.Tactic.NormNum
import Mathlib.Tactic.Ring
import Footprint.Number.Binary64

/-!
# Rounding to binary64

The magnitudes that bits stand for grow with the bits (`Binary64.strictMono_unitsOf`), and between
two neighbours they are `2^shift` units apart, where `shift` is what `Binary64.nearest` shifts by
(`Binary64.unitsOf_shift`). So the rounded quotient picks the nearer neighbour, and in the middle
the even one (`Binary64.nearest_spec`). Beyond the largest magnitude the next bits are those of
infinity, which are even, and this gives the range (`Binary64.Nearest.lt_infinityBits_iff`). Since
neighbours are not both even, only one magnitude is nearest (`Binary64.NearestFinite.unique`). Bits
up to those of infinity are the bits of the number that is made from them
(`Binary64.toBits_ofBits`).
-/

namespace Footprint.Binary64

/-! ### magnitudes -/

theorem unitsOf_eq (bits : ℕ) :
    unitsOf bits = if bits / 2 ^ 52 = 0 then bits % 2 ^ 52
      else (2 ^ 52 + bits % 2 ^ 52) * 2 ^ (bits / 2 ^ 52 - 1) := rfl

theorem unitsOf_shift {shift f : ℕ} (hf : f ≤ 2 ^ 53) (h : shift = 0 ∨ 2 ^ 52 ≤ f) :
    unitsOf (shift * 2 ^ 52 + f) = f * 2 ^ shift := by
  rw [unitsOf_eq]
  by_cases hsmall : f < 2 ^ 52
  · have hshift : shift = 0 := h.resolve_right (by omega)
    subst hshift
    rw [if_pos (by omega), pow_zero]
    omega
  · by_cases hlast : f = 2 ^ 53
    · -- a carry: the significand starts again in the next power of two
      subst hlast
      have hdiv : (shift * 2 ^ 52 + 2 ^ 53) / 2 ^ 52 = shift + 2 := by omega
      have hmod : (shift * 2 ^ 52 + 2 ^ 53) % 2 ^ 52 = 0 := by omega
      rw [hdiv, hmod, if_neg (by omega), show shift + 2 - 1 = shift + 1 from rfl, pow_succ 2 shift]
      ring
    · have hdiv : (shift * 2 ^ 52 + f) / 2 ^ 52 = shift + 1 := by omega
      have hmod : (shift * 2 ^ 52 + f) % 2 ^ 52 = f - 2 ^ 52 := by omega
      have hsignificand : 2 ^ 52 + (f - 2 ^ 52) = f := by omega
      rw [hdiv, hmod, if_neg (by omega), Nat.add_sub_cancel, hsignificand]

/-- every magnitude is a significand and the places it is shifted by -/
theorem exists_shift (bits : ℕ) :
    ∃ shift f, bits = shift * 2 ^ 52 + f ∧ f < 2 ^ 53 ∧ (shift = 0 ∨ 2 ^ 52 ≤ f) := by
  by_cases h : bits < 2 ^ 52
  · exact ⟨0, bits, by omega, by omega, .inl rfl⟩
  · exact ⟨bits / 2 ^ 52 - 1, 2 ^ 52 + bits % 2 ^ 52, by omega, by omega, .inr (by omega)⟩

theorem strictMono_unitsOf : StrictMono unitsOf := by
  apply strictMono_nat_of_lt_succ
  intro bits
  obtain ⟨shift, f, rfl, hf, h⟩ := exists_shift bits
  rw [Nat.add_assoc, unitsOf_shift (by omega) h, unitsOf_shift (by omega) (by omega)]
  exact Nat.mul_lt_mul_of_pos_right (Nat.lt_succ_self f) (Nat.two_pow_pos shift)

/-! ### the nearest magnitude -/

/-- the bits stand for the magnitude nearest to `x` units, the even ones of two -/
structure Nearest (x : ℚ) (bits : ℕ) : Prop where
  close : ∀ other, |x - unitsOf bits| ≤ |x - unitsOf other|
  even : ∀ other, other ≠ bits → |x - unitsOf bits| = |x - unitsOf other| → bits % 2 = 0

section
variable {x : ℚ} {bits : ℕ} (hlow : (unitsOf bits : ℚ) ≤ x) (hhigh : x < unitsOf (bits + 1))
include hlow hhigh

/-- the two magnitudes around `x` are nearer than all on the same side -/
theorem dist_cases (other : ℕ) :
    other = bits ∧ |x - unitsOf other| = x - unitsOf bits ∨
    other = bits + 1 ∧ |x - unitsOf other| = unitsOf (bits + 1) - x ∨
    x - unitsOf bits < |x - unitsOf other| ∧ other < bits ∨
    unitsOf (bits + 1) - x < |x - unitsOf other| ∧ bits + 1 < other := by
  rcases lt_trichotomy other bits with h | h | h
  · have hu : (unitsOf other : ℚ) < unitsOf bits := by exact_mod_cast strictMono_unitsOf h
    exact .inr (.inr (.inl ⟨lt_of_lt_of_le (by linarith) (le_abs_self _), h⟩))
  · subst h
    exact .inl ⟨rfl, abs_of_nonneg (by linarith)⟩
  · rcases Nat.eq_or_lt_of_le h with h' | h'
    · rw [← h', abs_sub_comm]
      exact .inr (.inl ⟨rfl, abs_of_nonneg (by linarith)⟩)
    · have hu : (unitsOf (bits + 1) : ℚ) < unitsOf other := by exact_mod_cast strictMono_unitsOf h'
      exact .inr (.inr (.inr ⟨lt_of_lt_of_le (by linarith) (neg_le_abs _), h'⟩))

theorem nearest_low (h : x - unitsOf bits < unitsOf (bits + 1) - x) : Nearest x bits := by
  have hself : |x - unitsOf bits| = x - unitsOf bits := abs_of_nonneg (by linarith)
  refine ⟨fun other => ?_, fun other hne htie => ?_⟩
  · rcases dist_cases hlow hhigh other with ⟨-, h'⟩ | ⟨-, h'⟩ | ⟨h', -⟩ | ⟨h', -⟩ <;> linarith
  · rcases dist_cases hlow hhigh other with ⟨e, -⟩ | ⟨-, h'⟩ | ⟨h', -⟩ | ⟨h', -⟩
    · exact absurd e hne
    all_goals exact absurd htie (ne_of_lt (by linarith))

theorem nearest_high (h : unitsOf (bits + 1) - x < x - unitsOf bits) : Nearest x (bits + 1) := by
  have hself : |x - unitsOf (bits + 1)| = unitsOf (bits + 1) - x := by
    rw [abs_sub_comm]
    exact abs_of_nonneg (by linarith)
  refine ⟨fun other => ?_, fun other hne htie => ?_⟩
  · rcases dist_cases hlow hhigh other with ⟨-, h'⟩ | ⟨-, h'⟩ | ⟨h', -⟩ | ⟨h', -⟩ <;> linarith
  · rcases dist_cases hlow hhigh other with ⟨-, h'⟩ | ⟨e, -⟩ | ⟨h', -⟩ | ⟨h', -⟩
    · exact absurd htie (ne_of_lt (by linarith))
    · exact absurd e hne
    all_goals exact absurd htie (ne_of_lt (by linarith))

theorem nearest_middle (h : x - unitsOf bits = unitsOf (bits + 1) - x) {even : ℕ}
    (heven : even % 2 = 0) (hnext : even = bits ∨ even = bits + 1) : Nearest x even := by
  have hself : |x - unitsOf even| = x - unitsOf bits := by
    rcases hnext with rfl | rfl
    · exact abs_of_nonneg (by linarith)
    · rw [abs_sub_comm, h]
      exact abs_of_nonneg (by linarith)
  refine ⟨fun other => ?_, fun _ _ _ => heven⟩
  rcases dist_cases hlow hhigh other with ⟨-, h'⟩ | ⟨-, h'⟩ | ⟨h', -⟩ | ⟨h', -⟩ <;> linarith

end

/-! ### rounding a ratio -/

/-- the quotient that is rounded has at most 53 bits, and 53 if places were left out -/
theorem quotient_bounds (num den : ℕ) :
    num / (den * 2 ^ surplus (num / den)) < 2 ^ 53 ∧
      (surplus (num / den) = 0 ∨ 2 ^ 52 ≤ num / (den * 2 ^ surplus (num / den))) := by
  rw [← Nat.div_div_eq_div_mul]
  generalize num / den = units
  have hlt : units < 2 ^ (units.log2 + 1) := Nat.lt_log2_self
  have hshift : surplus units = units.log2 - 52 := rfl
  constructor
  · rw [Nat.div_lt_iff_lt_mul (Nat.two_pow_pos _), ← pow_add]
    exact hlt.trans_le (Nat.pow_le_pow_right (by norm_num) (by omega))
  · by_cases h : surplus units = 0
    · exact .inl h
    · have hne : units ≠ 0 := by
        rintro rfl
        exact h rfl
      have hle : 2 ^ units.log2 ≤ units := Nat.log2_self_le hne
      right
      rw [Nat.le_div_iff_mul_le (Nat.two_pow_pos _), ← pow_add]
      exact (Nat.pow_le_pow_right (by norm_num) (by omega)).trans hle

theorem nearest_eq (num den : ℕ) :
    nearest num den = surplus (num / den) * 2 ^ 52 +
      roundDiv num (den * 2 ^ surplus (num / den)) := rfl

/-- **Rounding a ratio gives the nearest magnitude**, as if there were no largest one. -/
theorem nearest_spec (num : ℕ) {den : ℕ} (hden : 0 < den) :
    Nearest ((num : ℚ) / den) (nearest num den) := by
  rw [nearest_eq]
  obtain ⟨hlt, hge⟩ := quotient_bounds num den
  generalize surplus (num / den) = shift at hlt hge ⊢
  unfold roundDiv
  dsimp only
  have hdiv := Nat.div_add_mod num (den * 2 ^ shift)
  have hmod := Nat.mod_lt num (Nat.mul_pos hden (Nat.two_pow_pos shift))
  generalize num / (den * 2 ^ shift) = f at hlt hge hdiv ⊢
  generalize num % (den * 2 ^ shift) = r at hdiv hmod ⊢
  have hden' : (0 : ℚ) < den := by exact_mod_cast hden
  -- `x` lies the remainder above the lower of two magnitudes that are `2 ^ shift` apart
  have hx : (num : ℚ) / den = f * 2 ^ shift + r / den := by
    rw [← hdiv]
    push_cast
    field_simp
  have hu : (unitsOf (shift * 2 ^ 52 + f) : ℚ) = f * 2 ^ shift := by
    rw [unitsOf_shift hlt.le hge]
    push_cast
    rfl
  have hu' : (unitsOf (shift * 2 ^ 52 + f + 1) : ℚ) = f * 2 ^ shift + 2 ^ shift := by
    rw [Nat.add_assoc, unitsOf_shift hlt (by omega)]
    push_cast
    ring
  have hgap : (2 : ℚ) ^ shift = ((den * 2 ^ shift : ℕ) : ℚ) / den := by
    push_cast
    field_simp
  have hpos : (0 : ℚ) ≤ r / den := div_nonneg (Nat.cast_nonneg r) hden'.le
  have hless : (r : ℚ) / den < 2 ^ shift := by
    rw [hgap]
    exact div_lt_div_of_pos_right (by exact_mod_cast hmod) hden'
  have hlow : (unitsOf (shift * 2 ^ 52 + f) : ℚ) ≤ num / den := by rw [hx, hu]; linarith
  have hhigh : (num : ℚ) / den < unitsOf (shift * 2 ^ 52 + f + 1) := by rw [hx, hu']; linarith
  split
  · next h =>
    have h' : 2 * ((r : ℚ) / den) < 2 ^ shift := by
      rw [hgap, ← mul_div_assoc]
      exact div_lt_div_of_pos_right (by exact_mod_cast h) hden'
    apply nearest_low hlow hhigh
    rw [hx, hu, hu']
    linarith
  · next h =>
    split
    · next hgt =>
      have h' : (2 : ℚ) ^ shift < 2 * (r / den) := by
        rw [hgap, ← mul_div_assoc]
        exact div_lt_div_of_pos_right (by exact_mod_cast hgt) hden'
      rw [← Nat.add_assoc]
      apply nearest_high hlow hhigh
      rw [hx, hu, hu']
      linarith
    · next hle =>
      have h' : 2 * ((r : ℚ) / den) = 2 ^ shift := by
        rw [hgap, ← mul_div_assoc]
        congr 1
        exact_mod_cast (by omega : 2 * r = den * 2 ^ shift)
      apply nearest_middle hlow hhigh
      · rw [hx, hu, hu']
        linarith
      · omega
      · omega

/-! ### the range -/

theorem unitsOf_infinityBits : unitsOf infinityBits = 2 ^ 54 * 2 ^ 2044 := by
  have hbits : infinityBits = 2046 * 2 ^ 52 + 2 ^ 52 := rfl
  rw [hbits, unitsOf_shift (by norm_num) (.inr (Nat.le_refl _)), ← pow_add, ← pow_add]

theorem unitsOf_largest : unitsOf (infinityBits - 1) = (2 ^ 54 - 2) * 2 ^ 2044 := by
  have hbits : infinityBits - 1 = 2045 * 2 ^ 52 + (2 ^ 53 - 1) := rfl
  have hsplit : 2 ^ 54 - 2 = (2 ^ 53 - 1) * 2 := by norm_num
  rw [hbits, unitsOf_shift (by norm_num) (.inr (by norm_num)), hsplit, Nat.mul_assoc, ← pow_succ']

/-- what lies in the middle between the largest magnitude and the next one is out of range, since
the bits of infinity are even -/
theorem Nearest.lt_infinityBits_iff {x : ℚ} {bits : ℕ} (h : Nearest x bits) :
    bits < infinityBits ↔ x < (2 ^ 54 - 1) * 2 ^ 2044 := by
  have hinf : (unitsOf infinityBits : ℚ) = 2 ^ 54 * 2 ^ 2044 := by
    rw [unitsOf_infinityBits, Nat.cast_mul, Nat.cast_pow, Nat.cast_pow, Nat.cast_ofNat]
  have hmax : (unitsOf (infinityBits - 1) : ℚ) = (2 ^ 54 - 2) * 2 ^ 2044 := by
    have hsignificand : ((2 ^ 54 - 2 : ℕ) : ℚ) = 2 ^ 54 - 2 := by norm_num
    rw [unitsOf_largest, Nat.cast_mul, hsignificand, Nat.cast_pow, Nat.cast_ofNat]
  have hunit : (0 : ℚ) < 2 ^ 2044 := by positivity
  generalize (2 : ℚ) ^ 2044 = unit at hinf hmax hunit ⊢
  constructor
  · intro hlt
    by_contra hx
    have hle : (unitsOf bits : ℚ) ≤ unitsOf (infinityBits - 1) := by
      exact_mod_cast strictMono_unitsOf.monotone (Nat.le_sub_one_of_lt hlt)
    have hself : x - unitsOf bits ≤ |x - unitsOf bits| := le_abs_self _
    have hnext : |x - unitsOf infinityBits| ≤ x - unitsOf (infinityBits - 1) := by
      rw [abs_le]
      constructor <;> linarith
    have hclose := h.close infinityBits
    have hbits : bits = infinityBits - 1 := by
      apply strictMono_unitsOf.injective
      have : (unitsOf bits : ℚ) = unitsOf (infinityBits - 1) := by linarith
      exact_mod_cast this
    have heven := h.even infinityBits hlt.ne' (by rw [hbits] at hclose hself ⊢; linarith)
    rw [hbits] at heven
    exact absurd heven (by decide)
  · intro hx
    by_contra hge
    have hle : (unitsOf infinityBits : ℚ) ≤ unitsOf bits := by
      exact_mod_cast strictMono_unitsOf.monotone (Nat.le_of_not_lt hge)
    have hself : unitsOf bits - x ≤ |x - unitsOf bits| := by
      rw [abs_sub_comm]
      exact le_abs_self _
    have hbelow : |x - unitsOf (infinityBits - 1)| < unitsOf infinityBits - x := by
      rw [abs_lt]
      constructor <;> linarith
    linarith [h.close (infinityBits - 1)]

/-- the magnitude that bits without the sign stand for -/
def magnitude (bits : ℕ) : ℚ := unitsOf bits / 2 ^ 1074

/-- the bits of the finite magnitude nearest to `x`; of two, those with the even significand -/
structure NearestFinite (x : ℚ) (bits : ℕ) : Prop where
  finite : bits < infinityBits
  close : ∀ other < infinityBits, |x - magnitude bits| ≤ |x - magnitude other|
  even : ∀ other < infinityBits, other ≠ bits →
    |x - magnitude bits| = |x - magnitude other| → bits % 2 = 0

/-- from here on, a magnitude is out of range -/
def overflow : ℚ := 2 ^ 1024 - 2 ^ 970

theorem two_pow_lt_overflow_iff (k : ℕ) : (2 : ℚ) ^ k < overflow ↔ k < 1024 := by
  have hlow : (0 : ℚ) < 2 ^ 970 := by positivity
  constructor
  · intro h
    by_contra hk
    have hle : (2 : ℚ) ^ 1024 ≤ 2 ^ k := pow_le_pow_right₀ (by norm_num) (not_lt.mp hk)
    exact absurd h (not_lt.mpr ((sub_le_self _ hlow.le).trans hle))
  · intro hk
    have hle : (2 : ℚ) ^ k ≤ 2 ^ 1023 := pow_le_pow_right₀ (by norm_num) (by omega)
    have hlt : (2 : ℚ) ^ 970 < 2 ^ 1023 := pow_lt_pow_right₀ (by norm_num) (by norm_num)
    have hdouble : (2 : ℚ) ^ 1024 = 2 ^ 1023 + 2 ^ 1023 := by rw [← two_mul, ← pow_succ']
    rw [overflow, lt_sub_iff_add_lt, hdouble]
    exact add_lt_add_of_le_of_lt hle hlt

theorem lt_overflow_iff (x : ℚ) : x < overflow ↔ x * 2 ^ 1074 < (2 ^ 54 - 1) * 2 ^ 2044 := by
  have h1024 : (2 : ℚ) ^ 1024 = 2 ^ 54 * 2 ^ 970 := by rw [← pow_add]
  have h2044 : (2 : ℚ) ^ 2044 = 2 ^ 970 * 2 ^ 1074 := by rw [← pow_add]
  have hsplit : overflow = (2 ^ 54 - 1) * 2 ^ 970 := by
    rw [overflow, h1024, sub_mul, one_mul]
  rw [h2044, ← mul_assoc, ← hsplit, mul_lt_mul_iff_left₀ (by positivity)]

theorem Nearest.finite {x : ℚ} {bits : ℕ} (h : Nearest (x * 2 ^ 1074) bits) (hx : x < overflow) :
    NearestFinite x bits := by
  have hunit : (0 : ℚ) < 2 ^ 1074 := by positivity
  have hdist : ∀ b, |x * 2 ^ 1074 - unitsOf b| = |x - magnitude b| * 2 ^ 1074 := by
    intro b
    rw [magnitude, ← abs_of_pos hunit, ← abs_mul, abs_of_pos hunit, sub_mul,
      div_mul_cancel₀ _ hunit.ne']
  refine ⟨h.lt_infinityBits_iff.mpr ((lt_overflow_iff x).mp hx), fun other _ => ?_, ?_⟩
  · have hclose := h.close other
    rw [hdist, hdist] at hclose
    exact le_of_mul_le_mul_right hclose hunit
  · intro other _ hne htie
    apply h.even other hne
    rw [hdist, hdist, htie]

/-! ### one nearest magnitude -/

theorem strictMono_magnitude : StrictMono magnitude := by
  intro a b h
  have hunits : (unitsOf a : ℚ) < unitsOf b := by exact_mod_cast strictMono_unitsOf h
  exact div_lt_div_of_pos_right hunits (by positivity)

theorem magnitude_zero : magnitude 0 = 0 := by
  rw [magnitude, unitsOf_eq, if_pos (Nat.zero_div _), Nat.zero_mod, Nat.cast_zero, zero_div]

theorem unit_le_magnitude {bits : ℕ} (h : bits ≠ 0) : 1 / 2 ^ 1074 ≤ magnitude bits := by
  have hpos : 0 < unitsOf bits := lt_of_le_of_lt (Nat.zero_le _)
    (strictMono_unitsOf (Nat.pos_of_ne_zero h))
  exact div_le_div_of_nonneg_right (by exact_mod_cast hpos) (by positivity)

namespace NearestFinite

variable {x : ℚ} {a b : ℕ}

/-- in the middle between two even ones there is a nearer one -/
theorem not_lt (ha : NearestFinite x a) (hb : NearestFinite x b) : ¬ a < b := by
  intro hlt
  have hdist : |x - magnitude a| = |x - magnitude b| :=
    le_antisymm (ha.close b hb.finite) (hb.close a ha.finite)
  have heven := ha.even b hb.finite hlt.ne' hdist
  have heven' := hb.even a ha.finite hlt.ne hdist.symm
  have hlow : magnitude a < magnitude (a + 1) := strictMono_magnitude (Nat.lt_succ_self a)
  have hhigh : magnitude (a + 1) < magnitude b := strictMono_magnitude (by omega)
  have hclose := ha.close (a + 1) (by have := hb.finite; omega)
  have hmiddle : x - magnitude a = magnitude b - x := by
    rcases abs_eq_abs.mp hdist with h | h <;> linarith
  have hnear : |x - magnitude (a + 1)| < magnitude b - x := by
    rw [abs_lt]
    constructor <;> linarith
  have hself : |x - magnitude a| = magnitude b - x := by
    rw [hmiddle]
    exact abs_of_pos (by linarith)
  linarith

theorem unique (ha : NearestFinite x a) (hb : NearestFinite x b) : a = b :=
  Nat.le_antisymm (Nat.le_of_not_lt (hb.not_lt ha)) (Nat.le_of_not_lt (ha.not_lt hb))

theorem magnitude_le (hx : 0 ≤ x) (h : NearestFinite x a) : magnitude a ≤ 2 * x := by
  have hclose := h.close 0 (by decide)
  rw [magnitude_zero, sub_zero, abs_of_nonneg hx] at hclose
  linarith [neg_le_of_abs_le hclose]

end NearestFinite

theorem nearest_unitsOf (bits : ℕ) : nearest (unitsOf bits) 1 = bits := by
  have h := (nearest_spec (unitsOf bits) Nat.one_pos).close bits
  rw [Nat.cast_one, div_one, sub_self, abs_zero, abs_nonpos_iff, sub_eq_zero] at h
  exact (strictMono_unitsOf.injective (by exact_mod_cast h)).symm

/-! ### bits of a number -/

section
open Float.Model (Format)
open Float.Model.UnpackedFloat

theorem packComponents_unpack (b : BitVec 64) :
    packComponents Format.binary64 (Sign.ofBitVec (@unpackSign Format.binary64 b))
      (@unpackExponent Format.binary64 b) (@unpackMantissa Format.binary64 b) = b := by
  have hsign : ∀ c : BitVec 1, (Sign.ofBitVec c).toBitVec = c := by decide
  have hb := b.isLt
  unfold packComponents
  rw [hsign]
  apply BitVec.eq_of_toNat_eq
  unfold unpackSign unpackExponent unpackMantissa
  simp only [BitVec.toNat_append, BitVec.toNat_cast, BitVec.extractLsb_toNat]
  rw [← Nat.shiftLeft_add_eq_or_of_lt, ← Nat.shiftLeft_add_eq_or_of_lt]
  · simp only [Nat.shiftLeft_eq, Nat.shiftRight_eq_div_pow]
    norm_num
    omega
  · exact Nat.mod_lt _ (by norm_num)
  · exact Nat.mod_lt _ (by norm_num)

theorem toNat_unpackExponent (b : BitVec 64) :
    (@unpackExponent Format.binary64 b).toNat = b.toNat / 2 ^ 52 % 2 ^ 11 := by
  simp only [unpackExponent, BitVec.toNat_cast, BitVec.extractLsb_toNat, Nat.shiftRight_eq_div_pow]

theorem toNat_unpackMantissa (b : BitVec 64) :
    (@unpackMantissa Format.binary64 b).toNat = b.toNat % 2 ^ 52 := by
  simp only [unpackMantissa, BitVec.toNat_cast, BitVec.extractLsb_toNat, Nat.shiftRight_eq_div_pow]
  norm_num

theorem log2_significand {m : ℕ} (h : m < 2 ^ 52) : (2 ^ 52 + m).log2 = 52 := by
  rw [Nat.log2_eq_iff (by omega)]
  omega

theorem pack_subnormal (s : Sign) {m : BitVec 52} (h : 0 < m.toNat) :
    pack Format.binary64 (.finite s m.toNat (-1074) h) =
      packComponents Format.binary64 s 0#11 m := by
  have hbias : Format.binary64.exponentBias = 1023 := rfl
  have hlog : m.toNat.log2 < 52 := (Nat.log2_lt h.ne').mpr m.isLt
  have hwidth : m.toNat.log2 + 1 ≠ Format.binary64.mantissaBits := by
    show m.toNat.log2 + 1 ≠ 53
    omega
  unfold pack
  dsimp only
  rw [hbias, if_neg (by norm_num), if_neg hwidth,
    BitVec.ofNat_toNat, BitVec.setWidth_eq]

theorem pack_normal (s : Sign) {e : BitVec 11} (m : BitVec 52) (he : e ≠ -1#11)
    (h : 0 < (1#1 ++ m).toNat) :
    pack Format.binary64 (.finite s (1#1 ++ m).toNat (e.toNat - (1023 + 52)) h) =
      packComponents Format.binary64 s e m := by
  have hbias : Format.binary64.exponentBias = 1023 := rfl
  have hm : (1#1 ++ m).toNat = 2 ^ 52 + m.toNat := by
    rw [BitVec.toNat_append, ← Nat.shiftLeft_add_eq_or_of_lt m.isLt]
    rfl
  have hlt : e.toNat < 2047 := by
    have := e.isLt
    have hne : e.toNat ≠ 2047 := fun hc => he (BitVec.eq_of_toNat_eq hc)
    omega
  have hexponent : ((e.toNat : ℤ) - (1023 + 52) + (1023 : ℕ) + (52 : ℕ)).toNat = e.toNat := by omega
  have hfraction : BitVec.ofNat 52 (2 ^ 52 + m.toNat) = m := by
    apply BitVec.eq_of_toNat_eq
    rw [BitVec.toNat_ofNat, Nat.add_mod_left, Nat.mod_eq_of_lt m.isLt]
  have hwidth : 52 + 1 = Format.binary64.mantissaBits := rfl
  unfold pack
  dsimp only
  rw [hbias, hexponent, hm, log2_significand m.isLt, if_neg (by omega), if_pos hwidth, hfraction,
    BitVec.ofNat_toNat, BitVec.setWidth_eq]

/-- all bits but those of a NaN with a payload survive -/
theorem pack_unpack {b : BitVec 64}
    (h : @unpackExponent Format.binary64 b ≠ -1#11 ∨ @unpackMantissa Format.binary64 b = 0#52) :
    pack Format.binary64 (unpack Format.binary64 b) = b := by
  have hb := packComponents_unpack b
  unfold unpack
  dsimp only
  by_cases hinf : @unpackExponent Format.binary64 b = -1#11
  · have hzero : @unpackMantissa Format.binary64 b = 0#52 := h.resolve_left fun hne => hne hinf
    rw [if_pos hinf, if_pos hzero]
    rw [hinf, hzero] at hb
    exact hb
  · rw [if_neg hinf]
    by_cases hsub : @unpackExponent Format.binary64 b = 0#11
    · rw [if_pos hsub]
      rw [hsub] at hb ⊢
      by_cases hzero : @unpackMantissa Format.binary64 b = 0#52
      · rw [dif_pos hzero]
        rw [hzero] at hb
        exact hb
      · rw [dif_neg hzero]
        exact (pack_subnormal _ _).trans hb
    · rw [if_neg hsub]
      exact (pack_normal _ _ hinf _).trans hb

/-- the bits that a number is made from, up to those of infinity, are its bits -/
theorem toBits_ofBits (negative : Bool) {bits : ℕ} (h : bits ≤ infinityBits) :
    (ofBits negative bits).toBits.toNat = (if negative then 2 ^ 63 else 0) + bits := by
  have hinf : infinityBits = 2047 * 2 ^ 52 := rfl
  have hword : (if negative then signBit + bits else bits) =
      (if negative then 2 ^ 63 else 0) + bits := by
    cases negative with
    | false => exact (Nat.zero_add bits).symm
    | true => rfl
  have hlt : (if negative then 2 ^ 63 else 0) + bits < 2 ^ 64 := by
    split <;> omega
  rw [ofBits, hword]
  generalize hu : UInt64.ofNat ((if negative then 2 ^ 63 else 0) + bits) = u
  have htoNat : u.toBitVec.toNat = (if negative then 2 ^ 63 else 0) + bits := by
    rw [← hu]
    exact Nat.mod_eq_of_lt hlt
  show (pack Format.binary64 (unpack Format.binary64 u.toBitVec)).toNat = _
  rw [pack_unpack ?_, htoNat]
  by_cases hall : @unpackExponent Format.binary64 u.toBitVec = -1#11
  · right
    apply BitVec.eq_of_toNat_eq
    have he := congrArg BitVec.toNat hall
    rw [toNat_unpackExponent, htoNat, show (-1#11).toNat = 2047 from rfl] at he
    rw [toNat_unpackMantissa, htoNat]
    show _ = 0
    cases negative with
    | false => rw [if_neg Bool.false_ne_true] at he ⊢; omega
    | true => rw [if_pos rfl] at he ⊢; omega
  · exact .inl hall

end

theorem eq_of_toBits {x y : Float} (h : x.toBits = y.toBits) : x = y := by
  obtain ⟨⟨b, hb⟩⟩ := x
  obtain ⟨⟨b', hb'⟩⟩ := y
  cases (h : b = b')
  rfl

theorem cast_unitsPerOne : (unitsPerOne : ℚ) = 2 ^ 1074 := by
  have hpow : ∀ n, ((Nat.pow 2 n : ℕ) : ℚ) = 2 ^ n := fun n => Nat.cast_pow 2 n
  unfold unitsPerOne
  exact hpow 1074

/-- **A ratio is rounded correctly**, if it is in range. -/
theorem ofRatio?_spec (negative : Bool) (num : ℕ) {den : ℕ} (hden : 0 < den) {x : ℚ}
    (hx : x = num / den) :
    (x < overflow → ∃ v bits, ofRatio? negative num den = some v ∧ NearestFinite x bits ∧
      v.toBits.toNat = (if negative then 2 ^ 63 else 0) + bits) ∧
    (overflow ≤ x → ofRatio? negative num den = none) := by
  have hunits : ((num * unitsPerOne : ℕ) : ℚ) / den = x * 2 ^ 1074 := by
    rw [hx, Nat.cast_mul, div_mul_eq_mul_div, cast_unitsPerOne]
  have hnearest := nearest_spec (num * unitsPerOne) hden
  rw [hunits] at hnearest
  have hrange := hnearest.lt_infinityBits_iff.trans (lt_overflow_iff x).symm
  unfold ofRatio?
  dsimp only
  constructor
  · intro h
    refine ⟨_, _, if_pos (hrange.mpr h), hnearest.finite h, ?_⟩
    exact toBits_ofBits negative (hrange.mpr h).le
  · intro h
    exact if_neg fun hlt => absurd (hrange.mp hlt) (not_lt.mpr h)

end Footprint.Binary64
