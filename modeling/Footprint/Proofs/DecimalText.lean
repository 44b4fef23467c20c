import Footprint.Number.Shortest
import Footprint.Proofs.FixedText

/-!
# Decimals as spellings

A decimal is written with an exponent or with all its places around the point. Both texts are those
of a spelling in digits alone (`Spelling.Plain`), and its parts put together give the digits of the
decimal again, with zeros around them, and its exponent. So both spellings denote the decimal
(`Decimal.exists_parts`).
-/

namespace Footprint

/-! ### texts in digits -/

namespace Spells

variable {s : Bytes} {n : ℕ}

theorem zeros (k : ℕ) : Spells (List.replicate k Bytes.zero) 0 := by
  induction k with
  | zero => exact ⟨fun _ hb => absurd hb List.not_mem_nil, rfl⟩
  | succ k ih =>
    rw [List.replicate_succ']
    exact ih.concat (by decide : 0 < 10)

theorem zeros_append (k : ℕ) (hs : Spells s n) : Spells (List.replicate k Bytes.zero ++ s) n := by
  have h := (zeros k).append hs
  rwa [Nat.zero_mul, Nat.zero_add] at h

theorem append_zeros (hs : Spells s n) (k : ℕ) :
    Spells (s ++ List.replicate k Bytes.zero) (n * 10 ^ k) := by
  have h := hs.append (zeros k)
  rwa [List.length_replicate] at h

end Spells

/-! ### spellings in digits -/

namespace Spelling

/-- a decimal spelling without underscores -/
structure Plain (p : Spelling) : Prop where
  mark : p.mark = none
  whole : p.whole ≠ []
  digits : ∀ b ∈ p.spaced, Radix.decimal.isDigit b = true
  exponent : ∀ e ∈ p.exponent, e.mark = 101 ∧ e.digits ≠ [] ∧
    ∀ b ∈ e.digits, Radix.decimal.isDigit b = true

theorem underscore_not_mem_signText (sign : Option Bool) : Bytes.underscore ∉ signText sign := by
  match sign with
  | none => exact List.not_mem_nil
  | some true => decide
  | some false => decide

/-- the digits before the point are at most as many as their bytes -/
theorem length_wholeDigits_le (p : Spelling) : p.numeral.wholeDigits.length ≤ p.whole.length := by
  have htake : p.numeral.digits.take (p.numeral.digits.length - p.numeral.places) =
      p.whole.filterMap p.radix.digit? := by
    show ((p.whole ++ p.fraction.getD []).filterMap p.radix.digit?).take
      (((p.whole ++ p.fraction.getD []).filterMap p.radix.digit?).length -
        ((p.fraction.getD []).filterMap p.radix.digit?).length) = _
    rw [List.filterMap_append, List.length_append, Nat.add_sub_cancel, List.take_left]
  unfold Numeral.wholeDigits
  rw [htake]
  exact (List.length_dropWhile_le _ _).trans (List.length_filterMap_le _ _)

namespace Plain

variable {p : Spelling} (hp : p.Plain)
include hp

theorem hexadecimal_eq : p.hexadecimal = false := by
  rw [hexadecimal, hp.mark]
  rfl

theorem radix_eq : p.radix = .decimal := by
  rw [radix, hp.hexadecimal_eq]
  rfl

theorem underscore_not_mem : Bytes.underscore ∉ p.body := by
  have hdigits : ∀ s : Bytes, (∀ b ∈ s, Radix.decimal.isDigit b = true) →
      Bytes.underscore ∉ s := by
    intro s hs hmem
    exact absurd (hs _ hmem) (by decide)
  have hspaced := hdigits p.spaced hp.digits
  unfold spaced at hspaced
  rw [List.mem_append, not_or] at hspaced
  unfold body
  rw [List.mem_append, List.mem_append, not_or, not_or]
  refine ⟨hspaced.1, ?_, ?_⟩
  · cases hfraction : p.fraction with
    | none => exact List.not_mem_nil
    | some f =>
      rw [hfraction] at hspaced
      exact List.not_mem_cons_of_ne_of_not_mem (by decide) hspaced.2
  · cases hexponent : p.exponent with
    | none => exact List.not_mem_nil
    | some e =>
      obtain ⟨hmark, -, he⟩ := hp.exponent e hexponent
      show Bytes.underscore ∉ e.mark :: (signText e.sign ++ e.digits)
      rw [hmark, List.mem_cons, List.mem_append, not_or, not_or]
      exact ⟨by decide, underscore_not_mem_signText e.sign, hdigits _ he⟩

theorem wellFormed : p.WellFormed where
  mark := by
    intro x hx
    rw [hp.mark] at hx
    cases hx
  spaced b hb := by
    rw [hp.radix_eq]
    exact .inl (hp.digits b hb)
  digit := by
    rw [hp.radix_eq]
    obtain ⟨b, hb⟩ := List.exists_mem_of_ne_nil _ hp.whole
    have hb' : b ∈ p.spaced := List.mem_append_left _ hb
    exact ⟨b, hb', hp.digits b hb'⟩
  exponentMark e he := by
    rw [(hp.exponent e he).1, hp.hexadecimal_eq]
    rfl
  exponentSpaced e he b hb := .inl ((hp.exponent e he).2.2 b hb)
  exponentDigit e he := by
    obtain ⟨-, hne, hdigits⟩ := hp.exponent e he
    obtain ⟨b, hb⟩ := List.exists_mem_of_ne_nil _ hne
    exact ⟨b, hb, hdigits b hb⟩
  power h := by
    rw [hp.hexadecimal_eq] at h
    cases h
  separated := by
    intro a b hbody
    exact absurd (hbody ▸ List.mem_append_right _ List.mem_cons_self) hp.underscore_not_mem

theorem places_eq : p.numeral.places = (p.fraction.getD []).length := by
  show ((p.fraction.getD []).filterMap p.radix.digit?).length = _
  rw [hp.radix_eq]
  exact length_digits fun b hb => hp.digits b (List.mem_append_right _ hb)

/-- the digits around the point count as one number, in the place of the last of them -/
theorem magnitude_eq {n : ℕ} (hn : Spells p.spaced n) :
    p.magnitude = n * (10 : ℚ) ^ (p.power - (p.fraction.getD []).length) := by
  have hnumber : p.numeral.significand = n := by
    show p.radix.value (p.spaced.filterMap p.radix.digit?) = n
    rw [hp.radix_eq, Radix.value_eq_ofDigits]
    exact hn.number
  have hbase : p.exponentBase = 10 := by
    rw [exponentBase, hp.hexadecimal_eq]
    rfl
  have hsignificand := p.significand_numeral
  rw [hnumber, hp.places_eq, hp.radix_eq] at hsignificand
  replace hsignificand : (n : ℚ) = p.significand * 10 ^ (p.fraction.getD []).length := hsignificand
  rw [magnitude, hbase, hsignificand, zpow_sub₀ (by norm_num), zpow_natCast]
  field_simp

end Plain

end Spelling

/-! ### exponents -/

namespace Decimal

/-- the parts of a written exponent -/
def exponentParts (e : ℤ) : ExponentText where
  mark := 101
  sign := some (decide (e < 0))
  digits := if e.natAbs < 10 then Bytes.zero :: decimal e.natAbs else decimal e.natAbs

theorem text_exponentParts (e : ℤ) : (exponentParts e).text = exponentText e := by
  have hsign : ∀ negative, signText (some negative) = SignStyle.always.text negative := by
    intro negative
    cases negative <;> rfl
  show 101 :: (signText (some _) ++ _) = _
  rw [hsign]
  rfl

theorem spells_exponentParts (e : ℤ) : Spells (exponentParts e).digits e.natAbs := by
  show Spells (if e.natAbs < 10 then Bytes.zero :: decimal e.natAbs else decimal e.natAbs) _
  split
  · exact (spells_decimal e.natAbs).zeros_append 1
  · exact spells_decimal e.natAbs

theorem exponentParts_ne_nil (e : ℤ) : (exponentParts e).digits ≠ [] := by
  show (if e.natAbs < 10 then Bytes.zero :: decimal e.natAbs else decimal e.natAbs) ≠ []
  split
  · exact List.cons_ne_nil _ _
  · exact decimal_ne_nil _

theorem signed_exponentParts (e : ℤ) :
    (exponentParts e).signed (Radix.decimal.number (exponentParts e).digits) = e := by
  rw [(spells_exponentParts e).number]
  show (if some (decide (e < 0)) = some true then -(e.natAbs : ℤ) else e.natAbs) = e
  by_cases h : e < 0
  · rw [decide_eq_true h, if_pos rfl]
    omega
  · rw [decide_eq_false h, if_neg (by decide)]
    omega

/-! ### both texts -/

/-- the value of a decimal -/
def magnitude (d : Decimal) : ℚ := d.digits * (10 : ℚ) ^ d.exponent

/-- the parts of a text behind a sign, which denote the decimal -/
structure Parts (d : Decimal) (s : Bytes) (p : Spelling) : Prop where
  plain : p.Plain
  text : p.text = signText p.sign ++ s
  magnitude_eq : p.magnitude = d.magnitude
  power : p.power = 0 ∨ p.power = d.leading

variable (d : Decimal)

theorem length_decimal (n : ℕ) : (decimal n).length = digitCount n := List.length_map _

theorem exists_scientific (sign : Option Bool) : ∃ p : Spelling, p.sign = sign ∧
    d.Parts d.scientificText p ∧ p.whole.length = 1 := by
  have hdigits := spells_decimal d.digits
  have hlength := length_decimal d.digits
  obtain ⟨first, rest, hcons⟩ := List.exists_cons_of_ne_nil (decimal_ne_nil d.digits)
  have hleading : d.leading - rest.length = d.exponent := by
    rw [hcons, List.length_cons] at hlength
    rw [leading]
    omega
  let p : Spelling := ⟨sign, none, [first], if rest = [] then none else some rest,
    some (exponentParts d.leading)⟩
  have hfraction : p.fraction.getD [] = rest := by
    show (if rest = [] then none else some rest : Option Bytes).getD [] = rest
    by_cases h : rest = []
    · rw [if_pos h, h]
      rfl
    · rw [if_neg h]
      rfl
  have hspaced : p.spaced = decimal d.digits := by
    show [first] ++ p.fraction.getD [] = _
    rw [hfraction, hcons]
    rfl
  have hpower : p.power = d.leading := signed_exponentParts d.leading
  have hplain : p.Plain := by
    refine ⟨rfl, List.cons_ne_nil _ _, hspaced ▸ hdigits.digits, ?_⟩
    intro e he
    cases Option.some.inj he
    exact ⟨rfl, exponentParts_ne_nil _, (spells_exponentParts _).digits⟩
  refine ⟨p, rfl, ⟨hplain, ?_, ?_, .inr hpower⟩, rfl⟩
  · show signText sign ++ ([first] ++ (Spelling.fractionText (if rest = [] then none else some rest)
      ++ (exponentParts d.leading).text)) = _
    rw [text_exponentParts, scientificText, hcons]
    cases rest with
    | nil => rfl
    | cons second rest => rfl
  · rw [hplain.magnitude_eq (hspaced ▸ hdigits), hpower, hfraction, hleading, magnitude]

/-- a text without an exponent -/
theorem exists_unscaled (sign : Option Bool) {s whole : Bytes} {n : ℕ} (fraction : Option Bytes)
    (hs : s = whole ++ Spelling.fractionText fraction) (hne : whole ≠ [])
    (hdigits : Spells (whole ++ fraction.getD []) n)
    (hvalue : n * (10 : ℚ) ^ (-((fraction.getD []).length : ℤ)) = d.magnitude) :
    ∃ p : Spelling, p.sign = sign ∧ d.Parts s p ∧ p.whole = whole := by
  let p : Spelling := ⟨sign, none, whole, fraction, none⟩
  have hplain : p.Plain := by
    refine ⟨rfl, hne, hdigits.digits, ?_⟩
    intro e he
    cases he
  refine ⟨p, rfl, ⟨hplain, ?_, ?_, .inl rfl⟩, rfl⟩
  · show signText sign ++ (whole ++ (Spelling.fractionText fraction ++ [])) = _
    rw [List.append_nil, hs]
  · rw [hplain.magnitude_eq hdigits, ← hvalue]
    show _ * (10 : ℚ) ^ (0 - _) = _
    rw [zero_sub]

theorem exists_positional (sign : Option Bool) : ∃ p : Spelling, p.sign = sign ∧
    d.Parts d.positionalText p ∧ p.whole.length ≤ max 1 (d.leading + 1).toNat := by
  have hdigits := spells_decimal d.digits
  have hne := decimal_ne_nil d.digits
  have hleading : d.leading = d.exponent + (decimal d.digits).length - 1 := by
    rw [length_decimal, leading]
  unfold positionalText
  dsimp only
  generalize decimal d.digits = ds at *
  by_cases h : 0 ≤ d.exponent
  · -- zeros behind the digits, no point
    obtain ⟨k, hk⟩ := Int.eq_ofNat_of_zero_le h
    rw [if_pos h, hk, Int.toNat_natCast]
    have hspells := hdigits.append_zeros k
    rw [← List.append_nil (ds ++ _)] at hspells
    have hvalue : ((d.digits * 10 ^ k : ℕ) : ℚ) * 10 ^ (-((0 : ℕ) : ℤ)) = d.magnitude := by
      rw [magnitude, hk, zpow_natCast, Nat.cast_mul, Nat.cast_pow]
      simp
    obtain ⟨p, hsign, hp, hwhole⟩ := d.exists_unscaled sign none (List.append_nil _).symm
      (List.append_ne_nil_of_left_ne_nil hne _) hspells hvalue
    refine ⟨p, hsign, hp, ?_⟩
    rw [hwhole, List.length_append, List.length_replicate]
    omega
  · obtain ⟨places, hplaces⟩ := Int.eq_ofNat_of_zero_le (by omega : 0 ≤ -d.exponent)
    have hvalue : ∀ k : ℕ, k = places → d.digits * (10 : ℚ) ^ (-(k : ℤ)) = d.magnitude := by
      rintro k rfl
      rw [magnitude, ← hplaces, neg_neg]
    rw [if_neg h, hplaces, Int.toNat_natCast]
    by_cases hlt : places < ds.length
    · -- the point between two digits
      rw [if_pos hlt]
      have htake : ds.take (ds.length - places) ≠ [] := by
        rw [Ne, List.take_eq_nil_iff]
        exact not_or.mpr ⟨by omega, hne⟩
      have hlength : (ds.drop (ds.length - places)).length = places := by
        rw [List.length_drop]
        omega
      obtain ⟨p, hsign, hp, hwhole⟩ := d.exists_unscaled sign (some (ds.drop (ds.length - places)))
        rfl htake ((List.take_append_drop _ ds).symm ▸ hdigits) (hvalue _ hlength)
      refine ⟨p, hsign, hp, ?_⟩
      rw [hwhole, List.length_take]
      omega
    · -- zeros between the point and the digits
      rw [if_neg hlt]
      have hlength : (List.replicate (places - ds.length) Bytes.zero ++ ds).length = places := by
        rw [List.length_append, List.length_replicate]
        omega
      obtain ⟨p, hsign, hp, hwhole⟩ := d.exists_unscaled sign
        (some (List.replicate (places - ds.length) Bytes.zero ++ ds)) rfl
        (List.cons_ne_nil Bytes.zero []) (hdigits.zeros_append (places - ds.length + 1))
        (hvalue _ hlength)
      refine ⟨p, hsign, hp, ?_⟩
      rw [hwhole]
      exact le_max_left _ _

/-- **A decimal is written so that it denotes its value**, with few digits before the point. -/
theorem exists_parts (sign : Option Bool) : ∃ p : Spelling, p.sign = sign ∧
    d.Parts d.generalText p ∧ p.whole.length ≤ 6 := by
  unfold generalText
  split
  · obtain ⟨p, hsign, hp, hwhole⟩ := d.exists_scientific sign
    exact ⟨p, hsign, hp, by omega⟩
  · obtain ⟨p, hsign, hp, hwhole⟩ := d.exists_positional sign
    exact ⟨p, hsign, hp, by omega⟩

/-! ### the place of the first digit -/

theorem lt_pow_digitCount (n : ℕ) : n < 10 ^ digitCount n :=
  (Nat.length_toDigits_le_iff (by decide) Nat.length_toDigits_pos).mp le_rfl

theorem pow_digitCount_le {n : ℕ} (hn : n ≠ 0) : 10 ^ (digitCount n - 1) ≤ n := by
  by_contra h
  have hpos : 0 < digitCount n - 1 := by
    by_contra hzero
    rw [Nat.eq_zero_of_not_pos hzero] at h
    omega
  have hle : digitCount n ≤ digitCount n - 1 :=
    (Nat.length_toDigits_le_iff (by decide) hpos).mpr (not_le.mp h)
  omega

variable {d}

theorem leading_bounds (hd : d.digits ≠ 0) :
    (10 : ℚ) ^ d.leading ≤ d.magnitude ∧ d.magnitude < (10 : ℚ) ^ (d.leading + 1) := by
  have hten : (10 : ℚ) ≠ 0 := by norm_num
  have hscale : (0 : ℚ) < 10 ^ d.exponent := zpow_pos (by norm_num) _
  have hpos : 0 < digitCount d.digits := Nat.length_toDigits_pos
  have hlow : d.leading = ((digitCount d.digits - 1 : ℕ) : ℤ) + d.exponent := by
    rw [leading]
    omega
  have hhigh : d.leading + 1 = (digitCount d.digits : ℤ) + d.exponent := by
    rw [leading]
    omega
  rw [magnitude, hhigh, hlow, zpow_add₀ hten, zpow_add₀ hten, zpow_natCast, zpow_natCast]
  constructor
  · exact mul_le_mul_of_nonneg_right (by exact_mod_cast pow_digitCount_le hd) hscale.le
  · exact mul_lt_mul_of_pos_right (by exact_mod_cast lt_pow_digitCount d.digits) hscale

end Decimal

end Footprint
