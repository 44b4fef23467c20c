import Footprint.Chart.Tick
import Footprint.Proofs.DecimalText
import Footprint.Proofs.SizeGrammar

/-!
# Labels that read back

The shortest decimal of a number is one that rounds to it: each candidate is tried, and where none
is found all digits are taken (`Decimal.nearest_shortest`). It is written as a spelling that denotes
it, and reading rounds what is denoted to the nearest number, of which there is only one
(`Binary64.NearestFinite.unique`). So the text of a number is read as the number, bit by bit
(`Size.parse_general`), and a percent label shows the value of its tick and no other
(`Tick.percent_exact`).
-/

namespace Footprint

namespace Binary64

section
open Float.Model (Format)
open Float.Model.UnpackedFloat

/-- there is one NaN only -/
theorem eq_nan {x : Float} (hfield : exponentField x.toBits.toNat = 2047)
    (hfraction : fractionField x.toBits.toNat ≠ 0) : x = nan := by
  have hexponent : @unpackExponent Format.binary64 x.toBits.toBitVec = -1#11 := by
    apply BitVec.eq_of_toNat_eq
    rw [toNat_unpackExponent]
    exact hfield
  have hmantissa : @unpackMantissa Format.binary64 x.toBits.toBitVec ≠ 0#52 := by
    intro hzero
    have h := congrArg BitVec.toNat hzero
    rw [toNat_unpackMantissa] at h
    exact hfraction h
  apply eq_of_toBits
  apply UInt64.toBitVec_inj.mp
  exact x.toModel.valid.eq_packedNaN hexponent hmantissa

end

end Binary64

/-! ### the shortest decimal -/

namespace Decimal

theorem nearest_spec (d : Decimal) : Binary64.Nearest (d.magnitude * 2 ^ 1074) d.nearest := by
  have hpow : ∀ k : ℕ, ((Nat.pow 10 k : ℕ) : ℚ) = 10 ^ k := Nat.cast_pow 10
  have hten : (10 : ℚ) ≠ 0 := by norm_num
  have hexponent : d.exponent = (d.exponent.toNat : ℤ) - ((-d.exponent).toNat : ℤ) := by omega
  have hratio : ((d.digits * powerNumerator d.exponent * Binary64.unitsPerOne : ℕ) : ℚ) /
      (powerDenominator d.exponent : ℕ) = d.magnitude * 2 ^ 1074 := by
    unfold powerNumerator powerDenominator magnitude
    rw [Nat.cast_mul, Nat.cast_mul, hpow, hpow, Binary64.cast_unitsPerOne, mul_div_right_comm,
      mul_div_assoc, ← zpow_natCast, ← zpow_natCast, ← zpow_sub₀ hten, ← hexponent]
  rw [← hratio]
  exact Binary64.nearest_spec _ (Nat.pow_pos (by decide))

theorem magnitude_strip (fuel : ℕ) (d : Decimal) : (strip fuel d).magnitude = d.magnitude := by
  induction fuel generalizing d with
  | zero => rfl
  | succ fuel ih =>
    rw [strip]
    split
    · next h =>
      have hdigits : (d.digits : ℚ) = (d.digits / 10 : ℕ) * 10 := by
        exact_mod_cast (Nat.div_mul_cancel (Nat.dvd_of_mod_eq_zero h.2)).symm
      rw [ih, magnitude, magnitude, hdigits, zpow_add_one₀ (by norm_num)]
      ring
    · rfl

theorem magnitude_reduce (d : Decimal) : d.reduce.magnitude = d.magnitude :=
  magnitude_strip _ d

theorem nearest_readingBack? {count units : ℕ} {d : Decimal}
    (h : readingBack? count units = some d) : d.nearest = Binary64.nearest units 1 := by
  unfold readingBack? at h
  dsimp only at h
  have hfound := List.find?_some h
  exact beq_iff_eq.mp hfound

theorem magnitude_fives (units k : ℕ) :
    (⟨units * Nat.pow 5 k, -(k : ℤ)⟩ : Decimal).magnitude * 2 ^ k = units := by
  have hten : (10 : ℚ) ^ k = 5 ^ k * 2 ^ k := by
    rw [← mul_pow]
    norm_num
  rw [magnitude, Nat.pow_eq, Nat.cast_mul, Nat.cast_pow, zpow_neg, zpow_natCast, hten,
    Nat.cast_ofNat]
  field_simp

theorem magnitude_ofUnits (units : ℕ) : (ofUnits units).magnitude * 2 ^ 1074 = units := by
  have hexponent : (-1074 : ℤ) = -((1074 : ℕ) : ℤ) := rfl
  unfold ofUnits
  generalize 1074 = k at hexponent ⊢
  rw [hexponent]
  exact magnitude_fives units k

/-- **The shortest decimal rounds to the number**, as if there were no largest one. -/
theorem nearest_shortest (units : ℕ) :
    Binary64.Nearest ((shortest units).magnitude * 2 ^ 1074) (Binary64.nearest units 1) := by
  rw [shortest, magnitude_reduce]
  cases h : (List.range 17).findSome? fun k => readingBack? (k + 1) units with
  | some d =>
    obtain ⟨k, -, hd⟩ := List.exists_of_findSome?_eq_some h
    rw [← nearest_readingBack? hd]
    exact d.nearest_spec
  | none =>
    have hunits := Binary64.nearest_spec units Nat.one_pos
    rw [Nat.cast_one, div_one] at hunits
    rw [Option.getD_none, magnitude_ofUnits]
    exact hunits

theorem two_pow_le (k : ℕ) : (2 : ℚ) ^ k ≤ 10 ^ (k : ℤ) := by
  rw [zpow_natCast]
  exact pow_le_pow_left₀ (by norm_num) (by norm_num) k

section
variable {d : Decimal}

theorem leading_lt (hd : d.digits ≠ 0) (hrange : d.magnitude < Binary64.overflow) :
    d.leading < (1024 : ℕ) := by
  have hover : Binary64.overflow ≤ 2 ^ 1024 := sub_le_self _ (by positivity)
  have hlt : (10 : ℚ) ^ d.leading < 10 ^ ((1024 : ℕ) : ℤ) := calc
    (10 : ℚ) ^ d.leading ≤ d.magnitude := (leading_bounds hd).1
    _ < Binary64.overflow := hrange
    _ ≤ 2 ^ 1024 := hover
    _ ≤ 10 ^ ((1024 : ℕ) : ℤ) := two_pow_le 1024
  exact (zpow_lt_zpow_iff_right₀ (by norm_num)).mp hlt

theorem lt_leading (hd : d.digits ≠ 0) (hunit : 1 / 2 ^ 1074 ≤ 2 * d.magnitude) :
    -((1074 : ℕ) : ℤ) < d.leading + 2 := by
  have hinv : (10 : ℚ) ^ (-((1074 : ℕ) : ℤ)) ≤ 1 / 2 ^ 1074 := by
    rw [zpow_neg, ← one_div]
    exact one_div_le_one_div_of_le (by positivity) (two_pow_le 1074)
  have hten : 2 * d.magnitude < 10 ^ (d.leading + 1) * 10 := by
    have hpos : (0 : ℚ) < 10 ^ (d.leading + 1) := zpow_pos (by norm_num) _
    have hupper := (leading_bounds hd).2
    linarith only [hpos, hupper]
  have hlt : (10 : ℚ) ^ (-((1074 : ℕ) : ℤ)) < 10 ^ (d.leading + 2) := calc
    (10 : ℚ) ^ (-((1074 : ℕ) : ℤ)) ≤ 2 * d.magnitude := hinv.trans hunit
    _ < 10 ^ (d.leading + 1) * 10 := hten
    _ = 10 ^ (d.leading + 2) := by rw [← zpow_add_one₀ (by norm_num), add_assoc]; rfl
  exact (zpow_lt_zpow_iff_right₀ (by norm_num)).mp hlt

/-- a decimal that rounds to a finite number other than zero lies within the powers of ten that an
exponent of four digits reaches -/
theorem natAbs_leading_le {bits : ℕ} (hrange : d.magnitude < Binary64.overflow)
    (hnearest : Binary64.NearestFinite d.magnitude bits) (hbits : bits ≠ 0) :
    d.leading.natAbs ≤ 9999 := by
  have hnonneg : 0 ≤ d.magnitude :=
    mul_nonneg (Nat.cast_nonneg _) (zpow_pos (by norm_num) _).le
  have hunit := (Binary64.unit_le_magnitude hbits).trans (hnearest.magnitude_le hnonneg)
  have hd : d.digits ≠ 0 := by
    intro hzero
    rw [magnitude, hzero, Nat.cast_zero, zero_mul, mul_zero] at hunit
    exact absurd hunit (not_le.mpr (by positivity))
  have hlarge := leading_lt hd hrange
  have hsmall := lt_leading hd hunit
  omega

end

end Decimal

/-! ### texts of numbers -/

namespace Size

theorem roundsTo_plain {p : Spelling} (hp : p.Plain) (hwhole : p.whole.length ≤ 800)
    (hpower : p.power.natAbs ≤ 9999) : RoundsTo p.text p.negative p.magnitude := by
  have hkept := roundsTo_kept hp.wellFormed (trim_of_visible hp.wellFormed.visible_text)
  rwa [p.kept_eq_counted (.inr (p.length_wholeDigits_le.trans hwhole)),
    p.counted_eq_magnitude hpower] at hkept

/-- a decimal behind a sign is read as the number it rounds to -/
theorem parse_decimal (negative : Bool) {d : Decimal} {bits : ℕ}
    (hrange : d.magnitude < Binary64.overflow)
    (hnearest : Binary64.NearestFinite d.magnitude bits) (hleading : d.leading.natAbs ≤ 9999) :
    ∃ v, parse (SignStyle.onlyMinus.text negative ++ d.generalText) = .ok v ∧
      v.toBits.toNat = (if negative then 2 ^ 63 else 0) + bits := by
  obtain ⟨p, hsign, hp, hwhole⟩ := d.exists_parts (if negative then some true else none)
  have htext : p.text = SignStyle.onlyMinus.text negative ++ d.generalText := by
    rw [hp.text, hsign]
    cases negative <;> rfl
  have hnegative : p.negative = negative := by
    rw [Spelling.negative, hsign]
    cases negative <;> rfl
  have hpower : p.power.natAbs ≤ 9999 := by
    rcases hp.power with h | h <;> rw [h]
    · decide
    · exact hleading
  have hrounds := roundsTo_plain hp.plain (by omega) hpower
  rw [htext, hnegative, hp.magnitude_eq] at hrounds
  obtain ⟨v, bits', hv, hnearest', hbits⟩ := hrounds.1 hrange
  rw [hnearest'.unique hnearest] at hbits
  exact ⟨v, hv, hbits⟩

theorem parse_special {s : Bytes} {x : Float} (hs : special? s = some x) : parse s = .ok x := by
  have hspecial := (isSome_special?_iff s).mp (by rw [hs]; rfl)
  rw [parse_eq_ok_iff, read?, trim_of_visible (visible_special hspecial), ofTrimmed?, hs]

theorem parse_general_infinite {x : Float} (hfield : Binary64.exponentField x.toBits.toNat = 2047)
    (hfraction : Binary64.fractionField x.toBits.toNat = 0) : parse (general x) = .ok x := by
  have hnumber := Binary64.number_of_not_finite hfield
  rw [if_pos hfraction] at hnumber
  generalize hsign : decide (2 ^ 63 ≤ x.toBits.toNat) = negative at hnumber
  have hx : x = Binary64.infinity negative := by
    apply Binary64.eq_of_toBits
    apply UInt64.toNat_inj.mp
    have hinf : Binary64.infinityBits = 2047 * 2 ^ 52 := rfl
    have hlt := x.toBits.toNat_lt
    rw [Binary64.infinity, Binary64.toBits_ofBits negative le_rfl, ← hsign, hinf]
    unfold Binary64.exponentField at hfield
    unfold Binary64.fractionField at hfraction
    simp only [decide_eq_true_eq]
    split <;> omega
  have hspecial : special? (SignStyle.always.text negative ++ Bytes.ofString "Inf") = some x := by
    rw [hx]
    cases negative <;> rfl
  rw [general, hnumber]
  exact parse_special hspecial

theorem parse_general_nan {x : Float} (hfield : Binary64.exponentField x.toBits.toNat = 2047)
    (hfraction : Binary64.fractionField x.toBits.toNat ≠ 0) : parse (general x) = .ok x := by
  have hnumber := Binary64.number_of_not_finite hfield
  rw [if_neg hfraction] at hnumber
  have hspecial : special? (Bytes.ofString "NaN") = some x := by
    rw [Binary64.eq_nan hfield hfraction]
    rfl
  rw [general, hnumber]
  exact parse_special hspecial

/-- the digits of a finite number are those of a decimal that rounds to it -/
theorem exists_decimal {bits : ℕ} (hbits : bits < Binary64.infinityBits) : ∃ d : Decimal,
    (if Binary64.unitsOf bits = 0 then [Bytes.zero]
      else (Decimal.shortest (Binary64.unitsOf bits)).generalText) = d.generalText ∧
    d.magnitude < Binary64.overflow ∧ Binary64.NearestFinite d.magnitude bits ∧
    d.leading.natAbs ≤ 9999 := by
  by_cases hzero : Binary64.unitsOf bits = 0
  · have hb : bits = 0 := Binary64.strictMono_unitsOf.injective hzero
    subst hb
    have hmagnitude : Decimal.magnitude ⟨0, 0⟩ = 0 := zero_mul _
    refine ⟨⟨0, 0⟩, if_pos hzero, ?_, ?_, by decide⟩
    · rw [hmagnitude]
      exact lt_trans (by norm_num) ((Binary64.two_pow_lt_overflow_iff 0).mpr (by decide))
    · rw [hmagnitude]
      refine ⟨hbits, fun other _ => ?_, fun _ _ _ _ => rfl⟩
      rw [Binary64.magnitude_zero, sub_zero, abs_zero]
      exact abs_nonneg _
  · have hnearest := Decimal.nearest_shortest (Binary64.unitsOf bits)
    rw [Binary64.nearest_unitsOf] at hnearest
    have hrange := (Binary64.lt_overflow_iff _).mpr (hnearest.lt_infinityBits_iff.mp hbits)
    have hb : bits ≠ 0 := by
      rintro rfl
      exact hzero rfl
    exact ⟨_, if_neg hzero, hrange, hnearest.finite hrange,
      Decimal.natAbs_leading_le hrange (hnearest.finite hrange) hb⟩

theorem parse_general_finite {x : Float} (hfield : Binary64.exponentField x.toBits.toNat ≠ 2047) :
    parse (general x) = .ok x := by
  have hlt := x.toBits.toNat_lt
  have hbits : x.toBits.toNat % 2 ^ 63 < Binary64.infinityBits := by
    have hinf : Binary64.infinityBits = 2047 * 2 ^ 52 := rfl
    unfold Binary64.exponentField at hfield
    omega
  obtain ⟨d, htext, hrange, hnearest, hleading⟩ := exists_decimal hbits
  obtain ⟨v, hv, hvbits⟩ :=
    parse_decimal (decide (2 ^ 63 ≤ x.toBits.toNat)) hrange hnearest hleading
  have hgeneral : general x =
      SignStyle.onlyMinus.text (decide (2 ^ 63 ≤ x.toBits.toNat)) ++ d.generalText := by
    rw [general, Binary64.number_of_finite hfield, ← htext]
  have hsame : v = x := by
    apply Binary64.eq_of_toBits
    apply UInt64.toNat_inj.mp
    rw [hvbits]
    simp only [decide_eq_true_eq]
    split <;> omega
  rw [hgeneral, hv, hsame]

/-- **The text of a number is read as the number.** -/
theorem parse_general (x : Float) : parse (general x) = .ok x := by
  by_cases hfield : Binary64.exponentField x.toBits.toNat = 2047
  · by_cases hfraction : Binary64.fractionField x.toBits.toNat = 0
    · exact parse_general_infinite hfield hfraction
    · exact parse_general_nan hfield hfraction
  · exact parse_general_finite hfield

end Size

/-! ### percent labels -/

namespace Tick

theorem percentLabel_of_labelled {t : Tick} (h : t.labelled = true) :
    t.percentLabel = general t.value ++ [Bytes.percent] := if_pos h

theorem percentLabel_eq_nil (t : Tick) : t.percentLabel = [] ↔ t.labelled = false := by
  rw [percentLabel]
  cases t.labelled with
  | false => simp
  | true => simp

theorem mem_withPercent {ticks : List Tick} {x : Float} {label : Bytes} :
    (x, label) ∈ withPercent ticks ↔ ∃ t ∈ ticks, t.value = x ∧ t.percentLabel = label := by
  rw [withPercent, List.mem_map]
  simp only [Prod.mk.injEq]

/-- a label shows one value -/
theorem value_eq_of_percentLabel_eq {t u : Tick} (h : t.percentLabel = u.percentLabel)
    (ht : t.labelled = true) (hu : u.labelled = true) : t.value = u.value := by
  rw [percentLabel_of_labelled ht, percentLabel_of_labelled hu] at h
  have hread := Size.parse_general t.value
  rw [List.append_cancel_right h, Size.parse_general] at hread
  exact (Except.ok.inj hread).symm

/-- **Percent labels tell the truth.** Labelling changes neither the number of the ticks nor their
order and values, and the ticks without a label stay without one. The label of each other tick ends
in a percent sign, and what stands before it is read as the value, which is the same in every bit.
So one label never stands at two values. -/
theorem percent_exact (ticks : List Tick) :
    (withPercent ticks).map Prod.fst = ticks.map Tick.value ∧
    (∀ (i : Nat) (t : Tick), ticks[i]? = some t →
      ∃ label, (withPercent ticks)[i]? = some (t.value, label) ∧
        (label = [] ↔ t.labelled = false) ∧
        (t.labelled = true → ∃ text, label = text ++ [Bytes.percent] ∧
          ∃ v, Size.parse text = .ok v ∧ v.toBits = t.value.toBits)) ∧
    ∀ x y label, (x, label) ∈ withPercent ticks → (y, label) ∈ withPercent ticks → label ≠ [] →
      x = y := by
  refine ⟨?_, ?_, ?_⟩
  · rw [withPercent, List.map_map]
    rfl
  · intro i t hi
    refine ⟨t.percentLabel, ?_, t.percentLabel_eq_nil, fun ht => ?_⟩
    · rw [withPercent, List.getElem?_map, hi]
      rfl
    · exact ⟨general t.value, percentLabel_of_labelled ht, t.value, Size.parse_general t.value, rfl⟩
  · intro x y label hx hy hne
    obtain ⟨t, -, rfl, ht⟩ := mem_withPercent.mp hx
    obtain ⟨u, -, rfl, hu⟩ := mem_withPercent.mp hy
    have hlabelled : ∀ w : Tick, w.percentLabel = label → w.labelled = true := by
      intro w hw
      rw [← hw, Ne, percentLabel_eq_nil, Bool.not_eq_false] at hne
      exact hne
    exact value_eq_of_percentLabel_eq (ht.trans hu.symm) (hlabelled t ht) (hlabelled u hu)

/-- zero with a minus, the smallest magnitude, and a tick without a label -/
def sampleTicks : List Tick :=
  [⟨Float.ofBits 0x8000000000000000, true⟩, ⟨Float.ofBits 1, true⟩, ⟨Float.ofBits 1, false⟩]

theorem percent_exact_sample :
    (∃ text, (withPercent sampleTicks)[0]? =
        some (Float.ofBits 0x8000000000000000, text ++ [Bytes.percent]) ∧
      ∃ v, Size.parse text = .ok v ∧ v.toBits = 0x8000000000000000) ∧
    (∃ text, (withPercent sampleTicks)[1]? = some (Float.ofBits 1, text ++ [Bytes.percent]) ∧
      ∃ v, Size.parse text = .ok v ∧ v.toBits = 1) ∧
    (withPercent sampleTicks)[2]? = some (Float.ofBits 1, []) := by
  obtain ⟨-, hticks, -⟩ := percent_exact sampleTicks
  obtain ⟨label, hzero, -, hreads⟩ := hticks 0 _ rfl
  obtain ⟨text, rfl, v, hv, hbits⟩ := hreads rfl
  obtain ⟨label', hsmall, -, hreads'⟩ := hticks 1 _ rfl
  obtain ⟨text', rfl, v', hv', hbits'⟩ := hreads' rfl
  obtain ⟨label'', hnone, hempty, -⟩ := hticks 2 _ rfl
  rw [hempty.mpr rfl] at hnone
  refine ⟨⟨text, hzero, v, hv, hbits.trans ?_⟩, ⟨text', hsmall, v', hv', hbits'.trans ?_⟩, hnone⟩
  · exact Binary64.toBits_ofBits_word (by decide)
  · exact Binary64.toBits_ofBits_word (by decide)

end Tick

end Footprint
