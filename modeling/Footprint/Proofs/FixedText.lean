import Mathlib.Algebra.Order.Field.Basic
import Footprint.Listing
import Footprint.Proofs.Denotation

/-!
# Printed numbers are rounded correctly

The magnitude of a finite number is a rational that the fields of its bits give
(`Binary64.absolute`, `Binary64.absolute_eq_magnitude`). A printed number is this rational in
hundredths, rounded to the nearest whole number, the even one of two (`roundDiv_nearestEven`), and
written in digits (`Fixed.writes_magnitude`). It is printed so in every row of a summary and in each
of the three kinds of rows of a comparison (`Listing.SummaryShows`, `Listing.ComparisonShows`).
-/

namespace Footprint

/-! ### the nearest whole number -/

/-- the whole number nearest to `q`, the even one of two -/
structure NearestEven (q : ℚ) (n : ℕ) : Prop where
  close : ∀ m : ℤ, |q - n| ≤ |q - m|
  even : ∀ m : ℤ, m ≠ n → |q - n| = |q - m| → n % 2 = 0

theorem nearestEven_of_close {q : ℚ} {n : ℕ} (hclose : |q - n| ≤ 1 / 2)
    (htie : |q - n| = 1 / 2 → n % 2 = 0) : NearestEven q n := by
  -- another whole number is at least one away from `n`
  have hother : ∀ m : ℤ, m ≠ n → 1 / 2 ≤ |q - m| := by
    intro m hne
    have hone : (1 : ℚ) ≤ |(m : ℚ) - n| := by
      exact_mod_cast Int.one_le_abs (sub_ne_zero.mpr hne)
    have htriangle : |(m : ℚ) - n| ≤ |m - q| + |q - n| := abs_sub_le _ _ _
    rw [abs_sub_comm (m : ℚ) q] at htriangle
    linarith
  refine ⟨fun m => ?_, fun m hne heq => htie (le_antisymm hclose (heq ▸ hother m hne))⟩
  by_cases hne : m = n
  · rw [hne, Int.cast_natCast]
  · exact hclose.trans (hother m hne)

theorem roundDiv_even_of_tie (num : ℕ) {den : ℕ} (hden : 0 < den)
    (h : 2 * num = 2 * (roundDiv num den * den) + den ∨
      2 * (roundDiv num den * den) = 2 * num + den) : roundDiv num den % 2 = 0 := by
  have hdiv := Nat.div_add_mod num den
  have hmod := Nat.mod_lt num hden
  have hcomm : num / den * den = den * (num / den) := Nat.mul_comm _ _
  unfold roundDiv at h ⊢
  dsimp only at h ⊢
  split at h
  · omega
  · split at h
    · rw [Nat.add_mul] at h
      omega
    · next hlow hhigh =>
      rw [if_neg hlow, if_neg hhigh]
      omega

theorem roundDiv_nearestEven (num : ℕ) {den : ℕ} (hden : 0 < den) :
    NearestEven ((num : ℚ) / den) (roundDiv num den) := by
  obtain ⟨hupper, hlower⟩ := roundDiv_close num den hden
  have htie := roundDiv_even_of_tie num hden
  generalize roundDiv num den = n at hupper hlower htie ⊢
  have hden' : (0 : ℚ) < den := by exact_mod_cast hden
  have hupper' : 2 * ((n : ℚ) * den) ≤ 2 * num + den := by exact_mod_cast hupper
  have hlower' : 2 * (num : ℚ) ≤ 2 * (n * den) + den := by exact_mod_cast hlower
  have hdist : |(num : ℚ) / den - n| = |(num : ℚ) - n * den| / den := by
    rw [← abs_of_pos hden', ← abs_div, abs_of_pos hden', sub_div, mul_div_cancel_right₀ _ hden'.ne']
  apply nearestEven_of_close
  · rw [hdist, div_le_iff₀ hden', abs_le]
    constructor <;> linarith
  · rw [hdist, div_eq_iff hden'.ne']
    intro heq
    apply htie
    rcases abs_cases ((num : ℚ) - n * den) with ⟨habs, -⟩ | ⟨habs, -⟩
    · left
      have : 2 * (num : ℚ) = 2 * (n * den) + den := by linarith
      exact_mod_cast this
    · right
      have : 2 * ((n : ℚ) * den) = 2 * num + den := by linarith
      exact_mod_cast this

/-! ### magnitudes from bits -/

namespace Binary64

def exponentField (word : ℕ) : ℕ := word / 2 ^ 52 % 2 ^ 11

def fractionField (word : ℕ) : ℕ := word % 2 ^ 52

/-- the magnitude of a finite number by the fields of its bits -/
def absolute (word : ℕ) : ℚ :=
  if exponentField word = 0 then fractionField word / 2 ^ 52 * 2 ^ (-1022 : ℤ)
  else (1 + fractionField word / 2 ^ 52) * 2 ^ ((exponentField word : ℤ) - 1023)

theorem absolute_eq_magnitude (word : ℕ) : absolute word = magnitude (word % 2 ^ 63) := by
  have hexponent : word % 2 ^ 63 / 2 ^ 52 = exponentField word := by unfold exponentField; omega
  have hfraction : word % 2 ^ 63 % 2 ^ 52 = fractionField word := by unfold fractionField; omega
  have htwo : (2 : ℚ) ≠ 0 := two_ne_zero
  unfold absolute magnitude
  rw [unitsOf_eq, hexponent, hfraction]
  generalize fractionField word = f
  generalize exponentField word = e
  have hunit : (2 : ℚ) ^ 1074 = 2 ^ 52 * 2 ^ (1022 : ℤ) := by
    rw [← zpow_natCast, ← zpow_natCast, ← zpow_add₀ htwo]
    rfl
  split
  · rw [hunit, zpow_neg, ← div_div, div_eq_mul_inv ((f : ℚ) / 2 ^ 52)]
  · next he =>
    have hpower : (2 : ℚ) ^ ((e : ℤ) - 1023) = 2 ^ (e - 1) / 2 ^ (1022 : ℤ) := by
      rw [← zpow_natCast, ← zpow_sub₀ htwo]
      congr 1
      omega
    rw [hpower, hunit, Nat.cast_mul, Nat.cast_add, Nat.cast_pow, Nat.cast_pow, Nat.cast_ofNat]
    field_simp

/-- the bits of a finite number say what it is -/
theorem number_of_finite {x : Float} (h : exponentField x.toBits.toNat ≠ 2047) :
    number x = .finite (decide (2 ^ 63 ≤ x.toBits.toNat)) (unitsOf (x.toBits.toNat % 2 ^ 63)) := by
  have hsign : signBit = 2 ^ 63 := rfl
  have hinf : infinityBits = 2047 * 2 ^ 52 := rfl
  have hfinite : x.toBits.toNat % signBit < infinityBits := by
    unfold exponentField at h
    rw [hsign, hinf]
    omega
  unfold number numberOf
  dsimp only
  rw [if_pos hfinite]
  rfl

/-- and those of an infinity or a NaN -/
theorem number_of_not_finite {x : Float} (h : exponentField x.toBits.toNat = 2047) :
    number x = if fractionField x.toBits.toNat = 0 then .infinite (decide (2 ^ 63 ≤ x.toBits.toNat))
      else .nan := by
  have hsign : signBit = 2 ^ 63 := rfl
  have hinf : infinityBits = 2047 * 2 ^ 52 := rfl
  unfold exponentField at h
  have hlarge : ¬ x.toBits.toNat % signBit < infinityBits := by
    rw [hsign, hinf]
    omega
  have hfraction : x.toBits.toNat % signBit = infinityBits ↔
      fractionField x.toBits.toNat = 0 := by
    unfold fractionField
    rw [hsign, hinf]
    omega
  unfold number numberOf
  dsimp only
  rw [if_neg hlarge]
  simp only [hfraction]
  rfl

theorem toBits_ofBits_word {word : UInt64} (h : exponentField word.toNat ≠ 2047) :
    (Float.ofBits word).toBits = word := by
  apply UInt64.toNat_inj.mp
  show (Float.Model.UnpackedFloat.pack .binary64
    (Float.Model.UnpackedFloat.unpack .binary64 word.toBitVec)).toNat = word.toBitVec.toNat
  rw [pack_unpack (.inl fun hall => h ?_)]
  have he := congrArg BitVec.toNat hall
  rw [toNat_unpackExponent] at he
  exact he

end Binary64

/-! ### digits -/

/-- the text consists of decimal digits and spells the number -/
structure Spells (s : Bytes) (n : ℕ) : Prop where
  digits : ∀ b ∈ s, Radix.decimal.isDigit b = true
  number : Radix.decimal.number s = n

theorem digit?_ofNat : ∀ d < 10, Radix.decimal.digit? (UInt8.ofNat (48 + d)) = some d := by decide

theorem spells_digit {d : ℕ} (hd : d < 10) : Spells [UInt8.ofNat (48 + d)] d := by
  constructor
  · rw [List.forall_mem_singleton, Radix.isDigit, digit?_ofNat d hd]
    rfl
  · rw [Radix.number, List.filterMap_cons_some (digit?_ofNat d hd), List.filterMap_nil,
      List.reverse_singleton, Nat.ofDigits_singleton]

theorem length_digits {s : Bytes} (h : ∀ b ∈ s, Radix.decimal.isDigit b = true) :
    (s.filterMap Radix.decimal.digit?).length = s.length :=
  List.filterMap_length_eq_length.mpr h

theorem Spells.append {s t : Bytes} {n m : ℕ} (hs : Spells s n) (ht : Spells t m) :
    Spells (s ++ t) (n * 10 ^ t.length + m) := by
  refine ⟨?_, ?_⟩
  · exact List.forall_mem_append.mpr ⟨hs.digits, ht.digits⟩
  · rw [Radix.number_append, length_digits ht.digits, hs.number, ht.number]
    rfl

theorem Spells.concat {s : Bytes} {n d : ℕ} (h : Spells s n) (hd : d < 10) :
    Spells (s ++ [UInt8.ofNat (48 + d)]) (n * 10 + d) :=
  h.append (spells_digit hd)

theorem spells_decimal (n : ℕ) : Spells (decimal n) n := by
  induction n using Nat.strongRecOn with
  | ind n ih =>
    by_cases h : n < 10
    · rw [decimal_of_lt_ten h]
      exact spells_digit h
    · rw [decimal_of_ten_le (by omega)]
      have hconcat := (ih (n / 10) (by omega)).concat (Nat.mod_lt n (by decide : 0 < 10))
      rwa [Nat.div_add_mod'] at hconcat

theorem decimal_ne_nil (n : ℕ) : decimal n ≠ [] := by
  by_cases h : n < 10
  · rw [decimal_of_lt_ten h]
    exact List.cons_ne_nil _ _
  · rw [decimal_of_ten_le (by omega)]
    simp

/-- only zero itself starts with a zero -/
theorem head?_decimal {n : ℕ} (hn : n ≠ 0) : (decimal n).head? ≠ some Bytes.zero := by
  have hdigit : ∀ d < 10, d ≠ 0 → [UInt8.ofNat (48 + d)].head? ≠ some Bytes.zero := by decide
  induction n using Nat.strongRecOn with
  | ind n ih =>
    by_cases h : n < 10
    · rw [decimal_of_lt_ten h]
      exact hdigit n h hn
    · rw [decimal_of_ten_le (by omega), List.head?_append_of_ne_nil _ (decimal_ne_nil _)]
      exact ih (n / 10) (by omega) (by omega)

theorem SignStyle.text_append (style : SignStyle) (p : Prop) [Decidable p] (s : Bytes) :
    style.text (decide p) ++ s = if p then Bytes.minus :: s else style.text false ++ s := by
  by_cases h : p
  · simp [SignStyle.text, h]
  · simp [h]

namespace Fixed

/-- the text of a whole number of hundredths: the whole part without needless zeros, a point and two
digits -/
inductive Writes (n : ℕ) : Bytes → Prop where
  | mk {whole places : Bytes} : Spells whole (n / 100) → whole ≠ [] →
    (whole.head? = some Bytes.zero → whole = [Bytes.zero]) →
    Spells places (n % 100) → places.length = 2 → Writes n (whole ++ Bytes.point :: places)

theorem writes_magnitude (n : ℕ) : Writes n (magnitude n) := by
  refine .mk (spells_decimal _) (decimal_ne_nil _) ?_ ?_ rfl
  · intro hhead
    by_cases h : n / 100 = 0
    · rw [h]
      rfl
    · exact absurd hhead (head?_decimal h)
  · have hplaces := (spells_digit (show n % 100 / 10 < 10 by omega)).concat
      (show n % 100 % 10 < 10 by omega)
    rwa [Nat.div_add_mod'] at hplaces

theorem hundredths_nearestEven (word : ℕ) :
    NearestEven (100 * Binary64.absolute word) (hundredths (Binary64.unitsOf (word % 2 ^ 63))) := by
  have hpow : ∀ n, 0 < Nat.pow 2 n := Nat.two_pow_pos
  have hpos : 0 < Binary64.unitsPerOne := by
    unfold Binary64.unitsPerOne
    exact hpow 1074
  have hround := roundDiv_nearestEven (100 * Binary64.unitsOf (word % 2 ^ 63)) hpos
  rw [Binary64.cast_unitsPerOne, Nat.cast_mul, Nat.cast_ofNat, mul_div_assoc] at hround
  rw [Binary64.absolute_eq_magnitude]
  exact hround

end Fixed

/-! ### rows -/

namespace Listing

/-- the line of a name that is only in A, with the text of its size -/
def onlyALine (name size : Bytes) : Bytes :=
  line (nameColumn name ++ padStart 12 size ++ List.replicate 13 Bytes.space ++
    Bytes.ofString "  only in A")

/-- the line of a name that is only in B -/
def onlyBLine (name size : Bytes) : Bytes :=
  line (nameColumn name ++ List.replicate 13 Bytes.space ++ padStart 12 size ++
    Bytes.ofString "  only in B")

/-- the line of a name that is in both, with the texts of its sizes and of the change -/
def bothLine (name a b change : Bytes) : Bytes :=
  line (nameColumn name ++ padStart 12 a ++ [Bytes.space] ++ padStart 12 b ++
    Bytes.ofString "  " ++ change ++ [Bytes.percent])

section
variable {d : Delta}

theorem deltaLine_onlyA (h : d.onlyA = true) : deltaLine d = onlyALine d.name (fixed d.a) := by
  have hblanks : [Bytes.space] ++ noSize = List.replicate 13 Bytes.space := by decide
  rw [deltaLine, deltaRow, if_pos h, onlyALine, ← hblanks]
  simp only [List.append_assoc]
  rfl

theorem deltaLine_onlyB (hA : d.onlyA = false) (hB : d.onlyB = true) :
    deltaLine d = onlyBLine d.name (fixed d.b) := by
  have hblanks : noSize ++ [Bytes.space] = List.replicate 13 Bytes.space := by decide
  rw [deltaLine, deltaRow, if_neg (ne_true_of_eq_false hA), if_pos hB, onlyBLine, ← hblanks]
  simp only [List.append_assoc]
  rfl

theorem deltaLine_both (hA : d.onlyA = false) (hB : d.onlyB = false) :
    deltaLine d = bothLine d.name (fixed d.a) (fixed d.b) (signedFixed d.change) := by
  rw [deltaLine, deltaRow, if_neg (ne_true_of_eq_false hA), if_neg (ne_true_of_eq_false hB),
    bothLine]
  simp only [List.append_assoc]
  rfl

end

/-- the line of a mean size stands behind the heading and its rule -/
theorem getElem?_summary_sizes {s : Summary} {i : Nat} {stat : Stat}
    (h : s.sizes[i]? = some stat) : (summary s)[i + 2]? = some (sizeLine stat) := by
  have hi : i < (s.sizes.map sizeLine).length := by
    rw [List.length_map]
    exact (List.getElem?_eq_some_iff.mp h).1
  unfold summary
  rw [List.append_assoc, List.append_assoc]
  show (s.sizes.map sizeLine ++ _)[i]? = some (sizeLine stat)
  rw [List.getElem?_append_left hi, List.getElem?_map, h]
  rfl

theorem getElem?_summary_decreases {s : Summary} {i : Nat} {stat : Stat}
    (h : s.decreases[i]? = some stat) :
    (summary s)[s.sizes.length + 5 + i]? = some (decreaseLine stat) := by
  obtain ⟨front, hfront, hs⟩ : ∃ front, front.length = s.sizes.length + 5 ∧
      summary s = front ++ s.decreases.map decreaseLine := ⟨_, by simp, rfl⟩
  rw [hs, List.getElem?_append_right (by omega), hfront, Nat.add_sub_cancel_left,
    List.getElem?_map, h]
  rfl

theorem getElem?_deltas (nameA nameB : Bytes) (ds : List Delta) (i : Nat) :
    (deltas nameA nameB ds)[i + 2]? = ds[i]?.map deltaLine := by
  rw [← List.getElem?_map]
  rfl

/-- wherever a summary has the number `x`, it shows the one text for a size and the other, which
always has a sign, for a decrease -/
structure SummaryShows (x : Float) (plain signed : Bytes) : Prop where
  size : ∀ name, sizeLine ⟨name, x⟩ = line (nameColumn name ++ plain)
  decrease : ∀ name,
    decreaseLine ⟨name, x⟩ = line (nameColumn name ++ signed ++ [Bytes.percent])
  sizes : ∀ (s : Summary) (i : Nat) (name : Bytes), s.sizes[i]? = some ⟨name, x⟩ →
    (summary s)[i + 2]? = some (line (nameColumn name ++ plain))
  decreases : ∀ (s : Summary) (i : Nat) (name : Bytes), s.decreases[i]? = some ⟨name, x⟩ →
    (summary s)[s.sizes.length + 5 + i]? =
      some (line (nameColumn name ++ signed ++ [Bytes.percent]))
  /-- the other pieces are the two headings with their rules and the line between the lists -/
  length : ∀ s : Summary, (summary s).length = s.sizes.length + s.decreases.length + 5

/-- wherever a comparison has the number `x`, it shows the one text for a size and the other, which
always has a sign, for a change -/
structure ComparisonShows (x : Float) (plain signed : Bytes) : Prop where
  column : sizeColumn x = padStart 12 plain
  percentage : percentage x = signed ++ [Bytes.percent]
  onlyA : ∀ d : Delta, d.onlyA = true → d.a = x → deltaLine d = onlyALine d.name plain
  onlyB : ∀ d : Delta, d.onlyA = false → d.onlyB = true → d.b = x →
    deltaLine d = onlyBLine d.name plain
  both : ∀ d : Delta, d.onlyA = false → d.onlyB = false →
    (d.a = x → deltaLine d = bothLine d.name plain (fixed d.b) (signedFixed d.change)) ∧
    (d.b = x → deltaLine d = bothLine d.name (fixed d.a) plain (signedFixed d.change)) ∧
    (d.change = x → deltaLine d = bothLine d.name (fixed d.a) (fixed d.b) signed)
  pieces : ∀ (nameA nameB : Bytes) (ds : List Delta) (i : Nat),
    (deltas nameA nameB ds)[i + 2]? = ds[i]?.map deltaLine

theorem summaryShows (x : Float) : SummaryShows x (fixed x) (signedFixed x) where
  size name := rfl
  decrease name := by
    rw [List.append_assoc]
    rfl
  sizes s i name h := getElem?_summary_sizes h
  decreases s i name h := by
    rw [getElem?_summary_decreases h, List.append_assoc]
    rfl
  length s := by
    simp only [summary, List.length_append, List.length_map, List.length_cons, List.length_nil]
    omega

theorem comparisonShows (x : Float) : ComparisonShows x (fixed x) (signedFixed x) where
  column := rfl
  percentage := rfl
  onlyA d h ha := by rw [deltaLine_onlyA h, ha]
  onlyB d hA hB hb := by rw [deltaLine_onlyB hA hB, hb]
  both d hA hB := by
    rw [deltaLine_both hA hB]
    exact ⟨fun h => by rw [h], fun h => by rw [h], fun h => by rw [h]⟩
  pieces := getElem?_deltas

end Listing

namespace Fixed

/-- **Numbers are printed correctly rounded.** The bits of every finite number are those it is made
from, and it is printed as its sign and the whole number of hundredths that is nearest to its
magnitude, the even one of two. The sign is the sign bit, also of a number of which only zeros are
left; a plus stands in its place where a sign is always shown. So it stands in the lines of a
summary and in those of a comparison, whether the name is only in A, only in B or in both. -/
theorem render_exact (word : UInt64) (hfinite : Binary64.exponentField word.toNat ≠ 2047) :
    (Float.ofBits word).toBits = word ∧
    ∀ x : Float, x.toBits = word → ∃ n text,
      NearestEven (100 * Binary64.absolute word.toNat) n ∧ Writes n text ∧
      let negative := 2 ^ 63 ≤ word.toNat
      let plain := if negative then Bytes.minus :: text else text
      let signed := if negative then Bytes.minus :: text else Bytes.plus :: text
      (fixed x = plain ∧ signedFixed x = signed) ∧
      Listing.SummaryShows x plain signed ∧ Listing.ComparisonShows x plain signed := by
  refine ⟨Binary64.toBits_ofBits_word hfinite, ?_⟩
  rintro x rfl
  refine ⟨_, _, hundredths_nearestEven _, writes_magnitude _, ?_⟩
  intro negative plain signed
  have hnumber := Binary64.number_of_finite hfinite
  have hplain : fixed x = plain := by
    rw [fixed, hnumber, render]
    exact SignStyle.onlyMinus.text_append _ _
  have hsigned : signedFixed x = signed := by
    rw [signedFixed, hnumber, render]
    exact SignStyle.always.text_append _ _
  rw [← hplain, ← hsigned]
  exact ⟨⟨rfl, rfl⟩, Listing.summaryShows x, Listing.comparisonShows x⟩

/-- an eighth lies in the middle between two hundredths -/
theorem render_exact_eighth :
    Binary64.exponentField (0x3fc0000000000000 : UInt64).toNat ≠ 2047 ∧
      (∃ n text, NearestEven (100 * Binary64.absolute (0x3fc0000000000000 : UInt64).toNat) n ∧
        Writes n text ∧ fixed (Float.ofBits 0x3fc0000000000000) = text) ∧
      fixed (Float.ofBits 0x3fc0000000000000) = Bytes.ofString "0.12" ∧
      Listing.deltaLine ⟨Bytes.ofString "O1", Float.ofBits 0x3fc0000000000000, 0, true, false⟩ =
        Listing.onlyALine (Bytes.ofString "O1") (Bytes.ofString "0.12") := by
  have hfinite : Binary64.exponentField (0x3fc0000000000000 : UInt64).toNat ≠ 2047 := by decide
  obtain ⟨hbits, hprinted⟩ := render_exact 0x3fc0000000000000 hfinite
  obtain ⟨n, text, hn, htext, ⟨hplain, -⟩, -, hcomparison⟩ := hprinted _ hbits
  have hdigits : fixed (Float.ofBits 0x3fc0000000000000) = Bytes.ofString "0.12" := by
    decide +kernel
  refine ⟨hfinite, ⟨n, text, hn, htext, hplain⟩, hdigits, ?_⟩
  rw [hcomparison.onlyA _ rfl rfl, ← hplain, hdigits]

end Fixed

end Footprint
