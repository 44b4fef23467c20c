import Mathlib.Algebra.Order.Field.Basic
import Footprint.Proofs.Denotation
import Footprint.Proofs.Trimming
import Footprint.Size

/-!
# Which texts denote sizes, and which sizes

A text denotes a size if blanks stand around an infinity, a NaN or a numeral in range
(`Size.parse_grammar`), and the size of a numeral is the nearest binary64 number
(`Size.parse_rounds`).

There are two exceptions. An exponent counts with five digits, so that a numeral out of range can be
accepted (`Size.parse_accepts_out_of_range`). And a decimal numeral that its leading digits do not
settle has a place for 800 digits before the point, so that a longer one can denote one number and
be read as another (`Size.parse_misplaces`).
-/

namespace Footprint

/-! ### the bytes of sizes -/

theorem visible_of_lower {b : UInt8} (h : Visible (Bytes.lower b)) : Visible b := by
  unfold Visible at *
  have hlower := toNat_lower b
  split at hlower <;> omega

theorem visible_signText (sign : Option Bool) : ∀ b ∈ signText sign, Visible b := by
  match sign with
  | none => simp [signText]
  | some true => exact List.forall_mem_singleton.mpr (by decide)
  | some false => exact List.forall_mem_singleton.mpr (by decide)

namespace Spelling.WellFormed
variable {p : Spelling} {b : UInt8}

theorem head_unsigned_le (hp : p.WellFormed) (hb : (markText p.mark ++ p.body).head? = some b) :
    (Bytes.lower b).toNat ≤ 101 := by
  cases hmark : p.mark with
  | some x =>
    rw [hmark] at hb
    cases Option.some.inj hb
    decide
  | none =>
    rw [hmark] at hb
    exact hp.toNat_lower_le hmark (List.mem_of_mem_head? hb)

theorem head_text_le (hp : p.WellFormed) (hb : p.text.head? = some b) :
    (Bytes.lower b).toNat ≤ 101 := by
  unfold text at hb
  match hsign : p.sign with
  | none =>
    rw [hsign] at hb
    exact hp.head_unsigned_le hb
  | some true =>
    rw [hsign] at hb
    cases Option.some.inj hb
    decide
  | some false =>
    rw [hsign] at hb
    cases Option.some.inj hb
    decide

theorem visible_body (hp : p.WellFormed) (hb : b ∈ p.body) : Visible b := by
  unfold Visible
  rcases hp.mem_body hb with hspaced | hsign | ⟨e, he, rfl⟩
  · rcases (Radix.isSpaced_iff _ b).mp hspaced with hdigit | rfl
    · have := Radix.toNat_of_isDigit hdigit
      omega
    · decide
  · simp only [List.mem_cons, List.not_mem_nil, or_false] at hsign
    rcases hsign with rfl | rfl | rfl <;> decide
  · have hmark := toNat_exponentMark (hp.exponentMark e he)
    split at hmark <;> omega

theorem visible_text (hp : p.WellFormed) : ∀ b ∈ p.text, Visible b := by
  intro b hb
  rcases List.mem_append.mp hb with hsign | hb
  · exact visible_signText _ b hsign
  rcases List.mem_append.mp hb with hmark | hb
  · cases hx : p.mark with
    | none => rw [hx] at hmark; cases hmark
    | some x =>
      rw [hx] at hmark
      simp only [markText, List.mem_cons, List.not_mem_nil, or_false] at hmark
      rcases hmark with rfl | rfl
      · decide
      · refine visible_of_lower ?_
        rw [hp.mark b hx]
        decide
  · exact hp.visible_body hb

end Spelling.WellFormed

/-! ### infinities and NaN -/

namespace Size

/-- an infinity, in any letter case and with any sign -/
def Infinite (c : Bytes) : Prop :=
  ∃ sign word, c = signText sign ++ word ∧
    (word.map Bytes.lower = Bytes.ofString "inf" ∨ word.map Bytes.lower = Bytes.ofString "infinity")

/-- a NaN, in any letter case and without sign -/
def Undefined (c : Bytes) : Prop := c.map Bytes.lower = Bytes.ofString "nan"

theorem map_lower_ne {s word : Bytes} (h : ∀ b, s.head? = some b → (Bytes.lower b).toNat ≤ 101)
    (hword : ∃ c, word.head? = some c ∧ 101 < c.toNat) : s.map Bytes.lower ≠ word := by
  rintro rfl
  obtain ⟨c, hc, hlt⟩ := hword
  cases s with
  | nil => cases hc
  | cons b rest =>
    cases Option.some.inj hc
    have := h b rfl
    omega

theorem special?_text {p : Spelling} (hp : p.WellFormed) : special? p.text = none := by
  have hunsigned : (splitSign p.text).2 = Spelling.markText p.mark ++ p.body :=
    (Spelling.splitSign_signText fun _ => hp.head_unsigned).2
  have hhead := fun b => @Spelling.WellFormed.head_unsigned_le p b hp
  have hinf := @map_lower_ne _ (Bytes.ofString "inf") hhead ⟨105, by decide⟩
  have hinfinity := @map_lower_ne _ (Bytes.ofString "infinity") hhead ⟨105, by decide⟩
  have hnan : p.text.map Bytes.lower ≠ Bytes.ofString "nan" :=
    map_lower_ne (fun _ => hp.head_text_le) ⟨110, by decide⟩
  unfold special?
  dsimp only
  rw [hunsigned, if_neg (not_or.mpr ⟨hinf, hinfinity⟩), if_neg hnan]

theorem isSome_special?_iff (c : Bytes) :
    (special? c).isSome = true ↔ Infinite c ∨ Undefined c := by
  unfold special?
  dsimp only
  constructor
  · intro h
    split at h
    · next hword => exact .inl ⟨_, _, (Spelling.signText_signOf c).symm, hword⟩
    · split at h
      · next hnan => exact .inr hnan
      · cases h
  · rintro (⟨sign, word, rfl, hword⟩ | hnan)
    · have hsplit : (splitSign (signText sign ++ word)).2 = word := by
        refine (Spelling.splitSign_signText fun b hb => ?_).2
        have hlower : Bytes.lower b = 105 := by
          have hhead : (word.map Bytes.lower).head? = some (Bytes.lower b) := by
            rw [List.head?_map, hb]
            rfl
          rcases hword with h | h <;> rw [h] at hhead <;> exact (Option.some.inj hhead).symm
        constructor <;> rintro rfl <;> revert hlower <;> decide
      rw [hsplit, if_pos hword]
      rfl
    · split
      · rfl
      · rw [Undefined] at hnan
        rw [if_pos hnan]
        rfl

theorem visible_special {c : Bytes} (h : Infinite c ∨ Undefined c) : ∀ b ∈ c, Visible b := by
  have hword : ∀ {word s : Bytes}, s.map Bytes.lower = word →
      word.all (fun x => decide (Visible x)) = true → ∀ b ∈ s, Visible b := by
    rintro word s rfl hall b hb
    have hlower := List.all_eq_true.mp hall _ (List.mem_map_of_mem hb)
    exact visible_of_lower (of_decide_eq_true hlower)
  intro b hb
  rcases h with ⟨sign, word, rfl, h⟩ | h
  · rcases List.mem_append.mp hb with hsign | hb
    · exact visible_signText sign b hsign
    · rcases h with h | h
      · exact hword h (by decide) b hb
      · exact hword h (by decide) b hb
  · exact hword h (by decide) b hb

/-! ### sizes without blanks around them -/

/-- the text of a size, the numerals among them with a magnitude in range -/
def Token (magnitude : Spelling → ℚ) (c : Bytes) : Prop :=
  (Infinite c ∨ Undefined c) ∨
    ∃ p : Spelling, p.WellFormed ∧ c = p.text ∧ magnitude p < Binary64.overflow

theorem trim_token {magnitude : Spelling → ℚ} {c : Bytes} (h : Token magnitude c) : trim c = c := by
  apply trim_of_visible
  rcases h with h | ⟨p, hp, rfl, -⟩
  · exact visible_special h
  · exact hp.visible_text

theorem trim_cut {s : Bytes} (hp : (Spelling.cut s).WellFormed) :
    trim s = (Spelling.cut s).text := by
  have hvisible := hp.visible_text
  rw [Spelling.text_cut] at hvisible ⊢
  exact trim_of_visible hvisible

theorem ofTrimmed?_of_special?_eq_none {c : Bytes} (h : special? c = none) :
    ofTrimmed? c = (Numeral.read? c).bind Numeral.value? := by
  simp only [ofTrimmed?, h]

theorem ofTrimmed?_text {p : Spelling} (hp : p.WellFormed) :
    ofTrimmed? p.text = p.numeral.value? := by
  rw [ofTrimmed?_of_special?_eq_none (special?_text hp), Spelling.read?_text hp, Option.bind_some]

theorem isSome_value?_iff (p : Spelling) :
    p.numeral.value?.isSome = true ↔ p.kept < Binary64.overflow := by
  obtain ⟨hin, hout⟩ := p.numeral.value?_spec p.kept_eq
  constructor
  · intro h
    by_contra hle
    rw [hout (not_lt.mp hle)] at h
    cases h
  · intro h
    obtain ⟨v, -, hv, -⟩ := hin h
    rw [hv]
    rfl

theorem isSome_ofTrimmed?_iff (c : Bytes) :
    (ofTrimmed? c).isSome = true ↔ Token Spelling.kept c := by
  constructor
  · intro h
    cases hspecial : special? c with
    | some x => exact .inl ((isSome_special?_iff c).mp (by rw [hspecial]; rfl))
    | none =>
      rw [ofTrimmed?_of_special?_eq_none hspecial] at h
      cases hread : Numeral.read? c with
      | none => rw [hread] at h; cases h
      | some n =>
        obtain ⟨hp, rfl⟩ := (Numeral.read?_eq_some_iff c n).mp hread
        rw [hread, Option.bind_some] at h
        exact .inr ⟨_, hp, (Spelling.text_cut c).symm, (isSome_value?_iff _).mp h⟩
  · rintro (h | ⟨p, hp, rfl, hlt⟩)
    · obtain ⟨x, hx⟩ := Option.isSome_iff_exists.mp ((isSome_special?_iff c).mpr h)
      rw [ofTrimmed?, hx]
      rfl
    · rw [ofTrimmed?_text hp]
      exact (isSome_value?_iff p).mpr hlt

theorem parse_eq_ok_iff (s : Bytes) (v : Float) : parse s = .ok v ↔ read? s = some v := by
  unfold parse
  cases read? s with
  | none => simp
  | some x => simp

theorem parse_eq_error {s message : Bytes} (h : parse s = .error message) :
    message = complaint s := by
  unfold parse at h
  cases hread : read? s with
  | none =>
    rw [hread] at h
    exact (Except.error.inj h).symm
  | some x =>
    rw [hread] at h
    cases h

/-! ### accepted texts -/

/-- blanks around a text do not matter -/
theorem read?_blanks {front back : Bytes} (hfront : Blanks front) (hback : Blanks back)
    (c : Bytes) : read? (front ++ c ++ back) = read? c := by
  rw [read?, read?, trim_blanks hfront hback]

theorem token_congr {c : Bytes} {f g : Spelling → ℚ}
    (h : ∀ p : Spelling, p.WellFormed → c = p.text → f p = g p) : Token f c ↔ Token g c := by
  refine or_congr_right (exists_congr fun p => and_congr_right fun hp => ?_)
  refine and_congr_right fun hc => ?_
  rw [h p hp hc]

theorem token_of_le {c : Bytes} {f g : Spelling → ℚ} (h : ∀ p, f p ≤ g p) (hc : Token g c) :
    Token f c := by
  rcases hc with hspecial | ⟨p, hp, hptext, hlt⟩
  · exact .inl hspecial
  · exact .inr ⟨p, hp, hptext, (h p).trans_lt hlt⟩

theorem exists_parse_iff (s : Bytes) :
    (∃ v, parse s = .ok v) ↔ Token Spelling.kept (trim s) := by
  rw [← isSome_ofTrimmed?_iff, Option.isSome_iff_exists]
  exact exists_congr (parse_eq_ok_iff s)

/-- a text is a size with blanks around it if it is one when trimmed -/
theorem framed_iff (magnitude : Spelling → ℚ) (s : Bytes) :
    (∃ front c back, Blanks front ∧ Blanks back ∧ s = front ++ c ++ back ∧ Token magnitude c) ↔
      Token magnitude (trim s) := by
  constructor
  · rintro ⟨front, c, back, hfront, hback, rfl, h⟩
    rw [trim_blanks hfront hback, trim_token h]
    exact h
  · intro h
    obtain ⟨front, back, hfront, hback, hs⟩ := exists_blanks_trim s
    exact ⟨front, trim s, back, hfront, hback, hs, h⟩

/-- **A text is accepted if it is a size with blanks around it**, the numeral being in range with
five digits of its exponent, and no other text is, except for numerals that lose places. The size
depends on what stands between the blanks, only blanks are cut off, and the complaint shows the
whole text. -/
theorem parse_grammar (s : Bytes) :
    ((∀ p : Spelling, p.WellFormed → trim s = p.text →
        p.numeral.settled = true ∨ p.numeral.wholeDigits.length ≤ 800) →
      ((∃ v, parse s = .ok v) ↔ ∃ front c back, Blanks front ∧ Blanks back ∧
        s = front ++ c ++ back ∧ Token Spelling.counted c)) ∧
    ((∃ front c back, Blanks front ∧ Blanks back ∧ s = front ++ c ++ back ∧
      Token Spelling.counted c) → ∃ v, parse s = .ok v) ∧
    (∀ p : Spelling, p.power.natAbs ≤ 9999 → p.counted = p.magnitude) ∧
    (∀ front c back, Blanks front → Blanks back → s = front ++ c ++ back →
      ∀ v, parse s = .ok v ↔ parse c = .ok v) ∧
    (∃ front back, Blanks front ∧ Blanks back ∧ s = front ++ trim s ++ back) ∧
    ∀ message, parse s = .error message → message = Bytes.ofString "invalid size " ++ quote s := by
  refine ⟨?_, ?_, Spelling.counted_eq_magnitude, ?_, exists_blanks_trim s, fun _ => parse_eq_error⟩
  · intro hplaced
    rw [exists_parse_iff, framed_iff]
    exact token_congr fun p hp hc => p.kept_eq_counted (hplaced p hp hc)
  · intro hframed
    rw [exists_parse_iff]
    exact token_of_le Spelling.kept_le_counted ((framed_iff _ s).mp hframed)
  · rintro front c back hfront hback rfl v
    rw [parse_eq_ok_iff, parse_eq_ok_iff, read?_blanks hfront hback]

theorem spacedTen_parts :
    let p := Spelling.cut (Bytes.ofString "-1_0e1")
    p.WellFormed ∧ p.hexadecimal = false ∧ p.fraction = none ∧ p.radix.number p.whole = 10 ∧
      p.power = 1 ∧ p.numeral.wholeDigits.length ≤ 800 := by
  decide +kernel

theorem parse_grammar_sample :
    (∃ v, parse (Bytes.ofString " -1_0e1\u3000") = .ok v) ∧
    (∀ v, parse (Bytes.ofString " -1_0e1\u3000") = .ok v ↔
      parse (Bytes.ofString "-1_0e1") = .ok v) ∧
    (Spelling.cut (Bytes.ofString "-1_0e1")).counted = 100 := by
  obtain ⟨hp, hdecimal, hfraction, hwhole, hpower, hlength⟩ := spacedTen_parts
  have htext := Spelling.text_cut (Bytes.ofString "-1_0e1")
  have hfront : Blanks (Bytes.ofString " ") := ⟨[' '], List.forall_mem_singleton.mpr rfl, rfl⟩
  have hback : Blanks (Bytes.ofString "\u3000") :=
    ⟨['\u3000'], List.forall_mem_singleton.mpr rfl, rfl⟩
  have hs : Bytes.ofString " -1_0e1\u3000" =
      Bytes.ofString " " ++ Bytes.ofString "-1_0e1" ++ Bytes.ofString "\u3000" := by decide
  obtain ⟨haccepted, -, hcounted, hsame, -⟩ := parse_grammar (Bytes.ofString " -1_0e1\u3000")
  have hplaced : ∀ p : Spelling, p.WellFormed → trim (Bytes.ofString " -1_0e1\u3000") = p.text →
      p.numeral.settled = true ∨ p.numeral.wholeDigits.length ≤ 800 := by
    intro p hp' htrim
    rw [hs, trim_blanks hfront hback, trim_cut hp, htext] at htrim
    rw [← Spelling.cut_text hp', ← htrim]
    exact .inr hlength
  have hhundred : (Spelling.cut (Bytes.ofString "-1_0e1")).counted = 100 := by
    rw [hcounted _ (by rw [hpower]; decide), Spelling.magnitude_of_whole _ hdecimal hfraction,
      hwhole, hpower]
    norm_num
  have hrange : (100 : ℚ) < Binary64.overflow :=
    lt_trans (by norm_num) ((Binary64.two_pow_lt_overflow_iff 7).mpr (by omega))
  refine ⟨(haccepted hplaced).mpr ⟨_, _, _, hfront, hback, hs, .inr ⟨_, hp, htext.symm, ?_⟩⟩,
    hsame _ _ _ hfront hback hs, hhundred⟩
  rw [hhundred]
  exact hrange

/-- a number out of range, as its exponent is `100000`, but `10000` is counted -/
def largeText : Bytes :=
  Bytes.ofString "0x." ++ (List.replicate 2244 Bytes.zero ++ Bytes.ofString "1p100000")

theorem largeText_parts :
    let p := Spelling.cut largeText
    p.WellFormed ∧ p.hexadecimal = true ∧ p.radix.base = 16 ∧ p.radix.number p.whole = 0 ∧
      p.radix.number (p.fraction.getD []) = 1 ∧ p.numeral.places = 2245 ∧
      p.power = ((4 * 2245 + 91020 : ℕ) : ℤ) ∧ p.countedPower = ((4 * 2245 + 1020 : ℕ) : ℤ) ∧
      p.numeral.settled = true := by
  decide +kernel

theorem scale_hexadecimal (k e : ℕ) : (1 / 16 ^ k : ℚ) * 2 ^ ((4 * k + e : ℕ) : ℤ) = 2 ^ e := by
  have hfour : (2 : ℚ) ^ (4 * k) = 16 ^ k := by rw [pow_mul]; norm_num
  rw [zpow_natCast, pow_add, hfour]
  field_simp

theorem magnitude_large : (Spelling.cut largeText).magnitude = 2 ^ 91020 ∧
    (Spelling.cut largeText).kept = 2 ^ 1020 := by
  obtain ⟨-, hhex, hbase, hwhole, hfraction, hplaces, hpower, hcounted, hsettled⟩ := largeText_parts
  have hsignificand : (Spelling.cut largeText).significand = 1 / 16 ^ 2245 := by
    rw [Spelling.significand, hbase, hwhole, hfraction, hplaces, Nat.cast_zero, zero_add,
      Nat.cast_one, Nat.cast_ofNat]
  have htwo : (Spelling.cut largeText).exponentBase = 2 := by
    rw [Spelling.exponentBase, hhex]
    rfl
  constructor
  · rw [Spelling.magnitude, hsignificand, htwo, hpower, scale_hexadecimal]
  · rw [Spelling.kept_eq_counted _ (.inl hsettled), Spelling.counted, hsignificand, htwo, hcounted,
      scale_hexadecimal]

/-- A numeral out of range can be accepted. -/
theorem parse_accepts_out_of_range : (∃ v, parse largeText = .ok v) ∧
    ¬ ∃ front c back, Blanks front ∧ Blanks back ∧ largeText = front ++ c ++ back ∧
      Token Spelling.magnitude c := by
  have hp := largeText_parts.1
  have htext := Spelling.text_cut largeText
  have htrim : trim largeText = largeText := (trim_cut hp).trans htext
  obtain ⟨hmagnitude, hkept⟩ := magnitude_large
  constructor
  · have hin := (Binary64.two_pow_lt_overflow_iff 1020).mpr (by omega)
    rw [← hkept, ← isSome_value?_iff, ← ofTrimmed?_text hp, htext, ← htrim] at hin
    obtain ⟨v, hv⟩ := Option.isSome_iff_exists.mp hin
    exact ⟨v, (parse_eq_ok_iff _ v).mpr hv⟩
  · rintro ⟨front, c, back, hfront, hback, hs, hc⟩
    have heq : c = largeText := by
      rw [← htrim, hs, trim_blanks hfront hback, trim_token hc]
    subst heq
    rcases hc with hspecial | ⟨p, hp', hptext, hlt⟩
    · have hsome := (isSome_special?_iff _).mpr hspecial
      rw [← htext, special?_text hp] at hsome
      cases hsome
    · have hcut : p = Spelling.cut largeText := by rw [hptext, Spelling.cut_text hp']
      rw [hcut, hmagnitude, Binary64.two_pow_lt_overflow_iff] at hlt
      omega

/-! ### values -/

/-- the text is read as the nearest number to a magnitude, with a sign, or refused if the magnitude
is out of range -/
def RoundsTo (s : Bytes) (negative : Bool) (x : ℚ) : Prop :=
  (x < Binary64.overflow → ∃ v bits, parse s = .ok v ∧ Binary64.NearestFinite x bits ∧
    v.toBits.toNat = (if negative then 2 ^ 63 else 0) + bits) ∧
  (Binary64.overflow ≤ x → parse s = .error (complaint s))

theorem roundsTo_kept {s : Bytes} {p : Spelling} (hp : p.WellFormed) (hs : trim s = p.text) :
    RoundsTo s p.negative p.kept := by
  have hread : read? s = p.numeral.value? := by rw [read?, hs, ofTrimmed?_text hp]
  obtain ⟨hin, hout⟩ := p.numeral.value?_spec p.kept_eq
  constructor
  · intro hlt
    obtain ⟨v, bits, hv, hnearest, hbits⟩ := hin hlt
    exact ⟨v, bits, (parse_eq_ok_iff s v).mpr (hread.trans hv), hnearest, hbits⟩
  · intro hle
    rw [parse, hread, hout hle]

/-- **A numeral is rounded correctly** if its leading digits settle the value or it has at most 800
digits before the point. Otherwise each digit beyond them makes the value ten times smaller. -/
theorem parse_rounds {s : Bytes} {p : Spelling} (hp : p.WellFormed) (hs : trim s = p.text)
    (hpower : p.power.natAbs ≤ 9999) :
    (p.numeral.settled = true ∨ p.numeral.wholeDigits.length ≤ 800 →
      RoundsTo s p.negative p.magnitude) ∧
    (p.numeral.settled = false →
      RoundsTo s p.negative (p.magnitude / 10 ^ (p.numeral.wholeDigits.length - 800))) := by
  have hkept := roundsTo_kept hp hs
  rw [← p.counted_eq_magnitude hpower]
  constructor
  · intro hplaced
    rwa [p.kept_eq_counted hplaced] at hkept
  · intro hsettled
    rwa [p.kept_of_not_settled hsettled] at hkept

/-- one digit before the point too many, and the leading ones settle nothing -/
def crowdedText : Bytes :=
  Bytes.ofString "9007199254740993" ++ (List.replicate 784 Bytes.zero ++ Bytes.ofString "1e-785")

theorem crowdedText_parts :
    let p := Spelling.cut crowdedText
    p.WellFormed ∧ p.negative = false ∧ p.hexadecimal = false ∧ p.fraction = none ∧
      p.radix.number p.whole = 9007199254740993 * 10 ^ 785 + 1 ∧ p.power = -785 ∧
      p.numeral.wholeDigits.length = 801 ∧ p.numeral.settled = false := by
  decide +kernel

theorem magnitude_crowded :
    (Spelling.cut crowdedText).magnitude = 9007199254740993 + 1 / 10 ^ 785 := by
  obtain ⟨-, -, hdecimal, hfraction, hwhole, hpower, -⟩ := crowdedText_parts
  have hscale : ∀ k : ℕ, ((9007199254740993 * 10 ^ k + 1 : ℕ) : ℚ) * 10 ^ (-(k : ℤ)) =
      9007199254740993 + 1 / 10 ^ k := by
    intro k
    rw [zpow_neg, zpow_natCast]
    push_cast
    field_simp
  rw [Spelling.magnitude_of_whole _ hdecimal hfraction, hwhole, hpower]
  exact hscale 785

theorem magnitude_crowded_bounds :
    2 ^ 53 ≤ (Spelling.cut crowdedText).magnitude ∧
      (Spelling.cut crowdedText).magnitude ≤ 2 ^ 53 + 2 := by
  have hpos : (0 : ℚ) < 1 / 10 ^ 785 := by positivity
  have hle : (1 : ℚ) / 10 ^ 785 ≤ 1 := by
    rw [div_le_one (by positivity)]
    exact one_le_pow₀ (by norm_num)
  rw [magnitude_crowded]
  generalize (1 : ℚ) / 10 ^ 785 = y at *
  constructor <;> linarith

/-- no bits are nearest to a number and to its tenth -/
theorem not_nearest_tenth {x : ℚ} {bits : ℕ} (hlow : 2 ^ 53 ≤ x) (hhigh : x ≤ 2 ^ 53 + 2)
    (h : Binary64.NearestFinite x bits) : ¬ Binary64.NearestFinite (x / 10) bits := by
  intro htenth
  have hinf : Binary64.infinityBits = 2047 * 2 ^ 52 := rfl
  have hunit : (2 : ℚ) ^ 1074 ≠ 0 := pow_ne_zero _ (by norm_num)
  have hpower : Binary64.magnitude (1075 * 2 ^ 52 + 2 ^ 52) = 2 ^ 53 := by
    rw [Binary64.magnitude, Binary64.unitsOf_shift (by norm_num) (.inr le_rfl), Nat.cast_mul,
      Nat.cast_pow, Nat.cast_pow, Nat.cast_ofNat, pow_succ (2 : ℚ) 1074, ← mul_assoc,
      mul_right_comm, mul_div_cancel_right₀ _ hunit, ← pow_succ]
  have hnear := h.close (1075 * 2 ^ 52 + 2 ^ 52) (by omega)
  have hfar := htenth.close 0 (by omega)
  -- the bits stand for at least `x - 2` and for at most a fifth of `x`
  rw [hpower, abs_of_nonneg (sub_nonneg.mpr hlow)] at hnear
  have hnonneg : 0 ≤ x / 10 := by linarith
  rw [Binary64.magnitude_zero, sub_zero, abs_of_nonneg hnonneg] at hfar
  have hle := (abs_le.mp hnear).2
  have hge := (abs_le.mp hfar).1
  linarith

theorem halfway_parts :
    let p := Spelling.cut (Bytes.ofString "-9007199254740993")
    p.WellFormed ∧ p.negative = true ∧ p.hexadecimal = false ∧ p.fraction = none ∧
      p.radix.number p.whole = 9007199254740993 ∧ p.power = 0 ∧
      p.numeral.wholeDigits.length ≤ 800 := by
  decide +kernel

/-- halfway between two numbers, with blanks around; and a numeral that loses a place -/
theorem parse_rounds_sample :
    RoundsTo (Bytes.ofString " -9007199254740993\n") true 9007199254740993 ∧
    RoundsTo crowdedText false ((9007199254740993 + 1 / 10 ^ 785) / 10) := by
  constructor
  · obtain ⟨hp, hnegative, hdecimal, hfraction, hwhole, hpower, hlength⟩ := halfway_parts
    have hs : trim (Bytes.ofString " -9007199254740993\n") =
        (Spelling.cut (Bytes.ofString "-9007199254740993")).text := by
      rw [Spelling.text_cut]
      decide +kernel
    have h := (parse_rounds hp hs (by rw [hpower]; decide)).1 (.inr hlength)
    rwa [hnegative, Spelling.magnitude_of_whole _ hdecimal hfraction, hwhole, hpower, zpow_zero,
      mul_one, Nat.cast_ofNat] at h
  · obtain ⟨hp, hnegative, -, -, -, hpower, hlength, hsettled⟩ := crowdedText_parts
    have h := (parse_rounds hp (trim_cut hp) (by rw [hpower]; decide)).2 hsettled
    rwa [hnegative, hlength, magnitude_crowded, pow_one] at h

/-- A long numeral can be read as another number than it denotes. -/
theorem parse_misplaces : ∃ p : Spelling, p.WellFormed ∧ trim crowdedText = p.text ∧
    p.power.natAbs ≤ 9999 ∧ ¬ RoundsTo crowdedText p.negative p.magnitude := by
  obtain ⟨hp, hnegative, -, -, -, hpower, hlength, hsettled⟩ := crowdedText_parts
  have hnat : (Spelling.cut crowdedText).power.natAbs ≤ 9999 := by
    rw [hpower]
    decide
  refine ⟨_, hp, trim_cut hp, hnat, ?_⟩
  have hkept := roundsTo_kept hp (trim_cut hp)
  rw [Spelling.kept_of_not_settled _ hsettled, Spelling.counted_eq_magnitude _ hnat, hlength,
    pow_one] at hkept
  obtain ⟨hlow, hhigh⟩ := magnitude_crowded_bounds
  generalize (Spelling.cut crowdedText).magnitude = x at *
  have hpow : x < 2 ^ 54 := by linarith
  have hrange : x < Binary64.overflow :=
    hpow.trans ((Binary64.two_pow_lt_overflow_iff 54).mpr (by omega))
  have htenth : x / 10 < Binary64.overflow := by linarith
  intro hrounds
  obtain ⟨v, bits, hv, hnearest, hbits⟩ := hrounds.1 hrange
  obtain ⟨v', bits', hv', hnearest', hbits'⟩ := hkept.1 htenth
  have hsame : bits = bits' := by
    rw [hv] at hv'
    rw [Except.ok.inj hv'] at hbits
    omega
  subst hsame
  exact not_nearest_tenth hlow hhigh hnearest hnearest'

end Size

end Footprint
