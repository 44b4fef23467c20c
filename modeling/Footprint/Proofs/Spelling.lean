import Mathlib.Data.List.TakeWhile
import Footprint.Number.Numeral

/-!
# How numerals are written

A numeral is spelled by a sign, a radix mark, digits before and behind a point, and an exponent
(`Spelling`), and the rules of spelling are stated on these parts (`Spelling.WellFormed`). Every
text can be cut into such parts (`Spelling.text_cut`), a well-formed spelling in one way only
(`Spelling.cut_text`). Reading a numeral cuts its text and checks the rules
(`Numeral.read?_eq_some_iff`), so the numerals are the texts of well-formed spellings
(`Spelling.read?_text`).
-/

namespace Footprint

/-! ### bytes of a numeral -/

theorem toNat_lower (b : UInt8) : (Bytes.lower b).toNat =
    if 65 ≤ b.toNat ∧ b.toNat ≤ 90 then b.toNat + 32 else b.toNat := by
  unfold Bytes.lower
  simp only [UInt8.le_iff_toNat_le]
  show (if 65 ≤ b.toNat ∧ b.toNat ≤ 90 then b + 32 else b).toNat = _
  split
  · next h =>
    rw [UInt8.toNat_add]
    show (b.toNat + 32) % 256 = _
    omega
  · rfl

theorem hexValue?_eq (b : UInt8) : Bytes.hexValue? b =
    if 48 ≤ b.toNat ∧ b.toNat ≤ 57 then some (b.toNat - 48)
    else if 97 ≤ (Bytes.lower b).toNat ∧ (Bytes.lower b).toNat ≤ 102 then
      some ((Bytes.lower b).toNat - 87)
    else none := by
  unfold Bytes.hexValue?
  simp only [UInt8.le_iff_toNat_le]
  rfl

namespace Radix

theorem isDigit_iff (radix : Radix) (b : UInt8) :
    radix.isDigit b = true ↔ ∃ v, Bytes.hexValue? b = some v ∧ v < radix.base := by
  unfold isDigit digit?
  cases Bytes.hexValue? b with
  | none => simp
  | some v => simp [Option.filter_some]

theorem isDigit_decimal_iff (b : UInt8) :
    decimal.isDigit b = true ↔ 48 ≤ b.toNat ∧ b.toNat ≤ 57 := by
  have hbase : decimal.base = 10 := rfl
  rw [isDigit_iff, hexValue?_eq, hbase]
  constructor
  · rintro ⟨v, hv, hlt⟩
    split at hv
    · assumption
    · split at hv
      · cases Option.some.inj hv
        omega
      · cases hv
  · intro h
    exact ⟨_, if_pos h, by omega⟩

theorem toNat_of_isDigit {radix : Radix} {b : UInt8} (h : radix.isDigit b = true) :
    48 ≤ b.toNat ∧ b.toNat ≤ 57 ∨ 65 ≤ b.toNat ∧ b.toNat ≤ 70 ∨ 97 ≤ b.toNat ∧ b.toNat ≤ 102 := by
  obtain ⟨v, hv, -⟩ := (isDigit_iff radix b).mp h
  have hlower := toNat_lower b
  rw [hexValue?_eq] at hv
  split at hv
  · exact .inl ‹_›
  · split at hv
    · split at hlower <;> omega
    · cases hv

/-- a decimal digit is a digit of either radix of a numeral -/
theorem isDigit_of_decimal (hexadecimal : Bool) {b : UInt8} (h : decimal.isDigit b = true) :
    (Numeral.radixOf hexadecimal).isDigit b = true := by
  cases hexadecimal with
  | false => exact h
  | true =>
    obtain ⟨v, hv, hlt⟩ := (isDigit_iff decimal b).mp h
    replace hlt : v < 10 := hlt
    have hlt' : v < 16 := by omega
    exact (isDigit_iff hexadecimal b).mpr ⟨v, hv, hlt'⟩

theorem isSpaced_iff (radix : Radix) (b : UInt8) :
    radix.isSpaced b = true ↔ radix.isDigit b = true ∨ b = Bytes.underscore := by
  rw [isSpaced, Bool.or_eq_true, beq_iff_eq]

end Radix

/-! ### underscores -/

/-- every underscore stands between two digits; `marked` if what stands before the text counts as
a digit -/
def Separated (isDigit : UInt8 → Bool) (marked : Bool) (s : Bytes) : Prop :=
  ∀ a b, s = a ++ Bytes.underscore :: b →
    (a = [] ∧ marked = true ∨ ∃ d, a.getLast? = some d ∧ isDigit d = true) ∧
      ∃ d, b.head? = some d ∧ isDigit d = true

section
variable {isDigit : UInt8 → Bool}

theorem separated_nil (marked : Bool) : Separated isDigit marked [] := by
  intro a b h
  cases a with
  | nil => cases h
  | cons c a => cases h

theorem separated_cons (marked : Bool) (c : UInt8) (rest : Bytes) :
    Separated isDigit marked (c :: rest) ↔
      (c = Bytes.underscore → marked = true ∧ ∃ d, rest.head? = some d ∧ isDigit d = true) ∧
        Separated isDigit (isDigit c) rest := by
  constructor
  · intro h
    refine ⟨?_, ?_⟩
    · rintro rfl
      obtain ⟨hbefore, hbehind⟩ := h [] rest rfl
      refine ⟨hbefore.elim And.right ?_, hbehind⟩
      rintro ⟨d, hd, -⟩
      cases hd
    · rintro a b rfl
      obtain ⟨hbefore, hbehind⟩ := h (c :: a) b rfl
      refine ⟨?_, hbehind⟩
      obtain ⟨d, hd, hdigit⟩ := hbefore.resolve_left fun e => by cases e.1
      cases a with
      | nil =>
        cases Option.some.inj hd
        exact .inl ⟨rfl, hdigit⟩
      | cons e a => exact .inr ⟨d, hd, hdigit⟩
  · rintro ⟨hfirst, hrest⟩ a b e
    cases a with
    | nil =>
      obtain ⟨rfl, rfl⟩ := List.cons.inj e
      obtain ⟨hmarked, hbehind⟩ := hfirst rfl
      exact ⟨.inl ⟨rfl, hmarked⟩, hbehind⟩
    | cons c' a =>
      obtain ⟨rfl, rfl⟩ := List.cons.inj e
      obtain ⟨hbefore, hbehind⟩ := hrest a b rfl
      refine ⟨.inr ?_, hbehind⟩
      rcases hbefore with ⟨rfl, hc⟩ | ⟨d, hd, hdigit⟩
      · exact ⟨c, rfl, hc⟩
      · refine ⟨d, ?_, hdigit⟩
        cases a with
        | nil => cases hd
        | cons e a => exact hd

/-- the check along a text is the rule on underscores, and the rest of the rule on the one that
stands before the text -/
theorem separated_iff (hunder : isDigit Bytes.underscore = false) (last : Neighbour) (s : Bytes) :
    separated isDigit last s = true ↔
      Separated isDigit (decide (last = .digit)) s ∧
        (last = .underscore → ∃ d, s.head? = some d ∧ isDigit d = true) := by
  induction s generalizing last with
  | nil => cases last <;> simp [separated, separated_nil]
  | cons c rest ih =>
    rw [separated, separated_cons]
    by_cases hc : isDigit c = true
    · have hne : c ≠ Bytes.underscore := by
        rintro rfl
        rw [hunder] at hc
        cases hc
      rw [if_pos hc, ih, hc]
      simp [hne, hc]
    · rw [if_neg hc, eq_false_of_ne_true hc]
      by_cases hu : c = Bytes.underscore
      · subst hu
        rw [if_pos (beq_self_eq_true _), Bool.and_eq_true, ih]
        cases last <;> simp [hunder, and_comm]
      · rw [if_neg (by simpa using hu), Bool.and_eq_true, ih]
        cases last <;> simp [hu, hc]

end

/-! ### spellings -/

def signText : Option Bool → Bytes
  | none => []
  | some negative => [if negative then Bytes.minus else Bytes.plus]

structure ExponentText where
  mark : UInt8
  /-- `true` for a minus -/
  sign : Option Bool
  /-- digits and underscores -/
  digits : Bytes

def ExponentText.text (e : ExponentText) : Bytes := e.mark :: (signText e.sign ++ e.digits)

/-- a magnitude with the sign of the exponent -/
def ExponentText.signed (e : ExponentText) (n : Nat) : Int := if e.sign = some true then -n else n

/-- the parts of a written numeral -/
structure Spelling where
  /-- `true` for a minus -/
  sign : Option Bool
  /-- the letter behind the zero of a hexadecimal numeral -/
  mark : Option UInt8
  /-- digits and underscores before the point -/
  whole : Bytes
  /-- digits and underscores behind the point, if there is one -/
  fraction : Option Bytes
  exponent : Option ExponentText

namespace Spelling

def negative (p : Spelling) : Bool := p.sign == some true

def hexadecimal (p : Spelling) : Bool := p.mark.isSome

def radix (p : Spelling) : Radix := Numeral.radixOf p.hexadecimal

def markText : Option UInt8 → Bytes
  | none => []
  | some x => [Bytes.zero, x]

def fractionText : Option Bytes → Bytes
  | none => []
  | some digits => Bytes.point :: digits

def exponentText : Option ExponentText → Bytes
  | none => []
  | some e => e.text

/-- what stands behind the sign and the radix mark -/
def body (p : Spelling) : Bytes := p.whole ++ (fractionText p.fraction ++ exponentText p.exponent)

def text (p : Spelling) : Bytes := signText p.sign ++ (markText p.mark ++ p.body)

/-- the digits before and behind the point, with their underscores -/
def spaced (p : Spelling) : Bytes := p.whole ++ p.fraction.getD []

/-- the rules of spelling -/
structure WellFormed (p : Spelling) : Prop where
  mark : ∀ x ∈ p.mark, Bytes.lower x = 120
  spaced : ∀ b ∈ p.spaced, p.radix.isDigit b = true ∨ b = Bytes.underscore
  digit : ∃ b ∈ p.spaced, p.radix.isDigit b = true
  exponentMark : ∀ e ∈ p.exponent, Bytes.lower e.mark = if p.hexadecimal then 112 else 101
  exponentSpaced : ∀ e ∈ p.exponent, ∀ b ∈ e.digits,
    Radix.decimal.isDigit b = true ∨ b = Bytes.underscore
  exponentDigit : ∀ e ∈ p.exponent, ∃ b ∈ e.digits, Radix.decimal.isDigit b = true
  /-- only a decimal numeral may leave out the exponent -/
  power : p.hexadecimal = true → p.exponent.isSome = true
  separated : Separated p.radix.isDigit p.hexadecimal p.body

/-! ### cutting a text into parts -/

def signOf : Bytes → Option Bool
  | [] => none
  | b :: _ => if b = Bytes.minus then some true else if b = Bytes.plus then some false else none

def markOf : Bytes → Option UInt8
  | z :: x :: _ :: _ => if z = Bytes.zero ∧ Bytes.lower x = 120 then some x else none
  | _ => none

def fractionOf (radix : Radix) : Bytes → Option Bytes
  | [] => none
  | b :: rest => if b = Bytes.point then some (rest.takeWhile radix.isSpaced) else none

def exponentOf : Bytes → Option ExponentText
  | [] => none
  | mark :: rest => some ⟨mark, signOf rest, (splitSign rest).2⟩

/-- the parts of the text behind the sign, in the radix that its mark gives -/
def cutUnsigned (sign : Option Bool) (s : Bytes) : Spelling :=
  let digits := (Numeral.splitRadix s).2
  let radix := Numeral.radixOf (Numeral.splitRadix s).1
  let rest := digits.dropWhile radix.isSpaced
  { sign
    mark := markOf s
    whole := digits.takeWhile radix.isSpaced
    fraction := fractionOf radix rest
    exponent := exponentOf (Numeral.splitFraction radix rest).2 }

def cut (s : Bytes) : Spelling := cutUnsigned (signOf s) (splitSign s).2

theorem signText_signOf (s : Bytes) : signText (signOf s) ++ (splitSign s).2 = s := by
  cases s with
  | nil => rfl
  | cons b rest =>
    rw [signOf, splitSign]
    split
    · next h => rw [h]; rfl
    · split
      · next h => rw [h]; rfl
      · rfl

theorem splitSign_fst (s : Bytes) : (splitSign s).1 = (signOf s == some true) := by
  cases s with
  | nil => rfl
  | cons b rest =>
    rw [signOf, splitSign]
    split
    · rfl
    · split <;> rfl

theorem markText_markOf (s : Bytes) : markText (markOf s) ++ (Numeral.splitRadix s).2 = s := by
  match s with
  | [] | [_] | [_, _] => rfl
  | z :: x :: b :: rest =>
    rw [markOf, Numeral.splitRadix]
    split
    · next h => rw [h.1]; rfl
    · rfl

theorem splitRadix_fst (s : Bytes) : (Numeral.splitRadix s).1 = (markOf s).isSome := by
  match s with
  | [] | [_] | [_, _] => rfl
  | z :: x :: b :: rest =>
    rw [markOf, Numeral.splitRadix]
    split <;> rfl

theorem fractionText_fractionOf (radix : Radix) (s : Bytes) :
    fractionText (fractionOf radix s) ++ (Numeral.splitFraction radix s).2 = s := by
  cases s with
  | nil => rfl
  | cons b rest =>
    rw [fractionOf, Numeral.splitFraction]
    split
    · next h =>
      rw [h]
      exact congrArg (_ :: ·) List.takeWhile_append_dropWhile
    · rfl

theorem splitFraction_fst (radix : Radix) (s : Bytes) :
    (Numeral.splitFraction radix s).1 = (fractionOf radix s).getD [] := by
  cases s with
  | nil => rfl
  | cons b rest =>
    rw [fractionOf, Numeral.splitFraction]
    split <;> rfl

theorem exponentText_exponentOf (s : Bytes) : exponentText (exponentOf s) = s := by
  cases s with
  | nil => rfl
  | cons mark rest => exact congrArg (mark :: ·) (signText_signOf rest)

theorem body_cutUnsigned (sign : Option Bool) (s : Bytes) :
    (cutUnsigned sign s).body = (Numeral.splitRadix s).2 := by
  unfold cutUnsigned body
  dsimp only
  rw [exponentText_exponentOf, fractionText_fractionOf, List.takeWhile_append_dropWhile]

theorem text_cut (s : Bytes) : (cut s).text = s := by
  have hunsigned : markText (cut s).mark ++ (cut s).body = (splitSign s).2 := by
    rw [cut, body_cutUnsigned]
    exact markText_markOf _
  rw [text, hunsigned]
  exact signText_signOf s

/-! ### the one way to cut -/

section
variable {p : Spelling}

theorem splitSign_signText {sign : Option Bool} {s : Bytes}
    (h : ∀ b, s.head? = some b → b ≠ Bytes.minus ∧ b ≠ Bytes.plus) :
    signOf (signText sign ++ s) = sign ∧ (splitSign (signText sign ++ s)).2 = s := by
  match sign with
  | some true => exact ⟨rfl, rfl⟩
  | some false => exact ⟨rfl, rfl⟩
  | none =>
    cases s with
    | nil => exact ⟨rfl, rfl⟩
    | cons b rest =>
      obtain ⟨hminus, hplus⟩ := h b rfl
      show signOf (b :: rest) = none ∧ (splitSign (b :: rest)).2 = b :: rest
      rw [signOf, splitSign, if_neg hminus, if_neg hplus, if_neg hminus, if_neg hplus]
      exact ⟨rfl, rfl⟩

theorem span_spaced {radix : Radix} {a b : Bytes} (ha : ∀ x ∈ a, radix.isSpaced x = true)
    (hb : ∀ x, b.head? = some x → radix.isSpaced x = false) :
    (a ++ b).takeWhile radix.isSpaced = a ∧ (a ++ b).dropWhile radix.isSpaced = b := by
  rw [List.takeWhile_append_of_pos ha, List.dropWhile_append_of_pos ha]
  cases b with
  | nil => exact ⟨List.append_nil a, rfl⟩
  | cons c rest => simp [hb c rfl]

theorem not_sign_of_isSpaced {radix : Radix} {b : UInt8} (h : radix.isSpaced b = true) :
    b ≠ Bytes.minus ∧ b ≠ Bytes.plus := by
  rcases (Radix.isSpaced_iff radix b).mp h with hdigit | rfl
  · have hb := Radix.toNat_of_isDigit hdigit
    constructor <;> rintro rfl <;> revert hb <;> decide
  · decide

theorem toNat_exponentMark {hexadecimal : Bool} {mark : UInt8}
    (h : Bytes.lower mark = if hexadecimal then 112 else 101) :
    if hexadecimal then mark.toNat = 112 ∨ mark.toNat = 80
    else mark.toNat = 101 ∨ mark.toNat = 69 := by
  have hmark := congrArg UInt8.toNat h
  rw [toNat_lower] at hmark
  cases hexadecimal with
  | true =>
    replace hmark : _ = 112 := hmark
    rw [if_pos rfl]
    split at hmark <;> omega
  | false =>
    replace hmark : _ = 101 := hmark
    rw [if_neg Bool.false_ne_true]
    split at hmark <;> omega

/-- the exponent begins where the digits end -/
theorem exponentMark_not_spaced {hexadecimal : Bool} {mark : UInt8}
    (h : Bytes.lower mark = if hexadecimal then 112 else 101) :
    (Numeral.radixOf hexadecimal).isSpaced mark = false := by
  have hmark := toNat_exponentMark h
  refine eq_false_of_ne_true fun hspaced => ?_
  rcases (Radix.isSpaced_iff _ _).mp hspaced with hdigit | hunder
  · cases hexadecimal with
    | true =>
      have := Radix.toNat_of_isDigit hdigit
      rw [if_pos rfl] at hmark
      omega
    | false =>
      have := (Radix.isDigit_decimal_iff _).mp hdigit
      rw [if_neg Bool.false_ne_true] at hmark
      omega
  · rw [hunder] at hmark
    revert hmark
    cases hexadecimal <;> decide

theorem exponentMark_not_sign {hexadecimal : Bool} {mark : UInt8}
    (h : Bytes.lower mark = if hexadecimal then 112 else 101) :
    mark ≠ Bytes.minus ∧ mark ≠ Bytes.plus ∧ mark ≠ Bytes.point := by
  have hmark := toNat_exponentMark h
  refine ⟨?_, ?_, ?_⟩ <;>
  · rintro rfl
    revert hmark
    cases hexadecimal <;> decide

theorem head_exponentText {exponent : Option ExponentText} {b : UInt8}
    (hb : (exponentText exponent).head? = some b) : ∃ e ∈ exponent, e.mark = b := by
  cases exponent with
  | none => cases hb
  | some e => exact ⟨e, rfl, Option.some.inj hb⟩

theorem head_behind_whole {b : UInt8}
    (hb : (fractionText p.fraction ++ exponentText p.exponent).head? = some b) :
    b = Bytes.point ∨ ∃ e ∈ p.exponent, e.mark = b := by
  cases hf : p.fraction with
  | none =>
    rw [hf] at hb
    exact .inr (head_exponentText hb)
  | some f =>
    rw [hf] at hb
    exact .inl (Option.some.inj hb).symm

namespace WellFormed

theorem whole_spaced (hp : p.WellFormed) : ∀ b ∈ p.whole, p.radix.isSpaced b = true := fun b hb =>
  (Radix.isSpaced_iff _ b).mpr (hp.spaced b (List.mem_append_left _ hb))

theorem fraction_spaced (hp : p.WellFormed) :
    ∀ f ∈ p.fraction, ∀ b ∈ f, p.radix.isSpaced b = true := by
  intro f hf b hb
  refine (Radix.isSpaced_iff _ b).mpr (hp.spaced b (List.mem_append_right _ ?_))
  rw [Option.mem_def.mp hf]
  exact hb

theorem behind_whole_not_spaced (hp : p.WellFormed) {b : UInt8}
    (hb : (fractionText p.fraction ++ exponentText p.exponent).head? = some b) :
    p.radix.isSpaced b = false := by
  rcases head_behind_whole hb with rfl | ⟨e, he, rfl⟩
  · unfold radix Numeral.radixOf
    cases p.hexadecimal <;> decide
  · exact exponentMark_not_spaced (hp.exponentMark e he)

theorem exponentOf_exponentText (hp : p.WellFormed) :
    exponentOf (exponentText p.exponent) = p.exponent := by
  cases he : p.exponent with
  | none => rfl
  | some e =>
    obtain ⟨hsign, hdigits⟩ : signOf (signText e.sign ++ e.digits) = e.sign ∧
        (splitSign (signText e.sign ++ e.digits)).2 = e.digits := by
      refine splitSign_signText fun b hb => ?_
      have hmem := List.mem_of_mem_head? hb
      exact not_sign_of_isSpaced ((Radix.isSpaced_iff _ b).mpr (hp.exponentSpaced e he b hmem))
    show some (ExponentText.mk e.mark _ _) = _
    rw [hsign, hdigits]

theorem splitFraction_text (hp : p.WellFormed) :
    fractionOf p.radix (fractionText p.fraction ++ exponentText p.exponent) = p.fraction ∧
      (Numeral.splitFraction p.radix (fractionText p.fraction ++ exponentText p.exponent)).2 =
        exponentText p.exponent := by
  cases hf : p.fraction with
  | some f =>
    have hstop : ∀ b, (exponentText p.exponent).head? = some b → p.radix.isSpaced b = false := by
      intro b hb
      obtain ⟨e, he, rfl⟩ := head_exponentText hb
      exact exponentMark_not_spaced (hp.exponentMark e he)
    obtain ⟨htake, hdrop⟩ := span_spaced (hp.fraction_spaced f hf) hstop
    exact ⟨congrArg some htake, hdrop⟩
  | none =>
    cases he : exponentText p.exponent with
    | nil => exact ⟨rfl, rfl⟩
    | cons b rest =>
      have hb : b ≠ Bytes.point := by
        obtain ⟨e, hmem, rfl⟩ := head_exponentText (congrArg List.head? he)
        exact (exponentMark_not_sign (hp.exponentMark e hmem)).2.2
      show fractionOf p.radix (b :: rest) = none ∧ _ = b :: rest
      rw [fractionOf, if_neg hb]
      refine ⟨rfl, ?_⟩
      show (Numeral.splitFraction p.radix (b :: rest)).2 = b :: rest
      rw [Numeral.splitFraction, if_neg hb]

/-- the bytes of a spelling -/
theorem mem_body (hp : p.WellFormed) {b : UInt8} (hb : b ∈ p.body) :
    p.radix.isSpaced b = true ∨ b ∈ [Bytes.minus, Bytes.plus, Bytes.point] ∨
      ∃ e ∈ p.exponent, e.mark = b := by
  rcases List.mem_append.mp hb with hwhole | hb
  · exact .inl (hp.whole_spaced b hwhole)
  rcases List.mem_append.mp hb with hfraction | hexponent
  · cases hf : p.fraction with
    | none => rw [hf] at hfraction; cases hfraction
    | some f =>
      rw [hf] at hfraction
      rcases List.mem_cons.mp hfraction with rfl | hmem
      · exact .inr (.inl (by decide))
      · exact .inl (hp.fraction_spaced f hf b hmem)
  · cases he : p.exponent with
    | none => rw [he] at hexponent; cases hexponent
    | some e =>
      rw [he] at hexponent
      rcases List.mem_cons.mp hexponent with rfl | hmem
      · exact .inr (.inr ⟨e, rfl, rfl⟩)
      rcases List.mem_append.mp hmem with hsign | hdigits
      · refine .inr (.inl ?_)
        match hs : e.sign with
        | none => rw [hs] at hsign; cases hsign
        | some true => rw [hs] at hsign; rw [List.mem_singleton.mp hsign]; decide
        | some false => rw [hs] at hsign; rw [List.mem_singleton.mp hsign]; decide
      · left
        refine (Radix.isSpaced_iff _ b).mpr ((hp.exponentSpaced e he b hdigits).imp_left ?_)
        exact Radix.isDigit_of_decimal p.hexadecimal

/-- no letter behind `e` stands in a decimal numeral -/
theorem toNat_lower_le (hp : p.WellFormed) (hmark : p.mark = none) {b : UInt8}
    (hb : b ∈ p.body) : (Bytes.lower b).toNat ≤ 101 := by
  have hhex : p.hexadecimal = false := by rw [hexadecimal, hmark]; rfl
  have hradix : p.radix = .decimal := by rw [radix, hhex]; rfl
  rcases hp.mem_body hb with hspaced | hsign | ⟨e, he, rfl⟩
  · rw [hradix, Radix.isSpaced_iff] at hspaced
    rcases hspaced with hdigit | rfl
    · have hrange := (Radix.isDigit_decimal_iff b).mp hdigit
      rw [toNat_lower, if_neg (by omega)]
      omega
    · decide
  · simp only [List.mem_cons, List.not_mem_nil, or_false] at hsign
    rcases hsign with rfl | rfl | rfl <;> decide
  · rw [hp.exponentMark e he, hhex]
    decide

theorem body_ne_nil (hp : p.WellFormed) : p.body ≠ [] := by
  obtain ⟨b, hb, -⟩ := hp.digit
  intro h
  obtain ⟨hwhole, hrest⟩ := List.append_eq_nil_iff.mp h
  obtain ⟨hfraction, -⟩ := List.append_eq_nil_iff.mp hrest
  cases hf : p.fraction with
  | none =>
    rw [Spelling.spaced, hwhole, hf] at hb
    cases hb
  | some f =>
    rw [hf] at hfraction
    cases hfraction

theorem markOf_text (hp : p.WellFormed) : markOf (markText p.mark ++ p.body) = p.mark := by
  cases hmark : p.mark with
  | some x =>
    cases hbody : p.body with
    | nil => exact absurd hbody hp.body_ne_nil
    | cons b rest => exact if_pos ⟨rfl, hp.mark x hmark⟩
  | none =>
    have hlower : ∀ b ∈ p.body, Bytes.lower b ≠ 120 := by
      intro b hb h
      have hle := hp.toNat_lower_le hmark hb
      rw [h] at hle
      revert hle
      decide
    show markOf p.body = none
    match hbody : p.body with
    | [] | [_] | [_, _] => rfl
    | z :: x :: b :: rest =>
      rw [hbody] at hlower
      exact if_neg fun h => hlower x (by simp) h.2

theorem splitRadix_text (hp : p.WellFormed) :
    Numeral.splitRadix (markText p.mark ++ p.body) = (p.hexadecimal, p.body) := by
  have hmark := hp.markOf_text
  have htext := markText_markOf (markText p.mark ++ p.body)
  rw [hmark] at htext
  refine Prod.ext ?_ (List.append_cancel_left htext)
  rw [splitRadix_fst, hmark]
  rfl

theorem head_unsigned (hp : p.WellFormed) {b : UInt8}
    (hb : (markText p.mark ++ p.body).head? = some b) : b ≠ Bytes.minus ∧ b ≠ Bytes.plus := by
  cases hmark : p.mark with
  | some x =>
    rw [hmark] at hb
    cases Option.some.inj hb
    decide
  | none =>
    rw [hmark] at hb
    replace hb : (p.whole ++ (fractionText p.fraction ++ exponentText p.exponent)).head? =
      some b := hb
    cases hwhole : p.whole with
    | nil =>
      rw [hwhole] at hb
      rcases head_behind_whole hb with rfl | ⟨e, he, rfl⟩
      · decide
      · have hnot := exponentMark_not_sign (hp.exponentMark e he)
        exact ⟨hnot.1, hnot.2.1⟩
    | cons c rest =>
      rw [hwhole] at hb
      cases Option.some.inj hb
      exact not_sign_of_isSpaced (hp.whole_spaced b (hwhole ▸ List.mem_cons_self))

end WellFormed

/-- **A well-formed spelling is cut back into its parts.** -/
theorem cut_text (hp : p.WellFormed) : cut p.text = p := by
  obtain ⟨hsign, hunsigned⟩ := @splitSign_signText p.sign _ fun _ => hp.head_unsigned
  have hradix : Numeral.radixOf p.hexadecimal = p.radix := rfl
  obtain ⟨hwhole, hrest⟩ := span_spaced hp.whole_spaced fun _ => hp.behind_whole_not_spaced
  obtain ⟨hfraction, hbehind⟩ := hp.splitFraction_text
  unfold cut cutUnsigned text
  rw [hsign, hunsigned, hp.splitRadix_text, hp.markOf_text]
  dsimp only
  rw [hradix, body, hwhole, hrest, hfraction, hbehind, hp.exponentOf_exponentText]

end

/-! ### reading -/

/-- the numeral that is spelled -/
def numeral (p : Spelling) : Numeral where
  negative := p.negative
  hexadecimal := p.hexadecimal
  digits := p.spaced.filterMap p.radix.digit?
  places := ((p.fraction.getD []).filterMap p.radix.digit?).length
  exponent := p.exponent.elim 0 fun e => e.signed (Numeral.exponentValue e.digits)

theorem digits_isEmpty (p : Spelling) : p.numeral.digits.isEmpty = false ↔
    ∃ b ∈ p.spaced, p.radix.isDigit b = true := by
  rw [List.isEmpty_eq_false_iff_exists_mem]
  constructor
  · rintro ⟨v, hv⟩
    obtain ⟨b, hb, hd⟩ := List.mem_filterMap.mp hv
    exact ⟨b, hb, Option.isSome_of_eq_some hd⟩
  · rintro ⟨b, hb, hd⟩
    obtain ⟨v, hv⟩ := Option.isSome_iff_exists.mp hd
    exact ⟨v, List.mem_filterMap.mpr ⟨b, hb, hv⟩⟩

/-- reading cuts the text and checks the parts -/
theorem read?_eq_check (s : Bytes) : Numeral.read? s =
    if (cut s).numeral.digits.isEmpty || !separated (cut s).radix.isDigit
        (if (cut s).hexadecimal then .digit else .other) (cut s).body then none
    else (Numeral.exponent? (cut s).hexadecimal (exponentText (cut s).exponent)).map fun exponent =>
      { (cut s).numeral with exponent } := by
  have hhex : (cut s).hexadecimal = (Numeral.splitRadix (splitSign s).2).1 :=
    (splitRadix_fst _).symm
  have hbody : (cut s).body = (Numeral.splitRadix (splitSign s).2).2 := body_cutUnsigned _ _
  have hnegative : (cut s).negative = (splitSign s).1 := (splitSign_fst s).symm
  have hradix : (cut s).radix = Numeral.radixOf (Numeral.splitRadix (splitSign s).2).1 :=
    congrArg Numeral.radixOf hhex
  have hfraction : (cut s).fraction.getD [] = _ := (splitFraction_fst _ _).symm
  have hexponent : exponentText (cut s).exponent = _ := exponentText_exponentOf _
  simp only [numeral, spaced, hnegative, hradix, hhex, hbody, hfraction, hexponent]
  rfl

theorem isSpaced_of_mem_fractionOf {radix : Radix} {s f : Bytes}
    (hf : fractionOf radix s = some f) : ∀ b ∈ f, radix.isSpaced b = true := by
  cases s with
  | nil => cases hf
  | cons c rest =>
    rw [fractionOf] at hf
    split at hf
    · cases Option.some.inj hf
      exact List.all_eq_true.mp List.all_takeWhile
    · cases hf

theorem cut_spaced (s : Bytes) : ∀ b ∈ (cut s).spaced,
    (cut s).radix.isDigit b = true ∨ b = Bytes.underscore := by
  have hradix : (cut s).radix = Numeral.radixOf (Numeral.splitRadix (splitSign s).2).1 :=
    congrArg Numeral.radixOf (splitRadix_fst _).symm
  intro b hb
  rw [← Radix.isSpaced_iff, hradix]
  rcases List.mem_append.mp hb with hwhole | hfraction
  · exact List.all_eq_true.mp List.all_takeWhile b hwhole
  · cases hf : (cut s).fraction with
    | none => rw [hf] at hfraction; cases hfraction
    | some f =>
      rw [hf] at hfraction
      exact isSpaced_of_mem_fractionOf hf b hfraction

theorem cut_mark (s : Bytes) : ∀ x ∈ (cut s).mark, Bytes.lower x = 120 := by
  intro x hx
  replace hx : markOf (splitSign s).2 = some x := hx
  match hs : (splitSign s).2 with
  | [] | [_] | [_, _] => rw [hs] at hx; cases hx
  | z :: y :: b :: rest =>
    rw [hs, markOf] at hx
    split at hx
    · next h => exact Option.some.inj hx ▸ h.2
    · cases hx

theorem splitSign_of_exponentOf {s : Bytes} {e : ExponentText} (he : exponentOf s = some e) :
    splitSign (signText e.sign ++ e.digits) = (e.sign == some true, e.digits) := by
  cases s with
  | nil => cases he
  | cons mark rest =>
    cases Option.some.inj he
    show splitSign (signText (signOf rest) ++ (splitSign rest).2) = _
    rw [signText_signOf]
    exact Prod.ext (splitSign_fst rest) rfl

theorem signedExponent?_eq_some_iff {e : ExponentText} (x : Int)
    (hsplit : splitSign (signText e.sign ++ e.digits) = (e.sign == some true, e.digits)) :
    Numeral.signedExponent? (signText e.sign ++ e.digits) = some x ↔
      (∃ d, e.digits.head? = some d ∧ Radix.decimal.isDigit d = true) ∧
        (∀ b ∈ e.digits, Radix.decimal.isDigit b = true ∨ b = Bytes.underscore) ∧
          e.signed (Numeral.exponentValue e.digits) = x := by
  unfold Numeral.signedExponent?
  rw [hsplit]
  simp only [Option.ite_none_right_eq_some, Bool.and_eq_true, List.all_eq_true, Option.any_eq_true,
    Radix.isSpaced_iff, Option.some.injEq, beq_iff_eq, and_assoc]
  rfl

/-- an underscore does not stand behind the mark or the sign of an exponent -/
theorem head_exponent_digits {p : Spelling}
    (hseparated : Separated p.radix.isDigit p.hexadecimal p.body) {e : ExponentText}
    (he : p.exponent = some e) (hmark : Bytes.lower e.mark = if p.hexadecimal then 112 else 101)
    {b : UInt8} (hb : e.digits.head? = some b) : b ≠ Bytes.underscore := by
  rintro rfl
  obtain ⟨rest, hrest⟩ : ∃ rest, e.digits = Bytes.underscore :: rest := by
    cases hd : e.digits with
    | nil => rw [hd] at hb; cases hb
    | cons c rest =>
      rw [hd] at hb
      exact ⟨rest, congrArg (· :: rest) (Option.some.inj hb)⟩
  have hbody : p.body =
      (p.whole ++ fractionText p.fraction ++ e.mark :: signText e.sign) ++
        Bytes.underscore :: rest := by
    rw [body, he, exponentText, ExponentText.text, hrest]
    simp
  obtain ⟨⟨hnil, -⟩ | ⟨d, hd, hdigit⟩, -⟩ := hseparated _ _ hbody
  · simp at hnil
  · have hlast : d = e.mark ∨ d = Bytes.minus ∨ d = Bytes.plus := by
      rw [List.getLast?_append] at hd
      match hsign : e.sign with
      | none =>
        rw [hsign] at hd
        exact .inl (Option.some.inj hd).symm
      | some true =>
        rw [hsign] at hd
        exact .inr (.inl (Option.some.inj hd).symm)
      | some false =>
        rw [hsign] at hd
        exact .inr (.inr (Option.some.inj hd).symm)
    have hspaced : p.radix.isSpaced d = true := (Radix.isSpaced_iff _ d).mpr (.inl hdigit)
    have hnot := not_sign_of_isSpaced hspaced
    rcases hlast with rfl | rfl | rfl
    · have hmark' : p.radix.isSpaced e.mark = false := exponentMark_not_spaced hmark
      rw [hspaced] at hmark'
      cases hmark'
    · exact hnot.1 rfl
    · exact hnot.2 rfl

theorem separated_body_iff (p : Spelling) :
    separated p.radix.isDigit (if p.hexadecimal then .digit else .other) p.body = true ↔
      Separated p.radix.isDigit p.hexadecimal p.body := by
  have hunder : p.radix.isDigit Bytes.underscore = false := by
    unfold radix Numeral.radixOf
    cases p.hexadecimal <;> decide
  rw [separated_iff hunder]
  cases p.hexadecimal <;> simp

theorem exponent?_eq_some_iff {p : Spelling}
    (hsplit : ∀ e ∈ p.exponent,
      splitSign (signText e.sign ++ e.digits) = (e.sign == some true, e.digits))
    (hseparated : Separated p.radix.isDigit p.hexadecimal p.body) (x : Int) :
    Numeral.exponent? p.hexadecimal (exponentText p.exponent) = some x ↔
      (p.hexadecimal = true → p.exponent.isSome = true) ∧
        (∀ e ∈ p.exponent, Bytes.lower e.mark = (if p.hexadecimal then 112 else 101) ∧
          (∀ b ∈ e.digits, Radix.decimal.isDigit b = true ∨ b = Bytes.underscore) ∧
            ∃ b ∈ e.digits, Radix.decimal.isDigit b = true) ∧
        p.numeral.exponent = x := by
  have hhead := fun e => @head_exponent_digits p hseparated e
  unfold numeral
  dsimp only
  cases he : p.exponent with
  | none =>
    rw [exponentText, Numeral.exponent?]
    cases p.hexadecimal <;> simp
  | some e =>
    rw [exponentText, ExponentText.text, Numeral.exponent?, Option.ite_none_right_eq_some,
      signedExponent?_eq_some_iff x (hsplit e he)]
    simp only [Option.isSome_some, implies_true, true_and, Option.mem_some_iff, forall_eq',
      Option.elim_some, and_assoc]
    refine and_congr_right fun hmark => ?_
    constructor
    · rintro ⟨⟨d, hd, hdigit⟩, hspaced, hx⟩
      exact ⟨hspaced, ⟨d, List.mem_of_mem_head? hd, hdigit⟩, hx⟩
    · rintro ⟨hspaced, ⟨d, hd, -⟩, hx⟩
      refine ⟨?_, hspaced, hx⟩
      cases hdigits : e.digits with
      | nil => rw [hdigits] at hd; cases hd
      | cons b rest =>
        have hb : e.digits.head? = some b := congrArg List.head? hdigits
        refine ⟨b, rfl, (hspaced b (List.mem_of_mem_head? hb)).resolve_right ?_⟩
        exact hhead e he hmark hb

end Spelling

open Spelling

/-- **The numerals that are read are those well spelled.** -/
theorem Numeral.read?_eq_some_iff (s : Bytes) (n : Numeral) :
    read? s = some n ↔ (cut s).WellFormed ∧ (cut s).numeral = n := by
  have hsplit : ∀ e ∈ (cut s).exponent,
      splitSign (signText e.sign ++ e.digits) = (e.sign == some true, e.digits) :=
    fun e he => splitSign_of_exponentOf he
  rw [read?_eq_check, Option.ite_none_left_eq_some, Bool.or_eq_true, not_or, Bool.not_eq_true,
    digits_isEmpty, Bool.not_eq_true', Bool.not_eq_false, separated_body_iff,
    Option.map_eq_some_iff]
  constructor
  · rintro ⟨⟨hdigit, hseparated⟩, x, hx, rfl⟩
    obtain ⟨hpower, hexponent, rfl⟩ := (exponent?_eq_some_iff hsplit hseparated x).mp hx
    exact ⟨⟨cut_mark s, cut_spaced s, hdigit, fun e he => (hexponent e he).1,
      fun e he => (hexponent e he).2.1, fun e he => (hexponent e he).2.2, hpower, hseparated⟩, rfl⟩
  · rintro ⟨hp, rfl⟩
    refine ⟨⟨hp.digit, hp.separated⟩, (cut s).numeral.exponent, ?_, rfl⟩
    refine (exponent?_eq_some_iff hsplit hp.separated _).mpr ⟨hp.power, fun e he => ?_, rfl⟩
    exact ⟨hp.exponentMark e he, hp.exponentSpaced e he, hp.exponentDigit e he⟩

theorem Spelling.wellFormed_cut_iff (s : Bytes) :
    (cut s).WellFormed ↔ (Numeral.read? s).isSome = true := by
  rw [Option.isSome_iff_exists]
  exact ⟨fun h => ⟨_, (Numeral.read?_eq_some_iff s _).mpr ⟨h, rfl⟩⟩,
    fun ⟨n, hn⟩ => ((Numeral.read?_eq_some_iff s n).mp hn).1⟩

instance (s : Bytes) : Decidable (cut s).WellFormed :=
  decidable_of_iff _ (Spelling.wellFormed_cut_iff s).symm

theorem Spelling.read?_text {p : Spelling} (hp : p.WellFormed) :
    Numeral.read? p.text = some p.numeral := by
  rw [Numeral.read?_eq_some_iff, cut_text hp]
  exact ⟨hp, rfl⟩

end Footprint
