import Mathlib.Data.List.DropRight
import Footprint.Proofs.Glyph
import Footprint.Proofs.LineEnds
import Footprint.Size

/-!
# Sizes and line ends

A size may stand in a field that holds line ends. They are blanks, so around the numeral it does
not matter how they are written, and inside it they are always wrong: unifying the line ends of a
text changes neither the size it denotes nor that it denotes none (`Size.read?_unifyEnds`).
-/

namespace Footprint

open Row (unifyEnds)

/-! ### the glyphs of a text with its line ends unified -/

/-- every carriage return that stands before a newline dropped -/
def unifyGlyphs : List Glyph → List Glyph := dropBefore (.char '\r') (.char '\n')

theorem encode_return : String.utf8EncodeChar '\r' = [Bytes.carriageReturn] := by decide

theorem encode_newline : String.utf8EncodeChar '\n' = [Bytes.newline] := by decide

theorem head?_glyphs_eq_newline (s : Bytes) :
    (glyphs s).head? = some (.char '\n') ↔ s.head? = some Bytes.newline := by
  constructor
  · intro h
    have hs := flatten_glyphs s
    cases hg : glyphs s with
    | nil => rw [hg] at h; cases h
    | cons g gs =>
      rw [hg] at h hs
      cases Option.some.inj h
      rw [← hs]
      rfl
  · intro h
    cases s with
    | nil => cases h
    | cons b rest =>
      cases Option.some.inj h
      have e := glyphs_encode_append '\n' rest
      rw [encode_newline] at e
      exact congrArg List.head? e

/-- unifying what follows makes no character out of a stray byte -/
theorem leading?_cons_unifyEnds {b : UInt8} {rest : Bytes}
    (h : Glyph.leading? (b :: rest) = none) : Glyph.leading? (b :: unifyEnds rest) = none := by
  cases hc : Glyph.leading? (b :: unifyEnds rest) with
  | none => rfl
  | some c =>
    exfalso
    have hp : String.utf8EncodeChar c <+: b :: rest := by
      have hpre := Glyph.leading?_eq_some hc
      have hlow := @Glyph.encode_of_mem c
      cases he : String.utf8EncodeChar c with
      | nil => exact absurd he String.utf8EncodeChar_ne_nil
      | cons a p =>
        rw [he] at hpre hlow
        obtain ⟨rfl, hp⟩ := List.cons_prefix_cons.mp hpre
        have hnot : Bytes.newline ∉ p := by
          intro hmem
          have e := hlow (List.mem_cons_of_mem _ hmem) (by decide)
          rw [(List.cons.inj e).2] at hmem
          cases hmem
        exact List.cons_prefix_cons.mpr ⟨rfl, prefix_of_prefix_dropBefore hnot hp⟩
    obtain ⟨t, ht⟩ := hp
    rw [← ht, Glyph.leading?_encode_append] at h
    cases h

theorem unifyEnds_encode_append {c : Char} (hc : c ≠ '\r') (rest : Bytes) :
    unifyEnds (String.utf8EncodeChar c ++ rest) = String.utf8EncodeChar c ++ unifyEnds rest := by
  have hmem : Bytes.carriageReturn ∉ String.utf8EncodeChar c := by
    intro hm
    have e := Glyph.encode_of_mem hm (by decide)
    have e' : String.utf8EncodeChar c ++ [] = String.utf8EncodeChar '\r' ++ [] := by
      rw [e, encode_return]
    exact hc (Glyph.encode_append_inj e')
  have hlast : (String.utf8EncodeChar c).getLast? ≠ some Bytes.carriageReturn :=
    fun e => hmem (List.mem_of_getLast? e)
  have hfix : unifyEnds (String.utf8EncodeChar c) = String.utf8EncodeChar c :=
    Row.unifyEnds_of_not_infix fun hi => hmem (hi.subset List.mem_cons_self)
  rw [Row.unifyEnds_append _ _ (.inl hlast), hfix]

theorem unifyGlyphs_cons_of_ne {g : Glyph} (gs : List Glyph) (h : g ≠ .char '\r') :
    unifyGlyphs (g :: gs) = g :: unifyGlyphs gs :=
  dropBefore_cons fun hg => h hg.1

/-- one character more; a carriage return is dropped on both sides or on neither -/
theorem glyphs_unifyEnds_encode_append (c : Char) {rest : Bytes}
    (ih : glyphs (unifyEnds rest) = unifyGlyphs (glyphs rest)) :
    glyphs (unifyEnds (String.utf8EncodeChar c ++ rest)) =
      unifyGlyphs (.char c :: glyphs rest) := by
  by_cases hc : c = '\r'
  · subst hc
    rw [encode_return]
    by_cases hr : rest.head? = some Bytes.newline
    · have hr' := (head?_glyphs_eq_newline rest).mpr hr
      rw [unifyEnds, unifyGlyphs, List.singleton_append, dropBefore_of_before ⟨rfl, hr⟩,
        dropBefore_of_before ⟨rfl, hr'⟩]
      exact ih
    · have hr' := fun e => hr ((head?_glyphs_eq_newline rest).mp e)
      rw [unifyEnds, unifyGlyphs, List.singleton_append, dropBefore_cons (fun e => hr e.2),
        dropBefore_cons (fun e => hr' e.2), ← List.singleton_append, ← encode_return,
        glyphs_encode_append]
      exact congrArg (_ :: ·) ih
  · rw [unifyEnds_encode_append hc, glyphs_encode_append, ih,
      unifyGlyphs_cons_of_ne _ fun e => hc (Glyph.char.inj e)]

theorem glyphs_unifyEnds (s : Bytes) : glyphs (unifyEnds s) = unifyGlyphs (glyphs s) := by
  -- glyphs are cut off the front, so the induction is on the length and not on the list
  induction hn : s.length using Nat.strongRecOn generalizing s with
  | ind n ih =>
    cases h : Glyph.leading? s with
    | some c =>
      obtain ⟨rest, hs, hg⟩ := glyphs_of_leading h
      have hlen : 0 < (String.utf8EncodeChar c).length :=
        List.length_pos_iff.mpr String.utf8EncodeChar_ne_nil
      have ih' := ih rest.length (by rw [← hn, hs, List.length_append]; omega) rest rfl
      rw [hg, hs]
      exact glyphs_unifyEnds_encode_append c ih'
    | none =>
      cases s with
      | nil => rfl
      | cons b rest =>
        have hb : b ≠ Bytes.carriageReturn := by
          rintro rfl
          have e := Glyph.leading?_encode_append '\r' rest
          rw [encode_return, List.singleton_append, h] at e
          cases e
        rw [Row.unifyEnds_cons_of_ne _ hb, glyphs_of_not_leading h,
          glyphs_of_not_leading (leading?_cons_unifyEnds h),
          unifyGlyphs_cons_of_ne _ Glyph.noConfusion]
        exact congrArg (_ :: ·) (ih rest.length (by rw [← hn]; simp) rest rfl)

/-! ### blanks at the ends -/

section
variable {α : Type} {p : α → Bool}

theorem rdropWhile_cons (a : α) (l : List α) :
    (a :: l).rdropWhile p =
      if l.rdropWhile p = [] ∧ p a = true then [] else a :: l.rdropWhile p := by
  unfold List.rdropWhile
  rw [List.reverse_cons, List.dropWhile_append]
  cases h : l.reverse.dropWhile p with
  | nil => cases ha : p a <;> simp [ha]
  | cons b rest => simp

variable [DecidableEq α] {x y : α}

theorem dropWhile_dropBefore (hx : p x = true) (l : List α) :
    (dropBefore x y l).dropWhile p = dropBefore x y (l.dropWhile p) := by
  induction l with
  | nil => rfl
  | cons a rest ih =>
    by_cases h : a = x ∧ rest.head? = some y
    · have ha : p a = true := h.1 ▸ hx
      rw [dropBefore_of_before h, List.dropWhile_cons_of_pos ha, ih]
    · rw [dropBefore_cons h]
      cases ha : p a with
      | true => rw [List.dropWhile_cons_of_pos ha, List.dropWhile_cons_of_pos ha, ih]
      | false =>
        have ha' : ¬ p a = true := by rw [ha]; exact Bool.false_ne_true
        rw [List.dropWhile_cons_of_neg ha', List.dropWhile_cons_of_neg ha', dropBefore_cons h]

theorem rdropWhile_dropBefore (hx : p x = true) (l : List α) :
    (dropBefore x y l).rdropWhile p = dropBefore x y (l.rdropWhile p) := by
  induction l with
  | nil => rfl
  | cons a rest ih =>
    have hhead : (rest.rdropWhile p).head? = some y → rest.head? = some y := by
      intro h
      obtain ⟨t, ht⟩ := rest.rdropWhile_prefix p
      rw [← ht, List.head?_append, h]
      rfl
    by_cases h : a = x ∧ rest.head? = some y
    · have ha : p a = true := h.1 ▸ hx
      rw [dropBefore_of_before h, ih, rdropWhile_cons]
      by_cases hnil : rest.rdropWhile p = []
      · rw [hnil, if_pos ⟨rfl, ha⟩]
      · have hsome : (rest.rdropWhile p).head? = some y := by
          obtain ⟨t, ht⟩ := rest.rdropWhile_prefix p
          have hr := h.2
          rw [← ht] at hr
          cases hd : rest.rdropWhile p with
          | nil => exact absurd hd hnil
          | cons c tail => rw [hd] at hr; exact hr
        rw [if_neg fun e => hnil e.1, dropBefore_of_before ⟨h.1, hsome⟩]
    · have h' : ¬ (a = x ∧ (rest.rdropWhile p).head? = some y) := fun e => h ⟨e.1, hhead e.2⟩
      rw [dropBefore_cons h, rdropWhile_cons, rdropWhile_cons, ih]
      by_cases hb : rest.rdropWhile p = [] ∧ p a = true
      · rw [if_pos hb, if_pos ⟨dropBefore_eq_nil.mpr hb.1, hb.2⟩]
        rfl
      · rw [if_neg hb, if_neg fun e => hb ⟨dropBefore_eq_nil.mp e.1, e.2⟩, dropBefore_cons h']

end

theorem trimGlyphs_unifyGlyphs (gs : List Glyph) :
    trimGlyphs (unifyGlyphs gs) = unifyGlyphs (trimGlyphs gs) := by
  have hr : Glyph.isBlank (.char '\r') = true := rfl
  show ((unifyGlyphs gs).dropWhile Glyph.isBlank).rdropWhile Glyph.isBlank = _
  rw [unifyGlyphs, dropWhile_dropBefore hr, rdropWhile_dropBefore hr]
  rfl

/-! ### numerals hold no newline -/

theorem mem_newline_splitSign {s : Bytes} (h : Bytes.newline ∈ s) :
    Bytes.newline ∈ (splitSign s).2 := by
  cases s with
  | nil => exact h
  | cons b rest =>
    have hrest : b ≠ Bytes.newline → Bytes.newline ∈ rest :=
      fun hb => (List.mem_cons.mp h).resolve_left hb.symm
    rw [splitSign]
    split
    · next hb => exact hrest (by rw [hb]; decide)
    · split
      · next hb => exact hrest (by rw [hb]; decide)
      · exact h

namespace Numeral

theorem mem_newline_splitRadix {s : Bytes} (h : Bytes.newline ∈ s) :
    Bytes.newline ∈ (splitRadix s).2 := by
  unfold splitRadix
  split
  · next z x b rest =>
    split
    · next hzx =>
      have hz : Bytes.newline ≠ z := by rw [hzx.1]; decide
      have hx : Bytes.newline ≠ x := by
        rintro rfl
        exact absurd hzx.2 (by decide)
      exact (List.mem_cons.mp ((List.mem_cons.mp h).resolve_left hz)).resolve_left hx
    · exact h
  · exact h

theorem mem_newline_dropWhile (radix : Radix) {s : Bytes} (h : Bytes.newline ∈ s) :
    Bytes.newline ∈ s.dropWhile radix.isSpaced := by
  have hsplit := List.takeWhile_append_dropWhile (p := radix.isSpaced) (l := s)
  rw [← hsplit, List.mem_append] at h
  refine h.resolve_left fun ht => ?_
  have hs := List.all_takeWhile (p := radix.isSpaced) (l := s)
  have hn := List.all_eq_true.mp hs _ ht
  cases radix <;> exact absurd hn (by decide)

theorem mem_newline_splitFraction (radix : Radix) {s : Bytes} (h : Bytes.newline ∈ s) :
    Bytes.newline ∈ (splitFraction radix s).2 := by
  cases s with
  | nil => exact h
  | cons b rest =>
    rw [splitFraction]
    split
    · next hb =>
      apply mem_newline_dropWhile
      exact (List.mem_cons.mp h).resolve_left (by rw [hb]; decide)
    · exact h

theorem signedExponent?_of_mem_newline {s : Bytes} (h : Bytes.newline ∈ s) :
    signedExponent? s = none := by
  have hall : (splitSign s).2.all Radix.decimal.isSpaced = false :=
    List.all_eq_false.mpr ⟨_, mem_newline_splitSign h, by decide⟩
  unfold signedExponent?
  simp [hall]

theorem exponent?_of_mem_newline (hexadecimal : Bool) {s : Bytes} (h : Bytes.newline ∈ s) :
    exponent? hexadecimal s = none := by
  cases s with
  | nil => cases h
  | cons mark rest =>
    by_cases hm : mark = Bytes.newline
    · rw [hm]
      cases hexadecimal <;> rfl
    · have hrest := signedExponent?_of_mem_newline ((List.mem_cons.mp h).resolve_left (Ne.symm hm))
      rw [exponent?, hrest, ite_self]

theorem read?_of_mem_newline {s : Bytes} (h : Bytes.newline ∈ s) : read? s = none := by
  have hradix := mem_newline_splitRadix (mem_newline_splitSign h)
  have hrest := exponent?_of_mem_newline (splitRadix (splitSign s).2).1
    (mem_newline_splitFraction (radixOf (splitRadix (splitSign s).2).1)
      (mem_newline_dropWhile (radixOf (splitRadix (splitSign s).2).1) hradix))
  simp only [read?, hrest, Option.map_none, ite_self]

end Numeral

namespace Size

theorem ne_word_of_mem_newline {s : Bytes} (h : Bytes.newline ∈ s) (word : Bytes)
    (hw : Bytes.newline ∉ word) : s.map Bytes.lower ≠ word := by
  rintro rfl
  exact hw (List.mem_map.mpr ⟨_, h, by decide⟩)

theorem ofTrimmed?_of_mem_newline {s : Bytes} (h : Bytes.newline ∈ s) : ofTrimmed? s = none := by
  have hsign := mem_newline_splitSign h
  have hspecial : special? s = none := by
    simp only [special?, ne_word_of_mem_newline hsign (Bytes.ofString "inf") (by decide),
      ne_word_of_mem_newline hsign (Bytes.ofString "infinity") (by decide),
      ne_word_of_mem_newline h (Bytes.ofString "nan") (by decide), or_self, if_false]
  rw [ofTrimmed?, hspecial, Numeral.read?_of_mem_newline h]
  rfl

/-- how the line ends in a text are written does not matter to the size it denotes -/
theorem read?_unifyEnds (s : Bytes) : read? (unifyEnds s) = read? s := by
  unfold read? trim
  rw [glyphs_unifyEnds, trimGlyphs_unifyGlyphs]
  generalize trimGlyphs (glyphs s) = gs
  by_cases hn : Glyph.char '\n' ∈ gs
  · have hn' : Glyph.char '\n' ∈ unifyGlyphs gs := (mem_dropBefore (by decide) gs).mpr hn
    have hflat : ∀ gs' : List Glyph, Glyph.char '\n' ∈ gs' → ofTrimmed? (flatten gs') = none := by
      intro gs' hg
      apply ofTrimmed?_of_mem_newline
      refine List.mem_flatMap.mpr ⟨_, hg, ?_⟩
      rw [Glyph.bytes, encode_newline]
      exact List.mem_cons_self
    rw [hflat gs hn, hflat _ hn']
  · have hfix : unifyGlyphs gs = gs :=
      dropBefore_of_not_infix fun hi => hn (hi.subset (by simp))
    rw [hfix]

end Size

end Footprint
