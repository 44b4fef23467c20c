import Mathlib.Data.List.DropRight
import Footprint.Proofs.Glyph
import Footprint.Text.Blank

/-!
# Blanks around a text

Encoded characters behind a text are read apart from it, even if the text breaks off in the middle
of an encoding (`glyphs_append_encode`). So encoded blanks at the two ends of any text are cut off
(`trim_blanks`), only they are (`exists_blanks_trim`), and a text of visible ASCII bytes stays as it
is (`trim_of_visible`).
-/

namespace Footprint

/-- encoded blanks, one after the other -/
def Blanks (s : Bytes) : Prop :=
  ∃ cs : List Char, (∀ c ∈ cs, isBlank c = true) ∧ s = cs.flatMap String.utf8EncodeChar

/-! ### bytes that continue an encoding -/

/-- the bytes behind the first one of an encoding -/
def Continues (b : UInt8) : Prop := 128 ≤ b.toNat ∧ b.toNat < 192

theorem continues_of_encode {c : Char} {b : UInt8} {rest : Bytes}
    (h : String.utf8EncodeChar c = b :: rest) : ¬ Continues b ∧ ∀ x ∈ rest, Continues x := by
  have hc := Glyph.toNat_val_lt c
  unfold String.utf8EncodeChar at h
  simp only at h
  unfold Continues
  split at h
  · obtain ⟨rfl, rfl⟩ := List.cons.inj h
    simp only [UInt8.toNat_ofNat', List.not_mem_nil, false_implies, implies_true, and_true]
    omega
  · split at h
    · obtain ⟨rfl, rfl⟩ := List.cons.inj h
      simp only [UInt8.toNat_ofNat', List.forall_mem_cons, List.not_mem_nil, false_implies,
        implies_true, and_true]
      omega
    · split at h
      · obtain ⟨rfl, rfl⟩ := List.cons.inj h
        simp only [UInt8.toNat_ofNat', List.forall_mem_cons, List.not_mem_nil, false_implies,
          implies_true, and_true]
        omega
      · obtain ⟨rfl, rfl⟩ := List.cons.inj h
        simp only [UInt8.toNat_ofNat', List.forall_mem_cons, List.not_mem_nil, false_implies,
          implies_true, and_true]
        omega

/-- an encoded character behind a stray byte makes no character with it -/
theorem leading?_append_encode {b : UInt8} {rest : Bytes} (h : Glyph.leading? (b :: rest) = none)
    (d : Char) (t : Bytes) :
    Glyph.leading? (b :: rest ++ (String.utf8EncodeChar d ++ t)) = none := by
  cases hc : Glyph.leading? (b :: rest ++ (String.utf8EncodeChar d ++ t)) with
  | none => rfl
  | some c =>
    exfalso
    obtain ⟨u, hu⟩ := Glyph.leading?_eq_some hc
    rcases List.append_eq_append_iff.mp hu with ⟨k, hk, -⟩ | ⟨k, hk, hku⟩
    · -- the encoding ends inside the text
      rw [hk, Glyph.leading?_encode_append] at h
      cases h
    · -- the encoding reaches into that of `d`, whose first byte continues nothing
      cases k with
      | nil =>
        rw [List.append_nil] at hk
        rw [← hk, ← List.append_nil (String.utf8EncodeChar c), Glyph.leading?_encode_append] at h
        cases h
      | cons x k =>
        cases hd : String.utf8EncodeChar d with
        | nil => exact String.utf8EncodeChar_ne_nil hd
        | cons y s =>
          rw [hd] at hku
          obtain ⟨rfl, -⟩ := List.cons.inj hku
          refine (continues_of_encode hd).1 ((continues_of_encode hk).2 _ ?_)
          exact List.mem_append_right _ List.mem_cons_self

theorem glyphs_append_encode (s : Bytes) (d : Char) (t : Bytes) :
    glyphs (s ++ (String.utf8EncodeChar d ++ t)) = glyphs s ++ .char d :: glyphs t := by
  -- as glyphs are cut off the front, the induction is on the length
  induction hn : s.length using Nat.strongRecOn generalizing s with
  | ind n ih =>
    cases h : Glyph.leading? s with
    | some c =>
      obtain ⟨rest, hs, hg⟩ := glyphs_of_leading h
      have hlen : 0 < (String.utf8EncodeChar c).length :=
        List.length_pos_iff.mpr String.utf8EncodeChar_ne_nil
      have hlt : rest.length < n := by rw [← hn, hs, List.length_append]; omega
      rw [hg, hs, List.append_assoc, glyphs_encode_append, ih _ hlt rest rfl]
      rfl
    | none =>
      cases s with
      | nil => exact glyphs_encode_append d t
      | cons b rest =>
        have hlt : rest.length < n := by rw [← hn]; simp
        have happend := leading?_append_encode h d t
        rw [List.cons_append] at happend ⊢
        rw [glyphs_of_not_leading happend, glyphs_of_not_leading h, ih _ hlt rest rfl]
        rfl

theorem glyphs_append_flatMap (s : Bytes) (cs : List Char) :
    glyphs (s ++ cs.flatMap String.utf8EncodeChar) = glyphs s ++ cs.map .char := by
  induction cs generalizing s with
  | nil => simp
  | cons c cs ih =>
    have hnil := ih []
    rw [List.nil_append, glyphs_nil, List.nil_append] at hnil
    rw [List.flatMap_cons, glyphs_append_encode, hnil, List.map_cons]

theorem glyphs_flatMap_append (cs : List Char) (s : Bytes) :
    glyphs (cs.flatMap String.utf8EncodeChar ++ s) = cs.map .char ++ glyphs s := by
  induction cs with
  | nil => rfl
  | cons c cs ih =>
    rw [List.flatMap_cons, List.append_assoc, glyphs_encode_append, ih]
    rfl

/-! ### trimming -/

theorem trimGlyphs_eq (gs : List Glyph) :
    trimGlyphs gs = (gs.dropWhile Glyph.isBlank).rdropWhile Glyph.isBlank := rfl

theorem rdropWhile_append_of_pos {α : Type} {p : α → Bool} {t : List α}
    (h : ∀ x ∈ t, p x = true) (s : List α) : (s ++ t).rdropWhile p = s.rdropWhile p := by
  unfold List.rdropWhile
  rw [List.reverse_append, List.dropWhile_append_of_pos fun x hx => h x (List.mem_reverse.mp hx)]

theorem trimGlyphs_blanks {a b : List Glyph} (ha : ∀ g ∈ a, g.isBlank = true)
    (hb : ∀ g ∈ b, g.isBlank = true) (gs : List Glyph) :
    trimGlyphs (a ++ gs ++ b) = trimGlyphs gs := by
  rw [trimGlyphs_eq, trimGlyphs_eq, List.append_assoc, List.dropWhile_append_of_pos ha,
    List.dropWhile_append]
  split
  · next h =>
    rw [List.isEmpty_iff.mp h, List.dropWhile_eq_nil_iff.mpr hb]
  · exact rdropWhile_append_of_pos hb _

theorem isBlank_map_char {cs : List Char} (h : ∀ c ∈ cs, isBlank c = true) :
    ∀ g ∈ cs.map Glyph.char, g.isBlank = true := by
  intro g hg
  obtain ⟨c, hc, rfl⟩ := List.mem_map.mp hg
  exact h c hc

/-- **Blanks around a text are cut off**, whatever the text. -/
theorem trim_blanks {front back : Bytes} (hfront : Blanks front) (hback : Blanks back) (s : Bytes) :
    trim (front ++ s ++ back) = trim s := by
  obtain ⟨cs, hcs, rfl⟩ := hfront
  obtain ⟨ds, hds, rfl⟩ := hback
  unfold trim
  rw [glyphs_append_flatMap, glyphs_flatMap_append,
    trimGlyphs_blanks (isBlank_map_char hcs) (isBlank_map_char hds)]

/-- glyphs that are blank are encoded characters -/
theorem blanks_flatten {gs : List Glyph} (h : ∀ g ∈ gs, g.isBlank = true) :
    Blanks (flatten gs) := by
  induction gs with
  | nil => exact ⟨[], by simp, rfl⟩
  | cons g gs ih =>
    obtain ⟨cs, hcs, hflat⟩ := ih fun g' hg' => h g' (List.mem_cons_of_mem _ hg')
    have hg := h g List.mem_cons_self
    cases g with
    | stray b => cases hg
    | char c =>
      refine ⟨c :: cs, List.forall_mem_cons.mpr ⟨hg, hcs⟩, ?_⟩
      rw [flatten_cons, hflat]
      rfl

/-- **Only blanks are cut off.** -/
theorem exists_blanks_trim (s : Bytes) :
    ∃ front back, Blanks front ∧ Blanks back ∧ s = front ++ trim s ++ back := by
  have hfront := List.takeWhile_append_dropWhile (p := Glyph.isBlank) (l := glyphs s)
  have hback := List.rdropWhile_append_rtakeWhile (p := Glyph.isBlank)
    (l := (glyphs s).dropWhile Glyph.isBlank)
  refine ⟨flatten ((glyphs s).takeWhile Glyph.isBlank),
    flatten (((glyphs s).dropWhile Glyph.isBlank).rtakeWhile Glyph.isBlank),
    blanks_flatten ?_, blanks_flatten ?_, ?_⟩
  · exact List.all_eq_true.mp List.all_takeWhile
  · intro g hg
    exact List.mem_rtakeWhile_imp hg
  · rw [trim, trimGlyphs_eq, ← flatten_append, ← flatten_append, List.append_assoc, hback, hfront,
      flatten_glyphs]

/-! ### visible bytes -/

/-- ASCII bytes behind the space -/
def Visible (b : UInt8) : Prop := 32 < b.toNat ∧ b.toNat < 128

instance (b : UInt8) : Decidable (Visible b) := inferInstanceAs (Decidable (_ ∧ _))

theorem not_isBlank_of_visible {s : Bytes} (h : ∀ b ∈ s, Visible b) {g : Glyph}
    (hg : g ∈ glyphs s) : g.isBlank = false := by
  cases g with
  | stray b => rfl
  | char c =>
    cases hc : String.utf8EncodeChar c with
    | nil => exact absurd hc String.utf8EncodeChar_ne_nil
    | cons b rest =>
      have hb : b ∈ String.utf8EncodeChar c := hc ▸ List.mem_cons_self
      obtain ⟨hlow, hhigh⟩ : Visible b := by
        refine h b ?_
        rw [← flatten_glyphs s]
        exact List.mem_flatMap.mpr ⟨_, hg, hb⟩
      have hcode : c.toNat = b.toNat := by
        rw [← Glyph.codeOf_encode, Glyph.encode_of_mem hb hhigh]
        rfl
      show isBlank c = false
      unfold isBlank
      rw [hcode]
      simp only [Bool.or_eq_false_iff, Bool.and_eq_false_iff, decide_eq_false_iff_not,
        beq_eq_false_iff_ne]
      omega

theorem trim_of_visible {s : Bytes} (h : ∀ b ∈ s, Visible b) : trim s = s := by
  have hg : ∀ g ∈ glyphs s, ¬ g.isBlank = true := fun g hg => by
    rw [not_isBlank_of_visible h hg]
    exact Bool.false_ne_true
  have hdrop : (glyphs s).dropWhile Glyph.isBlank = glyphs s := by
    rw [List.dropWhile_eq_self_iff]
    exact fun hlt => hg _ (List.getElem_mem hlt)
  have hrdrop : (glyphs s).rdropWhile Glyph.isBlank = glyphs s := by
    rw [List.rdropWhile_eq_self_iff]
    exact fun hne => hg _ (List.getLast_mem hne)
  rw [trim, trimGlyphs_eq, hdrop, hrdrop, flatten_glyphs]

end Footprint
