import Footprint.Text.Glyph

/-!
# Characters and their bytes

The glyphs of a text are read from left to right, and a character is found wherever its encoding
stands (`glyphs_encode_append`). No encoding is the start of another one, and a byte below 128 is
an encoding by itself (`encode_of_mem`).
-/

namespace Footprint

namespace Glyph

theorem toNat_val_lt (c : Char) : c.val.toNat < 0x110000 := by
  have h := c.valid
  simp only [UInt32.isValidChar, Nat.isValidChar] at h
  omega

/-- the number that an encoding spells is that of its character -/
theorem codeOf_encode (c : Char) : codeOf (String.utf8EncodeChar c) = c.toNat := by
  have hc := toNat_val_lt c
  show codeOf (String.utf8EncodeChar c) = c.val.toNat
  unfold String.utf8EncodeChar
  simp only
  split
  · simp only [codeOf, UInt8.toNat_ofNat']
    omega
  · split
    · simp only [codeOf, List.foldl, List.length_cons, List.length_nil, Nat.pow_eq,
        UInt8.toNat_ofNat']
      omega
    · split
      · simp only [codeOf, List.foldl, List.length_cons, List.length_nil, Nat.pow_eq,
          UInt8.toNat_ofNat']
        omega
      · simp only [codeOf, List.foldl, List.length_cons, List.length_nil, Nat.pow_eq,
          UInt8.toNat_ofNat']
        omega

theorem decode?_encode (c : Char) : decode? (String.utf8EncodeChar c) = some c := by
  unfold decode?
  rw [codeOf_encode, Char.ofNat_toNat]
  exact if_pos rfl

/-- no encoding is the start of another one -/
theorem encode_append_inj {c d : Char} {s t : Bytes}
    (h : String.utf8EncodeChar c ++ s = String.utf8EncodeChar d ++ t) : c = d := by
  have hc := ByteArray.utf8DecodeChar?_utf8EncodeChar_append (b := s.toByteArray) (c := c)
  rw [← List.toByteArray_append, h, List.toByteArray_append,
    ByteArray.utf8DecodeChar?_utf8EncodeChar_append] at hc
  exact (Option.some.inj hc).symm

theorem leading?_encode_append (c : Char) (s : Bytes) :
    leading? (String.utf8EncodeChar c ++ s) = some c := by
  cases h : leading? (String.utf8EncodeChar c ++ s) with
  | none =>
    have hlen : (String.utf8EncodeChar c).length ∈ [1, 2, 3, 4] := by
      rw [String.length_utf8EncodeChar]
      rcases c.utf8Size_eq with h | h | h | h <;> rw [h] <;> decide
    have hnone := List.findSome?_eq_none_iff.mp h _ hlen
    rw [List.take_left, decode?_encode] at hnone
    cases hnone
  | some d =>
    obtain ⟨t, ht⟩ := leading?_eq_some h
    rw [encode_append_inj ht]

/-- a byte below 128 is an encoding by itself -/
theorem encode_of_mem {c : Char} {b : UInt8} (h : b ∈ String.utf8EncodeChar c)
    (hb : b.toNat < 128) : String.utf8EncodeChar c = [b] := by
  have hc := toNat_val_lt c
  unfold String.utf8EncodeChar at h ⊢
  simp only at h ⊢
  split at h
  · rw [if_pos ‹_›]
    rw [List.mem_singleton.mp h]
  · exfalso
    split at h
    · simp only [List.mem_cons, List.not_mem_nil, or_false] at h
      rcases h with rfl | rfl <;> simp only [UInt8.toNat_ofNat'] at hb <;> omega
    · split at h
      · simp only [List.mem_cons, List.not_mem_nil, or_false] at h
        rcases h with rfl | rfl | rfl <;> simp only [UInt8.toNat_ofNat'] at hb <;> omega
      · simp only [List.mem_cons, List.not_mem_nil, or_false] at h
        rcases h with rfl | rfl | rfl | rfl <;> simp only [UInt8.toNat_ofNat'] at hb <;> omega

end Glyph

theorem glyphs_encode_append (c : Char) (s : Bytes) :
    glyphs (String.utf8EncodeChar c ++ s) = .char c :: glyphs s := by
  obtain ⟨rest, hs, hg⟩ := glyphs_of_leading (Glyph.leading?_encode_append c s)
  rw [hg, List.append_cancel_left hs]

end Footprint
