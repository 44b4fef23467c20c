import Footprint.Text.Bytes

/-!
# Glyphs

A byte string is shown as a sequence of glyphs: the characters it encodes and, where it is not
UTF-8, single stray bytes. Nothing is lost: the glyphs of a string concatenate to it
(`flatten_glyphs`). Columns of text are as wide as they have glyphs.
-/

namespace Footprint

/-- one step of reading bytes as UTF-8 -/
inductive Glyph where
  | char (c : Char)
  | stray (b : UInt8)
  deriving DecidableEq

namespace Glyph

def bytes : Glyph → Bytes
  | .char c => String.utf8EncodeChar c
  | .stray b => [b]

/-- the number spelled by an encoding: its first byte carries what the length leaves, and every
other byte six bits -/
def codeOf : Bytes → Nat
  | [] => 0
  | [a] => a.toNat
  | a :: rest =>
    rest.foldl (fun code b => code * 64 + b.toNat % 64) (a.toNat % Nat.pow 2 (6 - rest.length))

/-- the character whose encoding is `bs` -/
def decode? (bs : Bytes) : Option Char :=
  let c := Char.ofNat (codeOf bs)
  if String.utf8EncodeChar c = bs then some c else none

/-- the character that the first one to four bytes encode -/
def leading? (s : Bytes) : Option Char :=
  [1, 2, 3, 4].findSome? fun k => decode? (s.take k)

theorem decode?_eq_some {bs : Bytes} {c : Char} (h : decode? bs = some c) :
    String.utf8EncodeChar c = bs := by
  simp only [decode?] at h
  split at h
  · cases h; assumption
  · cases h

/-- a leading character is encoded by the first bytes -/
theorem leading?_eq_some {s : Bytes} {c : Char} (h : leading? s = some c) :
    String.utf8EncodeChar c <+: s := by
  obtain ⟨k, _, hk⟩ := List.exists_of_findSome?_eq_some h
  rw [decode?_eq_some hk]
  exact List.take_prefix k s

end Glyph

/-- the glyphs after the next `skip` bytes, which belong to a glyph already read -/
def glyphsAfter : Nat → Bytes → List Glyph
  | _, [] => []
  | skip + 1, _ :: rest => glyphsAfter skip rest
  | 0, b :: rest =>
    match Glyph.leading? (b :: rest) with
    | some c => .char c :: glyphsAfter ((String.utf8EncodeChar c).length - 1) rest
    | none => .stray b :: glyphsAfter 0 rest

/-- a byte string read as UTF-8, a byte that starts no character being a glyph of its own -/
def glyphs (s : Bytes) : List Glyph := glyphsAfter 0 s

/-- the bytes of a glyph sequence -/
def flatten (gs : List Glyph) : Bytes := gs.flatMap Glyph.bytes

theorem glyphsAfter_eq (skip : Nat) (s : Bytes) : glyphsAfter skip s = glyphs (s.drop skip) := by
  induction skip generalizing s with
  | zero => rfl
  | succ skip ih =>
    cases s with
    | nil => rfl
    | cons b rest => simpa [glyphsAfter] using ih rest

theorem glyphs_nil : glyphs [] = [] := rfl

theorem glyphs_of_leading {s : Bytes} {c : Char} (h : Glyph.leading? s = some c) :
    ∃ rest, s = String.utf8EncodeChar c ++ rest ∧ glyphs s = .char c :: glyphs rest := by
  obtain ⟨rest, hr⟩ := Glyph.leading?_eq_some h
  refine ⟨rest, hr.symm, ?_⟩
  cases s with
  | nil =>
    exact absurd (List.append_eq_nil_iff.mp hr).1 String.utf8EncodeChar_ne_nil
  | cons b tail =>
    have hd : tail.drop ((String.utf8EncodeChar c).length - 1) = rest := by
      have hlen : 0 < (String.utf8EncodeChar c).length :=
        List.length_pos_iff.mpr String.utf8EncodeChar_ne_nil
      have : (b :: tail).drop (String.utf8EncodeChar c).length = rest := by
        rw [← hr]; simp
      have hsucc : (String.utf8EncodeChar c).length = (String.utf8EncodeChar c).length - 1 + 1 := by
        omega
      rwa [hsucc, List.drop_succ_cons] at this
    show glyphsAfter 0 (b :: tail) = _
    simp only [glyphsAfter, h, glyphsAfter_eq, hd]

theorem glyphs_of_not_leading {b : UInt8} {rest : Bytes} (h : Glyph.leading? (b :: rest) = none) :
    glyphs (b :: rest) = .stray b :: glyphs rest := by
  show glyphsAfter 0 (b :: rest) = _
  simp only [glyphsAfter, h]
  rfl

theorem flatten_cons (g : Glyph) (gs : List Glyph) :
    flatten (g :: gs) = g.bytes ++ flatten gs := rfl

theorem flatten_append (a b : List Glyph) : flatten (a ++ b) = flatten a ++ flatten b := by
  simp [flatten]

/-- the glyphs of a byte string concatenate to it -/
theorem flatten_glyphs (s : Bytes) : flatten (glyphs s) = s := by
  induction hn : s.length using Nat.strongRecOn generalizing s with
  | ind n ih =>
    cases h : Glyph.leading? s with
    | some c =>
      obtain ⟨rest, hs, hg⟩ := glyphs_of_leading h
      have hlen : 0 < (String.utf8EncodeChar c).length :=
        List.length_pos_iff.mpr String.utf8EncodeChar_ne_nil
      have hlt : rest.length < n := by
        rw [← hn, hs, List.length_append]; omega
      rw [hg, flatten_cons, ih _ hlt rest rfl, hs]
      rfl
    | none =>
      cases s with
      | nil => rfl
      | cons b rest =>
        have hlt : rest.length < n := by rw [← hn]; simp
        rw [glyphs_of_not_leading h, flatten_cons, ih _ hlt rest rfl]
        rfl

/-! ### columns -/

/-- the width of a text in a column: its number of glyphs -/
def width (s : Bytes) : Nat := (glyphs s).length

/-- blanks behind `s` up to `n` columns; a wider text is left as it is -/
def padEnd (n : Nat) (s : Bytes) : Bytes := s ++ List.replicate (n - width s) Bytes.space

/-- blanks before `s` up to `n` columns; a wider text is left as it is -/
def padStart (n : Nat) (s : Bytes) : Bytes := List.replicate (n - width s) Bytes.space ++ s

end Footprint
