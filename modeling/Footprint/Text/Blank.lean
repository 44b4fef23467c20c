import Footprint.Text.Glyph

/-!
# Blanks

The characters with the Unicode property White_Space, and text with its blanks cut off at both
ends. Stray bytes are never blank.
-/

namespace Footprint

/-- the property White_Space -/
def isBlank (c : Char) : Bool :=
  let n := c.toNat
  (0x9 ≤ n && n ≤ 0xd) || n == 0x20 || n == 0x85 || n == 0xa0 || n == 0x1680 ||
    (0x2000 ≤ n && n ≤ 0x200a) || n == 0x2028 || n == 0x2029 || n == 0x202f || n == 0x205f ||
    n == 0x3000

def Glyph.isBlank : Glyph → Bool
  | .char c => Footprint.isBlank c
  | .stray _ => false

/-- glyphs without the blanks at their two ends -/
def trimGlyphs (gs : List Glyph) : List Glyph :=
  ((gs.dropWhile Glyph.isBlank).reverse.dropWhile Glyph.isBlank).reverse

/-- text without the blanks at its two ends -/
def trim (s : Bytes) : Bytes := flatten (trimGlyphs (glyphs s))

end Footprint
