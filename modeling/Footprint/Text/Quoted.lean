import Footprint.Text.Glyph
import Footprint.Text.Printable

/-!
# Quoted text

A byte string between double quotes. The quote and the backslash are written with a backslash, and
all other printable characters stand for themselves. Of the rest, the controls with a letter of
their own are written with a backslash, every other control and every stray byte is written `\xHH`,
and every other character by its number.
-/

namespace Footprint.Quoted

/-- the letter behind the backslash for the controls that have one -/
def letter? (c : Char) : Option UInt8 :=
  match c.toNat with
  | 7 => some 97
  | 8 => some 98
  | 9 => some 116
  | 10 => some 110
  | 11 => some 118
  | 12 => some 102
  | 13 => some 114
  | _ => none

/-- a byte by its number -/
def byteEscape (n : Nat) : Bytes := Bytes.ofString "\\x" ++ Bytes.hex 2 n

/-- a character by its number -/
def numberEscape (c : Char) : Bytes :=
  if c.toNat < 0x20 ∨ c.toNat = 0x7f then byteEscape c.toNat
  else if c.toNat < 0x10000 then Bytes.ofString "\\u" ++ Bytes.hex 4 c.toNat
  else Bytes.ofString "\\U" ++ Bytes.hex 8 c.toNat

/-- one glyph inside the quotes, given which characters are printable -/
def glyph (printable : Char → Bool) : Glyph → Bytes
  | .stray b => byteEscape b.toNat
  | .char c =>
    if c = '"' ∨ c = '\\' then Bytes.backslash :: String.utf8EncodeChar c
    else if printable c then String.utf8EncodeChar c
    else
      match letter? c with
      | some x => [Bytes.backslash, x]
      | none => numberEscape c

/-- a byte string in double quotes, given which characters are printable -/
def quoteWith (printable : Char → Bool) (s : Bytes) : Bytes :=
  Bytes.quote :: (glyphs s).flatMap (glyph printable) ++ [Bytes.quote]

end Quoted

/-- a byte string in double quotes -/
def quote (s : Bytes) : Bytes := Quoted.quoteWith isPrintable s

end Footprint
