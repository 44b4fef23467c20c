import Footprint.Delta
import Footprint.Number.Fixed
import Footprint.Sink
import Footprint.Text.Glyph

/-!
# Printed summaries and comparisons

The text of a summary and of a comparison, as the pieces in which it is written. Names fill a column
of fifteen glyphs and compared sizes one of twelve; longer texts push the rest of the line to the
right.
-/

namespace Footprint.Listing

/-- text and a line end -/
def line (s : Bytes) : Bytes := s ++ [Bytes.newline]

def separator : Bytes := line (List.replicate 50 Bytes.minus)

/-- a name in its column, and a blank -/
def nameColumn (name : Bytes) : Bytes := padEnd 15 name ++ [Bytes.space]

/-- a size in its column -/
def sizeColumn (x : Float) : Bytes := padStart 12 (fixed x)

/-- a column without a size -/
def noSize : Bytes := padStart 12 []

def percentage (x : Float) : Bytes := signedFixed x ++ [Bytes.percent]

def sizeRow (s : Stat) : Bytes := nameColumn s.name ++ fixed s.value

def decreaseRow (s : Stat) : Bytes := nameColumn s.name ++ percentage s.value

def sizeLine (s : Stat) : Bytes := line (sizeRow s)

def decreaseLine (s : Stat) : Bytes := line (decreaseRow s)

/-- a summary: the mean sizes, an empty line, the mean decreases -/
def summary (s : Summary) : List Bytes :=
  [line (Bytes.ofString "Geometric Mean Sizes:"), separator]
    ++ s.sizes.map sizeLine
    ++ [line [], line (Bytes.ofString "Percentage Decrease from Baseline (averaged per-entry):"),
      separator]
    ++ s.decreases.map decreaseLine

/-- the row of a delta; a name that is only in A wins over one that is only in B -/
def deltaRow (d : Delta) : Bytes :=
  nameColumn d.name ++
    if d.onlyA then
      sizeColumn d.a ++ [Bytes.space] ++ noSize ++ Bytes.ofString "  only in A"
    else if d.onlyB then
      noSize ++ [Bytes.space] ++ sizeColumn d.b ++ Bytes.ofString "  only in B"
    else
      sizeColumn d.a ++ [Bytes.space] ++ sizeColumn d.b ++ Bytes.ofString "  " ++
        percentage d.change

def deltaLine (d : Delta) : Bytes := line (deltaRow d)

/-- a comparison of two reports -/
def deltas (nameA nameB : Bytes) (ds : List Delta) : List Bytes :=
  [line (Bytes.ofString "A: " ++ nameA ++ Bytes.ofString " B: " ++ nameB), separator]
    ++ ds.map deltaLine

/-- the text of pieces written without a limit -/
def text (pieces : List Bytes) : Bytes := pieces.flatten

end Footprint.Listing
