import Footprint.Text.Bytes

/-!
# Paths

A path is a byte string whose elements are divided by slashes. The extension of a path starts at the
last point of its last element, and the report of a results file is named by the last element
without the extension.
-/

namespace Footprint

abbrev Path := Bytes

namespace Path

/-- the elements between the slashes, empty ones included -/
def elements (p : Path) : List Bytes :=
  p.foldr (fun b parts => if b = Bytes.slash then [] :: parts else
    match parts with
    | [] => [[b]]
    | part :: rest => (b :: part) :: rest) [[]]

/-- the last element; slashes behind it do not count -/
def last (p : Path) : Bytes :=
  if p.isEmpty then [Bytes.point]
  else
    match p.reverse.dropWhile (· == Bytes.slash) with
    | [] => [Bytes.slash]
    | r => (r.takeWhile (· != Bytes.slash)).reverse

/-- the text from the last point on, if no slash follows that point -/
def extension (p : Path) : Bytes :=
  let reversed := p.reverse.takeWhile (· != Bytes.slash)
  if reversed.contains Bytes.point then
    Bytes.point :: (reversed.takeWhile (· != Bytes.point)).reverse
  else []

/-- `s` without `ending`, if it ends so -/
def trimEnding (s ending : Bytes) : Bytes :=
  if ending.isSuffixOf s then s.take (s.length - ending.length) else s

/-- the last element without the extension -/
def stem (p : Path) : Bytes := trimEnding p.last p.extension

end Path

end Footprint
