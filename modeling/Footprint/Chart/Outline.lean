import Footprint.Chart
import Footprint.Listing

/-!
# Charts as text

The outline of a chart: its title, the labels of the value axis, and one line for every bar.
-/

namespace Footprint

namespace Chart

/-- the labels of the value axis -/
def valueLabels (c : Chart) : List Bytes :=
  let range := c.valueRange
  match Tick.forRange range.low range.high with
  | .error _ => []
  | .ok ticks =>
    (ticks.filter Tick.labelled).map fun t =>
      if c.kind.inPercent then t.percentLabel else general t.value

def barLine (c : Chart) (s : Stat) : Bytes :=
  if c.kind.inPercent then Listing.decreaseLine s else Listing.sizeLine s

def outline (c : Chart) : List Bytes :=
  [Listing.line c.kind.title,
    Listing.line (Listing.nameColumn c.kind.valueLabel ++
      (c.valueLabels.intersperse [Bytes.space]).flatten)]
    ++ List.zipWith (fun tick value => c.barLine ⟨tick.2, value⟩) c.nameTicks c.bars

end Chart

end Footprint
