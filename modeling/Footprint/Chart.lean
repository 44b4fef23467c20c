import Footprint.Chart.Tick
import Footprint.Stat

/-!
# Charts

A chart has one bar for every statistic that can be drawn. A statistic that is not finite is left
out, with a warning that names it.
-/

namespace Footprint

/-- what a chart shows -/
inductive ChartKind where
  | sizes
  | decreases
  deriving DecidableEq

namespace ChartKind

def title : ChartKind → Bytes
  | .sizes => Bytes.ofString "geometric mean size"
  | .decreases => Bytes.ofString "decrease from baseline"

/-- what the bars measure -/
def valueLabel : ChartKind → Bytes
  | .sizes => Bytes.ofString "size"
  | .decreases => Bytes.ofString "decrease"

/-- whether the ticks of the value axis are labelled in percent -/
def inPercent : ChartKind → Bool
  | .sizes => false
  | .decreases => true

def stats (kind : ChartKind) (s : Summary) : List Stat :=
  match kind with
  | .sizes => s.sizes
  | .decreases => s.decreases

end ChartKind

/-- the values that can be drawn with the names under them, side by side, and a warning for each of
the other statistics -/
structure Bars where
  values : List Float
  names : List Bytes
  warnings : List Bytes

namespace Bars

def empty : Bars := ⟨[], [], []⟩

def warning (s : Stat) : Bytes :=
  Bytes.ofString "Warning: skipping " ++ s.name ++ Bytes.ofString ", value is " ++ general s.value

/-- a statistic that is not finite is left out, with a warning -/
def add (b : Bars) (s : Stat) : Bars :=
  if Binary64.isFinite s.value then
    { b with values := b.values ++ [s.value], names := b.names ++ [s.name] }
  else { b with warnings := b.warnings ++ [warning s] }

def ofStats (stats : List Stat) : Bars := stats.foldl add empty

end Bars

/-- a range of an axis; before anything is drawn it is empty, from infinity down -/
structure AxisRange where
  low : Float
  high : Float

namespace AxisRange

def empty : AxisRange := ⟨Binary64.infinity false, Binary64.infinity true⟩

/-- the range with one more value in it -/
def extend (r : AxisRange) (x : Float) : AxisRange :=
  ⟨if x < r.low then x else r.low, if r.high < x then x else r.high⟩

end AxisRange

structure Chart where
  kind : ChartKind
  /-- the values of the bars, one place after the other -/
  bars : List Float
  /-- the names under the places -/
  nameTicks : List (Nat × Bytes)
  /-- the messages logged while the chart was made -/
  log : List Bytes

namespace Chart

/-- a chart before anything is drawn -/
def blank (kind : ChartKind) : Chart := ⟨kind, [], [], []⟩

def nothingToPlot : Bytes := Bytes.ofString "Warning: nothing to plot"

/-- names for the places from zero on -/
def nominal (names : List Bytes) : List (Nat × Bytes) := (List.range names.length).zip names

/-- the chart with bars for the statistics that can be drawn; if there are none it gets neither bars
nor names -/
def addBars (c : Chart) (stats : List Stat) : Chart :=
  let b := Bars.ofStats stats
  if b.values.isEmpty then { c with log := c.log ++ (b.warnings ++ [nothingToPlot]) }
  else { c with bars := b.values, nameTicks := nominal b.names, log := c.log ++ b.warnings }

/-- the chart of a table, given how its two kinds of groups are condensed -/
def ofTableWith (condenseSizes condenseDecreases : List Float → Float) (kind : ChartKind)
    (t : Table) : Chart :=
  (blank kind).addBars (kind.stats (Summary.ofTableWith condenseSizes condenseDecreases t))

def ofTable (kind : ChartKind) (t : Table) : Chart := ofTableWith geometricMean mean kind t

/-- one place for every bar, counted from zero -/
def placeRange (c : Chart) : AxisRange :=
  if c.bars.isEmpty then .empty else ⟨0, Float.ofNat (c.bars.length - 1)⟩

/-- the values of the bars and zero, on which they stand -/
def valueRange (c : Chart) : AxisRange :=
  if c.bars.isEmpty then .empty else c.bars.foldl AxisRange.extend ⟨0, 0⟩

end Chart

end Footprint
