import Footprint.Number.Shortest

/-!
# Ticks of an axis

About three labelled ticks are chosen for a range of values, and unlabelled ones between them. A
labelling is `count` multiples of a step `skip * q * 10^m` that lie within the range; it is scored
by how simple the step is and whether the ticks meet zero, how well they cover the range, and how
near their density is to the one wanted. `best` visits the labellings from simple to complicated and
leaves a branch as soon as no labelling in it can beat the one it holds.
-/

namespace Footprint

/-- a mark on an axis -/
structure Tick where
  value : Float
  labelled : Bool

namespace Tick

/-! ### numbers -/

/-- the spacing of the numbers from one to two -/
def epsilon : Float := 2.220446049250313e-16

/-- differences that count as none -/
def tolerance : Float := 100 * epsilon

/-- the logarithm to base two, taken from the significand and the binary exponent -/
def log2 (x : Float) : Float :=
  let (significand, exponent) := x.frExp
  if significand == 0.5 then Float.ofInt (exponent - 1)
  else Float.log significand * 1.44269504088896340735992468100189214 + Float.ofInt exponent

/-- the logarithm to base ten -/
def log10 (x : Float) : Float := log2 x * 0.30102999566398119521373889472449302677

/-- the number nearest to a power of ten -/
def tenTo (n : Nat) : Float :=
  (Binary64.ofRatio? false (Nat.pow 10 n) 1).getD (Binary64.infinity false)

/-- the number nearest to an inverse power of ten -/
def tenthTo (n : Nat) : Float := (Binary64.ofRatio? false 1 (Nat.pow 10 n)).getD 0

/-- a power of ten as a multiple of thirty-two and the rest, zero or infinite out of range -/
def powerOfTen (n : Int) : Float :=
  if n < -323 then 0
  else if 308 < n then Binary64.infinity false
  else if 0 ≤ n then tenTo (n.toNat / 32 * 32) * tenTo (n.toNat % 32)
  else tenthTo (n.natAbs / 32 * 32) / tenTo (n.natAbs % 32)

def larger (a b : Float) : Float := if a < b then b else a

def smaller (a b : Float) : Float := if b < a then b else a

/-! ### scores -/

/-- the number of labels wanted -/
def wanted : Nat := 3

/-- multipliers of a power of ten with their ranks, nicest first -/
def multipliers : List (Nat × Float) := [(0, 1), (1, 5), (2, 2), (3, 2.5), (4, 4), (5, 3)]

/-- the weighted sum of simplicity, coverage, density and legibility -/
def score (simplicity coverage density : Float) : Float :=
  0.25 * simplicity + 0.2 * coverage + 0.5 * density + 0.05 * 1

/-- how simple a multiplier of the given rank is when only every `skip`-th multiple is labelled;
`zero` is one if the ticks meet zero -/
def simplicity (rank skip : Nat) (zero : Float) : Float :=
  1 - Float.ofNat rank / 5 - Float.ofNat skip + zero

/-- the density can be no better than this -/
def densityBound (count : Nat) : Float :=
  if count < wanted then 1 else 2 - Float.ofNat (count - 1) / Float.ofNat (wanted - 1)

/-- the coverage can be no better than this when the ticks span `span` of the range -/
def coverageBound (range span : Float) : Float :=
  if range < span then
    let half := 0.5 * (span - range)
    let tenth := range * 0.1
    1 - half * half / (tenth * tenth)
  else 1

def coverage (min max low high : Float) : Float :=
  let tenth := 0.1 * (max - min)
  let a := max - high
  let b := min - low
  1 - 0.5 * (a * a + b * b) / (tenth * tenth)

def density (count : Nat) (min max low high : Float) : Float :=
  let present := Float.ofNat (count - 1) / (high - low)
  let want := Float.ofNat (wanted - 1) / (larger high max - smaller min low)
  let ratio := present / want
  if 1 ≤ ratio then 2 - ratio else 2 - want / present

/-- whether the multiples of `step` from `low` to `high` meet zero -/
def meetsZero (low high step : Float) : Bool :=
  let rest := Binary64.rem low step
  (rest < tolerance || step - rest < tolerance) && low ≤ 0 && 0 ≤ high

/-! ### the best labelling -/

/-- a labelling and its score -/
structure Choice where
  count : Nat
  low : Float
  /-- the step without its power of ten -/
  step : Float
  magnitude : Int
  score : Float

/-- visits the branches in order, until one cannot reach the score already held -/
def visit {α : Type} (bound : α → Float) (inside : α → Option Choice → Option Choice) :
    List α → Option Choice → Option Choice
  | [], held => held
  | a :: rest, held =>
    if bound a < (held.map Choice.score).getD (-2) then held
    else visit bound inside rest (inside a held)

/-- labellings that differ only in where they start -/
structure Kind where
  /-- the rank of the multiplier -/
  rank : Nat
  multiplier : Float
  /-- every `skip`-th multiple of the multiplier is labelled -/
  skip : Nat
  /-- the number of labels -/
  count : Nat
  magnitude : Int
  /-- ten to the magnitude -/
  power : Float

namespace Kind

def factor (k : Kind) : Float := Float.ofNat k.skip * k.multiplier

def step (k : Kind) : Float := k.factor * k.power

/-- the labelling with the given start, if it lies in the range and beats the one held -/
def consider (k : Kind) (min max start : Float) (held : Option Choice) : Option Choice :=
  let low := start * (k.step / Float.ofNat k.skip)
  let high := low + k.step * Float.ofNat (k.count - 1)
  if low < min || max < high then held
  else
    let zero := if meetsZero low high k.step then 1 else 0
    let total := score (simplicity k.rank k.skip zero) (coverage min max low high)
      (density k.count min max low high)
    if (held.map Choice.score).getD (-2) < total then
      some ⟨k.count, low, k.factor, k.magnitude, total⟩
    else held

/-- all starts from `start` up to `last`, at most `fuel` of them; numbers too large to count in ones
end it -/
def fromStart (k : Kind) (min max last : Float) : Nat → Float → Option Choice → Option Choice
  | 0, _, held => held
  | fuel + 1, start, held =>
    if start ≤ last && start != start - 1 then
      k.fromStart min max last fuel (start + 1) (k.consider min max start held)
    else held

/-- all labellings of a kind; from the first to the last there are at most `count * skip` steps -/
def starts (k : Kind) (min max : Float) (held : Option Choice) : Option Choice :=
  let first := (Float.floor (max / k.step) - Float.ofNat (k.count - 1)) * Float.ofNat k.skip
  let last := Float.ceil (max / k.step) * Float.ofNat k.skip
  k.fromStart min max last (k.count * k.skip + 2) first held

end Kind

/-- the whole part of a number of moderate size -/
def toWhole (x : Float) : Int := x.toInt64.toInt

/-- all powers of ten that are numbers, with their exponents -/
def powers : List (Int × Float) :=
  (List.range 632).map fun i : Nat => ((i : Int) - 323, powerOfTen ((i : Int) - 323))

/-- the powers of ten by which a step can be multiplied, from the smallest that covers the range -/
def magnitudes (range multiplier : Float) (skip count : Nat) : List (Int × Float) :=
  let delta := range / Float.ofNat (count + 1) / Float.ofNat skip / multiplier
  powers.drop (toWhole (Float.ceil (log10 delta)) + 323).toNat

/-- the best labelling of a range. More than 14 multiples to skip or 16 labels cannot score better
than nothing. -/
def best (min max : Float) : Option Choice :=
  let range := max - min
  let kinds := (List.range 14).flatMap fun i => multipliers.map fun m => (i + 1, m)
  visit (fun (skip, rank, _) => score (simplicity rank skip 1) 1 1)
    (fun (skip, rank, multiplier) =>
      visit (fun count => score (simplicity rank skip 1) 1 (densityBound count))
        (fun count =>
          visit
            (fun (magnitude, power) =>
              let k : Kind := { rank, multiplier, skip, count, magnitude, power }
              score (simplicity rank skip 1)
                (coverageBound range (k.step * Float.ofNat (count - 1))) (densityBound count))
            (fun (magnitude, power) held =>
              Kind.starts { rank, multiplier, skip, count, magnitude, power } min max held)
            (magnitudes range multiplier skip count))
        ((List.range 15).map (· + 2)))
    kinds none

/-! ### labels and ticks -/

/-- the labelled values of a range, the step without its power of ten, and the distance between two
labels -/
structure Labelling where
  values : List Float
  step : Float
  distance : Float

/-- `count` values from `low` on -/
def progression (low step : Float) (count : Nat) : List Float :=
  (List.range count).map fun i => low + Float.ofNat i * step

/-- both ends and the middle of a range -/
def thirds (min step : Float) : Labelling :=
  { values := progression min step 3, step
    distance := min + 1 * step - (min + 0 * step) }

def labelling (min max : Float) : Labelling :=
  let range := max - min
  if range < tolerance then thirds min (range / 2)
  else
    match best min max with
    | none => thirds min (range / 2)
    | some c =>
      let step := c.step * powerOfTen c.magnitude
      { values := progression c.low step c.count, step := c.step, distance := step }

/-- the distance of the unlabelled ticks, unless it is too small to show -/
def minorDistance? (l : Labelling) : Option Float :=
  if l.step == 1 || l.step == 2.5 then some (l.distance / 5)
  else if l.step == 2 || l.step == 3 || l.step == 4 || l.step == 5 then some (l.distance / l.step)
  else if l.distance / 2 < epsilon then none
  else some (l.distance / 2)

/-- more unlabelled ticks than any labelling leaves room for -/
def minorLimit : Nat := 256

/-- the values at the minor distance that lie in the range, in order -/
def minorValues (min max first distance : Float) : List Float :=
  let below := ((List.range minorLimit).takeWhile fun k =>
    min < first + (0 - Float.ofNat k - 1) * distance).length
  ((List.range minorLimit).map fun k =>
    first + (0 - Float.ofNat below + Float.ofNat k) * distance).takeWhile fun x => !(max < x)

/-- one more unlabelled tick, unless there is a tick less than half the distance away -/
def addMinor (distance : Float) (ticks : List Tick) (value : Float) : List Tick :=
  if ticks.any fun t => (t.value - value).abs < distance / 2 then ticks
  else ticks ++ [⟨value, false⟩]

end Tick

inductive TickError where
  | illegalRange
  deriving DecidableEq

def TickError.message : TickError → Bytes
  | .illegalRange => Bytes.ofString "illegal range"

/-- the ticks of a range, labelled ones first -/
def Tick.forRange (min max : Float) : Except TickError (List Tick) :=
  if max ≤ min then .error .illegalRange
  else
    let l := Tick.labelling min max
    let major := l.values.map fun value => ⟨value, true⟩
    match Tick.minorDistance? l with
    | none => .ok major
    | some distance =>
      .ok ((Tick.minorValues min max (l.values.headD 0) distance).foldl
        (Tick.addMinor distance) major)

/-! ### percent labels -/

/-- the label of a tick: its value in percent, or nothing -/
def Tick.percentLabel (t : Tick) : Bytes :=
  if t.labelled then general t.value ++ [Bytes.percent] else []

/-- ticks with their percent labels -/
def Tick.withPercent (ticks : List Tick) : List (Float × Bytes) :=
  ticks.map fun t => (t.value, t.percentLabel)

end Footprint
