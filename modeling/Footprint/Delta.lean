import Footprint.Stat

/-!
# Comparing two summaries

The mean sizes of two summaries are matched by name. Every name of either side gets a delta; one
that has no partner says so and counts as zero on the other side.
-/

namespace Footprint

structure Delta where
  name : Bytes
  /-- the value in the first summary -/
  a : Float
  /-- the value in the second summary -/
  b : Float
  onlyA : Bool
  onlyB : Bool

namespace Delta

/-- the change from the first value to the second, in percent -/
def change (d : Delta) : Float := (d.b - d.a) / d.a * 100

/-- an entry of the first list with its partner in the second -/
def ofFirst (b : List Stat) (s : Stat) : Delta :=
  match Stat.lookup b s.name with
  | some v => ⟨s.name, s.value, v, false, false⟩
  | none => ⟨s.name, s.value, 0, true, false⟩

/-- an entry of the second list without a partner in the first -/
def ofSecond? (a : List Stat) (s : Stat) : Option Delta :=
  match Stat.lookup a s.name with
  | some _ => none
  | none => some ⟨s.name, 0, s.value, false, true⟩

def ofStats (a b : List Stat) : List Delta :=
  sortByName Delta.name (a.map (ofFirst b) ++ b.filterMap (ofSecond? a))

/-- the deltas between the mean sizes of two summaries, in order of names -/
def between (a b : Summary) : List Delta := ofStats a.sizes b.sizes

end Delta

end Footprint
