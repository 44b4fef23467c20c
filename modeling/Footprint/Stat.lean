import Footprint.Table

/-!
# Statistics

The sizes of a table are collected per optimization, as they are (`Table.groups`) or as decreases
from the baseline size of the same file (`Table.decreases`), and each collection is condensed into
one value. Statistics are listed in bytewise order of their names, so that a name can be found by
halving the list (`lookup`).
-/

namespace Footprint

/-- the optimization that decreases are measured against -/
def baseline : Bytes := Bytes.ofString "baseline"

/-- a list in bytewise order of names, entries of one name keeping their order -/
def sortByName {α : Type} (name : α → Bytes) (xs : List α) : List α :=
  xs.mergeSort fun a b => decide (name a ≤ name b)

theorem sortByName_perm {α : Type} (name : α → Bytes) (xs : List α) :
    (sortByName name xs).Perm xs :=
  List.mergeSort_perm xs _

theorem mem_sortByName {α : Type} (name : α → Bytes) (xs : List α) (x : α) :
    x ∈ sortByName name xs ↔ x ∈ xs :=
  (sortByName_perm name xs).mem_iff

/-- names do not decrease along a sorted list -/
theorem sortByName_pairwise {α : Type} (name : α → Bytes) (xs : List α) :
    (sortByName name xs).Pairwise fun a b => name a ≤ name b := by
  have trans : ∀ a b c : α, decide (name a ≤ name b) = true → decide (name b ≤ name c) = true →
      decide (name a ≤ name c) = true := by
    intro a b c hab hbc
    simp only [decide_eq_true_eq] at hab hbc ⊢
    exact List.le_trans hab hbc
  have total : ∀ a b : α, (decide (name a ≤ name b) || decide (name b ≤ name a)) = true := by
    intro a b
    simp only [Bool.or_eq_true, decide_eq_true_eq]
    exact List.le_total (name a) (name b)
  exact (List.pairwise_mergeSort trans total xs).imp of_decide_eq_true

/-! ### groups -/

/-- values collected under names -/
abbrev Groups := Ledger Bytes (List Float)

namespace Groups

/-- one more value under a name -/
def push (g : Groups) (entry : Bytes × Float) : Groups :=
  g.alter entry.1 fun values => values.getD [] ++ [entry.2]

/-- the values of several sections of named values, section by section -/
def collect (sections : List (List (Bytes × Float))) : Groups :=
  sections.foldl (fun g entries => entries.foldl push g) Ledger.empty

/-- the groups in order of their names -/
def sorted (g : Groups) : List (Bytes × List Float) := sortByName Prod.fst g.entries

end Groups

/-- the decrease from `base` to `size` in percent; a base of zero makes it infinite or NaN -/
def percentDecrease (base size : Float) : Float := (base - size) / base * 100

/-- the decreases of one file from its baseline size; none without a baseline -/
def decreasesOf (sizes : Ledger Bytes Float) : List (Bytes × Float) :=
  match sizes.get? baseline with
  | none => []
  | some base =>
    (sizes.entries.filter fun e => e.1 ≠ baseline).map fun e => (e.1, percentDecrease base e.2)

namespace Table

/-- the sizes of every optimization, in order of files -/
def groups (t : Table) : Groups := .collect (t.sizes.values.map Ledger.entries)

/-- the decreases of every optimization from the baseline, in order of files -/
def decreases (t : Table) : Groups := .collect (t.sizes.values.map decreasesOf)

end Table

/-! ### statistics -/

/-- one value for an optimization -/
structure Stat where
  name : Bytes
  value : Float

namespace Stat

def sort (stats : List Stat) : List Stat := sortByName Stat.name stats

/-- every group condensed into one value, in order of names -/
def ofGroups (condense : List Float → Float) (g : Groups) : List Stat :=
  sort (g.entries.map fun e => ⟨e.1, condense e.2⟩)

/-- the first place from `low` up to `high` whose name does not come before `name`, provided the
names are in order -/
def place (stats : List Stat) (name : Bytes) (low high : Nat) (bound : high ≤ stats.length) : Nat :=
  if inside : low < high then
    let middle := (low + high) / 2
    have : middle < stats.length := by omega
    if stats[middle].name < name then place stats name (middle + 1) high bound
    else place stats name low middle (by omega)
  else low
termination_by high - low

/-- the value listed under a name, found by halving -/
def lookup (stats : List Stat) (name : Bytes) : Option Float :=
  (stats[place stats name 0 stats.length (Nat.le_refl _)]?.filter (·.name = name)).map Stat.value

/-- the value of the first entry with a name -/
def scan (stats : List Stat) (name : Bytes) : Option Float :=
  (stats.find? (·.name = name)).map Stat.value

/-- a value and whether there is one; a missing value counts as zero -/
def answer (value : Option Float) : Float × Bool := (value.getD 0, value.isSome)

/-- what halving answers to a name -/
def find (stats : List Stat) (name : Bytes) : Float × Bool := answer (lookup stats name)

end Stat

/-! ### summaries -/

/-- the exponential of the mean logarithm: NaN as soon as one value is negative, and otherwise zero
as soon as one is zero, provided all are finite -/
def geometricMean (values : List Float) : Float :=
  Float.exp (values.foldl (fun sum x => sum + Float.log x) 0 / Float.ofNat values.length)

def mean (values : List Float) : Float :=
  values.foldl (· + ·) 0 / Float.ofNat values.length

structure Summary where
  /-- the geometric mean size of every optimization -/
  sizes : List Stat
  /-- the mean decrease in percent from the baseline of every other optimization -/
  decreases : List Stat

namespace Summary

def empty : Summary := ⟨[], []⟩

/-- the summary of a table, given how the two kinds of groups are condensed -/
def ofTableWith (condenseSizes condenseDecreases : List Float → Float) (t : Table) : Summary :=
  ⟨Stat.ofGroups condenseSizes t.groups, Stat.ofGroups condenseDecreases t.decreases⟩

def ofTable (t : Table) : Summary := ofTableWith geometricMean mean t

end Summary

end Footprint
