import Footprint.Ledger
import Footprint.Number.Digit
import Footprint.Row
import Footprint.Size

/-!
# Tables of sizes

A table holds the size of every benchmarked file under every optimization it was built with. Files
keep the order in which they first came, and a later record of the same file and optimization
replaces the earlier one. A table is read from rows of comma-separated text whose first three
fields are the file, the optimization and the size.
-/

namespace Footprint

/-- one measured size -/
structure Record where
  file : Bytes
  optimization : Bytes
  size : Float

/-- for every file the size under every optimization -/
structure Table where
  sizes : Ledger Bytes (Ledger Bytes Float)

namespace Table

def empty : Table := ⟨Ledger.empty⟩

def add (t : Table) (r : Record) : Table :=
  ⟨t.sizes.alter r.file fun sizes => (sizes.getD Ledger.empty).put r.optimization r.size⟩

def addAll (t : Table) (rs : List Record) : Table := rs.foldl add t

/-- the files in the order in which they first came -/
def files (t : Table) : List Bytes := t.sizes.keys

/-- the sizes recorded for one file -/
def sizesOf (t : Table) (file : Bytes) : Ledger Bytes Float := (t.sizes.get? file).getD Ledger.empty

def size? (t : Table) (file optimization : Bytes) : Option Float :=
  (t.sizesOf file).get? optimization

theorem files_empty : empty.files = [] := rfl

/-- a file that is already there keeps its place, a new one comes last -/
theorem files_add (t : Table) (r : Record) :
    (t.add r).files = if r.file ∈ t.files then t.files else t.files ++ [r.file] :=
  (Ledger.keys_alter t.sizes r.file _).trans (by congr)

/-- a record sets the size of its own file and optimization and no other -/
theorem size?_add (t : Table) (r : Record) (file optimization : Bytes) :
    (t.add r).size? file optimization =
      if file = r.file ∧ optimization = r.optimization then some r.size
      else t.size? file optimization := by
  unfold size? sizesOf add
  rw [Ledger.get?_alter]
  by_cases hf : file = r.file
  · subst hf
    simp only [if_true, Option.getD_some, Ledger.get?_put, true_and]
  · simp only [hf, if_false, false_and]

theorem addAll_append (t : Table) (a b : List Record) :
    t.addAll (a ++ b) = (t.addAll a).addAll b := by
  simp [addAll, List.foldl_append]

end Table

/-- why a row is no record -/
inductive RowFault where
  /-- fewer than three fields -/
  | columns (count : Nat)
  /-- a third field that denotes no size -/
  | size (text : Bytes)
  deriving DecidableEq

structure RowError where
  /-- the line on which the row starts -/
  line : Nat
  fault : RowFault
  deriving DecidableEq

namespace RowFault

def message : RowFault → Bytes
  | .columns count => Bytes.ofString "want 3 columns, have " ++ decimal count
  | .size text => Size.complaint text

end RowFault

namespace RowError

def message (e : RowError) : Bytes :=
  Bytes.ofString "line " ++ decimal e.line ++ Bytes.ofString ": " ++ e.fault.message

end RowError

/-- the record in the first three fields of a row -/
def Record.ofRow (row : Row) : Except RowError Record :=
  match row.fields with
  | file :: optimization :: text :: _ =>
    match Size.read? text with
    | some size => .ok { file, optimization, size }
    | none => .error ⟨row.line, .size text⟩
  | fields => .error ⟨row.line, .columns fields.length⟩

namespace Table

/-- the records of rows added in order, up to the first row that is no record -/
def addRows (t : Table) : List Row → Except RowError Table
  | [] => .ok t
  | row :: rest =>
    match Record.ofRow row with
    | .ok r => (t.add r).addRows rest
    | .error e => .error e

/-- the table of a comma-separated text -/
def read (s : Bytes) : Except RowError Table := empty.addRows (Row.readAll s)

end Table

end Footprint
