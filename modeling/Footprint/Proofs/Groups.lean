import Mathlib.Data.List.Forall2
import Footprint.Proofs.Ledger
import Footprint.Stat

/-!
# What the groups of a table are

Collecting named values keeps, under every name, the values in the order in which they came
(`Groups.get?_collect`). Each file of a table gives at most one value to a group, so a group is the
list of the sizes, or of the decreases, of the files that have one, in order of the files
(`Table.get?_groups`, `Table.get?_decreases`). In which order the sizes of a single file are walked
does not matter (`Table.Rearranged`).
-/

namespace Footprint

open Ledger

namespace Groups

/-- the group of some values; without a value there is no group -/
def group? (values : List Float) : Option (List Float) :=
  if values.isEmpty then none else some values

theorem getD_group? (values : List Float) : (group? values).getD [] = values := by
  cases values with
  | nil => rfl
  | cons x rest => rfl

theorem group?_concat (values : List Float) (x : Float) :
    group? (values ++ [x]) = some (values ++ [x]) := by
  rw [group?, if_neg (by simp)]

theorem group?_eq_some_iff {values found : List Float} :
    group? values = some found ↔ values = found ∧ found ≠ [] := by
  cases values with
  | nil =>
    constructor
    · intro h
      cases h
    · rintro ⟨rfl, h⟩
      exact absurd rfl h
  | cons x rest =>
    constructor
    · intro h
      cases h
      exact ⟨rfl, List.cons_ne_nil x rest⟩
    · rintro ⟨rfl, -⟩
      rfl

theorem isSome_group? (values : List Float) : (group? values).isSome = true ↔ values ≠ [] := by
  cases values with
  | nil => simp [group?]
  | cons x rest => simp [group?]

theorem isSome_group?_filterMap {α : Type} (f : α → Option Float) (xs : List α) :
    (group? (xs.filterMap f)).isSome = true ↔ ∃ x ∈ xs, (f x).isSome = true := by
  rw [isSome_group?, Ne, List.filterMap_eq_nil_iff]
  simp only [← Option.not_isSome_iff_eq_none, not_forall, not_not, exists_prop]

/-! ### collecting -/

theorem get?_push {g : Groups} {values : List Float} {name : Bytes}
    (h : g.get? name = group? values) (e : Bytes × Float) :
    (g.push e).get? name = group? (values ++ valuesUnder name [e]) := by
  obtain ⟨k, x⟩ := e
  rw [push, get?_alter, valuesUnder_cons]
  by_cases hk : name = k
  · subst hk
    rw [if_pos rfl, if_pos rfl, h, getD_group?]
    exact (group?_concat values x).symm
  · rw [if_neg hk, if_neg fun e => hk e.symm, valuesUnder_nil, List.append_nil, h]

theorem get?_foldl_push {g : Groups} {values : List Float} {name : Bytes}
    (h : g.get? name = group? values) (entries : List (Bytes × Float)) :
    (entries.foldl push g).get? name = group? (values ++ valuesUnder name entries) := by
  induction entries generalizing g values with
  | nil => rw [valuesUnder_nil, List.append_nil]; exact h
  | cons e rest ih =>
    have hcons : valuesUnder name (e :: rest) = valuesUnder name [e] ++ valuesUnder name rest :=
      valuesUnder_append name [e] rest
    rw [List.foldl_cons, ih (get?_push h e), hcons, List.append_assoc]

theorem collect_eq_foldl (sections : List (List (Bytes × Float))) :
    collect sections = sections.flatten.foldl push Ledger.empty := by
  rw [List.foldl_flatten]
  rfl

theorem get?_collect (sections : List (List (Bytes × Float))) (name : Bytes) :
    (collect sections).get? name = group? (sections.flatMap (valuesUnder name)) := by
  have hempty : (Ledger.empty : Groups).get? name = group? [] := rfl
  rw [collect_eq_foldl, get?_foldl_push hempty, List.nil_append, valuesUnder_flatten]

theorem ne_nil_of_mem_collect (sections : List (List (Bytes × Float))) :
    ∀ values ∈ (collect sections).values, values ≠ [] := by
  intro values hmem
  obtain ⟨⟨name, found⟩, hentry, rfl⟩ := List.mem_map.mp hmem
  have hget := (get?_eq_some_iff (collect sections)).mpr hentry
  rw [get?_collect, group?_eq_some_iff] at hget
  exact hget.2

end Groups

namespace Table

open Groups

theorem sizesOf_of_mem (t : Table) {file : Bytes} {sizes : Ledger Bytes Float}
    (h : (file, sizes) ∈ t.sizes.entries) : t.sizesOf file = sizes := by
  rw [sizesOf, (get?_eq_some_iff t.sizes).mpr h]
  rfl

/-- values of which every file has at most one under a name -/
theorem get?_collect_files (t : Table) (name : Bytes)
    (entriesOf : Ledger Bytes Float → List (Bytes × Float))
    (value? : Ledger Bytes Float → Option Float)
    (h : ∀ sizes, valuesUnder name (entriesOf sizes) = (value? sizes).toList) :
    (collect (t.sizes.values.map entriesOf)).get? name =
      group? (t.files.filterMap fun file => value? (t.sizesOf file)) := by
  have hvalues : (t.sizes.values.map entriesOf).flatMap (valuesUnder name) =
      t.sizes.entries.filterMap fun e => value? e.2 := by
    rw [values, List.flatMap_map, List.flatMap_map, List.filterMap_eq_flatMap_toList]
    simp only [h]
  have hfiles : (t.files.filterMap fun file => value? (t.sizesOf file)) =
      t.sizes.entries.filterMap fun e => value? e.2 := by
    rw [files, keys, List.filterMap_map]
    apply List.filterMap_congr
    intro e he
    exact congrArg value? (t.sizesOf_of_mem he)
  rw [get?_collect, hvalues, hfiles]

/-- the sizes under an optimization, in order of the files that have one -/
theorem get?_groups (t : Table) (name : Bytes) :
    t.groups.get? name = group? (t.files.filterMap fun file => t.size? file name) :=
  t.get?_collect_files name entries (fun sizes => sizes.get? name)
    fun sizes => valuesUnder_entries sizes name

theorem isSome_get?_groups (t : Table) (name : Bytes) :
    (t.groups.get? name).isSome = true ↔
      ∃ file ∈ t.files, (t.size? file name).isSome = true := by
  rw [get?_groups, isSome_group?_filterMap]

/-! ### decreases -/

/-- the decrease from the baseline among the sizes of one file -/
def decreaseIn? (sizes : Ledger Bytes Float) (name : Bytes) : Option Float :=
  if name = baseline then none
  else (sizes.get? baseline).bind fun base => (sizes.get? name).map (percentDecrease base)

theorem valuesUnder_decreasesOf (sizes : Ledger Bytes Float) (name : Bytes) :
    valuesUnder name (decreasesOf sizes) = (decreaseIn? sizes name).toList := by
  unfold decreasesOf decreaseIn?
  cases sizes.get? baseline with
  | none =>
    rw [valuesUnder_nil]
    split
    · rfl
    · rfl
  | some base =>
    show valuesUnder name ((sizes.entries.filter fun e => e.1 ≠ baseline).map fun e =>
      (e.1, percentDecrease base e.2)) = _
    rw [valuesUnder_map, valuesUnder_filter_ne, valuesUnder_entries]
    split
    · rfl
    · cases sizes.get? name with
      | none => rfl
      | some size => rfl

def decrease? (t : Table) (file name : Bytes) : Option Float := decreaseIn? (t.sizesOf file) name

theorem isSome_decrease? (t : Table) (file name : Bytes) :
    (t.decrease? file name).isSome = true ↔ name ≠ baseline ∧
      (t.size? file baseline).isSome = true ∧ (t.size? file name).isSome = true := by
  show (decreaseIn? (t.sizesOf file) name).isSome = true ↔ name ≠ baseline ∧
    ((t.sizesOf file).get? baseline).isSome = true ∧ ((t.sizesOf file).get? name).isSome = true
  unfold decreaseIn?
  by_cases h : name = baseline
  · simp [h]
  · rw [if_neg h]
    cases (t.sizesOf file).get? baseline with
    | none => simp
    | some base => simp [h]

/-- a decrease depends on two sizes -/
theorem decrease?_congr {t u : Table} {file name : Bytes}
    (hbase : t.size? file baseline = u.size? file baseline)
    (hsize : t.size? file name = u.size? file name) :
    t.decrease? file name = u.decrease? file name := by
  have hbase' : (t.sizesOf file).get? baseline = (u.sizesOf file).get? baseline := hbase
  have hsize' : (t.sizesOf file).get? name = (u.sizesOf file).get? name := hsize
  rw [decrease?, decrease?, decreaseIn?, decreaseIn?, hbase', hsize']

/-- the decreases under an optimization, in order of the files that have one -/
theorem get?_decreases (t : Table) (name : Bytes) :
    t.decreases.get? name = group? (t.files.filterMap fun file => t.decrease? file name) :=
  t.get?_collect_files name decreasesOf (fun sizes => decreaseIn? sizes name)
    fun sizes => valuesUnder_decreasesOf sizes name

theorem isSome_get?_decreases (t : Table) (name : Bytes) :
    (t.decreases.get? name).isSome = true ↔ name ≠ baseline ∧ ∃ file ∈ t.files,
      (t.size? file baseline).isSome = true ∧ (t.size? file name).isSome = true := by
  rw [get?_decreases, isSome_group?_filterMap]
  simp only [isSome_decrease?]
  constructor
  · rintro ⟨file, hfile, hname, hsizes⟩
    exact ⟨hname, file, hfile, hsizes⟩
  · rintro ⟨hname, file, hfile, hsizes⟩
    exact ⟨file, hfile, hname, hsizes⟩

/-! ### walking the sizes of a file in another order -/

/-- the same files in the same order, the sizes of each one in whatever order -/
def Rearranged (t u : Table) : Prop :=
  List.Forall₂ (fun e f => e.1 = f.1 ∧ e.2.Rearranged f.2) t.sizes.entries u.sizes.entries

theorem Rearranged.refl (t : Table) : t.Rearranged t :=
  List.forall₂_same.mpr fun _ _ => ⟨rfl, .refl _⟩

variable {t u : Table}

theorem Rearranged.files_eq (h : t.Rearranged u) : t.files = u.files := by
  unfold Rearranged at h
  show t.sizes.entries.map Prod.fst = u.sizes.entries.map Prod.fst
  generalize t.sizes.entries = a, u.sizes.entries = b at h ⊢
  induction h with
  | nil => rfl
  | cons he _ ih => rw [List.map_cons, List.map_cons, he.1, ih]

theorem Rearranged.sizesOf_rearranged (h : t.Rearranged u) (file : Bytes) :
    (t.sizesOf file).Rearranged (u.sizesOf file) := by
  unfold Rearranged at h
  show ((lookup? file t.sizes.entries).getD Ledger.empty).Rearranged
    ((lookup? file u.sizes.entries).getD Ledger.empty)
  generalize t.sizes.entries = a, u.sizes.entries = b at h ⊢
  induction h with
  | nil => exact .refl _
  | @cons e f _ _ he _ ih =>
    obtain ⟨k, sizes⟩ := e
    obtain ⟨k', sizes'⟩ := f
    obtain ⟨rfl, hsizes⟩ := he
    rw [lookup?, lookup?]
    by_cases hk : k = file
    · rw [if_pos hk, if_pos hk]
      exact hsizes
    · rw [if_neg hk, if_neg hk]
      exact ih

theorem Rearranged.size?_eq (h : t.Rearranged u) (file name : Bytes) :
    t.size? file name = u.size? file name :=
  (rearranged_iff _ _).mp (h.sizesOf_rearranged file) name

theorem Rearranged.groups (h : t.Rearranged u) : t.groups.Rearranged u.groups := by
  rw [rearranged_iff]
  intro name
  rw [get?_groups, get?_groups, h.files_eq]
  simp only [h.size?_eq]

theorem Rearranged.decreases (h : t.Rearranged u) : t.decreases.Rearranged u.decreases := by
  rw [rearranged_iff]
  intro name
  have hdecrease : ∀ file, t.decrease? file name = u.decrease? file name :=
    fun file => decrease?_congr (h.size?_eq file baseline) (h.size?_eq file name)
  rw [get?_decreases, get?_decreases, h.files_eq]
  simp only [hdecrease]

end Table

end Footprint
