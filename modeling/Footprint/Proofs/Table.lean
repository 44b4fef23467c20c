import Mathlib.Data.List.Basic
import Mathlib.Data.List.Induction
import Mathlib.Logic.Function.Basic
import Footprint.Proofs.Ledger
import Footprint.Table

/-!
# A table as a view of its records

A table built from nothing shows a list of records in a fixed way (`Table.Shows`): its files are the
files of the records in the order in which they first came, and the size under a file and an
optimization is that of the last record of the two. One record more keeps this
(`Table.shows_add`), so it holds of every table that was built by adding records
(`Table.shows_addAll`). The files and the sizes under them are one ledger, which comes to the same
as a list and a map that are updated apart (`Table.catalog_add`).

Records that are added to a table win over what it has and bring their new files last
(`Table.size?_addAll`, `Table.files_prefix_addAll`), so adding the same records once more changes
nothing (`Table.addAll_again`).
-/

namespace Footprint

namespace Ledger

variable {κ ν : Type} [DecidableEq κ]

theorem mem_keys_iff (l : Ledger κ ν) (key : κ) : key ∈ l.keys ↔ (l.get? key).isSome = true := by
  obtain ⟨entries, distinct⟩ := l
  show key ∈ entries.map Prod.fst ↔ (lookup? key entries).isSome = true
  clear distinct
  induction entries with
  | nil => simp [lookup?]
  | cons e rest ih =>
    obtain ⟨k, v⟩ := e
    by_cases h : k = key
    · simp [lookup?, h]
    · have h' : ¬ key = k := fun e => h e.symm
      rw [List.map_cons, List.mem_cons, lookup?, if_neg h, ih]
      exact or_iff_right h'

end Ledger

/-- the size in the last record of a file and an optimization -/
def lastSize? (rs : List Record) (file optimization : Bytes) : Option Float :=
  (rs.filter fun r => r.file = file ∧ r.optimization = optimization).getLast?.map Record.size

theorem lastSize?_concat (rs : List Record) (r : Record) (file optimization : Bytes) :
    lastSize? (rs ++ [r]) file optimization =
      if file = r.file ∧ optimization = r.optimization then some r.size
      else lastSize? rs file optimization := by
  unfold lastSize?
  rw [List.filter_append]
  by_cases h : file = r.file ∧ optimization = r.optimization
  · rw [if_pos h, List.filter_cons_of_pos (by simp [h.1, h.2]), List.filter_nil,
      List.getLast?_concat]
    rfl
  · have h' : ¬ (r.file = file ∧ r.optimization = optimization) := fun e => h ⟨e.1.symm, e.2.symm⟩
    rw [if_neg h, List.filter_cons_of_neg (by simpa using h'), List.filter_nil, List.append_nil]

/-- there is a last record if there is one at all -/
theorem isSome_lastSize? (rs : List Record) (file optimization : Bytes) :
    (lastSize? rs file optimization).isSome = true ↔
      ∃ r ∈ rs, r.file = file ∧ r.optimization = optimization := by
  unfold lastSize?
  rw [Option.isSome_map, List.getLast?_isSome, Ne, List.filter_eq_nil_iff]
  simp

namespace Table

/-- the table `t` shows the records `rs`, added in this order -/
structure Shows (t : Table) (rs : List Record) : Prop where
  mem_files : ∀ file, file ∈ t.files ↔ ∃ r ∈ rs, r.file = file
  /-- files stand in the order of their first records -/
  order : t.files.Pairwise fun a b =>
    (rs.map Record.file).idxOf a < (rs.map Record.file).idxOf b
  size : ∀ file optimization, t.size? file optimization = lastSize? rs file optimization

theorem shows_empty : empty.Shows [] :=
  ⟨fun file => by simp [files_empty], List.Pairwise.nil, fun _ _ => rfl⟩

theorem shows_add {t : Table} {rs : List Record} (h : t.Shows rs) (r : Record) :
    (t.add r).Shows (rs ++ [r]) := by
  have hmem : ∀ file ∈ t.files, file ∈ rs.map Record.file :=
    fun file hf => List.mem_map.mpr ((h.mem_files file).mp hf)
  refine ⟨fun file => ?_, ?_, fun file optimization => ?_⟩
  · have hlast : (∃ q ∈ rs ++ [r], q.file = file) ↔ file ∈ t.files ∨ r.file = file := by
      rw [h.mem_files]
      simp only [List.mem_append, List.mem_singleton, or_and_right, exists_or, exists_eq_left]
    rw [hlast, files_add]
    split
    · next hr => exact ⟨Or.inl, fun e => e.elim id fun e => e ▸ hr⟩
    · rw [List.mem_append, List.mem_singleton, eq_comm]
  · -- the places of the files that are already there do not change
    have hold : t.files.Pairwise fun a b =>
        ((rs ++ [r]).map Record.file).idxOf a < ((rs ++ [r]).map Record.file).idxOf b := by
      rw [List.map_append]
      refine h.order.imp_of_mem fun ha hb hab => ?_
      rwa [List.idxOf_append_of_mem (hmem _ ha), List.idxOf_append_of_mem (hmem _ hb)]
    rw [files_add]
    split
    · exact hold
    · next hr =>
      rw [List.pairwise_append]
      refine ⟨hold, List.pairwise_singleton _ _, fun a ha b hb => ?_⟩
      have hnew : r.file ∉ rs.map Record.file :=
        fun hf => hr ((h.mem_files _).mpr (List.mem_map.mp hf))
      rw [List.mem_singleton.mp hb, List.map_append, List.idxOf_append_of_mem (hmem a ha),
        List.idxOf_append_of_notMem hnew]
      exact Nat.lt_of_lt_of_le (List.idxOf_lt_length_iff.mpr (hmem a ha)) (Nat.le_add_right _ _)
  · rw [size?_add, lastSize?_concat, h.size]

theorem shows_addAll (rs : List Record) : (empty.addAll rs).Shows rs := by
  induction rs using List.reverseRecOn with
  | nil => exact shows_empty
  | append_singleton rs r ih =>
    rw [addAll_append]
    exact shows_add ih r

theorem eraseDups_concat (files : List Bytes) (file : Bytes) :
    (files ++ [file]).eraseDups =
      if file ∈ files then files.eraseDups else files.eraseDups ++ [file] := by
  rw [List.eraseDups_append]
  split
  · next h => simp [List.removeAll, h]
  · next h => simp [List.removeAll, h, List.eraseDups_cons]

/-- the files of records in the order in which they first come -/
def arrivals (rs : List Record) : List Bytes := (rs.map Record.file).eraseDups

theorem files_addAll (rs : List Record) : (empty.addAll rs).files = arrivals rs := by
  unfold arrivals
  induction rs using List.reverseRecOn with
  | nil => rfl
  | append_singleton rs r ih =>
    rw [addAll_append, List.map_append]
    show ((empty.addAll rs).add r).files = (rs.map Record.file ++ [r.file]).eraseDups
    simp only [files_add, eraseDups_concat, ih, List.mem_eraseDups]

/-- the inner ledger of a file has the sizes of that file -/
theorem Shows.get?_eq {t : Table} {rs : List Record} (h : t.Shows rs) {file : Bytes}
    {sizes : Ledger Bytes Float} (hs : t.sizes.get? file = some sizes) (optimization : Bytes) :
    sizes.get? optimization = lastSize? rs file optimization := by
  rw [← h.size file optimization, size?, sizesOf, hs]
  rfl

end Table

/-! ### a list of files and a map -/

/-- a list of files and, beside it, a map from files to sizes; nothing keeps the two in step -/
structure Catalog where
  files : List Bytes
  sizes : Bytes → Option (Bytes → Option Float)

namespace Catalog

def empty : Catalog := ⟨[], fun _ => none⟩

/-- a file without sizes is listed and gets a map of its own -/
def enlist (c : Catalog) (file : Bytes) : Catalog :=
  if (c.sizes file).isSome then c
  else ⟨c.files ++ [file], Function.update c.sizes file (some fun _ => none)⟩

/-- the file of a record is listed if need be, and then its size is set -/
def add (c : Catalog) (r : Record) : Catalog :=
  let listed := c.enlist r.file
  { listed with
    sizes := Function.update listed.sizes r.file
      ((listed.sizes r.file).map fun sizes => Function.update sizes r.optimization (some r.size)) }

def addAll (c : Catalog) (rs : List Record) : Catalog := rs.foldl add c

/-- the listed files are distinct and are those that have sizes -/
structure InStep (c : Catalog) : Prop where
  distinct : c.files.Nodup
  mem_files : ∀ file, file ∈ c.files ↔ (c.sizes file).isSome = true

end Catalog

namespace Table

/-- the files and the sizes of a table side by side -/
def catalog (t : Table) : Catalog := ⟨t.files, fun file => (t.sizes.get? file).map Ledger.get?⟩

theorem get?_sizes (t : Table) (file : Bytes) :
    t.sizes.get? file = if file ∈ t.files then some (t.sizesOf file) else none := by
  have hmem := Ledger.mem_keys_iff t.sizes file
  unfold files sizesOf
  cases hs : t.sizes.get? file with
  | none =>
    rw [hs] at hmem
    rw [if_neg fun h => Bool.noConfusion (hmem.mp h)]
  | some sizes =>
    rw [hs] at hmem
    rw [if_pos (hmem.mpr rfl)]
    rfl

theorem sizes_catalog (t : Table) (file : Bytes) :
    t.catalog.sizes file = if file ∈ t.files then some (t.sizesOf file).get? else none := by
  show (t.sizes.get? file).map Ledger.get? = _
  rw [get?_sizes]
  split
  · rfl
  · rfl

theorem inStep_catalog (t : Table) : t.catalog.InStep := by
  refine ⟨t.sizes.distinct, fun file => ?_⟩
  show file ∈ t.files ↔ (t.catalog.sizes file).isSome = true
  rw [sizes_catalog]
  split
  · next h => exact iff_of_true h rfl
  · next h => exact iff_of_false h Bool.false_ne_true

theorem enlist_catalog (t : Table) (file : Bytes) :
    t.catalog.enlist file =
      ⟨if file ∈ t.files then t.files else t.files ++ [file],
        Function.update t.catalog.sizes file (some (t.sizesOf file).get?)⟩ := by
  have hsizes := t.sizes_catalog file
  unfold Catalog.enlist
  by_cases h : file ∈ t.files
  · -- the map has what is set there already
    rw [if_pos h] at hsizes
    rw [if_pos h, ← hsizes, Function.update_eq_self, hsizes, Option.isSome_some, if_pos rfl]
    rfl
  · have hget := t.get?_sizes file
    rw [if_neg h] at hsizes hget
    rw [if_neg h, hsizes, Option.isSome_none, if_neg Bool.false_ne_true, sizesOf, hget]
    rfl

theorem get?_put_eq_update (sizes : Ledger Bytes Float) (optimization : Bytes) (size : Float) :
    (sizes.put optimization size).get? = Function.update sizes.get? optimization (some size) := by
  funext name
  rw [Ledger.get?_put, Function.update_apply]

/-- adding a record updates the list and the map as if they were apart -/
theorem catalog_add (t : Table) (r : Record) : (t.add r).catalog = t.catalog.add r := by
  have hsizes : (t.add r).catalog.sizes = Function.update t.catalog.sizes r.file
      (some (Function.update (t.sizesOf r.file).get? r.optimization (some r.size))) := by
    funext file
    show ((t.add r).sizes.get? file).map Ledger.get? = _
    rw [add, Ledger.get?_alter, Function.update_apply, ← get?_put_eq_update]
    split
    · rfl
    · rfl
  have hcatalog : (t.add r).catalog = ⟨(t.add r).files, (t.add r).catalog.sizes⟩ := rfl
  unfold Catalog.add
  rw [hcatalog, hsizes, files_add, enlist_catalog]
  dsimp only
  rw [Function.update_self, Option.map_some, Function.update_idem]

theorem catalog_addAll (t : Table) (rs : List Record) :
    (t.addAll rs).catalog = t.catalog.addAll rs := by
  induction rs generalizing t with
  | nil => rfl
  | cons r rest ih =>
    show ((t.add r).addAll rest).catalog = (t.catalog.add r).addAll rest
    rw [ih, catalog_add]

/-- **What a table built by adding records is.** Its files are distinct and stand in the order in
which they first came, a file has sizes iff it is one of them, these sizes are those of the
optimizations recorded for it, of which there is at least one, and the size under a file and an
optimization is that of their last record. A list of files and a map, each updated for itself, come
to the same and stay in step. -/
theorem addAll_empty_exact (rs : List Record) :
    let t := empty.addAll rs
    (t.files.Nodup ∧ (∀ file, file ∈ t.files ↔ ∃ r ∈ rs, r.file = file) ∧
      t.files.Pairwise fun a b =>
        (rs.map Record.file).idxOf a < (rs.map Record.file).idxOf b) ∧
    (∀ file, (t.sizes.get? file).isSome = true ↔ file ∈ t.files) ∧
    (∀ file sizes, t.sizes.get? file = some sizes → sizes.keys ≠ [] ∧ sizes.keys.Nodup ∧
      ∀ optimization, optimization ∈ sizes.keys ↔
        ∃ r ∈ rs, r.file = file ∧ r.optimization = optimization) ∧
    (∀ file optimization, t.size? file optimization = lastSize? rs file optimization) ∧
    Catalog.empty.addAll rs = t.catalog ∧ (Catalog.empty.addAll rs).InStep := by
  intro t
  have h : t.Shows rs := shows_addAll rs
  have hfiles : ∀ file, (t.sizes.get? file).isSome = true ↔ file ∈ t.files :=
    fun file => (Ledger.mem_keys_iff t.sizes file).symm
  have hkeys : ∀ file sizes, t.sizes.get? file = some sizes → ∀ optimization,
      optimization ∈ sizes.keys ↔ ∃ r ∈ rs, r.file = file ∧ r.optimization = optimization := by
    intro file sizes hs optimization
    rw [Ledger.mem_keys_iff, h.get?_eq hs, isSome_lastSize?]
  have hcatalog : Catalog.empty.addAll rs = t.catalog := (catalog_addAll empty rs).symm
  refine ⟨⟨t.sizes.distinct, h.mem_files, h.order⟩, hfiles, fun file sizes hs => ?_, h.size,
    hcatalog, hcatalog ▸ t.inStep_catalog⟩
  refine ⟨?_, sizes.distinct, hkeys file sizes hs⟩
  have hmem : file ∈ t.files := (hfiles file).mp (by rw [hs]; rfl)
  obtain ⟨r, hr, rfl⟩ := (h.mem_files file).mp hmem
  exact List.ne_nil_of_mem ((hkeys _ sizes hs r.optimization).mpr ⟨r, hr, rfl, rfl⟩)

/-! ### more records -/

theorem size?_addAll (t : Table) (rs : List Record) (file optimization : Bytes) :
    (t.addAll rs).size? file optimization =
      (lastSize? rs file optimization).or (t.size? file optimization) := by
  induction rs using List.reverseRecOn with
  | nil => rfl
  | append_singleton rs r ih =>
    rw [addAll_append, lastSize?_concat]
    show ((t.addAll rs).add r).size? file optimization = _
    rw [size?_add]
    split
    · rfl
    · exact ih

theorem files_prefix_addAll (t : Table) (rs : List Record) : t.files <+: (t.addAll rs).files := by
  induction rs generalizing t with
  | nil => exact List.prefix_refl _
  | cons r rest ih =>
    refine List.IsPrefix.trans ?_ (ih (t.add r))
    rw [files_add]
    split
    · exact List.prefix_refl _
    · exact List.prefix_append _ _

theorem keys_sizesOf_add (t : Table) (r : Record) (file : Bytes) :
    ((t.add r).sizesOf file).keys =
      if file = r.file ∧ r.optimization ∉ (t.sizesOf file).keys then
        (t.sizesOf file).keys ++ [r.optimization]
      else (t.sizesOf file).keys := by
  unfold sizesOf add
  rw [Ledger.get?_alter]
  by_cases hf : file = r.file
  · subst hf
    rw [if_pos rfl, Option.getD_some, Ledger.put, Ledger.keys_alter]
    by_cases ho : r.optimization ∈ ((t.sizes.get? r.file).getD Ledger.empty).keys
    · rw [if_pos ho, if_neg fun h => h.2 ho]
    · rw [if_neg ho, if_pos ⟨rfl, ho⟩]
  · rw [if_neg hf, if_neg fun h => hf h.1]

/-- the table has a size for the file and the optimization of a record -/
def Has (t : Table) (r : Record) : Prop := (t.size? r.file r.optimization).isSome = true

theorem Has.add {t : Table} {r : Record} (h : t.Has r) (q : Record) : (t.add q).Has r := by
  unfold Has at h ⊢
  rw [size?_add]
  split
  · rfl
  · exact h

theorem mem_files_of_size? {t : Table} {file optimization : Bytes}
    (h : (t.size? file optimization).isSome = true) : file ∈ t.files := by
  rw [files, Ledger.mem_keys_iff]
  unfold size? sizesOf at h
  cases hs : t.sizes.get? file with
  | none => rw [hs] at h; cases h
  | some sizes => rfl

theorem Has.file_mem {t : Table} {r : Record} (h : t.Has r) : r.file ∈ t.files :=
  mem_files_of_size? h

theorem Has.optimization_mem {t : Table} {r : Record} (h : t.Has r) :
    r.optimization ∈ (t.sizesOf r.file).keys :=
  (Ledger.mem_keys_iff _ _).mpr h

/-- records of pairs that the table has change neither the files nor the order of the optimizations
of a file -/
theorem keys_addAll_of_has {t : Table} {rs : List Record} (h : ∀ r ∈ rs, t.Has r) :
    (t.addAll rs).files = t.files ∧
      ∀ file, ((t.addAll rs).sizesOf file).keys = (t.sizesOf file).keys := by
  induction rs generalizing t with
  | nil => exact ⟨rfl, fun _ => rfl⟩
  | cons r rest ih =>
    have hr := h r List.mem_cons_self
    obtain ⟨hfiles, hkeys⟩ := ih fun q hq => (h q (List.mem_cons_of_mem r hq)).add r
    refine ⟨hfiles.trans ?_, fun file => (hkeys file).trans ?_⟩
    · rw [files_add, if_pos hr.file_mem]
    · rw [keys_sizesOf_add, if_neg]
      rintro ⟨rfl, hnot⟩
      exact hnot hr.optimization_mem

theorem ext_size? {t u : Table} (hfiles : t.files = u.files)
    (hkeys : ∀ file, (t.sizesOf file).keys = (u.sizesOf file).keys)
    (hsize : ∀ file optimization, t.size? file optimization = u.size? file optimization) :
    t = u := by
  have hget : ∀ file, t.sizes.get? file = u.sizes.get? file := by
    intro file
    have hsizesOf : t.sizesOf file = u.sizesOf file := Ledger.ext_get? (hkeys file) (hsize file)
    rw [get?_sizes, get?_sizes, hfiles, hsizesOf]
  obtain ⟨a⟩ := t
  obtain ⟨b⟩ := u
  exact congrArg Table.mk (Ledger.ext_get? hfiles hget)

theorem addAll_again (rs : List Record) : (empty.addAll rs).addAll rs = empty.addAll rs := by
  have hshows := shows_addAll rs
  have hhas : ∀ r ∈ rs, (empty.addAll rs).Has r := by
    intro r hr
    rw [Has, hshows.size, isSome_lastSize?]
    exact ⟨r, hr, rfl, rfl⟩
  obtain ⟨hfiles, hkeys⟩ := keys_addAll_of_has hhas
  apply ext_size? hfiles hkeys
  intro file optimization
  rw [size?_addAll, hshows.size, Option.or_self]

end Table

end Footprint
