import Mathlib.Data.List.Nodup
import Mathlib.Data.List.Perm.Basic
import Footprint.Listing
import Footprint.Proofs.Summary
import Footprint.Proofs.Table

/-!
# Records in another order

What a table makes of its records depends on their order in two ways: the last record of a file and
an optimization wins, and files stand in the order in which they first came. Two tables with the
same sizes under an optimization have the same group under it up to order (`Table.groups_rel`), and
the very same group if the files stand in the same order (`Table.groups_eq`); the decreases behave
likewise. So records may change places as long as those of one file and optimization do not pass
each other (`Reordered`): nothing changes but the order of files, and nothing at all if that stays
(`Reordered.summary_exact`).
-/

namespace Footprint

theorem Ordered.eq_of_mem_iff {α : Type} {name : α → Bytes} {xs ys : List α}
    (hx : Ordered name xs) (hy : Ordered name ys) (h : ∀ x, x ∈ xs ↔ x ∈ ys) : xs = ys :=
  hx.eq_of_perm hy ((List.perm_ext_iff_of_nodup (.of_map _ hx.nodup) (.of_map _ hy.nodup)).mpr h)

/-- elements without a value do not matter, and each of the others stands in both lists once -/
theorem filterMap_perm {α β : Type} {f : α → Option β} {xs ys : List α} (hx : xs.Nodup)
    (hy : ys.Nodup) (h : ∀ a, (f a).isSome = true → (a ∈ xs ↔ a ∈ ys)) :
    (xs.filterMap f).Perm (ys.filterMap f) := by
  have hvalued : ∀ zs : List α, zs.filterMap f = (zs.filter fun a => (f a).isSome).filterMap f := by
    intro zs
    rw [List.filterMap_filter]
    apply List.filterMap_congr
    intro a _
    cases f a with
    | none => rfl
    | some b => rfl
  rw [hvalued xs, hvalued ys]
  apply List.Perm.filterMap
  rw [List.perm_ext_iff_of_nodup (hx.filter _) (hy.filter _)]
  intro a
  rw [List.mem_filter, List.mem_filter]
  exact and_congr_left (h a)

/-- leaving out elements without a value changes nothing -/
theorem filterMap_filter_of_isSome {α β : Type} {f : α → Option β} {keep : α → Bool} {xs : List α}
    (h : ∀ a ∈ xs, (f a).isSome = true → keep a = true) :
    (xs.filter keep).filterMap f = xs.filterMap f := by
  rw [List.filterMap_filter]
  apply List.filterMap_congr
  intro a ha
  cases hf : f a with
  | none => rw [ite_self]
  | some b => rw [if_pos (h a ha (by rw [hf]; rfl))]

theorem isSome_eq_of_rel {α : Type} {r : α → α → Prop} {x y : Option α} (h : Option.Rel r x y) :
    x.isSome = y.isSome := by
  cases h with
  | none => rfl
  | some _ => rfl

theorem Groups.rel_group? {values values' : List Float} (h : values.Perm values') :
    Option.Rel List.Perm (group? values) (group? values') := by
  cases values with
  | nil =>
    rw [List.nil_perm.mp h]
    exact .none
  | cons x rest =>
    cases values' with
    | nil => exact absurd h.symm (List.not_perm_nil_cons x rest)
    | cons x' rest' => exact .some h

/-! ### statistics of related groups -/

namespace Stat

variable {condense : List Float → Float} {g h : Groups}

theorem ordered_names (condense : List Float → Float) (g : Groups) :
    Ordered id ((ofGroups condense g).map Stat.name) :=
  List.pairwise_map.mpr (ordered_ofGroups condense g)

theorem names_ofGroups_eq {r : List Float → List Float → Prop}
    (hr : ∀ name, Option.Rel r (g.get? name) (h.get? name)) :
    (ofGroups condense g).map Stat.name = (ofGroups condense h).map Stat.name := by
  refine (ordered_names condense g).eq_of_mem_iff (ordered_names condense h) ?_
  intro name
  rw [mem_names_ofGroups, mem_names_ofGroups, isSome_eq_of_rel (hr name)]

theorem mem_ofGroups_iff {s : Stat} :
    s ∈ ofGroups condense g ↔ (g.get? s.name).map condense = some s.value := by
  rw [mem_ofGroups, Option.map_eq_some_iff]
  simp only [eq_comm]

/-- a value that does not depend on the order of what it is condensed from -/
def Orderless (condense : List Float → Float) : Prop :=
  ∀ values values' : List Float, values.Perm values' → condense values = condense values'

theorem ofGroups_eq_of_rel (hc : Orderless condense)
    (hr : ∀ name, Option.Rel List.Perm (g.get? name) (h.get? name)) :
    ofGroups condense g = ofGroups condense h := by
  refine (ordered_ofGroups condense g).eq_of_mem_iff (ordered_ofGroups condense h) ?_
  intro s
  have hmap : (g.get? s.name).map condense = (h.get? s.name).map condense := by
    have hname := hr s.name
    generalize g.get? s.name = x, h.get? s.name = y at hname ⊢
    cases hname with
    | none => rfl
    | some hperm => exact congrArg some (hc _ _ hperm)
  rw [mem_ofGroups_iff, mem_ofGroups_iff, hmap]

end Stat

/-! ### tables that agree under an optimization -/

namespace Table

open Groups

variable {t u : Table} {name : Bytes}

theorem mem_files_of_decrease? {file : Bytes} (h : (t.decrease? file name).isSome = true) :
    file ∈ t.files :=
  mem_files_of_size? ((isSome_decrease? t file name).mp h).2.2

/-- values that only files of both tables have, in two orders of files -/
theorem rel_group_files {value? : Bytes → Option Float}
    (ht : ∀ file, (value? file).isSome = true → file ∈ t.files)
    (hu : ∀ file, (value? file).isSome = true → file ∈ u.files) :
    Option.Rel List.Perm (group? (t.files.filterMap value?))
      (group? (u.files.filterMap value?)) := by
  apply rel_group?
  apply filterMap_perm t.sizes.distinct u.sizes.distinct
  intro file hfile
  exact ⟨fun _ => hu file hfile, fun _ => ht file hfile⟩

/-- files that give no value may be missing -/
theorem group_files_eq {value? : Bytes → Option Float} {keep : Bytes → Bool}
    (hfiles : u.files = t.files.filter keep)
    (hu : ∀ file, (value? file).isSome = true → file ∈ u.files) :
    group? (u.files.filterMap value?) = group? (t.files.filterMap value?) := by
  rw [hfiles] at hu ⊢
  congr 1
  apply filterMap_filter_of_isSome
  intro file _ hfile
  exact (List.mem_filter.mp (hu file hfile)).2

section
variable (hsize : ∀ file, t.size? file name = u.size? file name)
include hsize

theorem groups_rel : Option.Rel List.Perm (t.groups.get? name) (u.groups.get? name) := by
  rw [get?_groups, get?_groups, ← funext hsize]
  exact rel_group_files (fun _ => mem_files_of_size?)
    fun file hfile => mem_files_of_size? (hsize file ▸ hfile)

theorem groups_eq {keep : Bytes → Bool} (hfiles : u.files = t.files.filter keep) :
    u.groups.get? name = t.groups.get? name := by
  rw [get?_groups, get?_groups, ← funext hsize]
  exact group_files_eq hfiles fun file hfile => mem_files_of_size? (hsize file ▸ hfile)

variable (hbase : ∀ file, t.size? file baseline = u.size? file baseline)
include hbase

theorem decrease?_eq : (t.decrease? · name) = (u.decrease? · name) :=
  funext fun file => decrease?_congr (hbase file) (hsize file)

theorem decreases_rel : Option.Rel List.Perm (t.decreases.get? name) (u.decreases.get? name) := by
  have hd := decrease?_eq hsize hbase
  rw [get?_decreases, get?_decreases, ← hd]
  exact rel_group_files (fun _ => mem_files_of_decrease?)
    fun file hfile => mem_files_of_decrease? (congrFun hd file ▸ hfile)

theorem decreases_eq {keep : Bytes → Bool} (hfiles : u.files = t.files.filter keep) :
    u.decreases.get? name = t.decreases.get? name := by
  have hd := decrease?_eq hsize hbase
  rw [get?_decreases, get?_decreases, ← hd]
  exact group_files_eq hfiles fun file hfile => mem_files_of_decrease? (congrFun hd file ▸ hfile)

end

/-- the same sizes under the same optimizations of the same files, in whatever order -/
def SameSizes (t u : Table) : Prop :=
  ∀ file, Option.Rel Ledger.Rearranged (t.sizes.get? file) (u.sizes.get? file)

theorem sameSizes_of_size? (hfiles : ∀ file, file ∈ t.files ↔ file ∈ u.files)
    (hsize : ∀ file name, t.size? file name = u.size? file name) : t.SameSizes u := by
  intro file
  rw [get?_sizes, get?_sizes]
  by_cases h : file ∈ t.files
  · rw [if_pos h, if_pos ((hfiles file).mp h)]
    exact .some ((Ledger.rearranged_iff _ _).mpr (hsize file))
  · rw [if_neg h, if_neg fun h' => h ((hfiles file).mpr h')]
    exact .none

theorem entries_eq_map (t : Table) :
    t.sizes.entries = t.files.map fun file => (file, t.sizesOf file) := by
  rw [files, Ledger.keys, List.map_map]
  refine (List.map_id _).symm.trans (List.map_congr_left ?_)
  intro e he
  show e = (e.1, t.sizesOf e.1)
  rw [t.sizesOf_of_mem he]

theorem rearranged_of_size? (hfiles : t.files = u.files)
    (hsize : ∀ file name, t.size? file name = u.size? file name) : t.Rearranged u := by
  rw [Rearranged, entries_eq_map t, entries_eq_map u, hfiles, List.forall₂_map_left_iff,
    List.forall₂_map_right_iff, List.forall₂_same]
  intro file _
  exact ⟨rfl, (Ledger.rearranged_iff _ _).mpr (hsize file)⟩

end Table

/-! ### records that change places -/

/-- the records of one file and optimization, in order -/
def seriesOf (rs : List Record) (file optimization : Bytes) : List Record :=
  rs.filter fun r => r.file = file ∧ r.optimization = optimization

/-- the same records in another order, in which no record passes one of its own file and
optimization -/
structure Reordered (rs rs' : List Record) : Prop where
  perm : rs.Perm rs'
  series : ∀ file optimization, seriesOf rs file optimization = seriesOf rs' file optimization

namespace Reordered

open Table

section
variable {rs rs' : List Record} (h : Reordered rs rs')
include h

theorem size?_eq (file name : Bytes) :
    (empty.addAll rs).size? file name = (empty.addAll rs').size? file name := by
  have hlast : ∀ qs, lastSize? qs file name = (seriesOf qs file name).getLast?.map Record.size :=
    fun _ => rfl
  rw [(shows_addAll rs).size, (shows_addAll rs').size, hlast, hlast, h.series]

theorem files_perm : (empty.addAll rs).files.Perm (empty.addAll rs').files := by
  refine (List.perm_ext_iff_of_nodup (Ledger.distinct _) (Ledger.distinct _)).mpr ?_
  intro file
  show file ∈ (empty.addAll rs).files ↔ file ∈ (empty.addAll rs').files
  rw [(shows_addAll rs).mem_files, (shows_addAll rs').mem_files]
  simp only [h.perm.mem_iff]

end

/-- **The order of records matters no further than a table shows.** Records that change places, none
of them passing one of its own file and optimization, leave the sizes of a table as they are. Its
files change places, so do the values of each group, and the summary lists the same names; what is
condensed from a group without regard to order stays. If files first come in the same order, the
table, its groups, its summary and what is printed of it are the same. -/
theorem summary_exact {rs rs' : List Record} (h : Reordered rs rs') :
    let t := empty.addAll rs
    let u := empty.addAll rs'
    (t.SameSizes u ∧ t.files.Perm u.files) ∧
    (∀ name, Option.Rel List.Perm (t.groups.get? name) (u.groups.get? name) ∧
      Option.Rel List.Perm (t.decreases.get? name) (u.decreases.get? name)) ∧
    (∀ f g, (Summary.ofTableWith f g t).sizes.map Stat.name =
        (Summary.ofTableWith f g u).sizes.map Stat.name ∧
      (Summary.ofTableWith f g t).decreases.map Stat.name =
        (Summary.ofTableWith f g u).decreases.map Stat.name) ∧
    (∀ f g, Stat.Orderless f → Stat.Orderless g →
      Summary.ofTableWith f g t = Summary.ofTableWith f g u) ∧
    (arrivals rs = arrivals rs' →
      (t.files = u.files ∧ t.Rearranged u) ∧
      (∀ name, t.groups.get? name = u.groups.get? name ∧
        t.decreases.get? name = u.decreases.get? name) ∧
      ∀ f g, Summary.ofTableWith f g t = Summary.ofTableWith f g u ∧
        ∀ limit, deliver limit (Listing.summary (Summary.ofTableWith f g t)) =
          deliver limit (Listing.summary (Summary.ofTableWith f g u))) := by
  intro t u
  have hsize : ∀ file name, t.size? file name = u.size? file name := h.size?_eq
  have hgroups : ∀ name, Option.Rel List.Perm (t.groups.get? name) (u.groups.get? name) :=
    fun name => groups_rel (hsize · name)
  have hdecreases : ∀ name,
      Option.Rel List.Perm (t.decreases.get? name) (u.decreases.get? name) :=
    fun name => decreases_rel (hsize · name) (hsize · baseline)
  refine ⟨⟨sameSizes_of_size? (fun _ => h.files_perm.mem_iff) hsize, h.files_perm⟩,
    fun name => ⟨hgroups name, hdecreases name⟩, fun f g => ?_, fun f g hf hg => ?_,
    fun horder => ?_⟩
  · exact ⟨Stat.names_ofGroups_eq hgroups, Stat.names_ofGroups_eq hdecreases⟩
  · exact congrArg₂ Summary.mk (Stat.ofGroups_eq_of_rel hf hgroups)
      (Stat.ofGroups_eq_of_rel hg hdecreases)
  · have hfiles : t.files = u.files := by
      rw [files_addAll, files_addAll, horder]
    have hsame : t.Rearranged u := rearranged_of_size? hfiles hsize
    have hsummary : ∀ f g, Summary.ofTableWith f g t = Summary.ofTableWith f g u := by
      intro f g
      exact (congrArg₂ Summary.mk (Stat.ofGroups_of_rearranged hsame.groups)
        (Stat.ofGroups_of_rearranged hsame.decreases)).symm
    refine ⟨⟨hfiles, hsame⟩, fun name => ⟨?_, ?_⟩, fun f g => ⟨hsummary f g, fun limit => ?_⟩⟩
    · exact (Ledger.rearranged_iff _ _).mp hsame.groups name
    · exact (Ledger.rearranged_iff _ _).mp hsame.decreases name
    · rw [hsummary]

/-- two neighbours of different files or optimizations may change places -/
theorem swap (front back : List Record) {r q : Record}
    (hne : r.file ≠ q.file ∨ r.optimization ≠ q.optimization) :
    Reordered (front ++ r :: q :: back) (front ++ q :: r :: back) := by
  refine ⟨(List.Perm.swap q r back).append_left front, fun file optimization => ?_⟩
  unfold seriesOf
  rw [List.filter_append, List.filter_append]
  congr 1
  by_cases hr : r.file = file ∧ r.optimization = optimization
  · have hq : ¬ (q.file = file ∧ q.optimization = optimization) := by
      rintro ⟨rfl, rfl⟩
      exact hne.elim (fun e => e hr.1) fun e => e hr.2
    simp [hr, hq]
  · simp [List.filter_cons, hr]

/-- the file `b` comes second, and the size of `a` under `O2` is replaced -/
def sampleRecords : List Record := [
  ⟨Bytes.ofString "a", Bytes.ofString "O2", 1⟩, ⟨Bytes.ofString "b", Bytes.ofString "O2", 3⟩,
  ⟨Bytes.ofString "a", baseline, 4⟩, ⟨Bytes.ofString "a", Bytes.ofString "O2", 2⟩]

/-- the first two records changed: now `b` comes first -/
def sampleFilesSwapped : List Record := [
  ⟨Bytes.ofString "b", Bytes.ofString "O2", 3⟩, ⟨Bytes.ofString "a", Bytes.ofString "O2", 1⟩,
  ⟨Bytes.ofString "a", baseline, 4⟩, ⟨Bytes.ofString "a", Bytes.ofString "O2", 2⟩]

/-- the last two records changed, which leaves the files in their order -/
def sampleFilesKept : List Record := [
  ⟨Bytes.ofString "a", Bytes.ofString "O2", 1⟩, ⟨Bytes.ofString "b", Bytes.ofString "O2", 3⟩,
  ⟨Bytes.ofString "a", Bytes.ofString "O2", 2⟩, ⟨Bytes.ofString "a", baseline, 4⟩]

theorem summary_exact_sample :
    (Reordered sampleRecords sampleFilesSwapped ∧
      (empty.addAll sampleRecords).files ≠ (empty.addAll sampleFilesSwapped).files ∧
      (empty.addAll sampleRecords).files.Perm (empty.addAll sampleFilesSwapped).files ∧
      Option.Rel List.Perm ((empty.addAll sampleRecords).groups.get? (Bytes.ofString "O2"))
        ((empty.addAll sampleFilesSwapped).groups.get? (Bytes.ofString "O2"))) ∧
    Reordered sampleRecords sampleFilesKept ∧
      Summary.ofTable (empty.addAll sampleRecords) =
        Summary.ofTable (empty.addAll sampleFilesKept) := by
  have hswapped : Reordered sampleRecords sampleFilesSwapped := swap [] _ (.inl (by decide))
  have hkept : Reordered sampleRecords sampleFilesKept :=
    swap (sampleRecords.take 2) [] (.inr (by decide))
  obtain ⟨⟨-, hfiles⟩, hgroups, -⟩ := summary_exact hswapped
  obtain ⟨-, -, -, -, hexact⟩ := summary_exact hkept
  refine ⟨⟨hswapped, by decide, hfiles, (hgroups _).1⟩, hkept, ?_⟩
  exact ((hexact (by decide)).2.2 geometricMean mean).1

end Reordered

end Footprint
