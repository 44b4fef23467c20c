import Mathlib.Data.Set.Card
import Footprint.Proofs.Summary
import Footprint.Proofs.Table

/-!
# Every size counts once

One more value adds one to the number of values in all groups, whichever group it goes to
(`Groups.total_push`), so collecting sections of values keeps their number (`Groups.total_collect`).
The sections of a table are the sizes of its files, one for each pair of a file and an optimization
(`Table.mem_pairs`), and what the pairs are does not depend on the order in which the sizes of a
file are walked. With the values of each group (`Table.get?_groups`, `Table.get?_decreases`) this
says that grouping neither loses nor repeats a size.
-/

namespace Footprint

namespace Groups

/-- how many values there are in all groups -/
def total (g : Groups) : ℕ := (g.values.map List.length).sum

theorem sum_lengths_change (name : Bytes) (x : Float) (entries : List (Bytes × List Float)) :
    (((Ledger.change name (fun values => values.getD [] ++ [x]) entries).map Prod.snd).map
      List.length).sum = ((entries.map Prod.snd).map List.length).sum + 1 := by
  induction entries with
  | nil => rfl
  | cons e rest ih =>
    obtain ⟨k, values⟩ := e
    rw [Ledger.change]
    split
    · simp only [List.map_cons, List.sum_cons, Option.getD_some, List.length_append,
        List.length_singleton]
      omega
    · simp only [List.map_cons, List.sum_cons, ih]
      omega

theorem total_push (g : Groups) (e : Bytes × Float) : (g.push e).total = g.total + 1 :=
  sum_lengths_change e.1 e.2 g.entries

theorem total_foldl_push (g : Groups) (entries : List (Bytes × Float)) :
    (entries.foldl push g).total = g.total + entries.length := by
  induction entries generalizing g with
  | nil => rfl
  | cons e rest ih =>
    rw [List.foldl_cons, ih, total_push, List.length_cons]
    omega

theorem total_collect (sections : List (List (Bytes × Float))) :
    (collect sections).total = (sections.map List.length).sum := by
  have hempty : total Ledger.empty = 0 := rfl
  rw [collect_eq_foldl, total_foldl_push, hempty, Nat.zero_add, List.length_flatten]

theorem mem_keys_iff_of_get? {g : Groups} {name : Bytes} {values : List Float}
    (h : g.get? name = group? values) : name ∈ g.keys ↔ values ≠ [] := by
  rw [Ledger.mem_keys_iff, h, isSome_group?]

end Groups

namespace Table

variable (t : Table)

/-- the pairs of a file and an optimization that have a size -/
def pairs : List (Bytes × Bytes) :=
  t.sizes.entries.flatMap fun e => e.2.keys.map fun optimization => (e.1, optimization)

theorem mem_pairs {file optimization : Bytes} :
    (file, optimization) ∈ t.pairs ↔ (t.size? file optimization).isSome = true := by
  unfold pairs
  rw [List.mem_flatMap]
  constructor
  · rintro ⟨⟨k, sizes⟩, hentry, hmem⟩
    obtain ⟨o, ho, e⟩ := List.mem_map.mp hmem
    obtain ⟨rfl, rfl⟩ := Prod.mk.inj e
    rw [size?, t.sizesOf_of_mem hentry]
    exact (Ledger.mem_keys_iff sizes o).mp ho
  · intro hsize
    have hfile := mem_files_of_size? hsize
    obtain ⟨⟨k, sizes⟩, hentry, rfl⟩ := List.mem_map.mp hfile
    rw [size?, t.sizesOf_of_mem hentry] at hsize
    exact ⟨_, hentry, List.mem_map.mpr ⟨_, (Ledger.mem_keys_iff sizes _).mpr hsize, rfl⟩⟩

theorem nodup_pairs : t.pairs.Nodup := by
  have hfiles : t.sizes.entries.Pairwise fun e f => e.1 ≠ f.1 :=
    List.pairwise_map.mp t.sizes.distinct
  unfold pairs
  rw [List.nodup_flatMap]
  refine ⟨fun e _ => ?_, hfiles.imp fun {e f} hne => ?_⟩
  · exact e.2.distinct.map fun _ _ h => (Prod.mk.inj h).2
  · -- pairs of different files differ
    rintro ⟨file, optimization⟩ he hf
    obtain ⟨_, -, he⟩ := List.mem_map.mp he
    obtain ⟨_, -, hf⟩ := List.mem_map.mp hf
    exact hne ((Prod.mk.inj he).1.trans (Prod.mk.inj hf).1.symm)

theorem length_pairs : t.pairs.length =
    {p : Bytes × Bytes | (t.size? p.1 p.2).isSome = true}.ncard := by
  have hset : {p : Bytes × Bytes | (t.size? p.1 p.2).isSome = true} = t.pairs.toFinset := by
    ext ⟨file, optimization⟩
    show (t.size? file optimization).isSome = true ↔ _
    rw [Finset.mem_coe, List.mem_toFinset, mem_pairs]
  rw [hset, Set.ncard_coe_finset, List.toFinset_card_of_nodup t.nodup_pairs]

theorem total_groups : t.groups.total = t.pairs.length := by
  rw [groups, Groups.total_collect, pairs, List.length_flatMap, Ledger.values, List.map_map,
    List.map_map]
  congr 1
  apply List.map_congr_left
  intro e _
  simp [Ledger.keys]

/-- **Grouping loses and repeats nothing**, in whatever order the sizes of each file are walked.
Under a name stand the sizes of the files that have one, in order of the files, and there is a group
iff there is such a file; in all groups there are as many values as pairs with a size. Under a name
other than the baseline stand the decreases of the files that have a size under both, and the
baseline has no such group. -/
theorem groups_exact {t u : Table} (h : t.Rearranged u) :
    ((∀ name, (u.groups.get? name).getD [] = t.files.filterMap fun file => t.size? file name) ∧
      (∀ name, name ∈ u.groups.keys ↔ (t.files.filterMap fun file => t.size? file name) ≠ []) ∧
      u.groups.total = {p : Bytes × Bytes | (t.size? p.1 p.2).isSome = true}.ncard) ∧
    (∀ name, name ≠ baseline →
      let decreases := t.files.filterMap fun file =>
        (t.size? file baseline).bind fun base => (t.size? file name).map (percentDecrease base)
      (u.decreases.get? name).getD [] = decreases ∧
        (name ∈ u.decreases.keys ↔ decreases ≠ [])) ∧
    baseline ∉ u.decreases.keys := by
  have hgroups : ∀ name, u.groups.get? name =
      Groups.group? (t.files.filterMap fun file => t.size? file name) := by
    intro name
    rw [get?_groups, h.files_eq]
    simp only [h.size?_eq]
  refine ⟨⟨fun name => ?_, fun name => Groups.mem_keys_iff_of_get? (hgroups name), ?_⟩,
    fun name hname => ?_, ?_⟩
  · rw [hgroups, Groups.getD_group?]
  · rw [total_groups, length_pairs]
    simp only [h.size?_eq]
  · have hdecreases : u.decreases.get? name = Groups.group? (t.files.filterMap fun file =>
        (t.size? file baseline).bind fun base =>
          (t.size? file name).map (percentDecrease base)) := by
      rw [get?_decreases, h.files_eq]
      simp only [h.size?_eq, decrease?, decreaseIn?, if_neg hname]
      rfl
    exact ⟨by rw [hdecreases, Groups.getD_group?], Groups.mem_keys_iff_of_get? hdecreases⟩
  · rw [Ledger.mem_keys_iff, isSome_get?_decreases]
    exact fun hbase => hbase.1 rfl

theorem groups_exact_sample :
    Summary.sampleTable.Rearranged Summary.sampleWalked ∧
      (Summary.sampleWalked.groups.get? (Bytes.ofString "O2")).getD [] = [1, 3] ∧
      (Summary.sampleWalked.decreases.get? (Bytes.ofString "O2")).getD [] =
        [percentDecrease 4 1] ∧
      Bytes.ofString "O1" ∉ Summary.sampleWalked.decreases.keys ∧
      baseline ∉ Summary.sampleWalked.decreases.keys := by
  have hwalked : Summary.sampleTable.Rearranged Summary.sampleWalked :=
    .cons ⟨rfl, .swap _ _ _⟩ (.cons ⟨rfl, .swap _ _ _⟩ .nil)
  obtain ⟨⟨hvalues, -, -⟩, hdecreases, hbaseline⟩ := groups_exact hwalked
  refine ⟨hwalked, hvalues _, (hdecreases _ (by decide)).1, ?_, hbaseline⟩
  rw [(hdecreases _ (by decide)).2]
  exact fun hne => hne rfl

end Table

end Footprint
