import Footprint.Proofs.Groups
import Footprint.Proofs.Lookup

/-!
# What the summary of a table is

A summary is computed from collections whose order is left open: the sizes of a file and the groups
may be walked in any order, and the statistics may be sorted by any method (`Summary.Possible`).
Names are distinct on both levels, so none of this shows in the outcome: there is one possible
summary (`Summary.possible_iff`), and its names increase (`Stat.ordered_ofGroups`).
-/

namespace Footprint

namespace Stat

variable {condense : List Float → Float} {g : Groups}

theorem nodup_names (condense : List Float → Float) (g : Groups) :
    ((g.entries.map fun e => (⟨e.1, condense e.2⟩ : Stat)).map Stat.name).Nodup := by
  rw [List.map_map]
  exact g.distinct

theorem ordered_ofGroups (condense : List Float → Float) (g : Groups) :
    Ordered Stat.name (ofGroups condense g) :=
  ordered_sortByName (nodup_names condense g)

theorem mem_ofGroups {s : Stat} :
    s ∈ ofGroups condense g ↔
      ∃ values, g.get? s.name = some values ∧ s.value = condense values := by
  rw [ofGroups, Stat.sort, mem_sortByName, List.mem_map]
  constructor
  · rintro ⟨⟨name, values⟩, hmem, rfl⟩
    exact ⟨values, (Ledger.get?_eq_some_iff g).mpr hmem, rfl⟩
  · rintro ⟨values, hget, hvalue⟩
    refine ⟨(s.name, values), (Ledger.get?_eq_some_iff g).mp hget, ?_⟩
    rw [← hvalue]

theorem mem_names_ofGroups {name : Bytes} :
    name ∈ (ofGroups condense g).map Stat.name ↔ (g.get? name).isSome = true := by
  rw [List.mem_map, Option.isSome_iff_exists]
  constructor
  · rintro ⟨s, hmem, rfl⟩
    obtain ⟨values, hget, -⟩ := mem_ofGroups.mp hmem
    exact ⟨values, hget⟩
  · rintro ⟨values, hget⟩
    exact ⟨⟨name, condense values⟩, mem_ofGroups.mpr ⟨values, hget, rfl⟩, rfl⟩

/-- a list that condensing groups may end in: the groups are walked in some order, and what they are
condensed to is put in order of names by some sort -/
def Condenses (condense : List Float → Float) (g : Groups) (stats : List Stat) : Prop :=
  ∃ walked : Groups, g.Rearranged walked ∧
    stats.Perm (walked.entries.map fun e => ⟨e.1, condense e.2⟩) ∧
    stats.Pairwise fun s t => ¬ t.name < s.name

theorem condenses_ofGroups {g walked : Groups} (h : g.Rearranged walked) :
    Condenses condense g (ofGroups condense walked) := by
  refine ⟨walked, h, sortByName_perm _ _, ?_⟩
  apply (sortByName_pairwise Stat.name _).imp
  intro s t hst
  exact List.not_lt.mpr hst

theorem eq_ofGroups_of_condenses {stats : List Stat} (h : Condenses condense g stats) :
    stats = ofGroups condense g := by
  obtain ⟨walked, hwalked, hperm, hsorted⟩ := h
  have hordered : Ordered Stat.name stats :=
    ordered_of_nodup hsorted ((hperm.map Stat.name).nodup_iff.mpr (nodup_names condense walked))
  apply hordered.eq_of_perm (ordered_ofGroups condense g)
  calc
    stats.Perm (walked.entries.map fun e => ⟨e.1, condense e.2⟩) := hperm
    List.Perm _ (g.entries.map fun e => ⟨e.1, condense e.2⟩) := hwalked.symm.map _
    List.Perm _ (ofGroups condense g) := (sortByName_perm _ _).symm

theorem ofGroups_of_rearranged {g walked : Groups} (h : g.Rearranged walked) :
    ofGroups condense walked = ofGroups condense g :=
  eq_ofGroups_of_condenses (condenses_ofGroups h)

end Stat

namespace Summary

variable (condenseSizes condenseDecreases : List Float → Float)

/-- an outcome of summarizing a table: each of the two lists comes from some walk over the sizes of
every file, some walk over the groups and some sort -/
structure Possible (t : Table) (s : Summary) : Prop where
  sizes : ∃ u, t.Rearranged u ∧ Stat.Condenses condenseSizes u.groups s.sizes
  decreases : ∃ u, t.Rearranged u ∧ Stat.Condenses condenseDecreases u.decreases s.decreases

theorem possible_iff (t : Table) (s : Summary) :
    Possible condenseSizes condenseDecreases t s ↔
      s = ofTableWith condenseSizes condenseDecreases t := by
  constructor
  · rintro ⟨⟨u, hu, hsizes⟩, ⟨v, hv, hdecreases⟩⟩
    obtain ⟨sizes, decreases⟩ := s
    have e : sizes = Stat.ofGroups condenseSizes t.groups :=
      (Stat.eq_ofGroups_of_condenses hsizes).trans (Stat.ofGroups_of_rearranged hu.groups)
    have e' : decreases = Stat.ofGroups condenseDecreases t.decreases :=
      (Stat.eq_ofGroups_of_condenses hdecreases).trans (Stat.ofGroups_of_rearranged hv.decreases)
    rw [e, e']
    rfl
  · rintro rfl
    exact ⟨⟨t, .refl t, Stat.condenses_ofGroups (.refl _)⟩,
      ⟨t, .refl t, Stat.condenses_ofGroups (.refl _)⟩⟩

/-- **There is one possible summary of a table.** Its names increase; they are the optimizations of
some file, and the optimizations besides the baseline of some file that has a baseline. A value is
condensed from the group of its name, which is the same on every walk and never empty. -/
theorem possible_exact (t : Table) :
    let s := ofTableWith condenseSizes condenseDecreases t
    (∀ s', Possible condenseSizes condenseDecreases t s' ↔ s' = s) ∧
    (Ordered Stat.name s.sizes ∧
      (∀ name, name ∈ s.sizes.map Stat.name ↔
        ∃ file ∈ t.files, (t.size? file name).isSome = true) ∧
      ∀ stat ∈ s.sizes, ∃ values, t.groups.get? stat.name = some values ∧
        stat.value = condenseSizes values) ∧
    (Ordered Stat.name s.decreases ∧
      (∀ name, name ∈ s.decreases.map Stat.name ↔ name ≠ baseline ∧ ∃ file ∈ t.files,
        (t.size? file baseline).isSome = true ∧ (t.size? file name).isSome = true) ∧
      ∀ stat ∈ s.decreases, ∃ values, t.decreases.get? stat.name = some values ∧
        stat.value = condenseDecreases values) ∧
    ∀ u, t.Rearranged u →
      (∀ name, u.groups.get? name = t.groups.get? name) ∧
      (∀ name, u.decreases.get? name = t.decreases.get? name) ∧
      (∀ values ∈ u.groups.values, values ≠ []) ∧ ∀ values ∈ u.decreases.values, values ≠ [] := by
  intro s
  refine ⟨possible_iff condenseSizes condenseDecreases t, ⟨Stat.ordered_ofGroups _ _, ?_, ?_⟩,
    ⟨Stat.ordered_ofGroups _ _, ?_, ?_⟩, ?_⟩
  · intro name
    rw [← t.isSome_get?_groups]
    exact Stat.mem_names_ofGroups
  · intro stat hstat
    exact Stat.mem_ofGroups.mp hstat
  · intro name
    rw [← t.isSome_get?_decreases]
    exact Stat.mem_names_ofGroups
  · intro stat hstat
    exact Stat.mem_ofGroups.mp hstat
  · intro u hu
    refine ⟨?_, ?_, Groups.ne_nil_of_mem_collect _, Groups.ne_nil_of_mem_collect _⟩
    · exact (Ledger.rearranged_iff _ _).mp hu.groups.symm
    · exact (Ledger.rearranged_iff _ _).mp hu.decreases.symm

/-- two files, of which the second one has no baseline -/
def sampleTable : Table := Table.empty.addAll [
  ⟨Bytes.ofString "a", baseline, 4⟩, ⟨Bytes.ofString "a", Bytes.ofString "O2", 1⟩,
  ⟨Bytes.ofString "b", Bytes.ofString "O1", 2⟩, ⟨Bytes.ofString "b", Bytes.ofString "O2", 3⟩]

/-- the same table with the sizes of both files the other way round -/
def sampleWalked : Table := Table.empty.addAll [
  ⟨Bytes.ofString "a", Bytes.ofString "O2", 1⟩, ⟨Bytes.ofString "a", baseline, 4⟩,
  ⟨Bytes.ofString "b", Bytes.ofString "O2", 3⟩, ⟨Bytes.ofString "b", Bytes.ofString "O1", 2⟩]

theorem possible_exact_sample :
    sampleTable.Rearranged sampleWalked ∧
      ofTableWith geometricMean mean sampleWalked = ofTableWith geometricMean mean sampleTable ∧
      Bytes.ofString "O2" ∈ (ofTableWith geometricMean mean sampleTable).decreases.map Stat.name ∧
      Bytes.ofString "O1" ∉
        (ofTableWith geometricMean mean sampleTable).decreases.map Stat.name := by
  obtain ⟨hunique, -, ⟨-, hnames, -⟩, -⟩ := possible_exact geometricMean mean sampleTable
  have hwalked : sampleTable.Rearranged sampleWalked :=
    .cons ⟨rfl, .swap _ _ _⟩ (.cons ⟨rfl, .swap _ _ _⟩ .nil)
  refine ⟨hwalked, (hunique _).mp ⟨?_, ?_⟩, (hnames _).mpr ⟨by decide, ?_⟩, ?_⟩
  · exact ⟨sampleWalked, hwalked, Stat.condenses_ofGroups (.refl _)⟩
  · exact ⟨sampleWalked, hwalked, Stat.condenses_ofGroups (.refl _)⟩
  · exact ⟨Bytes.ofString "a", by decide, rfl, rfl⟩
  · intro h
    obtain ⟨-, file, hfile, hbase, hsize⟩ := (hnames _).mp h
    have hfiles : sampleTable.files = [Bytes.ofString "a", Bytes.ofString "b"] := by decide
    rw [hfiles] at hfile
    rcases List.mem_pair.mp hfile with rfl | rfl
    · exact absurd hsize (by decide)
    · exact absurd hbase (by decide)

end Summary

end Footprint
