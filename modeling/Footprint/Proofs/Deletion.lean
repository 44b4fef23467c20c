import Footprint.Proofs.Reordering

/-!
# Records left out

How far the records of some files, or of one optimization, reach into the statistics of the others.
Leaving out the records of some files leaves out their entries of the table and nothing else
(`Table.entries_addAll_filter`), and files without a baseline give no decrease
(`Table.decreases_addAll_filter`). Leaving out an optimization takes its sizes away
(`Table.size?_addAll_without`); it may take files away and let others come first later, so the
groups of the other optimizations stay up to order (`Table.isolated`).
-/

namespace Footprint

/-- elements that give nothing may be left out -/
theorem flatMap_filter_of_nil {α β : Type} {f : α → List β} {keep : α → Bool} {xs : List α}
    (h : ∀ a ∈ xs, keep a = false → f a = []) : (xs.filter keep).flatMap f = xs.flatMap f := by
  induction xs with
  | nil => rfl
  | cons a rest ih =>
    have ih := ih fun b hb => h b (List.mem_cons_of_mem a hb)
    rw [List.filter_cons, List.flatMap_cons]
    cases ha : keep a with
    | true => rw [if_pos rfl, List.flatMap_cons, ih]
    | false => rw [if_neg Bool.false_ne_true, ih, h a List.mem_cons_self ha, List.nil_append]

namespace Ledger

variable {κ ν : Type} [DecidableEq κ] {keep : κ → Bool}

theorem change_filter {key : κ} (hkey : keep key = true) (f : Option ν → ν)
    (entries : List (κ × ν)) :
    (change key f entries).filter (fun e => keep e.1) =
      change key f (entries.filter fun e => keep e.1) := by
  induction entries with
  | nil => simp [change, hkey]
  | cons e rest ih =>
    obtain ⟨k, v⟩ := e
    by_cases hk : k = key
    · subst hk
      simp [change, hkey]
    · cases hkeep : keep k with
      | true => simp [change, hk, hkeep, ih]
      | false => simp [change, hk, hkeep, ih]

theorem change_filter_of_not {key : κ} (hkey : keep key = false) (f : Option ν → ν)
    (entries : List (κ × ν)) :
    (change key f entries).filter (fun e => keep e.1) = entries.filter fun e => keep e.1 := by
  induction entries with
  | nil => simp [change, hkey]
  | cons e rest ih =>
    obtain ⟨k, v⟩ := e
    by_cases hk : k = key
    · subst hk
      simp [change, hkey]
    · simp [change, hk, List.filter_cons, ih]

end Ledger

namespace Table

/-! ### files left out -/

theorem entries_addAll_filter (keep : Bytes → Bool) (rs : List Record) :
    (empty.addAll (rs.filter fun r => keep r.file)).sizes.entries =
      (empty.addAll rs).sizes.entries.filter fun e => keep e.1 := by
  induction rs using List.reverseRecOn with
  | nil => rfl
  | append_singleton rs r ih =>
    rw [List.filter_append, addAll_append, addAll_append]
    show _ = ((empty.addAll rs).add r).sizes.entries.filter _
    unfold add Ledger.alter
    rw [List.filter_cons]
    cases hr : keep r.file with
    | true =>
      rw [if_pos rfl, Ledger.change_filter hr, ← ih]
      rfl
    | false =>
      rw [if_neg Bool.false_ne_true, Ledger.change_filter_of_not hr, ← ih]
      rfl

theorem decreasesOf_of_no_baseline {sizes : Ledger Bytes Float}
    (h : sizes.get? baseline = none) : decreasesOf sizes = [] := by
  rw [decreasesOf, h]

/-- files without a baseline may be left out of what the decreases are collected from -/
theorem decreases_addAll_filter (keep : Bytes → Bool) {rs : List Record}
    (h : ∀ r ∈ rs, keep r.file = false → r.optimization ≠ baseline) :
    (empty.addAll (rs.filter fun r => keep r.file)).decreases = (empty.addAll rs).decreases := by
  have hshows := shows_addAll rs
  have hgone : ∀ e ∈ (empty.addAll rs).sizes.entries, keep e.1 = false → decreasesOf e.2 = [] := by
    intro e he hkeep
    have hget := (Ledger.get?_eq_some_iff (empty.addAll rs).sizes).mpr he
    apply decreasesOf_of_no_baseline
    rw [hshows.get?_eq hget, ← Option.not_isSome_iff_eq_none, isSome_lastSize?]
    rintro ⟨r, hr, hfile, hbase⟩
    exact h r hr (hfile ▸ hkeep) hbase
  have hflat :=
    flatMap_filter_of_nil (f := fun e : Bytes × Ledger Bytes Float => decreasesOf e.2) hgone
  rw [decreases, decreases, Groups.collect_eq_foldl, Groups.collect_eq_foldl, Ledger.values,
    Ledger.values, entries_addAll_filter, List.map_map, List.map_map]
  exact congrArg (List.foldl Groups.push Ledger.empty) hflat

/-! ### an optimization left out -/

/-- the records of all optimizations but one -/
def without (optimization : Bytes) (rs : List Record) : List Record :=
  rs.filter fun r => r.optimization ≠ optimization

theorem lastSize?_without (rs : List Record) (file optimization name : Bytes) :
    lastSize? (without optimization rs) file name =
      if name = optimization then none else lastSize? rs file name := by
  unfold lastSize? without
  rw [List.filter_filter]
  by_cases h : name = optimization
  · subst h
    rw [if_pos rfl, List.filter_eq_nil_iff.mpr (by simp)]
    rfl
  · rw [if_neg h]
    congr 2
    apply List.filter_congr
    intro r _
    by_cases hr : r.optimization = name
    · simp [hr, h]
    · simp [hr]

theorem size?_addAll_without (rs : List Record) (file optimization name : Bytes) :
    (empty.addAll (without optimization rs)).size? file name =
      if name = optimization then none else (empty.addAll rs).size? file name := by
  rw [(shows_addAll _).size, (shows_addAll rs).size, lastSize?_without]

section
variable (optimization : Bytes) (rs : List Record)

theorem groups_without :
    (empty.addAll (without optimization rs)).groups.get? optimization = none := by
  rw [← Option.not_isSome_iff_eq_none, isSome_get?_groups]
  rintro ⟨file, -, hsize⟩
  rw [size?_addAll_without, if_pos rfl] at hsize
  cases hsize

theorem decreases_without :
    (empty.addAll (without optimization rs)).decreases.get? optimization = none := by
  rw [← Option.not_isSome_iff_eq_none, isSome_get?_decreases]
  rintro ⟨-, file, -, -, hsize⟩
  rw [size?_addAll_without, if_pos rfl] at hsize
  cases hsize

variable {optimization} in
theorem size?_without {name : Bytes} (h : name ≠ optimization) (file : Bytes) :
    (empty.addAll rs).size? file name =
      (empty.addAll (without optimization rs)).size? file name := by
  rw [size?_addAll_without, if_neg h]

end

end Table

namespace Stat

variable {condense : List Float → Float} {g h : Groups} {optimization : Bytes}
  (hgone : h.get? optimization = none)
include hgone

theorem names_ofGroups_without {r : List Float → List Float → Prop}
    (hrel : ∀ name, name ≠ optimization → Option.Rel r (g.get? name) (h.get? name)) :
    (ofGroups condense h).map Stat.name =
      ((ofGroups condense g).map Stat.name).filter (· ≠ optimization) := by
  refine (ordered_names condense h).eq_of_mem_iff ((ordered_names condense g).filter _) ?_
  intro name
  rw [List.mem_filter, mem_names_ofGroups, mem_names_ofGroups, decide_eq_true_eq]
  by_cases hname : name = optimization
  · simp [hname, hgone]
  · simp [hname, isSome_eq_of_rel (hrel name hname)]

theorem ofGroups_without (heq : ∀ name, name ≠ optimization → h.get? name = g.get? name) :
    ofGroups condense h = (ofGroups condense g).filter (·.name ≠ optimization) := by
  refine (ordered_ofGroups condense h).eq_of_mem_iff ((ordered_ofGroups condense g).filter _) ?_
  intro s
  rw [List.mem_filter, mem_ofGroups_iff, mem_ofGroups_iff, decide_eq_true_eq]
  by_cases hname : s.name = optimization
  · simp [hname, hgone]
  · simp [hname, heq s.name hname]

end Stat

namespace Table

/-- **How far records reach.** Leaving out files without a baseline changes no decrease. Leaving out
an optimization besides the baseline changes the groups of the others up to order and takes its own
name off the two lists of statistics; if the files that are left still come in the same order, the
groups of the others stay as they are, and so do their statistics. -/
theorem isolated (rs : List Record) :
    (∀ gone : Bytes → Bool, (∀ r ∈ rs, gone r.file = true → r.optimization ≠ baseline) →
      let t := empty.addAll rs
      let u := empty.addAll (rs.filter fun r => !gone r.file)
      u.decreases = t.decreases ∧
      ∀ f g, (Summary.ofTableWith f g u).decreases = (Summary.ofTableWith f g t).decreases) ∧
    ∀ optimization, optimization ≠ baseline →
      let t := empty.addAll rs
      let u := empty.addAll (without optimization rs)
      (∀ name, name ≠ optimization →
        Option.Rel List.Perm (t.groups.get? name) (u.groups.get? name) ∧
        Option.Rel List.Perm (t.decreases.get? name) (u.decreases.get? name)) ∧
      (∀ f g, (Summary.ofTableWith f g u).sizes.map Stat.name =
          ((Summary.ofTableWith f g t).sizes.map Stat.name).filter (· ≠ optimization) ∧
        (Summary.ofTableWith f g u).decreases.map Stat.name =
          ((Summary.ofTableWith f g t).decreases.map Stat.name).filter (· ≠ optimization)) ∧
      (arrivals (without optimization rs) =
          (arrivals rs).filter (· ∈ arrivals (without optimization rs)) →
        (∀ name, name ≠ optimization → u.groups.get? name = t.groups.get? name ∧
          u.decreases.get? name = t.decreases.get? name) ∧
        ∀ f g, (Summary.ofTableWith f g u).sizes =
            (Summary.ofTableWith f g t).sizes.filter (·.name ≠ optimization) ∧
          (Summary.ofTableWith f g u).decreases =
            (Summary.ofTableWith f g t).decreases.filter (·.name ≠ optimization)) := by
  constructor
  · intro gone h t u
    have hsame : u.decreases = t.decreases := by
      apply decreases_addAll_filter fun file => !gone file
      intro r hr hgone
      exact h r hr (by simpa using hgone)
    refine ⟨hsame, fun f g => ?_⟩
    show Stat.ofGroups g u.decreases = Stat.ofGroups g t.decreases
    rw [hsame]
  · intro optimization hne t u
    have hsize : ∀ name, name ≠ optimization → ∀ file, t.size? file name = u.size? file name :=
      fun name hname => size?_without rs hname
    have hbase := hsize baseline hne.symm
    have hgroups : ∀ name, name ≠ optimization →
        Option.Rel List.Perm (t.groups.get? name) (u.groups.get? name) :=
      fun name hname => groups_rel (hsize name hname)
    have hdecreases : ∀ name, name ≠ optimization →
        Option.Rel List.Perm (t.decreases.get? name) (u.decreases.get? name) :=
      fun name hname => decreases_rel (hsize name hname) hbase
    have hnoGroup : u.groups.get? optimization = none := groups_without optimization rs
    have hnoDecrease : u.decreases.get? optimization = none := decreases_without optimization rs
    refine ⟨fun name hname => ⟨hgroups name hname, hdecreases name hname⟩, fun f g => ?_,
      fun horder => ?_⟩
    · exact ⟨Stat.names_ofGroups_without hnoGroup hgroups,
        Stat.names_ofGroups_without hnoDecrease hdecreases⟩
    · rw [← files_addAll, ← files_addAll] at horder
      have hsame : ∀ name, name ≠ optimization → u.groups.get? name = t.groups.get? name :=
        fun name hname => groups_eq (hsize name hname) horder
      have hsame' : ∀ name, name ≠ optimization → u.decreases.get? name = t.decreases.get? name :=
        fun name hname => decreases_eq (hsize name hname) hbase horder
      refine ⟨fun name hname => ⟨hsame name hname, hsame' name hname⟩, fun f g => ?_⟩
      exact ⟨Stat.ofGroups_without hnoGroup hsame, Stat.ofGroups_without hnoDecrease hsame'⟩

/-- the file `b` has no baseline, and without `O3` it comes behind `a` -/
def sampleMixed : List Record := [
  ⟨Bytes.ofString "b", Bytes.ofString "O3", 1⟩, ⟨Bytes.ofString "a", Bytes.ofString "O2", 2⟩,
  ⟨Bytes.ofString "b", Bytes.ofString "O2", 3⟩, ⟨Bytes.ofString "a", baseline, 4⟩]

theorem isolated_sample :
    (empty.addAll (sampleMixed.filter fun r => !(r.file == Bytes.ofString "b"))).decreases =
      (empty.addAll sampleMixed).decreases ∧
    (arrivals (without (Bytes.ofString "O3") sampleMixed) ≠ arrivals sampleMixed ∧
      Option.Rel List.Perm ((empty.addAll sampleMixed).groups.get? (Bytes.ofString "O2"))
        ((empty.addAll (without (Bytes.ofString "O3") sampleMixed)).groups.get?
          (Bytes.ofString "O2"))) ∧
    (empty.addAll (without (Bytes.ofString "O2") sampleMixed)).groups.get? baseline =
      (empty.addAll sampleMixed).groups.get? baseline := by
  obtain ⟨hfiles, hwithout⟩ := isolated sampleMixed
  have hnone : ∀ r ∈ sampleMixed, (r.file == Bytes.ofString "b") = true →
      r.optimization ≠ baseline := by
    simp only [sampleMixed, List.forall_mem_cons]
    decide
  obtain ⟨hrel, -, -⟩ := hwithout (Bytes.ofString "O3") (by decide)
  obtain ⟨-, -, hexact⟩ := hwithout (Bytes.ofString "O2") (by decide)
  refine ⟨(hfiles (· == Bytes.ofString "b") hnone).1, ⟨by decide, (hrel _ (by decide)).1⟩, ?_⟩
  exact ((hexact (by decide)).1 baseline (by decide)).1

end Table

end Footprint
