import Footprint.Delta
import Footprint.Proofs.Summary

/-!
# A comparison is a full outer join

`Delta.Joins` says which rows the full outer join of two lists of statistics has: one for an entry
on both sides with the same name, and one for an entry whose name the other side lacks. If the names
increase on both sides, a comparison has these rows and no others (`Delta.mem_ofStats`), each of
them once (`Delta.ordered_ofStats`).
-/

namespace Footprint.Delta

/-- the rows of the full outer join; names alone decide which side is missing -/
inductive Joins (a b : List Stat) : Delta → Prop where
  | both {name : Bytes} {x y : Float} : ⟨name, x⟩ ∈ a → ⟨name, y⟩ ∈ b →
    Joins a b ⟨name, x, y, false, false⟩
  | onlyA {name : Bytes} {x : Float} : ⟨name, x⟩ ∈ a → name ∉ b.map Stat.name →
    Joins a b ⟨name, x, 0, true, false⟩
  | onlyB {name : Bytes} {y : Float} : name ∉ a.map Stat.name → ⟨name, y⟩ ∈ b →
    Joins a b ⟨name, 0, y, false, true⟩

variable {a b : List Stat}

theorem Joins.name_mem {d : Delta} (h : Joins a b d) :
    d.name ∈ a.map Stat.name ∨ d.name ∈ b.map Stat.name := by
  cases h with
  | both ha _ => exact .inl (Stat.mem_names.mpr ⟨_, ha⟩)
  | onlyA ha _ => exact .inl (Stat.mem_names.mpr ⟨_, ha⟩)
  | onlyB _ hb => exact .inr (Stat.mem_names.mpr ⟨_, hb⟩)

theorem exists_joins {name : Bytes} (h : name ∈ a.map Stat.name ∨ name ∈ b.map Stat.name) :
    ∃ d, Joins a b d ∧ d.name = name := by
  by_cases ha : name ∈ a.map Stat.name
  · obtain ⟨x, hx⟩ := Stat.mem_names.mp ha
    by_cases hb : name ∈ b.map Stat.name
    · obtain ⟨y, hy⟩ := Stat.mem_names.mp hb
      exact ⟨_, .both hx hy, rfl⟩
    · exact ⟨_, .onlyA hx hb, rfl⟩
  · obtain ⟨y, hy⟩ := Stat.mem_names.mp (h.resolve_left ha)
    exact ⟨_, .onlyB ha hy, rfl⟩

/-! ### entries and names -/

/-- what a row says about the first list -/
def first (d : Delta) : Stat := ⟨d.name, d.a⟩

/-- what a row says about the second list -/
def second (d : Delta) : Stat := ⟨d.name, d.b⟩

theorem first_ofFirst (b : List Stat) (s : Stat) : (ofFirst b s).first = s := by
  unfold ofFirst
  split
  · rfl
  · rfl

theorem firsts_ofFirst (a b : List Stat) : (a.map (ofFirst b)).map first = a := by
  have h : first ∘ ofFirst b = id := funext (first_ofFirst b)
  rw [List.map_map, h, List.map_id]

theorem names_ofFirst (a b : List Stat) :
    (a.map (ofFirst b)).map Delta.name = a.map Stat.name := by
  have h := congrArg (List.map Stat.name) (firsts_ofFirst a b)
  rw [List.map_map] at h
  exact h

theorem ofSecond?_eq_some_iff {s : Stat} {d : Delta} :
    ofSecond? a s = some d ↔
      Stat.lookup a s.name = none ∧ d = ⟨s.name, 0, s.value, false, true⟩ := by
  unfold ofSecond?
  cases Stat.lookup a s.name with
  | none => simp [eq_comm]
  | some v => simp

theorem seconds_ofSecond (a b : List Stat) :
    (b.filterMap (ofSecond? a)).map second =
      b.filter fun s => (Stat.lookup a s.name).isNone := by
  induction b with
  | nil => rfl
  | cons s rest ih =>
    cases h : Stat.lookup a s.name with
    | none =>
      have hs := ofSecond?_eq_some_iff.mpr ⟨h, rfl⟩
      rw [List.filterMap_cons_some hs, List.filter_cons_of_pos (by simp [h]), List.map_cons, ih]
      rfl
    | some v =>
      have hs : ofSecond? a s = none := by simp only [ofSecond?, h]
      rw [List.filterMap_cons_none hs, List.filter_cons_of_neg (by simp [h]), ih]

theorem names_ofSecond (a b : List Stat) :
    (b.filterMap (ofSecond? a)).map Delta.name =
      (b.filter fun s => (Stat.lookup a s.name).isNone).map Stat.name := by
  rw [← seconds_ofSecond, List.map_map]
  rfl

theorem ordered_ofStats (ha : Ordered Stat.name a) (hb : Ordered Stat.name b) :
    Ordered Delta.name (ofStats a b) := by
  apply ordered_sortByName
  rw [List.map_append, names_ofFirst, names_ofSecond, List.nodup_append]
  refine ⟨ha.nodup, hb.nodup.sublist (List.filter_sublist.map _), ?_⟩
  -- a name that is looked up in vain is not on the first side
  rintro name hname name' hname' rfl
  obtain ⟨s, hs, rfl⟩ := List.mem_map.mp hname'
  have hnone := Option.isNone_iff_eq_none.mp (List.mem_filter.mp hs).2
  exact (Stat.lookup_eq_none_iff ha).mp hnone hname

/-! ### rows -/

theorem ofFirst_joins (hb : Ordered Stat.name b) {s : Stat} (hs : s ∈ a) :
    Joins a b (ofFirst b s) := by
  unfold ofFirst
  split
  · next v hv => exact .both hs ((Stat.lookup_eq_some_iff hb).mp hv)
  · next hnone => exact .onlyA hs ((Stat.lookup_eq_none_iff hb).mp hnone)

theorem mem_ofStats (ha : Ordered Stat.name a) (hb : Ordered Stat.name b) (d : Delta) :
    d ∈ ofStats a b ↔ Joins a b d := by
  rw [ofStats, mem_sortByName, List.mem_append, List.mem_map, List.mem_filterMap]
  constructor
  · rintro (⟨s, hs, rfl⟩ | ⟨s, hs, hd⟩)
    · exact ofFirst_joins hb hs
    · obtain ⟨hnone, rfl⟩ := ofSecond?_eq_some_iff.mp hd
      exact .onlyB ((Stat.lookup_eq_none_iff ha).mp hnone) hs
  · intro h
    cases h with
    | both hx hy =>
      refine .inl ⟨_, hx, ?_⟩
      simp only [ofFirst, (Stat.lookup_eq_some_iff hb).mpr hy]
    | onlyA hx hname =>
      refine .inl ⟨_, hx, ?_⟩
      simp only [ofFirst, (Stat.lookup_eq_none_iff hb).mpr hname]
    | onlyB hname hy =>
      exact .inr ⟨_, hy, ofSecond?_eq_some_iff.mpr ⟨(Stat.lookup_eq_none_iff ha).mpr hname, rfl⟩⟩

theorem exists_onlyA_iff (ha : Ordered Stat.name a) (hb : Ordered Stat.name b) (name : Bytes) :
    (∃ d ∈ ofStats a b, d.name = name ∧ d.onlyA = true) ↔
      name ∈ a.map Stat.name ∧ name ∉ b.map Stat.name := by
  constructor
  · rintro ⟨d, hd, rfl, hflag⟩
    cases (mem_ofStats ha hb d).mp hd with
    | both _ _ => cases hflag
    | onlyA hx hname => exact ⟨Stat.mem_names.mpr ⟨_, hx⟩, hname⟩
    | onlyB _ _ => cases hflag
  · rintro ⟨hname, hnot⟩
    obtain ⟨x, hx⟩ := Stat.mem_names.mp hname
    exact ⟨_, (mem_ofStats ha hb _).mpr (.onlyA hx hnot), rfl, rfl⟩

/-- **A comparison is a full outer join.** Names increase, every name of either side has one row and
no other name has one, and the rows are those of the join. The summaries of two tables have
increasing names; there a row is marked as missing on the second side iff some file of the first
table and no file of the second one has its optimization. -/
theorem between_joins :
    (∀ a b : Summary, Ordered Stat.name a.sizes → Ordered Stat.name b.sizes →
      Ordered Delta.name (between a b) ∧
      (∀ name, name ∈ a.sizes.map Stat.name ∨ name ∈ b.sizes.map Stat.name →
        ∃! d, d ∈ between a b ∧ d.name = name) ∧
      (∀ d ∈ between a b, d.name ∈ a.sizes.map Stat.name ∨ d.name ∈ b.sizes.map Stat.name) ∧
      ∀ d, d ∈ between a b ↔ Joins a.sizes b.sizes d) ∧
    ∀ (condenseSizes condenseDecreases : List Float → Float) (t u : Table),
      let a := Summary.ofTableWith condenseSizes condenseDecreases t
      let b := Summary.ofTableWith condenseSizes condenseDecreases u
      Ordered Stat.name a.sizes ∧ Ordered Stat.name b.sizes ∧
      ∀ name, (∃ d ∈ between a b, d.name = name ∧ d.onlyA = true) ↔
        (∃ file ∈ t.files, (t.size? file name).isSome = true) ∧
          ¬ ∃ file ∈ u.files, (u.size? file name).isSome = true := by
  refine ⟨fun a b ha hb => ?_, fun condenseSizes condenseDecreases t u => ?_⟩
  · have hordered := ordered_ofStats ha hb
    have hmem := mem_ofStats ha hb
    refine ⟨hordered, fun name hname => ?_, fun d hd => ((hmem d).mp hd).name_mem, hmem⟩
    obtain ⟨d, hd, rfl⟩ := exists_joins hname
    refine ⟨d, ⟨(hmem d).mpr hd, rfl⟩, ?_⟩
    rintro d' ⟨hd', e⟩
    exact hordered.eq_of_name_eq hd' ((hmem d).mpr hd) e
  · have ha := Stat.ordered_ofGroups condenseSizes t.groups
    have hb := Stat.ordered_ofGroups condenseSizes u.groups
    refine ⟨ha, hb, fun name => ?_⟩
    rw [← t.isSome_get?_groups, ← u.isSome_get?_groups, between]
    exact (exists_onlyA_iff ha hb name).trans
      (and_congr Stat.mem_names_ofGroups (not_congr Stat.mem_names_ofGroups))

/-- NaN on one side and zero on the other share a name -/
def sampleA : Summary :=
  ⟨[⟨Bytes.ofString "O1", 1⟩, ⟨Bytes.ofString "O2", Binary64.nan⟩], []⟩

def sampleB : Summary :=
  ⟨[⟨Bytes.ofString "O2", 0⟩, ⟨Bytes.ofString "O3", Binary64.infinity true⟩], []⟩

theorem between_joins_sample :
    Ordered Stat.name sampleA.sizes ∧ Ordered Stat.name sampleB.sizes ∧
      ⟨Bytes.ofString "O1", 1, 0, true, false⟩ ∈ between sampleA sampleB ∧
      ⟨Bytes.ofString "O2", Binary64.nan, 0, false, false⟩ ∈ between sampleA sampleB ∧
      ⟨Bytes.ofString "O3", 0, Binary64.infinity true, false, true⟩ ∈ between sampleA sampleB ∧
      ∃! d, d ∈ between sampleA sampleB ∧ d.name = Bytes.ofString "O2" := by
  have ha : Ordered Stat.name sampleA.sizes := List.pairwise_pair.mpr (by decide)
  have hb : Ordered Stat.name sampleB.sizes := List.pairwise_pair.mpr (by decide)
  obtain ⟨-, hunique, -, hmem⟩ := between_joins.1 sampleA sampleB ha hb
  refine ⟨ha, hb, (hmem _).mpr (.onlyA List.mem_cons_self (by decide)),
    (hmem _).mpr (.both (List.mem_cons_of_mem _ List.mem_cons_self) List.mem_cons_self),
    (hmem _).mpr (.onlyB (by decide) (List.mem_cons_of_mem _ List.mem_cons_self)),
    hunique _ (.inl (by decide))⟩

end Footprint.Delta
