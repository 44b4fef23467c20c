import Footprint.Stat

/-!
# Lists in order of names

A list whose names increase (`Ordered`) is determined by its entries, however it was brought into
order (`Ordered.eq_of_perm`). Halving such a list ends at the place that parts the smaller names
from the others (`Parts`), so `Stat.lookup` finds what a scan from the left finds
(`Stat.lookup_eq_scan`).
-/

namespace Footprint

section
variable {α : Type} {name : α → Bytes} {xs ys : List α}

/-- names increase along the list, so no name stands twice -/
def Ordered (name : α → Bytes) (xs : List α) : Prop := xs.Pairwise fun a b => name a < name b

theorem Ordered.nodup (h : Ordered name xs) : (xs.map name).Nodup := by
  rw [List.Nodup, List.pairwise_map]
  apply h.imp
  intro a b hab e
  rw [e] at hab
  exact List.lt_irrefl _ hab

theorem Ordered.eq_of_name_eq (h : Ordered name xs) {a b : α} (ha : a ∈ xs) (hb : b ∈ xs)
    (e : name a = name b) : a = b := by
  induction xs with
  | nil => exact absurd ha List.not_mem_nil
  | cons x rest ih =>
    obtain ⟨hx, hrest⟩ := List.pairwise_cons.mp h
    rcases List.mem_cons.mp ha with rfl | ha'
    · rcases List.mem_cons.mp hb with rfl | hb'
      · rfl
      · exact absurd (e ▸ hx b hb') (List.lt_irrefl _)
    · rcases List.mem_cons.mp hb with rfl | hb'
      · exact absurd (e ▸ hx a ha') (List.lt_irrefl _)
      · exact ih hrest ha' hb'

/-- names that do not decrease and are distinct increase -/
theorem ordered_of_nodup (hs : xs.Pairwise fun a b => ¬ name b < name a)
    (hd : (xs.map name).Nodup) : Ordered name xs := by
  rw [List.Nodup, List.pairwise_map] at hd
  apply (List.Pairwise.and hs hd).imp
  rintro a b ⟨hle, hne⟩
  rcases List.le_iff_lt_or_eq.mp (List.not_lt.mp hle) with hlt | e
  · exact hlt
  · exact absurd e hne

/-- there is one way to put entries in order -/
theorem Ordered.eq_of_perm (hx : Ordered name xs) (hy : Ordered name ys) (h : xs.Perm ys) :
    xs = ys := by
  refine List.Perm.eq_of_pairwise ?_ hx hy h
  intro a b _ _ hab hba
  exact absurd hba (List.lt_asymm hab)

theorem ordered_sortByName (hd : (xs.map name).Nodup) : Ordered name (sortByName name xs) := by
  apply ordered_of_nodup
  · apply (sortByName_pairwise name xs).imp
    intro a b hab
    exact List.not_lt.mpr hab
  · exact (((sortByName_perm name xs).map name).nodup_iff).mpr hd

end

namespace Stat

/-! ### halving -/

/-- names before `low` come before `name`, and from `high` on none does -/
structure Parts (stats : List Stat) (name : Bytes) (low high : Nat) : Prop where
  before : ∀ (i : Nat) (h : i < stats.length), i < low → stats[i].name < name
  behind : ∀ (i : Nat) (h : i < stats.length), high ≤ i → ¬ stats[i].name < name

variable {stats : List Stat} {name : Bytes}

theorem parts_place (hs : stats.Pairwise fun a b => a.name ≤ b.name) {low high : Nat}
    (bound : high ≤ stats.length) (hle : low ≤ high) (h : Parts stats name low high) :
    Parts stats name (place stats name low high bound) (place stats name low high bound) := by
  have hmono : ∀ (i j : Nat) (hi : i < stats.length) (hj : j < stats.length), i ≤ j →
      stats[i].name ≤ stats[j].name := by
    intro i j hi hj hij
    rcases Nat.lt_or_eq_of_le hij with hlt | rfl
    · exact List.pairwise_iff_getElem.mp hs i j hi hj hlt
    · exact List.le_refl _
  fun_induction place stats name low high bound with
  | case1 low high bound inside middle hmiddle hname ih =>
    -- the middle is too small, and so is everything before it
    refine ih (by omega) ⟨fun i hi hlt => ?_, h.behind⟩
    exact List.lt_of_le_of_lt (hmono i middle hi hmiddle (by omega)) hname
  | case2 low high bound inside middle hmiddle hname ih =>
    refine ih (by omega) ⟨h.before, fun i hi hle => ?_⟩
    exact List.not_lt.mpr (List.le_trans (List.not_lt.mp hname) (hmono middle i hmiddle hi hle))
  | case3 low high bound outside =>
    have e : high = low := by omega
    exact e ▸ h

theorem Parts.find?_take {p q : Nat} (h : Parts stats name p q) :
    (stats.take p).find? (·.name = name) = none := by
  rw [List.find?_eq_none]
  intro s hmem e
  obtain ⟨i, hi, rfl⟩ := List.mem_iff_getElem.mp hmem
  rw [List.length_take] at hi
  have hlt := h.before i (by omega) (by omega)
  rw [List.getElem_take, decide_eq_true_eq] at e
  rw [e] at hlt
  exact List.lt_irrefl _ hlt

theorem find?_drop_of_lt (hs : stats.Pairwise fun a b => a.name ≤ b.name) {p : Nat}
    (hp : p < stats.length) (h : name < stats[p].name) :
    (stats.drop (p + 1)).find? (·.name = name) = none := by
  rw [List.find?_eq_none]
  intro s hmem e
  obtain ⟨i, hi, rfl⟩ := List.mem_iff_getElem.mp hmem
  rw [List.length_drop] at hi
  have hle := List.pairwise_iff_getElem.mp hs p (p + 1 + i) hp (by omega) (by omega)
  rw [List.getElem_drop, decide_eq_true_eq] at e
  rw [e] at hle
  exact List.not_lt.mpr hle h

/-- at the place that parts the names stands the first entry of a name, if there is one -/
theorem Parts.scan_eq (hs : stats.Pairwise fun a b => a.name ≤ b.name) {p : Nat}
    (h : Parts stats name p p) :
    scan stats name = (stats[p]?.filter (·.name = name)).map Stat.value := by
  have hsplit : stats.find? (·.name = name) = (stats.drop p).find? (·.name = name) := by
    rw [← List.take_append_drop p stats, List.find?_append, h.find?_take, List.take_append_drop]
    rfl
  rw [scan, hsplit]
  by_cases hp : p < stats.length
  · rw [List.drop_eq_getElem_cons hp, List.getElem?_eq_getElem hp, Option.filter_some]
    by_cases e : stats[p].name = name
    · rw [List.find?_cons_of_pos (by simpa using e), if_pos (by simpa using e)]
    · have hle := List.not_lt.mp (h.behind p hp (Nat.le_refl p))
      have hlt : name < stats[p].name :=
        (List.le_iff_lt_or_eq.mp hle).resolve_right fun e' => e e'.symm
      rw [List.find?_cons_of_neg (by simpa using e), if_neg (by simpa using e),
        find?_drop_of_lt hs hp hlt]
  · rw [List.drop_eq_nil_of_le (by omega), List.getElem?_eq_none (by omega)]
    rfl

/-- halving a list in order of names finds what a scan from the left finds -/
theorem lookup_eq_scan (hs : stats.Pairwise fun a b => a.name ≤ b.name) (name : Bytes) :
    lookup stats name = scan stats name := by
  have h : Parts stats name 0 stats.length :=
    ⟨fun i _ hlt => absurd hlt (Nat.not_lt_zero i), fun i hi hle => absurd hi (Nat.not_lt.mpr hle)⟩
  exact ((parts_place hs (Nat.le_refl _) (Nat.zero_le _) h).scan_eq hs).symm

/-! ### increasing names -/

theorem mem_names : name ∈ stats.map Stat.name ↔ ∃ v, ⟨name, v⟩ ∈ stats := by
  rw [List.mem_map]
  constructor
  · rintro ⟨s, hmem, rfl⟩
    exact ⟨s.value, hmem⟩
  · rintro ⟨v, hmem⟩
    exact ⟨_, hmem, rfl⟩

theorem lookup_eq_some_iff (h : Ordered Stat.name stats) {v : Float} :
    lookup stats name = some v ↔ ⟨name, v⟩ ∈ stats := by
  rw [lookup_eq_scan (h.imp List.le_of_lt), scan, Option.map_eq_some_iff]
  constructor
  · rintro ⟨s, hfind, rfl⟩
    have hname : s.name = name := by simpa using List.find?_some hfind
    rw [← hname]
    exact List.mem_of_find?_eq_some hfind
  · intro hmem
    cases hfind : stats.find? (·.name = name) with
    | none => simpa using List.find?_eq_none.mp hfind _ hmem
    | some s =>
      have hname : s.name = name := by simpa using List.find?_some hfind
      have e : s = ⟨name, v⟩ := h.eq_of_name_eq (List.mem_of_find?_eq_some hfind) hmem hname
      exact ⟨s, rfl, by rw [e]⟩

theorem lookup_eq_none_iff (h : Ordered Stat.name stats) :
    lookup stats name = none ↔ name ∉ stats.map Stat.name := by
  rw [Option.eq_none_iff_forall_ne_some, mem_names]
  constructor
  · rintro hnone ⟨v, hmem⟩
    exact hnone v ((lookup_eq_some_iff h).mpr hmem)
  · intro habsent v e
    exact habsent ⟨v, (lookup_eq_some_iff h).mp e⟩

end Stat

end Footprint
