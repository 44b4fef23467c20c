import Mathlib.Algebra.Group.Nat.Defs
import Footprint.Proofs.Lookup

/-!
# Looking a name up in any list

The rules of a search (`Stat.Searches`) let it look at a place only if an entry stands there. On
every list, in order or not,

* `Stat.halves_place`   halving obeys them, and of fewer than `2^k` places it looks at `k` at most;
* `Stat.searches_iff`   `Stat.find` is the one answer that they lead to;
* `Stat.mem_of_lookup`  a value that is found is listed under the name.

On a list in order the answer is that of a scan from the left (`Stat.lookup_eq_scan`).
-/

namespace Footprint.Stat

/-- halving the places from `low` to `high` ends at the last number, after as many looks as the
number before it says -/
inductive Halves (stats : List Stat) (name : Bytes) : Nat → Nat → Nat → Nat → Prop where
  | done {low high : Nat} : high ≤ low → Halves stats name low high 0 low
  | upper {low high looks place : Nat} {s : Stat} : low < high →
    stats[(low + high) / 2]? = some s → s.name < name →
    Halves stats name ((low + high) / 2 + 1) high looks place →
    Halves stats name low high (looks + 1) place
  | lower {low high looks place : Nat} {s : Stat} : low < high →
    stats[(low + high) / 2]? = some s → ¬ s.name < name →
    Halves stats name low ((low + high) / 2) looks place →
    Halves stats name low high (looks + 1) place

/-- what a search answers after it has halved the whole list: the entry at the place where it ends
counts if it has the name, and behind the last entry there is nothing to look at -/
inductive Searches (stats : List Stat) (name : Bytes) (looks : Nat) : Float × Bool → Prop where
  | hit {place : Nat} {s : Stat} : Halves stats name 0 stats.length looks place →
    stats[place]? = some s → s.name = name → Searches stats name looks (s.value, true)
  | differs {place : Nat} {s : Stat} : Halves stats name 0 stats.length looks place →
    stats[place]? = some s → s.name ≠ name → Searches stats name looks (0, false)
  | behind : Halves stats name 0 stats.length looks stats.length →
    Searches stats name looks (0, false)

variable {stats : List Stat} {name : Bytes}

/-! ### halving -/

theorem place_of_le {low high : Nat} (bound : high ≤ stats.length) (h : high ≤ low) :
    place stats name low high bound = low := by
  rw [place, dif_neg (by omega)]

theorem place_of_lt {low high : Nat} (bound : high ≤ stats.length) (inside : low < high) {s : Stat}
    (hs : stats[(low + high) / 2]? = some s) :
    place stats name low high bound =
      if s.name < name then place stats name ((low + high) / 2 + 1) high bound
      else place stats name low ((low + high) / 2) (by omega) := by
  obtain ⟨hmiddle, rfl⟩ := List.getElem?_eq_some_iff.mp hs
  rw [place, dif_pos inside]

theorem place_le {low high : Nat} (bound : high ≤ stats.length) (hle : low ≤ high) :
    place stats name low high bound ≤ high := by
  fun_induction place stats name low high bound with
  | case1 low high bound inside middle hmiddle hname ih => exact ih (by omega)
  | case2 low high bound inside middle hmiddle hname ih =>
    have := ih (by omega)
    omega
  | case3 low high bound outside => exact hle

/-- each look leaves less than half of the places -/
theorem halves_place (k : Nat) {low high : Nat} (bound : high ≤ stats.length)
    (hk : high - low < 2 ^ k) :
    ∃ looks ≤ k, Halves stats name low high looks (place stats name low high bound) := by
  induction k generalizing low high with
  | zero =>
    have hle : high ≤ low := by omega
    rw [place_of_le bound hle]
    exact ⟨0, Nat.le_refl 0, .done hle⟩
  | succ k ih =>
    rw [Nat.pow_succ] at hk
    by_cases inside : low < high
    · have hs := List.getElem?_eq_getElem (show (low + high) / 2 < stats.length by omega)
      rw [place_of_lt bound inside hs]
      split
      · next hname =>
        have hk' : high - ((low + high) / 2 + 1) < 2 ^ k := by omega
        obtain ⟨looks, hlooks, h⟩ := ih bound hk'
        exact ⟨looks + 1, by omega, .upper inside hs hname h⟩
      · next hname =>
        have bound' : (low + high) / 2 ≤ stats.length := by omega
        have hk' : (low + high) / 2 - low < 2 ^ k := by omega
        obtain ⟨looks, hlooks, h⟩ := ih bound' hk'
        exact ⟨looks + 1, by omega, .lower inside hs hname h⟩
    · rw [place_of_le bound (by omega)]
      exact ⟨0, Nat.zero_le _, .done (by omega)⟩

theorem Halves.eq_place {low high looks p : Nat} (h : Halves stats name low high looks p)
    (bound : high ≤ stats.length) : p = place stats name low high bound := by
  induction h with
  | done hle => exact (place_of_le bound hle).symm
  | upper inside hs hname _ ih => rw [place_of_lt bound inside hs, if_pos hname, ← ih bound]
  | lower inside hs hname _ ih =>
    rw [place_of_lt bound inside hs, if_neg hname]
    exact ih (by omega)

/-! ### the answer -/

theorem lookup_eq {p : Nat} (hp : p = place stats name 0 stats.length (Nat.le_refl _)) :
    lookup stats name = (stats[p]?.filter (·.name = name)).map Stat.value := by
  rw [hp, lookup]

theorem find_of_hit {p : Nat} {s : Stat}
    (hp : p = place stats name 0 stats.length (Nat.le_refl _)) (hs : stats[p]? = some s)
    (hname : s.name = name) : find stats name = (s.value, true) := by
  rw [find, lookup_eq hp, hs, Option.filter_some_pos (by simpa using hname)]
  rfl

theorem find_of_differs {p : Nat} {s : Stat}
    (hp : p = place stats name 0 stats.length (Nat.le_refl _)) (hs : stats[p]? = some s)
    (hname : s.name ≠ name) : find stats name = (0, false) := by
  rw [find, lookup_eq hp, hs, Option.filter_some_neg (by simpa using hname)]
  rfl

theorem find_of_behind (hp : stats.length = place stats name 0 stats.length (Nat.le_refl _)) :
    find stats name = (0, false) := by
  rw [find, lookup_eq hp, List.getElem?_eq_none (Nat.le_refl _)]
  rfl

theorem Searches.eq_find {looks : Nat} {r : Float × Bool} (h : Searches stats name looks r) :
    r = find stats name := by
  cases h with
  | hit hhalves hs hname => exact (find_of_hit (hhalves.eq_place _) hs hname).symm
  | differs hhalves hs hname => exact (find_of_differs (hhalves.eq_place _) hs hname).symm
  | behind hhalves => exact (find_of_behind (hhalves.eq_place _)).symm

theorem searches_find {looks : Nat}
    (h : Halves stats name 0 stats.length looks (place stats name 0 stats.length (Nat.le_refl _))) :
    Searches stats name looks (find stats name) := by
  have hle : place stats name 0 stats.length (Nat.le_refl _) ≤ stats.length :=
    place_le (Nat.le_refl _) (Nat.zero_le _)
  generalize hp : place stats name 0 stats.length (Nat.le_refl _) = p at h hle
  rcases Nat.lt_or_eq_of_le hle with hlt | rfl
  · have hs := List.getElem?_eq_getElem hlt
    by_cases hname : stats[p].name = name
    · rw [find_of_hit hp.symm hs hname]
      exact .hit h hs hname
    · rw [find_of_differs hp.symm hs hname]
      exact .differs h hs hname
  · rw [find_of_behind hp.symm]
    exact .behind h

theorem searches_iff (stats : List Stat) (name : Bytes) (r : Float × Bool) :
    (∃ looks ≤ stats.length.log2 + 1, Searches stats name looks r) ↔ r = find stats name := by
  constructor
  · rintro ⟨looks, -, h⟩
    exact h.eq_find
  · rintro rfl
    have hlt : stats.length - 0 < 2 ^ (stats.length.log2 + 1) := Nat.lt_log2_self
    obtain ⟨looks, hlooks, h⟩ := halves_place _ (Nat.le_refl stats.length) hlt
    exact ⟨looks, hlooks, searches_find h⟩

/-- whatever the order of the list, a value that is found is listed under the name -/
theorem mem_of_lookup {v : Float} (h : lookup stats name = some v) : ⟨name, v⟩ ∈ stats := by
  obtain ⟨s, hs, rfl⟩ := Option.map_eq_some_iff.mp h
  obtain ⟨hentry, hname⟩ := Option.filter_eq_some_iff.mp hs
  rw [← of_decide_eq_true hname]
  exact List.mem_of_getElem? hentry

theorem answer_eq_true_iff {value : Option Float} {v : Float} :
    answer value = (v, true) ↔ value = some v := by
  cases value with
  | none => simp [answer]
  | some w => simp [answer]

theorem answer_eq_false_iff {value : Option Float} {v : Float} :
    answer value = (v, false) ↔ value = none ∧ v = 0 := by
  cases value with
  | none => simp [answer, eq_comm]
  | some w => simp [answer]

theorem scan_append_cons {before after : List Stat} {s : Stat} (hname : s.name = name)
    (hbefore : ∀ t ∈ before, t.name ≠ name) : scan (before ++ s :: after) name = some s.value := by
  have hnone : before.find? (·.name = name) = none := by
    rw [List.find?_eq_none]
    intro t ht
    simpa using hbefore t ht
  rw [scan, List.find?_append, hnone, Option.none_or, List.find?_cons_of_pos (by simpa using hname)]
  rfl

theorem isSome_scan : (scan stats name).isSome = true ↔ ∃ s ∈ stats, s.name = name := by
  rw [scan, Option.isSome_map, List.find?_isSome]
  simp

/-- **Halving and scanning give the same answer.** On every list a search looks at entries only,
ends after at most one look more than `log2` of the length, and has one answer: a value that the
list has under the name, or zero for none. On a list whose names do not decrease that is the answer
of a scan from the left: there is one iff some entry has the name, and it is the value of the first
such entry. -/
theorem find_exact (stats : List Stat) (name : Bytes) :
    (∀ r, (∃ looks ≤ stats.length.log2 + 1, Searches stats name looks r) ↔ r = find stats name) ∧
    (∀ v, find stats name = (v, true) → ⟨name, v⟩ ∈ stats) ∧
    (∀ v, find stats name = (v, false) → v = 0) ∧
    ((stats.Pairwise fun s t => s.name ≤ t.name) →
      find stats name = answer (scan stats name) ∧
      ((find stats name).2 = true ↔ ∃ s ∈ stats, s.name = name) ∧
      ∀ before s after, stats = before ++ s :: after → s.name = name →
        (∀ t ∈ before, t.name ≠ name) → find stats name = (s.value, true)) := by
  refine ⟨searches_iff stats name, fun v h => mem_of_lookup (answer_eq_true_iff.mp h),
    fun v h => (answer_eq_false_iff.mp h).2, fun hs => ?_⟩
  have hscan : find stats name = answer (scan stats name) := by rw [find, lookup_eq_scan hs]
  refine ⟨hscan, ?_, ?_⟩
  · rw [hscan]
    exact isSome_scan
  · rintro before s after rfl hname hbefore
    rw [hscan, scan_append_cons hname hbefore]
    rfl

/-- a name stands twice, and one between two others is missing -/
def sampleStats : List Stat :=
  [⟨Bytes.ofString "O0", 1⟩, ⟨Bytes.ofString "O1", 2⟩, ⟨Bytes.ofString "O1", 3⟩,
    ⟨Bytes.ofString "O3", 4⟩]

theorem find_exact_sample :
    (sampleStats.Pairwise fun s t => s.name ≤ t.name) ∧
      find sampleStats (Bytes.ofString "O1") = (2, true) ∧
      ⟨Bytes.ofString "O1", 2⟩ ∈ sampleStats ∧
      find sampleStats (Bytes.ofString "O2") = (0, false) := by
  have hs : sampleStats.Pairwise fun s t => s.name ≤ t.name := by
    unfold sampleStats
    simp only [List.pairwise_cons, List.forall_mem_cons]
    decide
  obtain ⟨-, hmem, -, hordered⟩ := find_exact sampleStats (Bytes.ofString "O1")
  obtain ⟨-, -, hfirst⟩ := hordered hs
  have hfound := hfirst [_] _ _ rfl rfl (List.forall_mem_singleton.mpr (by decide))
  refine ⟨hs, hfound, hmem 2 hfound, ?_⟩
  obtain ⟨-, -, hzero, hordered⟩ := find_exact sampleStats (Bytes.ofString "O2")
  have hnot : (find sampleStats (Bytes.ofString "O2")).2 = false := by
    rw [Bool.eq_false_iff, Ne, (hordered hs).2.1, ← List.mem_map]
    decide
  exact Prod.ext (hzero _ (Prod.ext rfl hnot)) hnot

end Footprint.Stat
