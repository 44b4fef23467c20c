import Mathlib.Data.List.Basic
import Mathlib.Data.List.Nodup
import Footprint.Ledger

/-!
# What a ledger holds

A ledger holds a value under a key if the two are one of its entries (`Ledger.get?_eq_some_iff`).
The order of its entries is all that a ledger has besides: ledgers that hold the same have the same
entries in some order (`Ledger.rearranged_iff`), and are equal if their keys stand in the same order
(`Ledger.ext_get?`).
-/

namespace Footprint.Ledger

variable {κ ν : Type}

/-- the same entries, in whatever order -/
def Rearranged (l m : Ledger κ ν) : Prop := l.entries.Perm m.entries

theorem Rearranged.refl (l : Ledger κ ν) : l.Rearranged l := List.Perm.refl _

theorem Rearranged.symm {l m : Ledger κ ν} (h : l.Rearranged m) : m.Rearranged l := List.Perm.symm h

variable [DecidableEq κ]

/-- the values entered under a key, in order -/
def valuesUnder (key : κ) (entries : List (κ × ν)) : List ν :=
  (entries.filter fun e => e.1 = key).map Prod.snd

theorem valuesUnder_nil (key : κ) : valuesUnder key ([] : List (κ × ν)) = [] := rfl

theorem valuesUnder_cons (key k : κ) (v : ν) (rest : List (κ × ν)) :
    valuesUnder key ((k, v) :: rest) =
      if k = key then v :: valuesUnder key rest else valuesUnder key rest := by
  unfold valuesUnder
  by_cases h : k = key
  · rw [if_pos h, List.filter_cons_of_pos (by simpa using h)]
    rfl
  · rw [if_neg h, List.filter_cons_of_neg (by simpa using h)]

theorem valuesUnder_append (key : κ) (a b : List (κ × ν)) :
    valuesUnder key (a ++ b) = valuesUnder key a ++ valuesUnder key b := by
  simp [valuesUnder]

theorem valuesUnder_flatten (key : κ) (sections : List (List (κ × ν))) :
    valuesUnder key sections.flatten = sections.flatMap (valuesUnder key) := by
  induction sections with
  | nil => rfl
  | cons s rest ih => rw [List.flatten_cons, valuesUnder_append, List.flatMap_cons, ih]

theorem valuesUnder_map {μ : Type} (key : κ) (f : ν → μ) (entries : List (κ × ν)) :
    valuesUnder key (entries.map fun e => (e.1, f e.2)) = (valuesUnder key entries).map f := by
  simp [valuesUnder, List.filter_map, Function.comp_def]

theorem valuesUnder_filter_ne (key k : κ) (entries : List (κ × ν)) :
    valuesUnder key (entries.filter fun e => e.1 ≠ k) =
      if key = k then [] else valuesUnder key entries := by
  unfold valuesUnder
  rw [List.filter_filter]
  by_cases h : key = k
  · subst h
    rw [if_pos rfl, List.map_eq_nil_iff, List.filter_eq_nil_iff]
    simp
  · rw [if_neg h]
    congr 1
    apply List.filter_congr
    intro e _
    by_cases he : e.1 = key
    · simp [he, h]
    · simp [he]

theorem valuesUnder_of_not_mem {key : κ} {entries : List (κ × ν)}
    (h : key ∉ entries.map Prod.fst) : valuesUnder key entries = [] := by
  induction entries with
  | nil => rfl
  | cons e rest ih =>
    obtain ⟨k, v⟩ := e
    rw [List.map_cons, List.mem_cons, not_or] at h
    rw [valuesUnder_cons, if_neg fun e => h.1 e.symm, ih h.2]

/-- in a ledger there is at most one value under a key -/
theorem valuesUnder_entries (l : Ledger κ ν) (key : κ) :
    valuesUnder key l.entries = (l.get? key).toList := by
  obtain ⟨entries, distinct⟩ := l
  show valuesUnder key entries = (lookup? key entries).toList
  induction entries with
  | nil => rfl
  | cons e rest ih =>
    obtain ⟨k, v⟩ := e
    rw [List.map_cons, List.nodup_cons] at distinct
    rw [valuesUnder_cons, lookup?]
    by_cases h : k = key
    · subst h
      rw [if_pos rfl, if_pos rfl, valuesUnder_of_not_mem distinct.1]
      rfl
    · rw [if_neg h, if_neg h, ih distinct.2]

theorem get?_eq_some_iff (l : Ledger κ ν) {key : κ} {value : ν} :
    l.get? key = some value ↔ (key, value) ∈ l.entries := by
  have h : value ∈ (l.get? key).toList ↔ (key, value) ∈ l.entries := by
    rw [← valuesUnder_entries]
    simp [valuesUnder]
  rw [← h, Option.mem_toList]

theorem rearranged_iff (l m : Ledger κ ν) : l.Rearranged m ↔ ∀ key, l.get? key = m.get? key := by
  constructor
  · intro h key
    apply Option.ext
    intro value
    rw [get?_eq_some_iff, get?_eq_some_iff, List.Perm.mem_iff h]
  · intro h
    refine (List.perm_ext_iff_of_nodup (.of_map _ l.distinct) (.of_map _ m.distinct)).mpr ?_
    rintro ⟨key, value⟩
    rw [← get?_eq_some_iff, ← get?_eq_some_iff, h]

/-- the keys in their order and what is held under them are all there is to a ledger -/
theorem ext_get? {l m : Ledger κ ν} (hkeys : l.keys = m.keys) (h : ∀ key, l.get? key = m.get? key) :
    l = m := by
  apply ext_entries
  have hperm : l.entries.Perm m.entries := (rearranged_iff l m).mpr h
  -- entries that share their key are the same, so the keys tell the entries apart
  apply List.ext_getElem
  · exact hperm.length_eq
  · intro i hl hm
    have hkey : l.entries[i].1 = m.entries[i].1 := by
      have e := congrArg (·[i]?) hkeys
      simpa [keys, hl, hm] using e
    have hvalue : some l.entries[i].2 = some m.entries[i].2 :=
      calc some l.entries[i].2
        _ = l.get? l.entries[i].1 := ((get?_eq_some_iff l).mpr (List.getElem_mem hl)).symm
        _ = m.get? m.entries[i].1 := by rw [h, hkey]
        _ = some m.entries[i].2 := (get?_eq_some_iff m).mpr (List.getElem_mem hm)
    exact Prod.ext hkey (Option.some.inj hvalue)

end Footprint.Ledger
