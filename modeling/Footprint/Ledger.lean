/-!
# Ledgers

A ledger maps keys to values and keeps its keys in the order in which they first came. Writing to
a key that is already there changes its value and not its place.
-/

namespace Footprint

structure Ledger (κ ν : Type) where
  entries : List (κ × ν)
  /-- no key is entered twice -/
  distinct : (entries.map Prod.fst).Nodup

namespace Ledger

variable {κ ν : Type}

def empty : Ledger κ ν := ⟨[], List.nodup_nil⟩

/-- the keys in the order in which they first came -/
def keys (l : Ledger κ ν) : List κ := l.entries.map Prod.fst

def values (l : Ledger κ ν) : List ν := l.entries.map Prod.snd

def size (l : Ledger κ ν) : Nat := l.entries.length

theorem ext_entries {a b : Ledger κ ν} (h : a.entries = b.entries) : a = b := by
  cases a; cases b; cases h; rfl

variable [DecidableEq κ]

/-- the value entered first under a key -/
def lookup? (key : κ) : List (κ × ν) → Option ν
  | [] => none
  | (k, v) :: rest => if k = key then some v else lookup? key rest

/-- the entries with the value under a key changed, a new key coming last -/
def change (key : κ) (f : Option ν → ν) : List (κ × ν) → List (κ × ν)
  | [] => [(key, f none)]
  | (k, v) :: rest => if k = key then (k, f (some v)) :: rest else (k, v) :: change key f rest

theorem keys_change (key : κ) (f : Option ν → ν) (entries : List (κ × ν)) :
    (change key f entries).map Prod.fst =
      if key ∈ entries.map Prod.fst then entries.map Prod.fst
      else entries.map Prod.fst ++ [key] := by
  induction entries with
  | nil => rfl
  | cons e rest ih =>
    obtain ⟨k, v⟩ := e
    by_cases h : k = key
    · simp [change, h]
    · have h' : ¬ key = k := fun e => h e.symm
      simp only [change, h, h', if_false, List.map_cons, ih, List.mem_cons, false_or]
      split <;> rfl

theorem distinct_change (key : κ) (f : Option ν → ν) {entries : List (κ × ν)}
    (h : (entries.map Prod.fst).Nodup) : ((change key f entries).map Prod.fst).Nodup := by
  rw [keys_change]
  split
  · exact h
  · next hk =>
    rw [List.nodup_append]
    refine ⟨h, by simp, ?_⟩
    intro a ha b hb e
    rw [List.mem_singleton] at hb
    exact hk (hb ▸ e ▸ ha)

theorem lookup?_change (key : κ) (f : Option ν → ν) (entries : List (κ × ν)) (k : κ) :
    lookup? k (change key f entries) =
      if k = key then some (f (lookup? key entries)) else lookup? k entries := by
  induction entries with
  | nil =>
    by_cases h : k = key
    · simp [change, lookup?, h]
    · have h' : ¬ key = k := fun e => h e.symm
      simp [change, lookup?, h, h']
  | cons e rest ih =>
    obtain ⟨k', v⟩ := e
    by_cases h : k' = key
    · subst h
      by_cases hk : k = k'
      · subst hk; simp [change, lookup?]
      · have hk' : ¬ k' = k := fun e => hk e.symm
        simp [change, lookup?, hk, hk']
    · simp only [change, h, if_false, lookup?, ih]
      by_cases hk : k' = k
      · subst hk; simp [h]
      · simp [hk]

def get? (l : Ledger κ ν) (key : κ) : Option ν := lookup? key l.entries

/-- the value under a key changed; a new key comes last -/
def alter (l : Ledger κ ν) (key : κ) (f : Option ν → ν) : Ledger κ ν :=
  ⟨change key f l.entries, distinct_change key f l.distinct⟩

/-- the value under a key set -/
def put (l : Ledger κ ν) (key : κ) (value : ν) : Ledger κ ν := l.alter key fun _ => value

theorem keys_alter (l : Ledger κ ν) (key : κ) (f : Option ν → ν) :
    (l.alter key f).keys = if key ∈ l.keys then l.keys else l.keys ++ [key] :=
  keys_change key f l.entries

theorem get?_alter (l : Ledger κ ν) (key : κ) (f : Option ν → ν) (k : κ) :
    (l.alter key f).get? k = if k = key then some (f (l.get? key)) else l.get? k :=
  lookup?_change key f l.entries k

theorem get?_put (l : Ledger κ ν) (key : κ) (value : ν) (k : κ) :
    (l.put key value).get? k = if k = key then some value else l.get? k :=
  get?_alter l key _ k

end Ledger

end Footprint
