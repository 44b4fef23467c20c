import Footprint.Proofs.Join
import Footprint.Proofs.Search

/-!
# A comparison loses nothing

Two lists that are out of order, or that have a name twice, can still be compared. A lookup may then
miss an entry, and rows of one name may come in any order, as the sort leaves them
(`Delta.Compares`). What stays is that a lookup never answers with a value of another name
(`Stat.mem_of_lookup`), and this is enough:

* `Delta.Compares.row`        which rows there can be;
* `Delta.Compares.firsts`     the rows not marked as missing in the first list are its entries;
* `Delta.Compares.seconds`    the others are what of the second list is looked up in vain;
* `Delta.Compares.mem_names`  the names are those of the two lists.
-/

namespace Footprint.Delta

/-- a list that a comparison may end in: the rows of both lists, brought into order of names by some
sort -/
structure Compares (a b : List Stat) (ds : List Delta) : Prop where
  rows : ds.Perm (a.map (ofFirst b) ++ b.filterMap (ofSecond? a))
  ordered : ds.Pairwise fun d e => ¬ e.name < d.name

/-- the rows of a comparison: a missing partner is one that a lookup did not find -/
inductive Pairs (a b : List Stat) : Delta → Prop where
  | both {name : Bytes} {x y : Float} : ⟨name, x⟩ ∈ a → ⟨name, y⟩ ∈ b →
    Pairs a b ⟨name, x, y, false, false⟩
  | onlyA {name : Bytes} {x : Float} : ⟨name, x⟩ ∈ a → Stat.lookup b name = none →
    Pairs a b ⟨name, x, 0, true, false⟩
  | onlyB {name : Bytes} {y : Float} : Stat.lookup a name = none → ⟨name, y⟩ ∈ b →
    Pairs a b ⟨name, 0, y, false, true⟩

variable {a b : List Stat} {ds : List Delta}

theorem compares_ofStats (a b : List Stat) : Compares a b (ofStats a b) := by
  refine ⟨sortByName_perm _ _, ?_⟩
  apply (sortByName_pairwise Delta.name _).imp
  intro d e hle
  exact List.not_lt.mpr hle

theorem ofFirst_pairs {s : Stat} (hs : s ∈ a) : Pairs a b (ofFirst b s) := by
  unfold ofFirst
  split
  · next v hv => exact .both hs (Stat.mem_of_lookup hv)
  · next hnone => exact .onlyA hs hnone

theorem Compares.row (h : Compares a b ds) {d : Delta} (hd : d ∈ ds) : Pairs a b d := by
  rcases List.mem_append.mp (h.rows.mem_iff.mp hd) with hfirst | hsecond
  · obtain ⟨s, hs, rfl⟩ := List.mem_map.mp hfirst
    exact ofFirst_pairs hs
  · obtain ⟨s, hs, hd⟩ := List.mem_filterMap.mp hsecond
    obtain ⟨hnone, rfl⟩ := ofSecond?_eq_some_iff.mp hd
    exact .onlyB hnone hs

/-! ### both lists are there again -/

theorem onlyB_ofFirst (b : List Stat) (s : Stat) : (ofFirst b s).onlyB = false := by
  unfold ofFirst
  split
  · rfl
  · rfl

theorem onlyB_of_mem_ofFirst {d : Delta} (h : d ∈ a.map (ofFirst b)) : d.onlyB = false := by
  obtain ⟨s, -, rfl⟩ := List.mem_map.mp h
  exact onlyB_ofFirst b s

theorem onlyB_of_mem_ofSecond {d : Delta} (h : d ∈ b.filterMap (ofSecond? a)) : d.onlyB = true := by
  obtain ⟨s, -, hd⟩ := List.mem_filterMap.mp h
  rw [(ofSecond?_eq_some_iff.mp hd).2]

/-- the mark tells the rows of the two lists apart -/
theorem filter_rows (a b : List Stat) :
    ((a.map (ofFirst b) ++ b.filterMap (ofSecond? a)).filter fun d => !d.onlyB) =
        a.map (ofFirst b) ∧
      ((a.map (ofFirst b) ++ b.filterMap (ofSecond? a)).filter fun d => d.onlyB) =
        b.filterMap (ofSecond? a) := by
  have hfirst : ∀ d ∈ a.map (ofFirst b), d.onlyB = false := fun d => onlyB_of_mem_ofFirst
  have hsecond : ∀ d ∈ b.filterMap (ofSecond? a), d.onlyB = true := fun d => onlyB_of_mem_ofSecond
  rw [List.filter_append, List.filter_append]
  constructor
  · rw [List.filter_eq_self.mpr fun d hd => by rw [hfirst d hd]; rfl,
      List.filter_eq_nil_iff.mpr fun d hd => by rw [hsecond d hd]; decide, List.append_nil]
  · rw [List.filter_eq_nil_iff.mpr fun d hd => by rw [hfirst d hd]; decide,
      List.filter_eq_self.mpr hsecond, List.nil_append]

theorem Compares.firsts (h : Compares a b ds) :
    ((ds.filter fun d => !d.onlyB).map first).Perm a := by
  have hperm := (h.rows.filter fun d => !d.onlyB).map first
  rw [(filter_rows a b).1, firsts_ofFirst] at hperm
  exact hperm

theorem Compares.seconds (h : Compares a b ds) :
    ((ds.filter fun d => d.onlyB).map second).Perm
      (b.filter fun s => (Stat.lookup a s.name).isNone) := by
  have hperm := (h.rows.filter fun d => d.onlyB).map second
  rw [(filter_rows a b).2, seconds_ofSecond] at hperm
  exact hperm

/-! ### names -/

theorem Compares.names (h : Compares a b ds) :
    (ds.map Delta.name).Perm
      (a.map Stat.name ++ (b.filter fun s => (Stat.lookup a s.name).isNone).map Stat.name) := by
  have hperm := h.rows.map Delta.name
  rw [List.map_append, names_ofFirst, names_ofSecond] at hperm
  exact hperm

theorem Compares.mem_names (h : Compares a b ds) (name : Bytes) :
    name ∈ ds.map Delta.name ↔ name ∈ a.map Stat.name ∨ name ∈ b.map Stat.name := by
  rw [h.names.mem_iff, List.mem_append]
  constructor
  · exact Or.imp_right fun hvain => (List.filter_sublist.map Stat.name).subset hvain
  · rintro (hfirst | hsecond)
    · exact .inl hfirst
    · obtain ⟨s, hs, rfl⟩ := List.mem_map.mp hsecond
      cases hlookup : Stat.lookup a s.name with
      | some v =>
        -- what is found has the name, so the first list has it too
        exact .inl (Stat.mem_names.mpr ⟨v, Stat.mem_of_lookup hlookup⟩)
      | none => exact .inr (List.mem_map_of_mem (List.mem_filter.mpr ⟨hs, by rw [hlookup]; rfl⟩))

/-- **A comparison loses nothing and invents nothing**, whatever the two lists are and however rows
of one name are sorted. Names do not decrease and are those of the two lists. The rows that are not
marked as missing in the first list show its entries, each as often as it is there; the others show
the entries of the second list that are looked up in the first one in vain, with zero on the first
side. No row is marked twice, a row without a mark has a value that the second list has under its
name, and a row that is marked as missing in the second list has zero there. -/
theorem between_conserves (a b : Summary) :
    Compares a.sizes b.sizes (between a b) ∧
    ∀ ds, Compares a.sizes b.sizes ds →
      (ds.Pairwise fun d e => d.name ≤ e.name) ∧
      (∀ name, name ∈ ds.map Delta.name ↔
        name ∈ a.sizes.map Stat.name ∨ name ∈ b.sizes.map Stat.name) ∧
      ((ds.filter fun d => !d.onlyB).map first).Perm a.sizes ∧
      ((ds.filter fun d => d.onlyB).map second).Perm
        (b.sizes.filter fun s => !(Stat.find a.sizes s.name).2) ∧
      ∀ d ∈ ds,
        (d.onlyB = true → d.a = 0) ∧
        ¬ (d.onlyA = true ∧ d.onlyB = true) ∧
        (d.onlyA = false → d.onlyB = false → d.second ∈ b.sizes) ∧
        (d.onlyA = true → d.b = 0) := by
  refine ⟨compares_ofStats a.sizes b.sizes, fun ds h => ⟨?_, h.mem_names, h.firsts, ?_, ?_⟩⟩
  · exact h.ordered.imp List.not_lt.mp
  · have hvain : ∀ s : Stat,
        (!(Stat.find a.sizes s.name).2) = (Stat.lookup a.sizes s.name).isNone :=
      fun s => Option.not_isSome _
    simp only [hvain]
    exact h.seconds
  · intro d hd
    cases h.row hd with
    | both _ hy => exact ⟨nofun, nofun, fun _ _ => hy, nofun⟩
    | onlyA _ _ => exact ⟨nofun, nofun, nofun, fun _ => rfl⟩
    | onlyB _ _ => exact ⟨fun _ => rfl, nofun, nofun, nofun⟩

/-- out of order, and with a name that stands twice -/
def unorderedA : Summary :=
  ⟨[⟨Bytes.ofString "O2", 1⟩, ⟨Bytes.ofString "O1", 2⟩, ⟨Bytes.ofString "O2", 3⟩], []⟩

def unorderedB : Summary :=
  ⟨[⟨Bytes.ofString "O2", 4⟩, ⟨Bytes.ofString "O1", 5⟩], []⟩

/-- `O1` stands in both lists, but halving the first one misses it -/
theorem between_conserves_sample :
    Compares unorderedA.sizes unorderedB.sizes (between unorderedA unorderedB) ∧
      Stat.find unorderedA.sizes (Bytes.ofString "O1") = (0, false) ∧
      Stat.find unorderedA.sizes (Bytes.ofString "O2") = (3, true) ∧
      (((between unorderedA unorderedB).filter fun d => !d.onlyB).map first).Perm
        unorderedA.sizes ∧
      (((between unorderedA unorderedB).filter fun d => d.onlyB).map second).Perm
        [⟨Bytes.ofString "O1", 5⟩] := by
  have hmissed : Stat.Searches unorderedA.sizes (Bytes.ofString "O1") 2 (0, false) :=
    .differs (.lower (by decide) rfl (by decide)
      (.lower (by decide) rfl (by decide) (.done (by decide)))) rfl (by decide)
  have hfound : Stat.Searches unorderedA.sizes (Bytes.ofString "O2") 2 (3, true) :=
    .hit (s := ⟨Bytes.ofString "O2", 3⟩) (.upper (by decide) rfl (by decide)
      (.lower (by decide) rfl (by decide) (.done (by decide)))) rfl rfl
  obtain ⟨hcompares, hall⟩ := between_conserves unorderedA unorderedB
  obtain ⟨-, -, hfirsts, hseconds, -⟩ := hall _ hcompares
  have hvain : (unorderedB.sizes.filter fun s => !(Stat.find unorderedA.sizes s.name).2) =
      [⟨Bytes.ofString "O1", 5⟩] := by
    unfold unorderedB
    rw [List.filter_cons_of_neg (by rw [← hfound.eq_find]; decide),
      List.filter_cons_of_pos (by rw [← hmissed.eq_find]; rfl), List.filter_nil]
  rw [hvain] at hseconds
  exact ⟨hcompares, hmissed.eq_find.symm, hfound.eq_find.symm, hfirsts, hseconds⟩

end Footprint.Delta
