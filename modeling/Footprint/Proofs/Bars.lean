import Footprint.Chart
import Footprint.Proofs.FixedText
import Footprint.Proofs.Summary

/-!
# Every statistic is drawn or warned about

Bars are made by one loop over the statistics that fills the values, the names under them and the
warnings. After every step the values and the names are those of the statistics drawn so far, and
the warnings those of the others (`Bars.foldl_add`). A warning tells which statistic it is about
(`Bars.notice_inj`), and the names of a summary increase, so that the names under the bars and the
names in the warnings share out those of the summary (`Chart.sharesOut_addBars`). This holds of both
charts of a table, whatever its groups are condensed to (`Chart.shares_out`).
-/

namespace Footprint

/-! ### numbers that cannot be drawn -/

namespace Binary64

theorem isFinite_iff (x : Float) : isFinite x = true ↔ exponentField x.toBits.toNat ≠ 2047 := by
  by_cases h : exponentField x.toBits.toNat = 2047
  · rw [isFinite, number_of_not_finite h]
    by_cases hfraction : fractionField x.toBits.toNat = 0
    · simp [hfraction, h]
    · simp [hfraction, h]
  · rw [isFinite, number_of_finite h]
    simp [h]

/-- what is written for an infinity or a NaN -/
def word (x : Float) : Bytes :=
  if fractionField x.toBits.toNat ≠ 0 then Bytes.ofString "NaN"
  else if 2 ^ 63 ≤ x.toBits.toNat then Bytes.ofString "-Inf"
  else Bytes.ofString "+Inf"

theorem general_eq_word {x : Float} (h : exponentField x.toBits.toNat = 2047) :
    general x = word x := by
  rw [general, number_of_not_finite h, word]
  by_cases hfraction : fractionField x.toBits.toNat = 0
  · rw [if_pos hfraction, if_neg (not_not.mpr hfraction)]
    by_cases hsign : 2 ^ 63 ≤ x.toBits.toNat
    · rw [if_pos hsign, decide_eq_true hsign]
      rfl
    · rw [if_neg hsign, decide_eq_false hsign]
      rfl
  · rw [if_neg hfraction, if_pos hfraction]

theorem word_cases (x : Float) :
    word x = Bytes.ofString "NaN" ∨ word x = Bytes.ofString "-Inf" ∨
      word x = Bytes.ofString "+Inf" := by
  unfold word
  split
  · exact .inl rfl
  · split
    · exact .inr (.inl rfl)
    · exact .inr (.inr rfl)

theorem word_ne_nil (x : Float) : word x ≠ [] := by
  rcases word_cases x with hx | hx | hx <;> rw [hx] <;> decide

/-- words of different lengths end in different letters -/
theorem word_ending (x y : Float) :
    (word x).length = (word y).length ∨ (word x).getLast? ≠ (word y).getLast? := by
  rcases word_cases x with hx | hx | hx <;> rcases word_cases y with hy | hy | hy <;>
    rw [hx, hy] <;> decide

end Binary64

namespace Stat

/-- the value is neither an infinity nor a NaN -/
def Drawable (s : Stat) : Prop := Binary64.exponentField s.value.toBits.toNat ≠ 2047

instance (s : Stat) : Decidable s.Drawable := inferInstanceAs (Decidable (_ ≠ _))

/-- the statistics that can be drawn -/
def drawn (stats : List Stat) : List Stat := stats.filter fun s => decide s.Drawable

/-- the statistics that cannot be drawn -/
def skipped (stats : List Stat) : List Stat := stats.filter fun s => decide ¬ s.Drawable

variable {s : Stat} {stats : List Stat}

theorem mem_drawn : s ∈ drawn stats ↔ s ∈ stats ∧ s.Drawable := by
  rw [drawn, List.mem_filter, decide_eq_true_eq]

theorem mem_skipped : s ∈ skipped stats ↔ s ∈ stats ∧ ¬ s.Drawable := by
  rw [skipped, List.mem_filter, decide_eq_true_eq]

theorem drawn_eq_nil : drawn stats = [] ↔ ∀ s ∈ stats, ¬ s.Drawable := by
  rw [drawn, List.filter_eq_nil_iff]
  simp

end Stat

/-! ### the loop -/

namespace Bars

open Stat (drawn skipped)

theorem add_of_drawable (b : Bars) {s : Stat} (h : s.Drawable) :
    b.add s = ⟨b.values ++ [s.value], b.names ++ [s.name], b.warnings⟩ := by
  rw [add, if_pos ((Binary64.isFinite_iff _).mpr h)]

theorem add_of_not_drawable (b : Bars) {s : Stat} (h : ¬ s.Drawable) :
    b.add s = ⟨b.values, b.names, b.warnings ++ [warning s]⟩ := by
  rw [add, if_neg fun hfinite => h ((Binary64.isFinite_iff _).mp hfinite)]

theorem foldl_add (b : Bars) (stats : List Stat) :
    stats.foldl add b = ⟨b.values ++ (drawn stats).map Stat.value,
      b.names ++ (drawn stats).map Stat.name, b.warnings ++ (skipped stats).map warning⟩ := by
  induction stats generalizing b with
  | nil => simp [drawn, skipped]
  | cons s rest ih =>
    rw [List.foldl_cons, ih]
    by_cases h : s.Drawable
    · simp [add_of_drawable b h, drawn, skipped, h]
    · simp [add_of_not_drawable b h, drawn, skipped, h]

/-! ### warnings -/

/-- the warning about a value that cannot be drawn -/
def notice (s : Stat) : Bytes :=
  Bytes.ofString "Warning: skipping " ++ s.name ++ Bytes.ofString ", value is " ++
    Binary64.word s.value

theorem warning_eq_notice {s : Stat} (h : ¬ s.Drawable) : warning s = notice s := by
  rw [warning, notice, Binary64.general_eq_word (not_not.mp h)]

theorem ofStats_eq (stats : List Stat) :
    ofStats stats = ⟨(drawn stats).map Stat.value, (drawn stats).map Stat.name,
      (skipped stats).map notice⟩ := by
  have hwarnings : (skipped stats).map warning = (skipped stats).map notice :=
    List.map_congr_left fun s hs => warning_eq_notice (Stat.mem_skipped.mp hs).2
  rw [ofStats, foldl_add, hwarnings]
  rfl

/-- a warning names one statistic only -/
theorem notice_inj {s s' : Stat} (h : notice s = notice s') : s.name = s'.name := by
  unfold notice at h
  rcases Binary64.word_ending s.value s'.value with hlength | hlast
  · have hfront := List.append_inj_left' (List.append_inj_left' h hlength) rfl
    exact List.append_cancel_left hfront
  · have hends := congrArg List.getLast? h
    rw [List.getLast?_append_of_ne_nil _ (Binary64.word_ne_nil _),
      List.getLast?_append_of_ne_nil _ (Binary64.word_ne_nil _)] at hends
    exact absurd hends hlast

theorem notice_ne_nothingToPlot (s : Stat) : notice s ≠ Chart.nothingToPlot := by
  intro h
  have hbyte := congrArg (·[9]?) h
  unfold notice at hbyte
  simp only [List.append_assoc] at hbyte
  rw [List.getElem?_append_left (by decide)] at hbyte
  exact absurd hbyte (by decide)

end Bars

/-! ### the chart -/

namespace Chart

open Stat (drawn skipped)

theorem names_nominal (names : List Bytes) : (nominal names).map Prod.snd = names :=
  List.map_snd_zip (Nat.le_of_eq List.length_range.symm)

theorem getElem?_nominal (names : List Bytes) (i : Nat) :
    (nominal names)[i]? = names[i]?.map fun name => (i, name) := by
  unfold nominal
  rw [List.zip, List.getElem?_zipWith]
  by_cases h : i < names.length
  · rw [List.getElem?_range h, List.getElem?_eq_getElem h]
    rfl
  · rw [List.getElem?_eq_none (Nat.le_of_not_lt h)]
    cases (List.range names.length)[i]? <;> rfl

/-- a name stands under a bar -/
def Names (c : Chart) (name : Bytes) : Prop := name ∈ c.nameTicks.map Prod.snd

/-- a message warns about a name -/
def Warns (c : Chart) (name : Bytes) : Prop := ∃ x : Float, Bars.notice ⟨name, x⟩ ∈ c.log

/-- what is drawn and logged on a chart that was blank -/
theorem addBars_blank (kind : ChartKind) (stats : List Stat) :
    (blank kind).addBars stats =
      { kind, bars := (drawn stats).map Stat.value
        nameTicks := nominal ((drawn stats).map Stat.name)
        log := (skipped stats).map Bars.notice ++
          if drawn stats = [] then [nothingToPlot] else [] } := by
  unfold addBars
  dsimp only
  rw [Bars.ofStats_eq]
  by_cases h : drawn stats = []
  · rw [if_pos h, h]
    rfl
  · rw [if_neg h, if_neg (by simpa using h), List.append_nil]
    rfl

section
variable (kind : ChartKind) (stats : List Stat) (name : Bytes)

theorem names_addBars :
    ((blank kind).addBars stats).Names name ↔ ∃ s ∈ stats, s.Drawable ∧ s.name = name := by
  rw [Names, addBars_blank, names_nominal, List.mem_map]
  simp only [Stat.mem_drawn, and_assoc]

theorem warns_addBars :
    ((blank kind).addBars stats).Warns name ↔ ∃ s ∈ stats, ¬ s.Drawable ∧ s.name = name := by
  rw [Warns, addBars_blank]
  constructor
  · rintro ⟨x, hmem⟩
    rcases List.mem_append.mp hmem with hmem | hmem
    · obtain ⟨s, hs, heq⟩ := List.mem_map.mp hmem
      obtain ⟨hstats, hskipped⟩ := Stat.mem_skipped.mp hs
      exact ⟨s, hstats, hskipped, Bars.notice_inj heq⟩
    · split at hmem
      · exact absurd (List.mem_singleton.mp hmem) (Bars.notice_ne_nothingToPlot _)
      · cases hmem
  · rintro ⟨s, hstats, hs, rfl⟩
    have hmem : s ∈ skipped stats := Stat.mem_skipped.mpr ⟨hstats, hs⟩
    exact ⟨s.value, List.mem_append_left _ (List.mem_map_of_mem hmem)⟩

theorem names_or_warns :
    ((blank kind).addBars stats).Names name ∨ ((blank kind).addBars stats).Warns name ↔
      name ∈ stats.map Stat.name := by
  rw [names_addBars, warns_addBars, List.mem_map]
  constructor
  · rintro (⟨s, hs, -, hname⟩ | ⟨s, hs, -, hname⟩)
    · exact ⟨s, hs, hname⟩
    · exact ⟨s, hs, hname⟩
  · rintro ⟨s, hs, hname⟩
    by_cases h : s.Drawable
    · exact .inl ⟨s, hs, h, hname⟩
    · exact .inr ⟨s, hs, h, hname⟩

theorem not_names_and_warns (hordered : Ordered Stat.name stats) :
    ¬ (((blank kind).addBars stats).Names name ∧ ((blank kind).addBars stats).Warns name) := by
  rw [names_addBars, warns_addBars]
  rintro ⟨⟨s, hs, hdrawn, hname⟩, s', hs', hskipped, hname'⟩
  have hsame : s = s' := hordered.eq_of_name_eq hs hs' (hname.trans hname'.symm)
  exact hskipped (hsame ▸ hdrawn)

end

/-- the chart draws every statistic under its own name or warns about it -/
structure SharesOut (stats : List Stat) (c : Chart) : Prop where
  increasing : (c.nameTicks.map Prod.snd).Pairwise (· < ·)
  ticks : ∀ i : Nat, c.nameTicks[i]? = (drawn stats)[i]?.map fun s => (i, s.name)
  bars : ∀ i : Nat, c.bars[i]? = (drawn stats)[i]?.map Stat.value
  covered : ∀ name, c.Names name ∨ c.Warns name ↔ name ∈ stats.map Stat.name
  apart : ∀ name, ¬ (c.Names name ∧ c.Warns name)
  log : c.log = (skipped stats).map Bars.notice ++
    if drawn stats = [] then [Bytes.ofString "Warning: nothing to plot"] else []
  nothing : c.bars = [] ∧ c.nameTicks = [] ∧
    c.log.getLast? = some (Bytes.ofString "Warning: nothing to plot") ↔
      ∀ s ∈ stats, ¬ s.Drawable

theorem sharesOut_addBars (kind : ChartKind) {stats : List Stat}
    (hordered : Ordered Stat.name stats) : SharesOut stats ((blank kind).addBars stats) where
  increasing := by
    rw [addBars_blank, names_nominal]
    exact List.pairwise_map.mpr (hordered.filter _)
  ticks i := by
    rw [addBars_blank, getElem?_nominal, List.getElem?_map, Option.map_map]
    rfl
  bars i := by rw [addBars_blank, List.getElem?_map]
  covered := names_or_warns kind stats
  apart name := not_names_and_warns kind stats name hordered
  log := by
    rw [addBars_blank]
    rfl
  nothing := by
    rw [← Stat.drawn_eq_nil, addBars_blank]
    refine ⟨fun h => List.map_eq_nil_iff.mp h.1, fun h => ?_⟩
    rw [h, if_pos rfl]
    exact ⟨rfl, rfl, List.getLast?_concat⟩

/-- **Every statistic is drawn once under its own name or warned about once.** Of any list of
statistics the finite ones are drawn, in order and with their names beside them, and each of the
others has its warning, in order. The chart of sizes shares out the mean sizes of a table in this
way and the chart of decreases its mean decreases, however the groups are condensed. So the names
under the bars and in the warnings are the optimizations of some file, and the optimizations besides
the baseline of some file that has a baseline. -/
theorem shares_out :
    (∀ stats : List Stat,
      let b := Bars.ofStats stats
      b.names.length = b.values.length ∧
      List.zipWith Stat.mk b.names b.values = drawn stats ∧
      b.warnings = (skipped stats).map Bars.notice) ∧
    ∀ (condenseSizes condenseDecreases : List Float → Float) (t : Table),
      let summary := Summary.ofTableWith condenseSizes condenseDecreases t
      let sizes := ofTableWith condenseSizes condenseDecreases .sizes t
      let decreases := ofTableWith condenseSizes condenseDecreases .decreases t
      SharesOut summary.sizes sizes ∧ SharesOut summary.decreases decreases ∧
      (∀ name, sizes.Names name ∨ sizes.Warns name ↔
        ∃ file ∈ t.files, (t.size? file name).isSome = true) ∧
      ∀ name, decreases.Names name ∨ decreases.Warns name ↔ name ≠ baseline ∧ ∃ file ∈ t.files,
        (t.size? file baseline).isSome = true ∧ (t.size? file name).isSome = true := by
  refine ⟨?_, ?_⟩
  · intro stats b
    have hb : b = _ := Bars.ofStats_eq stats
    rw [hb]
    refine ⟨by rw [List.length_map, List.length_map], ?_, rfl⟩
    rw [List.zipWith_map, List.zipWith_self]
    exact List.map_id _
  · intro condenseSizes condenseDecreases t summary sizes decreases
    have hsizes : SharesOut summary.sizes sizes :=
      sharesOut_addBars .sizes (Stat.ordered_ofGroups condenseSizes t.groups)
    have hdecreases : SharesOut summary.decreases decreases :=
      sharesOut_addBars .decreases (Stat.ordered_ofGroups condenseDecreases t.decreases)
    refine ⟨hsizes, hdecreases, fun name => ?_, fun name => ?_⟩
    · rw [hsizes.covered, ← t.isSome_get?_groups]
      exact Stat.mem_names_ofGroups
    · rw [hdecreases.covered, ← t.isSome_get?_decreases]
      exact Stat.mem_names_ofGroups

/-- a file with a baseline, an optimization, and one whose size is not a number -/
def sampleTable : Table := Table.empty.addAll [
  ⟨Bytes.ofString "a", baseline, Float.ofBits 0x4010000000000000⟩,
  ⟨Bytes.ofString "a", Bytes.ofString "O2", Float.ofBits 0x3ff0000000000000⟩,
  ⟨Bytes.ofString "a", Bytes.ofString "O1", Binary64.nan⟩]

/-- its sizes, in order of the names -/
def sampleStats : List Stat :=
  [⟨Bytes.ofString "O1", Binary64.nan⟩, ⟨Bytes.ofString "O2", Float.ofBits 0x3ff0000000000000⟩,
    ⟨baseline, Float.ofBits 0x4010000000000000⟩]

theorem shares_sampleStats :
    drawn sampleStats = sampleStats.drop 1 ∧ skipped sampleStats = sampleStats.take 1 := by
  have hnan : ¬ Stat.Drawable ⟨Bytes.ofString "O1", Binary64.nan⟩ := by decide +kernel
  have hone : Stat.Drawable ⟨Bytes.ofString "O2", Float.ofBits 0x3ff0000000000000⟩ := by
    decide +kernel
  have hfour : Stat.Drawable ⟨baseline, Float.ofBits 0x4010000000000000⟩ := by decide +kernel
  refine ⟨?_, ?_⟩
  · simp [drawn, sampleStats, hnan, hone, hfour]
  · simp [skipped, sampleStats, hnan, hone, hfour]

/-- two bars and a warning for the sizes, and no baseline among the decreases -/
theorem shares_out_sample :
    let only : List Float → Float := fun values => values.headD 0
    let sizes := ofTableWith only only .sizes sampleTable
    let decreases := ofTableWith only only .decreases sampleTable
    sizes.nameTicks[0]? = some (0, Bytes.ofString "O2") ∧
    sizes.bars[0]? = some (Float.ofBits 0x3ff0000000000000) ∧
    sizes.nameTicks[1]? = some (1, baseline) ∧
    sizes.bars[1]? = some (Float.ofBits 0x4010000000000000) ∧
    sizes.log = [Bytes.ofString "Warning: skipping O1, value is NaN"] ∧
    (decreases.Names (Bytes.ofString "O2") ∨ decreases.Warns (Bytes.ofString "O2")) ∧
    ¬ (decreases.Names baseline ∨ decreases.Warns baseline) := by
  intro only sizes decreases
  obtain ⟨hsizes, -, -, hnames⟩ := shares_out.2 only only sampleTable
  have hstats : (Summary.ofTableWith only only sampleTable).sizes = sampleStats := by
    refine (Stat.eq_ofGroups_of_condenses ⟨_, .refl _, ?_, ?_⟩).symm
    · exact (List.reverse_perm _).symm
    · decide
  obtain ⟨hdrawn, hskipped⟩ := shares_sampleStats
  rw [hstats] at hsizes
  have hlog := hsizes.log
  have hword : Binary64.word Binary64.nan = Bytes.ofString "NaN" := if_pos (by decide +kernel)
  have hticks := hsizes.ticks
  have hbars := hsizes.bars
  rw [hdrawn] at hticks hbars hlog
  rw [hskipped] at hlog
  refine ⟨hticks 0, hbars 0, hticks 1, hbars 1, hlog.trans ?_, ?_, ?_⟩
  · show [Bars.notice ⟨Bytes.ofString "O1", Binary64.nan⟩] = _
    rw [Bars.notice, hword]
    decide
  · exact (hnames _).mpr ⟨by decide, Bytes.ofString "a", by decide, rfl, rfl⟩
  · intro h
    exact ((hnames baseline).mp h).1 rfl

end Chart

end Footprint
