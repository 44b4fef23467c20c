import Mathlib.Data.List.Basic
import Footprint.Report.Loading

/-!
# Loading in any order of steps

What a group of workers comes to, whatever the order of their steps. `Group.Sound` says what every
group is like that can be reached: a report that was kept is the one of its file, a worker that gave
up has left an error behind, and an error has a cause, which is a file that cannot be loaded or a
cancellation from outside. A cancellation by another worker is no cause of its own, because the
error that led to it was recorded first. So the outcome of an ended group is a report for every
file, or an error with a cause (`Group.Sound.outcome_cases`).
-/

namespace Footprint

namespace Loading

variable {load : Path → Except FileError Report}

namespace Group

/-! ### one step -/

theorem getElem?_setPhase (g : Group) (i j : Nat) (phase : Phase) :
    (g.setPhase i phase).workers[j]? =
      g.workers[j]?.map fun w => if i = j then { w with phase } else w := by
  rw [setPhase, List.getElem?_modify]
  rfl

/-- the worker that has moved on is the only new one -/
theorem mem_setPhase {g : Group} {i : Nat} {phase : Phase} {w w' : Worker}
    (hw : g.workers[i]? = some w) (h : w' ∈ (g.setPhase i phase).workers) :
    w' ∈ g.workers ∨ w' = { w with phase } := by
  obtain ⟨j, hj⟩ := List.mem_iff_getElem?.mp h
  rw [getElem?_setPhase, Option.map_eq_some_iff] at hj
  obtain ⟨v, hv, rfl⟩ := hj
  by_cases hij : i = j
  · subst hij
    rw [hw] at hv
    cases hv
    exact .inr (if_pos rfl)
  · rw [if_neg hij]
    exact .inl (List.mem_of_getElem? hv)

theorem paths_setPhase (g : Group) (i : Nat) (phase : Phase) :
    (g.setPhase i phase).workers.map Worker.path = g.workers.map Worker.path := by
  apply List.ext_getElem?
  intro j
  rw [List.getElem?_map, List.getElem?_map, getElem?_setPhase, Option.map_map]
  congr 1
  funext w
  by_cases hij : i = j <;> simp [hij]

theorem workers_record (g : Group) (e : LoadError) : (g.record e).workers = g.workers := by
  unfold record
  cases g.error with
  | some _ => rfl
  | none => rfl

theorem error_record (g : Group) (e : LoadError) : (g.record e).error = some (g.error.getD e) := by
  unfold record
  cases h : g.error with
  | some first => exact h
  | none => rfl

theorem canceled_record {g : Group} {e : LoadError} (h : g.canceled = true) :
    (g.record e).canceled = true := by
  unfold record
  cases g.error with
  | some _ => exact h
  | none => rfl

/-- the steps that a worker can take; one that is not there or has ended takes none -/
theorem work_cases {motive : Group → Prop} (g : Group) (i : Nat)
    (idle : (∀ w, g.workers[i]? = some w → ∃ report, w.phase = .ended report) → motive g)
    (refuse : ∀ w, g.workers[i]? = some w → w.phase = .waiting → g.canceled = true →
      motive ((g.record .canceled).setPhase i (.ended none)))
    (enter : ∀ w, g.workers[i]? = some w → w.phase = .waiting → g.canceled = false →
      motive (g.setPhase i .admitted))
    (fetch : ∀ w, g.workers[i]? = some w → w.phase = .admitted →
      motive (g.setPhase i (.loaded (load w.path))))
    (keep : ∀ w report, g.workers[i]? = some w → w.phase = .loaded (.ok report) →
      motive (g.setPhase i (.ended (some report))))
    (fail : ∀ w e, g.workers[i]? = some w → w.phase = .loaded (.error e) →
      motive ((g.record (.file e)).setPhase i (.ended none))) :
    motive (g.work load i) := by
  unfold work
  cases hw : g.workers[i]? with
  | none => exact idle fun w h => absurd (hw.symm.trans h) nofun
  | some w =>
    obtain ⟨path, phase⟩ := w
    cases phase with
    | waiting =>
      cases hc : g.canceled with
      | true => exact refuse _ hw rfl hc
      | false => exact enter _ hw rfl hc
    | admitted => exact fetch _ hw rfl
    | loaded outcome =>
      cases outcome with
      | ok report => exact keep _ report hw rfl
      | error e => exact fail _ e hw rfl
    | ended report => exact idle fun w h => ⟨report, by cases hw.symm.trans h; rfl⟩

end Group

/-! ### what every reachable group is like -/

/-- what a phase tells about the worker's file and about the error of the group -/
def Phase.Fits (load : Path → Except FileError Report) (path : Path) (error : Option LoadError) :
    Phase → Prop
  | .waiting => True
  | .admitted => True
  | .loaded outcome => outcome = load path
  | .ended (some report) => load path = .ok report
  | .ended none => error ≠ none

theorem Phase.Fits.of_error {path : Path} {error : Option LoadError} {phase : Phase}
    (h : phase.Fits load path error) (e : LoadError) : phase.Fits load path (some e) := by
  cases phase with
  | ended report =>
    cases report with
    | none => exact Option.some_ne_none e
    | some report => exact h
  | _ => exact h

/-- where an error comes from; `outside` says that the group was canceled from outside -/
def Caused (load : Path → Except FileError Report) (paths : List Path) (outside : Prop) :
    LoadError → Prop
  | .file e => ∃ path ∈ paths, load path = .error e
  | .canceled => outside ∧ paths ≠ []

theorem Caused.mono {paths : List Path} {P Q : Prop} {e : LoadError} (h : Caused load paths P e)
    (hPQ : P → Q) : Caused load paths Q e := by
  cases e with
  | file e => exact h
  | canceled => exact ⟨hPQ h.1, h.2⟩

namespace Group

/-- a group that can be reached; `outside` says that it was canceled from outside -/
structure Sound (load : Path → Except FileError Report) (paths : List Path) (outside : Prop)
    (g : Group) : Prop where
  paths_eq : g.workers.map Worker.path = paths
  fits : ∀ w ∈ g.workers, w.phase.Fits load w.path g.error
  caused : ∀ e, g.error = some e → Caused load paths outside e
  canceled : g.canceled = true → g.error ≠ none ∨ outside

variable {paths : List Path} {P Q : Prop} {g : Group}

theorem sound_start (canceled : Bool) (paths : List Path) :
    Sound load paths (canceled = true) (start canceled paths) where
  paths_eq := List.map_map.trans (List.map_id paths)
  fits := by simp [start, Phase.Fits]
  caused := by simp [start]
  canceled := .inr

namespace Sound

theorem mono (h : Sound load paths P g) (hPQ : P → Q) : Sound load paths Q g where
  paths_eq := h.paths_eq
  fits := h.fits
  caused e he := (h.caused e he).mono hPQ
  canceled hc := (h.canceled hc).imp_right hPQ

theorem path_mem (h : Sound load paths P g) {i : Nat} {w : Worker} (hw : g.workers[i]? = some w) :
    w.path ∈ paths :=
  h.paths_eq ▸ List.mem_map_of_mem (List.mem_of_getElem? hw)

theorem setPhase (h : Sound load paths P g) {i : Nat} {w : Worker} {phase : Phase}
    (hw : g.workers[i]? = some w) (hfits : phase.Fits load w.path g.error) :
    Sound load paths P (g.setPhase i phase) where
  paths_eq := (g.paths_setPhase i phase).trans h.paths_eq
  fits w' hw' := by
    rcases mem_setPhase hw hw' with hmem | rfl
    · exact h.fits w' hmem
    · exact hfits
  caused := h.caused
  canceled := h.canceled

theorem record (h : Sound load paths P g) {e : LoadError}
    (he : g.error = none → Caused load paths P e) : Sound load paths P (g.record e) where
  paths_eq := (congrArg _ (g.workers_record e)).trans h.paths_eq
  fits w hw := by
    rw [error_record]
    rw [workers_record] at hw
    exact (h.fits w hw).of_error _
  caused e' he' := by
    rw [error_record] at he'
    cases hg : g.error with
    | none =>
      rw [hg] at he'
      cases he'
      exact he hg
    | some first =>
      rw [hg] at he'
      cases he'
      exact h.caused _ hg
  canceled _ := .inl (by rw [error_record]; exact Option.some_ne_none _)

/-- a worker that has recorded an error may end without a report -/
theorem giveUp (h : Sound load paths P g) {i : Nat} {w : Worker} {e : LoadError}
    (hw : g.workers[i]? = some w) (he : g.error = none → Caused load paths P e) :
    Sound load paths P ((g.record e).setPhase i (.ended none)) := by
  refine (h.record he).setPhase (w := w) ?_ ?_
  · rw [workers_record]
    exact hw
  · rw [error_record]
    exact Option.some_ne_none _

theorem work (h : Sound load paths P g) (i : Nat) : Sound load paths P (g.work load i) := by
  apply work_cases g i
  case idle => exact fun _ => h
  case refuse =>
    -- without an error the group can only have been canceled from outside
    intro w hw _ hc
    refine h.giveUp hw fun hnone => ⟨?_, List.ne_nil_of_mem (h.path_mem hw)⟩
    exact (h.canceled hc).resolve_left fun hne => hne hnone
  case enter =>
    intro w hw _ _
    exact h.setPhase hw trivial
  case fetch =>
    intro w hw _
    exact h.setPhase hw rfl
  case keep =>
    intro w report hw hp
    have hfits := h.fits w (List.mem_of_getElem? hw)
    rw [hp] at hfits
    exact h.setPhase hw hfits.symm
  case fail =>
    intro w e hw hp
    have hfits := h.fits w (List.mem_of_getElem? hw)
    rw [hp] at hfits
    exact h.giveUp hw fun _ => ⟨w.path, h.path_mem hw, hfits.symm⟩

theorem step (h : Sound load paths P g) (event : Event) :
    Sound load paths (P ∨ event = .cancel) (g.step load event) := by
  cases event with
  | work i => exact (h.work i).mono .inl
  | cancel =>
    have h' : Sound load paths (P ∨ Event.cancel = .cancel) g := h.mono .inl
    exact ⟨h'.paths_eq, h'.fits, h'.caused, fun _ => .inr (.inr rfl)⟩

theorem run (h : Sound load paths P g) (events : List Event) :
    Sound load paths (P ∨ .cancel ∈ events) (g.run load events) := by
  induction events generalizing g P with
  | nil => exact h.mono .inl
  | cons event events ih =>
    refine (ih (h.step event)).mono ?_
    rintro ((hP | rfl) | hmem)
    · exact .inl hP
    · exact .inr List.mem_cons_self
    · exact .inr (List.mem_cons_of_mem event hmem)

end Sound

/-! ### the outcome -/

theorem map_reports {workers : List Worker}
    (h : ∀ w ∈ workers, ∃ report, w.phase = .ended (some report) ∧ load w.path = .ok report) :
    (workers.map Worker.path).map load = (workers.filterMap Worker.report?).map .ok := by
  induction workers with
  | nil => rfl
  | cons w workers ih =>
    obtain ⟨report, hp, hload⟩ := h w List.mem_cons_self
    have hreport : w.report? = some report := by rw [Worker.report?, hp]
    rw [List.filterMap_cons_some hreport, List.map_cons, List.map_cons, List.map_cons, hload,
      ih fun w' hw' => h w' (List.mem_cons_of_mem w hw')]

/-- a group that has ended holds the reports of all files, or an error that has a cause -/
theorem Sound.outcome_cases (h : Sound load paths P g) (hend : g.Ended) :
    (∃ reports : List Report, paths.map load = reports.map .ok ∧ g.outcome = .ok reports) ∨
      ∃ e, Caused load paths P e ∧ g.outcome = .error e := by
  unfold outcome
  cases he : g.error with
  | some e => exact .inr ⟨e, h.caused e he, rfl⟩
  | none =>
    refine .inl ⟨_, ?_, rfl⟩
    rw [← h.paths_eq]
    apply map_reports
    intro w hw
    obtain ⟨report, hp⟩ := hend w hw
    have hfits := h.fits w hw
    rw [hp, he] at hfits
    cases report with
    | none => exact absurd rfl hfits
    | some report => exact ⟨report, hp, hfits⟩

/-! ### a group that is canceled from the outset -/

/-- a group in which no worker was ever admitted -/
structure Refused (g : Group) : Prop where
  canceled : g.canceled = true
  phase : ∀ w ∈ g.workers, w.phase = .waiting ∨ w.phase = .ended none
  error : g.error = none ∨ g.error = some .canceled

theorem refused_start (paths : List Path) : Refused (start true paths) where
  canceled := rfl
  phase := by simp [start]
  error := .inl rfl

namespace Refused

theorem work (h : Refused g) (i : Nat) : Refused (g.work load i) := by
  have hphase {w : Worker} (hw : g.workers[i]? = some w) :
      w.phase ≠ .admitted ∧ ∀ outcome, w.phase ≠ .loaded outcome := by
    rcases h.phase w (List.mem_of_getElem? hw) with hp | hp
    · rw [hp]; exact ⟨Phase.noConfusion, fun _ => Phase.noConfusion⟩
    · rw [hp]; exact ⟨Phase.noConfusion, fun _ => Phase.noConfusion⟩
  apply work_cases g i
  case idle => exact fun _ => h
  case refuse =>
    intro w hw _ _
    have hw' : (g.record .canceled).workers[i]? = some w := by rw [workers_record]; exact hw
    have herror : (g.record .canceled).error = some .canceled := by
      rw [error_record]
      rcases h.error with he | he
      · rw [he]; rfl
      · rw [he]; rfl
    refine ⟨canceled_record h.canceled, fun v hv => ?_, .inr herror⟩
    rcases mem_setPhase hw' hv with hmem | rfl
    · exact h.phase v (g.workers_record _ ▸ hmem)
    · exact .inr rfl
  case enter =>
    intro w _ _ hc
    rw [h.canceled] at hc
    cases hc
  case fetch =>
    intro w hw hp
    exact absurd hp (hphase hw).1
  case keep =>
    intro w report hw hp
    exact absurd hp ((hphase hw).2 _)
  case fail =>
    intro w e hw hp
    exact absurd hp ((hphase hw).2 _)

theorem run (h : Refused g) (events : List Event) : Refused (g.run load events) := by
  induction events generalizing g with
  | nil => exact h
  | cons event events ih =>
    cases event with
    | work i => exact ih (h.work i)
    | cancel => exact ih ⟨rfl, h.phase, h.error⟩

theorem outcome_eq (h : Refused g) (hsound : Sound load paths P g) (hend : g.Ended)
    (hne : paths ≠ []) : g.outcome = .error .canceled := by
  have hworkers : g.workers ≠ [] := by
    rintro hnil
    rw [← hsound.paths_eq, hnil] at hne
    exact hne rfl
  obtain ⟨w, hw⟩ := List.exists_mem_of_ne_nil _ hworkers
  have herror : g.error ≠ none := by
    obtain ⟨report, hp⟩ := hend w hw
    have hfits := hsound.fits w hw
    rcases h.phase w hw with hp' | hp'
    · cases hp.symm.trans hp'
    · rw [hp'] at hfits
      exact hfits
  rw [outcome, h.error.resolve_left herror]

end Refused

end Group

/-! ### every worker ends -/

/-- how many steps a worker has yet to take at most -/
def Phase.left : Phase → Nat
  | .waiting => 3
  | .admitted => 2
  | .loaded _ => 1
  | .ended _ => 0

def Event.isWorkOf (i : Nat) : Event → Bool
  | .work j => j == i
  | .cancel => false

namespace Group

variable {g : Group}

/-- from `g` to `g'` the worker at `i` has come nearer to its end, and none has gone back -/
def Nearer (i : Nat) (g g' : Group) : Prop :=
  ∀ j w, g'.workers[j]? = some w →
    ∃ u, g.workers[j]? = some u ∧ w.phase.left ≤ u.phase.left - if i = j then 1 else 0

theorem nearer_setPhase {i : Nat} {phase : Phase} {v : Worker} (hv : g.workers[i]? = some v)
    (hleft : phase.left < v.phase.left) : Nearer i g (g.setPhase i phase) := by
  intro j w hw
  rw [getElem?_setPhase, Option.map_eq_some_iff] at hw
  obtain ⟨u, hu, rfl⟩ := hw
  refine ⟨u, hu, ?_⟩
  by_cases hij : i = j
  · subst hij
    rw [hv] at hu
    cases hu
    rw [if_pos rfl, if_pos rfl]
    exact Nat.le_sub_one_of_lt hleft
  · rw [if_neg hij, if_neg hij]
    exact Nat.le_refl _

theorem nearer_giveUp {i : Nat} {v : Worker} (e : LoadError) (hv : g.workers[i]? = some v)
    (hleft : 0 < v.phase.left) : Nearer i g ((g.record e).setPhase i (.ended none)) := by
  rw [← g.workers_record e] at hv
  have h : Nearer i (g.record e) ((g.record e).setPhase i (.ended none)) :=
    nearer_setPhase hv hleft
  unfold Nearer at h ⊢
  rw [workers_record] at h
  exact h

theorem nearer_work (g : Group) (i : Nat) : Nearer i g (g.work load i) := by
  apply work_cases g i
  case idle =>
    intro hended j w hw
    refine ⟨w, hw, ?_⟩
    by_cases hij : i = j
    · subst hij
      obtain ⟨report, hp⟩ := hended w hw
      rw [hp]
      exact Nat.zero_le _
    · rw [if_neg hij]
      exact Nat.le_refl _
  case refuse =>
    intro v hv hp _
    exact nearer_giveUp .canceled hv (by rw [hp]; decide)
  case enter =>
    intro v hv hp _
    exact nearer_setPhase hv (by rw [hp]; decide)
  case fetch =>
    intro v hv hp
    exact nearer_setPhase hv (by rw [hp]; exact Nat.lt_add_one 1)
  case keep =>
    intro v report hv hp
    exact nearer_setPhase hv (by rw [hp]; exact Nat.zero_lt_one)
  case fail =>
    intro v e hv hp
    exact nearer_giveUp (.file e) hv (by rw [hp]; exact Nat.zero_lt_one)

theorem left_run {j : Nat} {w : Worker} (events : List Event)
    (hw : (g.run load events).workers[j]? = some w) :
    ∃ u, g.workers[j]? = some u ∧
      w.phase.left ≤ u.phase.left - events.countP (Event.isWorkOf j) := by
  induction events generalizing g with
  | nil => exact ⟨w, hw, Nat.le_refl _⟩
  | cons event events ih =>
    obtain ⟨v, hv, hleft⟩ := ih hw
    cases event with
    | work i =>
      obtain ⟨u, hu, hleft'⟩ := nearer_work g i j v hv
      refine ⟨u, hu, ?_⟩
      have hcount : (Event.work i :: events).countP (Event.isWorkOf j) =
          events.countP (Event.isWorkOf j) + if i = j then 1 else 0 := by
        simp [List.countP_cons, Event.isWorkOf]
      omega
    | cancel => exact ⟨v, hv, by simpa [List.countP_cons, Event.isWorkOf] using hleft⟩

/-- three turns are enough for every worker -/
theorem ended_of_turns (canceled : Bool) (paths : List Path) (events : List Event)
    (h : ∀ i < paths.length, 3 ≤ events.countP (Event.isWorkOf i)) :
    ((start canceled paths).run load events).Ended := by
  intro w hw
  obtain ⟨i, hi⟩ := List.mem_iff_getElem?.mp hw
  obtain ⟨u, hu, hleft⟩ := left_run events hi
  rw [start, List.getElem?_map, Option.map_eq_some_iff] at hu
  obtain ⟨path, hpath, rfl⟩ := hu
  have hturns := h i (List.getElem?_eq_some_iff.mp hpath).1
  have hzero : w.phase.left = 0 := by
    change w.phase.left ≤ 3 - _ at hleft
    omega
  cases hp : w.phase with
  | ended report => exact ⟨report, rfl⟩
  | _ => rw [hp] at hzero; cases hzero

end Group

theorem three_turns_inTurn {i n : Nat} (h : i < n) :
    3 ≤ (inTurn n).countP (Event.isWorkOf i) := by
  have hsub : (List.replicate 3 (Event.work i)).Sublist (inTurn n) := by
    rw [inTurn, List.flatMap_def]
    exact List.sublist_flatten_of_mem (List.mem_map_of_mem (List.mem_range.mpr h))
  have hcount : (List.replicate 3 (Event.work i)).countP (Event.isWorkOf i) = 3 := by
    simp [Event.isWorkOf]
  exact hcount ▸ hsub.countP_le

end Loading

/-! ### reports of files -/

theorem Report.readFile_eq_ok {read : FileReader} {path : Path} {report : Report} :
    Report.readFile read path = .ok report ↔
      report.name = path.stem ∧ Table.readFile read path = .ok report.table := by
  obtain ⟨name, table⟩ := report
  rw [Report.readFile]
  cases Table.readFile read path with
  | ok t => simp [eq_comm]
  | error e => simp

theorem Report.readFile_eq_error {read : FileReader} {path : Path} {e : FileError} :
    Report.readFile read path = .error e ↔ Table.readFile read path = .error e := by
  rw [Report.readFile]
  cases Table.readFile read path with
  | ok t => simp
  | error e' => simp

/-- the error of a file cannot be taken for a cancellation, which has no colon -/
theorem FileError.message_ne_canceled (e : FileError) : e.message ≠ LoadError.canceled.message := by
  have hcolon : (58 : UInt8) ∈ e.message := by
    cases e with
    | fault path fault =>
      -- the colon before the text of the system, whatever that is
      cases fault with
      | opening error => exact List.mem_append_left _ (List.mem_append_right _ (by decide))
      | reading error => exact List.mem_append_left _ (List.mem_append_right _ (by decide))
    | row path error =>
      exact List.mem_append_left _ (List.mem_append_right _ (by decide))
  intro h
  rw [h] at hcolon
  exact absurd hcolon (by decide)

namespace Loading

/-- a group of workers after some steps -/
def after (read : FileReader) (canceled : Bool) (paths : List Path) (events : List Event) : Group :=
  (Group.start canceled paths).run (Report.readFile read) events

/-- what a group can come to: the reports of all files in order of the paths, the error of a file,
or a cancellation from outside -/
inductive Possible (read : FileReader) (paths : List Path) (outside : Prop) :
    Except LoadError (List Report) → Prop
  | complete (table : Path → Table) (h : ∀ p ∈ paths, Table.readFile read p = .ok (table p)) :
    Possible read paths outside (.ok (paths.map fun p => ⟨p.stem, table p⟩))
  | failed (p : Path) (hp : p ∈ paths) (e : FileError) (h : Table.readFile read p = .error e) :
    Possible read paths outside (.error (.file e))
  | canceled (h : outside) (hne : paths ≠ []) : Possible read paths outside (.error .canceled)

section

variable {read : FileReader} {canceled : Bool} {paths : List Path} {outside : Prop} {g : Group}
  {outcome : Except LoadError (List Report)}

theorem Group.Sound.possible (h : g.Sound (Report.readFile read) paths outside) (hend : g.Ended) :
    Possible read paths outside g.outcome := by
  rcases h.outcome_cases hend with ⟨reports, hload, hok⟩ | ⟨e, hcause, herror⟩
  · -- every file can be read, so the default is never taken
    let table : Path → Table := fun p => (Table.readFile read p).toOption.getD Table.empty
    have htable : ∀ p ∈ paths, Table.readFile read p = .ok (table p) := by
      intro p hp
      have hmem : Report.readFile read p ∈ reports.map .ok := hload ▸ List.mem_map_of_mem hp
      obtain ⟨report, -, hreport⟩ := List.mem_map.mp hmem
      have ht := (Report.readFile_eq_ok.mp hreport.symm).2
      simp only [table, ht]
      rfl
    have hreports : reports = paths.map fun p => ⟨p.stem, table p⟩ := by
      have hinj : Function.Injective (Except.ok : Report → Except FileError Report) :=
        fun _ _ h => Except.ok.inj h
      apply hinj.list_map
      rw [← hload, List.map_map]
      exact List.map_congr_left fun p hp => Report.readFile_eq_ok.mpr ⟨rfl, htable p hp⟩
    rw [hok, hreports]
    exact .complete table htable
  · rw [herror]
    cases e with
    | file e =>
      obtain ⟨p, hp, hfail⟩ := hcause
      exact .failed p hp e (Report.readFile_eq_error.mp hfail)
    | canceled => exact .canceled hcause.1 hcause.2

theorem Possible.complete_eq (h : Possible read paths outside outcome) (hout : ¬ outside)
    {table : Path → Table} (htable : ∀ p ∈ paths, Table.readFile read p = .ok (table p)) :
    outcome = .ok (paths.map fun p => ⟨p.stem, table p⟩) := by
  cases h with
  | complete table' htable' =>
    have heq : ∀ p ∈ paths, table' p = table p := fun p hp =>
      Except.ok.inj ((htable' p hp).symm.trans (htable p hp))
    rw [List.map_congr_left fun p hp => by rw [heq p hp]]
  | failed p hp e he => cases he.symm.trans (htable p hp)
  | canceled h => exact absurd h hout

theorem Possible.failed_of_mem (h : Possible read paths outside outcome) (hout : ¬ outside)
    {p : Path} (hp : p ∈ paths) {e : FileError} (he : Table.readFile read p = .error e) :
    ∃ q ∈ paths, ∃ e', Table.readFile read q = .error e' ∧ outcome = .error (.file e') := by
  cases h with
  | complete table htable => cases he.symm.trans (htable p hp)
  | failed q hq e' he' => exact ⟨q, hq, e', he', rfl⟩
  | canceled h => exact absurd h hout

/-- what is known about the outcome of a group; `canceled` says that it was canceled from the
outset, and `outside` that it was canceled from outside at some time -/
structure Settled (read : FileReader) (canceled : Bool) (paths : List Path) (outside : Prop)
    (outcome : Except LoadError (List Report)) : Prop where
  complete : ¬ outside → ∀ table : Path → Table,
    (∀ p ∈ paths, Table.readFile read p = .ok (table p)) →
      outcome = .ok (paths.map fun p => ⟨p.stem, table p⟩)
  /-- no cancellation hides the error of a file -/
  failed : ¬ outside → (∃ p ∈ paths, ∃ e, Table.readFile read p = .error e) →
    ∃ p ∈ paths, ∃ e, Table.readFile read p = .error e ∧ outcome = .error (.file e) ∧
      e.message ≠ LoadError.canceled.message
  failed_only : ¬ outside → ∀ p ∈ paths, ∀ e, Table.readFile read p = .error e →
    (∀ q ∈ paths, q ≠ p → ∃ t, Table.readFile read q = .ok t) → outcome = .error (.file e)
  refused : canceled = true → paths ≠ [] → outcome = .error .canceled
  nothing : paths = [] → outcome = .ok []
  possible : Possible read paths outside outcome

theorem Possible.settled (h : Possible read paths outside outcome)
    (hrefused : canceled = true → paths ≠ [] → outcome = .error .canceled) :
    Settled read canceled paths outside outcome where
  complete hout _ htable := h.complete_eq hout htable
  failed := by
    rintro hout ⟨p, hp, e, he⟩
    obtain ⟨q, hq, e', he', houtcome⟩ := h.failed_of_mem hout hp he
    exact ⟨q, hq, e', he', houtcome, e'.message_ne_canceled⟩
  failed_only := by
    intro hout p hp e he hothers
    obtain ⟨q, hq, e', he', houtcome⟩ := h.failed_of_mem hout hp he
    by_cases hqp : q = p
    · subst hqp
      cases he.symm.trans he'
      exact houtcome
    · obtain ⟨t, ht⟩ := hothers q hq hqp
      cases he'.symm.trans ht
  refused := hrefused
  nothing := by
    rintro rfl
    cases h with
    | complete table _ => rfl
    | failed p hp => cases hp
    | canceled _ hne => exact absurd rfl hne
  possible := h

/-- the outcome of every order of steps in which all workers end -/
theorem settled_of_ended {events : List Event} (hend : (after read canceled paths events).Ended) :
    Settled read canceled paths (canceled = true ∨ .cancel ∈ events)
      (after read canceled paths events).outcome := by
  have hsound : (after read canceled paths events).Sound (Report.readFile read) paths
      (canceled = true ∨ .cancel ∈ events) := (Group.sound_start canceled paths).run events
  refine (hsound.possible hend).settled ?_
  rintro rfl hne
  exact ((Group.refused_start paths).run events).outcome_eq hsound hend hne

end

/-- **What loading comes to does not depend on the order of the steps.** Every worker ends once it
had its turns, and `Report.loadAll` takes one of these orders. -/
theorem settled_after (read : FileReader) (canceled : Bool) (paths : List Path) :
    (∀ events, (∀ i < paths.length, 3 ≤ events.countP (Event.isWorkOf i)) →
      (after read canceled paths events).Ended) ∧
    (∀ events, (after read canceled paths events).Ended →
      Settled read canceled paths (canceled = true ∨ .cancel ∈ events)
        (after read canceled paths events).outcome) ∧
    Settled read canceled paths (canceled = true) (Report.loadAll read canceled paths) := by
  refine ⟨Group.ended_of_turns canceled paths, fun _ => settled_of_ended, ?_⟩
  have hend : (after read canceled paths (inTurn paths.length)).Ended :=
    Group.ended_of_turns canceled paths _ fun _ hi => three_turns_inTurn hi
  have hcancel : Event.cancel ∉ inTurn paths.length := by
    simp [inTurn]
  have h := settled_of_ended hend
  rw [or_iff_left hcancel] at h
  exact h

/-- one empty file, and no other -/
def sampleReader : FileReader := fun path => if path = [97] then .ok [] else .error .missing

/-- the second file fails before the first one is loaded, and its error is the outcome -/
theorem settled_after_sample :
    (after sampleReader false [[97], [98]]
        [.work 0, .work 1, .work 1, .work 1, .work 0, .work 0]).outcome =
      .error (.file (.fault [98] .missing)) := by
  obtain ⟨hended, hsettled, -⟩ := settled_after sampleReader false [[97], [98]]
  refine (hsettled _ (hended _ (by decide))).failed_only (by simp) [98] (by simp) _ rfl ?_
  intro q hq hne
  have hq' : q = [97] := by simpa [hne] using hq
  exact ⟨Table.empty, by rw [hq']; rfl⟩

end Loading

end Footprint
