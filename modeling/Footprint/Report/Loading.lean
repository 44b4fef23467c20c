import Footprint.Report

/-!
# Loading reports side by side

Several results files are loaded by one worker each. A worker looks whether the group is canceled,
reads its file, and then either keeps its report or records its error. Only the first error of a
group is kept, and recording it cancels the group, so that workers that have not started yet give
up. The steps of the workers may interleave in any order (`Loading.run`); `Report.loadAll` takes one
worker after the other.
-/

namespace Footprint

/-- why a group of reports was not loaded -/
inductive LoadError where
  | file (error : FileError)
  | canceled
  deriving DecidableEq

namespace LoadError

def message : LoadError → Bytes
  | .file error => error.message
  | .canceled => Bytes.ofString "context canceled"

end LoadError

namespace Loading

/-- how far a worker has come -/
inductive Phase where
  | waiting
  | admitted
  | loaded (outcome : Except FileError Report)
  | ended (report : Option Report)

structure Worker where
  path : Path
  phase : Phase

/-- the report that a worker has kept -/
def Worker.report? (w : Worker) : Option Report :=
  match w.phase with
  | .ended report => report
  | _ => none

structure Group where
  workers : List Worker
  canceled : Bool
  /-- the first error recorded -/
  error : Option LoadError

/-- what happens next -/
inductive Event where
  /-- the next step of a worker -/
  | work (index : Nat)
  /-- the group is canceled from outside -/
  | cancel

namespace Group

/-- a group at its start, which may be canceled from the outset -/
def start (canceled : Bool) (paths : List Path) : Group :=
  ⟨paths.map fun path => ⟨path, .waiting⟩, canceled, none⟩

/-- one worker in another phase -/
def setPhase (g : Group) (index : Nat) (phase : Phase) : Group :=
  { g with workers := g.workers.modify index fun w => { w with phase } }

/-- the first error stays, and the group is canceled from then on -/
def record (g : Group) (e : LoadError) : Group :=
  match g.error with
  | some _ => g
  | none => { g with error := some e, canceled := true }

/-- the next step of a worker; an ended one has none -/
def work (load : Path → Except FileError Report) (g : Group) (index : Nat) : Group :=
  match g.workers[index]? with
  | none => g
  | some w =>
    match w.phase with
    | .waiting =>
      if g.canceled then (g.record .canceled).setPhase index (.ended none)
      else g.setPhase index .admitted
    | .admitted => g.setPhase index (.loaded (load w.path))
    | .loaded (.ok report) => g.setPhase index (.ended (some report))
    | .loaded (.error e) => (g.record (.file e)).setPhase index (.ended none)
    | .ended _ => g

def step (load : Path → Except FileError Report) (g : Group) : Event → Group
  | .work index => g.work load index
  | .cancel => { g with canceled := true }

def run (load : Path → Except FileError Report) (g : Group) (events : List Event) : Group :=
  events.foldl (step load) g

/-- every worker has ended -/
def Ended (g : Group) : Prop := ∀ w ∈ g.workers, ∃ report, w.phase = .ended report

/-- the reports of a group in which every worker has ended, in order of the paths -/
def outcome (g : Group) : Except LoadError (List Report) :=
  match g.error with
  | some e => .error e
  | none => .ok (g.workers.filterMap Worker.report?)

end Group

/-- one worker after the other, each with its three steps -/
def inTurn (count : Nat) : List Event :=
  (List.range count).flatMap fun index => List.replicate 3 (.work index)

end Loading

/-- the reports of results files, in order of the paths -/
def Report.loadAll (read : FileReader) (canceled : Bool) (paths : List Path) :
    Except LoadError (List Report) :=
  ((Loading.Group.start canceled paths).run (Report.readFile read)
    (Loading.inTurn paths.length)).outcome

end Footprint
