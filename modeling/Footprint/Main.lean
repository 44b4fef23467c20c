import Footprint.Chart.Outline
import Footprint.Command

/-!
# The program

The first argument names a command: `summary`, `compare` or `plot`. The files it reads are read
first; the rest is the command itself. A plot is printed as the outline of its chart.
-/

namespace Footprint.Program

def commandOf? : String → Option Command
  | "summary" => some .summary
  | "compare" => some .comparison
  | "plot" => some .plot
  | _ => none

/-- the error of the system that a file met -/
def errorOf : IO.Error → SystemError
  | .noFileOrDirectory _ _ _ => .missing
  | .inappropriateType _ 21 _ => .isDirectory
  | .inappropriateType _ 20 _ => .notDirectory
  | e => .other (Bytes.ofString (toString e))

def readPath (path : Path) : IO (Except FileFault Bytes) := do
  match String.fromUTF8? ⟨path.toArray⟩ with
  | none => return .error (.opening (.other (Bytes.ofString "invalid name")))
  | some name =>
    match ← (IO.FS.Handle.mk name .read).toBaseIO with
    | .error e => return .error (.opening (errorOf e))
    | .ok handle =>
      match ← handle.readBinToEnd.toBaseIO with
      | .error e => return .error (.reading (errorOf e))
      | .ok content => return .ok content.toList

/-- what was read under every path -/
def readPaths (paths : List Path) : IO (Ledger Path (Except FileFault Bytes)) :=
  paths.foldlM (fun contents path => return contents.put path (← readPath path)) Ledger.empty

def print (stream : IO.FS.Stream) (s : Bytes) : IO Unit := do
  stream.write ⟨s.toArray⟩
  stream.flush

def run (name : String) (command : Command) (arguments : List Bytes) : IO UInt32 := do
  let started ← IO.monoMsNow
  let contents ← readPaths (command.inputs arguments)
  let finished ← IO.monoMsNow
  let elapsed := Bytes.ofString s!"{finished - started}ms"
  let read : FileReader := fun path => (contents.get? path).getD (.error .missing)
  let outcome := command.run ⟨Bytes.ofString ("footprint " ++ name), read, elapsed⟩ arguments
  print (← IO.getStderr) outcome.messages
  print (← IO.getStdout) outcome.output
  match outcome.drawing with
  | some drawing => print (← IO.getStdout) (Listing.text drawing.chart.outline)
  | none => pure ()
  return outcome.status.toUInt32

end Footprint.Program

def main (arguments : List String) : IO UInt32 := do
  match arguments with
  | [] =>
    IO.eprintln "usage: footprint summary | compare A B | plot [options] FILE"
    return 2
  | name :: rest =>
    match Footprint.Program.commandOf? name with
    | some command => Footprint.Program.run name command (rest.map Footprint.Bytes.ofString)
    | none =>
      IO.eprintln s!"footprint: no command {name}"
      return 2
