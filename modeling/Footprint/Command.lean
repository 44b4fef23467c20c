import Footprint.Chart
import Footprint.Command.Options
import Footprint.Listing
import Footprint.Report.Loading

/-!
# Commands

Three commands: a summary of `results.csv`, a comparison of two results files, and a plot of one. A
command is a function of its arguments and of what the files hold. What it prints, its messages and
its exit status are its outcome.
-/

namespace Footprint

/-- image formats that a plot can be drawn in -/
inductive ImageFormat where
  | png
  | svg
  | pdf
  deriving DecidableEq

namespace ImageFormat

def ofBytes? (name : Bytes) : Option ImageFormat :=
  if name = Bytes.ofString "png" then some .png
  else if name = Bytes.ofString "svg" then some .svg
  else if name = Bytes.ofString "pdf" then some .pdf
  else none

/-- the complaint about a canvas without an area, from the formats that make one -/
def noAreaMessage? : ImageFormat → Option Bytes
  | .png => some (Bytes.ofString "w and h must both be > 0.")
  | .svg => some (Bytes.ofString "vgsvg: w and h must both be > 0")
  | .pdf => none

end ImageFormat

/-- a chart to be drawn -/
structure Drawing where
  chart : Chart
  format : ImageFormat
  /-- in centimetres -/
  width : Int
  /-- in centimetres -/
  height : Int

structure Outcome where
  status : Nat
  /-- what is printed -/
  output : Bytes
  /-- messages -/
  messages : Bytes
  /-- the chart to be drawn instead of printing -/
  drawing : Option Drawing

namespace Outcome

/-- a message ends its line -/
def message (s : Bytes) : Bytes :=
  if s.getLast? = some Bytes.newline then s else s ++ [Bytes.newline]

def messageLines (ms : List Bytes) : Bytes := ms.flatMap message

/-- messages and an exit status, nothing printed -/
def failure (status : Nat) (ms : List Bytes) : Outcome := ⟨status, [], messageLines ms, none⟩

end Outcome

/-- what a command is given besides its arguments -/
structure Setting where
  /-- the name under which the command was called -/
  program : Bytes
  read : FileReader
  /-- the time the command took, as text -/
  elapsed : Bytes

/-- the commands there are -/
inductive Command where
  | summary
  | comparison
  | plot
  deriving DecidableEq

namespace Command

/-! ### summary -/

/-- the results file that is summarized -/
def resultsFile : Path := Bytes.ofString "results.csv"

def runSummary (setting : Setting) : Outcome :=
  match Table.readFile setting.read resultsFile with
  | .error e => .failure 1 [e.message]
  | .ok t => ⟨0, Listing.text (Listing.summary (Summary.ofTable t)), [], none⟩

/-! ### comparison -/

def comparisonUsage (program : Bytes) : Bytes :=
  Bytes.ofString "Usage: " ++ program ++ Bytes.ofString " <results A> <results B>"

/-- the two reports compared -/
def compared (a b : Report) : Bytes :=
  Listing.text (Listing.deltas a.name b.name
    (Delta.between (Summary.ofTable a.table) (Summary.ofTable b.table)))

/-- compares the files of the first two arguments; more of them are ignored -/
def runComparison (setting : Setting) (arguments : List Bytes) : Outcome :=
  match arguments with
  | pathA :: pathB :: _ =>
    match Report.loadAll setting.read false [pathA, pathB] with
    | .error e => .failure 1 [e.message]
    | .ok reports =>
      let loaded := Bytes.ofString "loaded " ++ decimal reports.length ++
        Bytes.ofString " reports in " ++ setting.elapsed
      match reports with
      | [a, b] => ⟨0, compared a b, Outcome.message loaded, none⟩
      | _ => .failure 0 [loaded]
  | _ => .failure 1 [comparisonUsage setting.program]

/-! ### plot -/

def plotUsage (program : Bytes) : Bytes :=
  Bytes.ofString "Usage of " ++ program ++ Bytes.ofString (":\n" ++
    "  -format string\n    \timage format (png, svg, pdf) (default \"png\")\n" ++
    "  -height int\n    \theight of plot in cm (default 10)\n" ++
    "  -plot string\n    \ttype of plot (geomean, pct) (default \"geomean\")\n" ++
    "  -width int\n    \twith of plot in cm (default 15)\n")

def kindOfBytes? (name : Bytes) : Option ChartKind :=
  if name = Bytes.ofString "geomean" then some .sizes
  else if name = Bytes.ofString "pct" then some .decreases
  else none

/-- options that were not understood: the complaint, and how to use the command -/
def misused (program : Bytes) (e : OptionError) : Outcome :=
  match e.message? with
  | none => .failure 0 [plotUsage program]
  | some complaint => .failure 2 [complaint ++ [Bytes.newline], plotUsage program]

/-- a chart put on a canvas -/
def draw (setting : Setting) (options : PlotOptions) (chart : Chart) : Outcome :=
  match ImageFormat.ofBytes? options.format with
  | none =>
    .failure 1 (chart.log ++ [Bytes.ofString "unsupported format: " ++ quote options.format])
  | some format =>
    match format.noAreaMessage?.filter fun _ => options.width ≤ 0 ∨ options.height ≤ 0 with
    | some complaint => .failure 2 (chart.log ++ [Bytes.ofString "panic: " ++ complaint])
    | none =>
      let rendered := Bytes.ofString "rendered " ++ options.kind ++ Bytes.ofString " plot in " ++
        setting.elapsed
      { status := 0, output := [], messages := Outcome.messageLines (chart.log ++ [rendered])
        drawing := some { chart, format, width := options.width, height := options.height } }

/-- plots one results file -/
def runPlot (setting : Setting) (arguments : List Bytes) : Outcome :=
  match PlotOptions.default.read arguments with
  | .error e => misused setting.program e
  | .ok (options, [path]) =>
    match Table.readFile setting.read path with
    | .error e => .failure 1 [e.message]
    | .ok t =>
      match kindOfBytes? options.kind with
      | none => .failure 1 [Bytes.ofString "unknown plot type " ++ quote options.kind]
      | some kind => draw setting options (Chart.ofTable kind t)
  | .ok _ => .failure 1 [Bytes.ofString "need exactly one results file"]

/-! ### all of them -/

def run (command : Command) (setting : Setting) (arguments : List Bytes) : Outcome :=
  match command with
  | .summary => runSummary setting
  | .comparison => runComparison setting arguments
  | .plot => runPlot setting arguments

/-- the files that a command reads -/
def inputs (command : Command) (arguments : List Bytes) : List Path :=
  match command with
  | .summary => [resultsFile]
  | .comparison => if arguments.length < 2 then [] else arguments.take 2
  | .plot =>
    match PlotOptions.default.read arguments with
    | .ok (_, [path]) => [path]
    | _ => []

end Command

end Footprint
