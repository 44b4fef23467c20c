import Footprint.Number.Integer
import Footprint.Text.Quoted

/-!
# Options of the plot command

Options come before the other arguments, with one or two dashes, their value behind an equals sign
or in the next argument. A lone dash or any argument without a dash ends them, and so do two dashes
alone, which are dropped.
-/

namespace Footprint

/-- a request for a plot -/
structure PlotOptions where
  /-- in centimetres -/
  width : Int
  /-- in centimetres -/
  height : Int
  kind : Bytes
  format : Bytes
  deriving DecidableEq

namespace PlotOptions

def default : PlotOptions := ⟨15, 10, Bytes.ofString "geomean", Bytes.ofString "png"⟩

end PlotOptions

/-- why options were not understood -/
inductive OptionError where
  | help
  | badSyntax (argument : Bytes)
  | undefined (name : Bytes)
  | needsArgument (name : Bytes)
  | invalidValue (name value : Bytes) (fault : IntegerFault)
  deriving DecidableEq

namespace OptionError

/-- the complaint; a request for help has none -/
def message? : OptionError → Option Bytes
  | .help => none
  | .badSyntax argument => some (Bytes.ofString "bad flag syntax: " ++ argument)
  | .undefined name => some (Bytes.ofString "flag provided but not defined: -" ++ name)
  | .needsArgument name => some (Bytes.ofString "flag needs an argument: -" ++ name)
  | .invalidValue name value fault =>
    some (Bytes.ofString "invalid value " ++ quote value ++ Bytes.ofString " for flag -" ++ name ++
      Bytes.ofString ": " ++ fault.message)

end OptionError

/-- the options there are -/
inductive OptionName where
  | width
  | height
  | kind
  | format
  deriving DecidableEq

namespace OptionName

def ofBytes? (name : Bytes) : Option OptionName :=
  if name = Bytes.ofString "width" then some .width
  else if name = Bytes.ofString "height" then some .height
  else if name = Bytes.ofString "plot" then some .kind
  else if name = Bytes.ofString "format" then some .format
  else none

end OptionName

/-- what an argument is among the options -/
inductive Argument where
  /-- the first argument that is no option -/
  | other
  /-- two dashes alone -/
  | terminator
  | malformed
  | option (name : Bytes) (value : Option Bytes)
  deriving DecidableEq

namespace Argument

/-- an option without its dashes: a name, and a value behind the first equals sign -/
def ofBody (body : Bytes) : Argument :=
  match body with
  | [] => .malformed
  | b :: _ =>
    if b = Bytes.minus ∨ b = Bytes.equals then .malformed
    else
      match body.dropWhile (· != Bytes.equals) with
      | [] => .option body none
      | _ :: value => .option (body.takeWhile (· != Bytes.equals)) (some value)

def ofBytes (argument : Bytes) : Argument :=
  match argument with
  | a :: b :: rest =>
    if a ≠ Bytes.minus then .other
    else if b ≠ Bytes.minus then ofBody (b :: rest)
    else if rest.isEmpty then .terminator
    else ofBody rest
  | _ => .other

end Argument

namespace PlotOptions

/-- a whole number as the value of an option -/
def integer (name value : Bytes) : Except OptionError Int :=
  match Integer.read value with
  | .ok n => .ok n
  | .error fault => .error (.invalidValue name value fault)

def set (o : PlotOptions) (option : OptionName) (name value : Bytes) :
    Except OptionError PlotOptions :=
  match option with
  | .width => (integer name value).map fun n => { o with width := n }
  | .height => (integer name value).map fun n => { o with height := n }
  | .kind => .ok { o with kind := value }
  | .format => .ok { o with format := value }

/-- an option by its name -/
def find (name : Bytes) : Except OptionError OptionName :=
  match OptionName.ofBytes? name with
  | some option => .ok option
  | none =>
    if name = Bytes.ofString "help" ∨ name = Bytes.ofString "h" then .error .help
    else .error (.undefined name)

/-- reads the options in front of the arguments; gives them and the arguments behind them -/
def read (o : PlotOptions) : List Bytes → Except OptionError (PlotOptions × List Bytes)
  | [] => .ok (o, [])
  | argument :: rest =>
    match Argument.ofBytes argument with
    | .other => .ok (o, argument :: rest)
    | .terminator => .ok (o, rest)
    | .malformed => .error (.badSyntax argument)
    | .option name (some value) =>
      match find name with
      | .error e => .error e
      | .ok option =>
        match o.set option name value with
        | .error e => .error e
        | .ok next => read next rest
    | .option name none =>
      match find name with
      | .error e => .error e
      | .ok option =>
        match rest with
        | [] => .error (.needsArgument name)
        | value :: more =>
          match o.set option name value with
          | .error e => .error e
          | .ok next => read next more

end PlotOptions

end Footprint
