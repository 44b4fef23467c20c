import Footprint.Table
import Footprint.Workspace

/-!
# Reports

A report is the table of a results file under the name of the file. Files are read by a function
from paths to contents, so that reading is a pure function of the path.
-/

namespace Footprint

/-- how files are read -/
abbrev FileReader := Path → Except FileFault Bytes

/-- why a results file gives no table -/
inductive FileError where
  | fault (path : Path) (fault : FileFault)
  | row (path : Path) (error : RowError)
  deriving DecidableEq

namespace FileError

def message : FileError → Bytes
  | .fault path (.opening error) =>
    Bytes.ofString "open " ++ path ++ Bytes.ofString ": " ++ error.message
  | .fault path (.reading error) =>
    path ++ Bytes.ofString ": read " ++ path ++ Bytes.ofString ": " ++ error.message
  | .row path error => path ++ Bytes.ofString ": " ++ error.message

end FileError

/-- the table of a results file -/
def Table.readFile (read : FileReader) (path : Path) : Except FileError Table :=
  match read path with
  | .error fault => .error (.fault path fault)
  | .ok content =>
    match Table.read content with
    | .error e => .error (.row path e)
    | .ok t => .ok t

structure Report where
  name : Bytes
  table : Table

/-- the report of a results file -/
def Report.readFile (read : FileReader) (path : Path) : Except FileError Report :=
  match Table.readFile read path with
  | .error e => .error e
  | .ok table => .ok { name := path.stem, table }

end Footprint
