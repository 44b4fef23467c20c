import Footprint.Ledger
import Footprint.Path

/-!
# Workspaces

A workspace is a directory tree held in memory: files with their contents and directories, under the
elements that lead to them. Opening a path walks along its elements. Every element, also an empty
one or a `.`, asks that the walk stands in a directory. What lies outside the tree is taken to be
directories without content.
-/

namespace Footprint

inductive Entry where
  | file (content : Bytes)
  | directory
  deriving DecidableEq

/-- an error of the system under the files -/
inductive SystemError where
  | missing
  | notDirectory
  | isDirectory
  /-- any other one, known by its text -/
  | other (text : Bytes)
  deriving DecidableEq

def SystemError.message : SystemError → Bytes
  | .missing => Bytes.ofString "no such file or directory"
  | .notDirectory => Bytes.ofString "not a directory"
  | .isDirectory => Bytes.ofString "is a directory"
  | .other text => text

/-- why a path gives no content: the file was not opened, or the first attempt to read from it
failed -/
inductive FileFault where
  | opening (error : SystemError)
  | reading (error : SystemError)
  deriving DecidableEq

@[match_pattern]
abbrev FileFault.missing : FileFault := .opening .missing

structure Workspace where
  entries : Ledger (List Bytes) Entry

namespace Workspace

def empty : Workspace := ⟨Ledger.empty⟩

/-- the elements of a path that lead somewhere -/
def route (p : Path) : List Bytes :=
  p.elements.filter fun e => e ≠ [] ∧ e ≠ [Bytes.point]

/-- the workspace with an entry; the directories that lead to it are there too -/
def put (w : Workspace) (p : Path) (e : Entry) : Workspace := ⟨w.entries.put (route p) e⟩

/-- what stands at the end of a route from the top -/
def entry? (w : Workspace) (r : List Bytes) : Option Entry :=
  match w.entries.get? r with
  | some e => some e
  | none =>
    if r = [] ∨ w.entries.keys.any (fun key => r.isPrefixOf key) then some .directory else none

/-- where a walk stands: somewhere above the top, or at the end of a route from it -/
inductive Place where
  | above
  | inside (r : List Bytes)

/-- one element further; the place must be a directory -/
def enter (w : Workspace) (place : Place) (element : Bytes) : Except SystemError Place :=
  match place with
  | .above =>
    if element = [] ∨ element = [Bytes.point] ∨ element = [Bytes.point, Bytes.point] then .ok .above
    else .error .missing
  | .inside r =>
    match w.entry? r with
    | none => .error .missing
    | some (.file _) => .error .notDirectory
    | some .directory =>
      if element = [] ∨ element = [Bytes.point] then .ok place
      else if element = [Bytes.point, Bytes.point] then
        .ok (if r = [] then .above else .inside r.dropLast)
      else .ok (.inside (r ++ [element]))

def walk (w : Workspace) (place : Place) : List Bytes → Except SystemError Place
  | [] => .ok place
  | element :: rest =>
    match w.enter place element with
    | .ok next => w.walk next rest
    | .error e => .error e

/-- the content of the file that a path leads to -/
def read (w : Workspace) (p : Path) : Except FileFault Bytes :=
  let start : Place := if p.head? = some Bytes.slash then .above else .inside []
  if p = [] then .error .missing
  else
    match w.walk start p.elements with
    | .error e => .error (.opening e)
    | .ok .above => .error (.reading .isDirectory)
    | .ok (.inside r) =>
      match w.entry? r with
      | none => .error .missing
      | some .directory => .error (.reading .isDirectory)
      | some (.file content) => .ok content

end Workspace

end Footprint
