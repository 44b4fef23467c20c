import Footprint.Text.Bytes

/-!
# Rows of comma-separated text

Text is first brought to newline line ends (`normalize`), then read byte by byte by `Reader.step`.
A field that starts with a quote may hold commas and newlines; in it a doubled quote stands for
one, a quote before a comma or a line end closes the field, and any other quote is data. The end
of the text closes whatever is open, so every text is a list of rows. Empty lines between rows are
skipped, and a row knows the line on which it starts.
-/

namespace Footprint

structure Row where
  /-- the line on which the row starts, counted from one -/
  line : Nat
  fields : List Bytes
  deriving DecidableEq

namespace Row

/-- a carriage return before a newline or at the very end is dropped, every other one is data -/
def normalize : Bytes → Bytes
  | [] => []
  | [b] => if b = Bytes.carriageReturn then [] else [b]
  | b :: c :: rest =>
    if b = Bytes.carriageReturn ∧ c = Bytes.newline then Bytes.newline :: normalize rest
    else b :: normalize (c :: rest)

/-- where in a row the reader stands -/
inductive Place where
  /-- before a row -/
  | between
  /-- behind a comma -/
  | fieldStart
  /-- in a field without quotes -/
  | bare
  /-- in a field that started with a quote -/
  | quoted
  /-- behind a quote in such a field -/
  | closing
  deriving DecidableEq

/-- the state of reading; fields, rows and the bytes of the open field are kept last first -/
structure Reader where
  place : Place
  /-- the line of the next byte -/
  line : Nat
  /-- the line on which the open row starts -/
  start : Nat
  field : Bytes
  fields : List Bytes
  rows : List Row
  deriving DecidableEq

namespace Reader

def initial : Reader := ⟨.between, 1, 1, [], [], []⟩

/-- one more byte in the open field -/
def push (r : Reader) (place : Place) (b : UInt8) : Reader :=
  { r with place, field := b :: r.field }

def endField (r : Reader) : Reader :=
  { r with place := .fieldStart, field := [], fields := r.field.reverse :: r.fields }

/-- the open row ends, and another one may start on the current line -/
def endRow (r : Reader) : Reader :=
  { place := .between, line := r.line, start := r.line, field := [], fields := []
    rows := ⟨r.start, (r.field.reverse :: r.fields).reverse⟩ :: r.rows }

/-- the line below -/
def nextLine (r : Reader) : Reader := { r with line := r.line + 1 }

/-- the first byte of a field -/
def startField (r : Reader) (b : UInt8) : Reader :=
  if b = Bytes.comma then r.endField
  else if b = Bytes.newline then r.nextLine.endRow
  else if b = Bytes.quote then { r with place := .quoted }
  else r.push .bare b

def step (r : Reader) (b : UInt8) : Reader :=
  match r.place with
  | .between =>
    if b = Bytes.newline then { r.nextLine with start := r.line + 1 } else r.startField b
  | .fieldStart => r.startField b
  | .bare =>
    if b = Bytes.comma then r.endField
    else if b = Bytes.newline then r.nextLine.endRow
    else r.push .bare b
  | .quoted =>
    if b = Bytes.quote then { r with place := .closing }
    else if b = Bytes.newline then r.nextLine.push .quoted b
    else r.push .quoted b
  | .closing =>
    if b = Bytes.quote then r.push .quoted Bytes.quote
    else if b = Bytes.comma then r.endField
    else if b = Bytes.newline then r.nextLine.endRow
    else (r.push .quoted Bytes.quote).push .quoted b

def run (r : Reader) (s : Bytes) : Reader := s.foldl step r

/-- the rows read when the text ends here -/
def finish (r : Reader) : List Row :=
  match r.place with
  | .between => r.rows.reverse
  | _ => r.endRow.rows.reverse

theorem run_cons (r : Reader) (b : UInt8) (s : Bytes) : r.run (b :: s) = (r.step b).run s := rfl

theorem run_append (r : Reader) (s t : Bytes) : r.run (s ++ t) = (r.run s).run t := by
  simp [run, List.foldl_append]

end Reader

/-- the rows of a text -/
def readAll (s : Bytes) : List Row := (Reader.initial.run (normalize s)).finish

end Row

end Footprint
