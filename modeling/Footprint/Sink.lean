import Footprint.Text.Bytes

/-!
# Buffered writing

Text is written in pieces through a buffer of 4096 bytes into a sink, which may accept only so many
bytes in all. A piece that fits into the buffer waits there; a piece that does not fit fills the
buffer up, empties it into the sink and goes on with the rest; what is too large for an empty buffer
goes straight to the sink. After the sink has failed nothing more reaches it, and the failure is
reported when the writing is closed.
-/

namespace Footprint

/-- a receiver of bytes, with the number of bytes it still accepts -/
structure Sink (ε : Type) where
  received : Bytes
  /-- `none` for no limit -/
  room : Option Nat
  /-- the error of a sink that cannot take in everything -/
  failure : ε

namespace Sink

variable {ε : Type}

def ofLimit (limit : Option Nat) (failure : ε) : Sink ε := ⟨[], limit, failure⟩

/-- how many of `n` bytes are accepted -/
def accepts (s : Sink ε) (n : Nat) : Nat :=
  match s.room with
  | none => n
  | some r => min n r

/-- takes in as many of the bytes as there is room for -/
def write (s : Sink ε) (bs : Bytes) : Sink ε :=
  { s with received := s.received ++ bs.take (s.accepts bs.length)
           room := s.room.map (· - bs.length) }

/-- the answer to a write -/
def answer (s : Sink ε) (bs : Bytes) : Option ε :=
  if s.accepts bs.length < bs.length then some s.failure else none

end Sink

/-- a writer with bytes still waiting in its buffer, and the first error of its sink -/
structure Writer (ε : Type) where
  sink : Sink ε
  pending : Bytes
  error : Option ε

namespace Writer

variable {ε : Type}

/-- bytes that fit into the buffer -/
def capacity : Nat := 4096

def ofSink (sink : Sink ε) : Writer ε := ⟨sink, [], none⟩

/-- bytes past the buffer, which is empty -/
def writeThrough (w : Writer ε) (bs : Bytes) : Writer ε :=
  { w with sink := w.sink.write bs, error := w.sink.answer bs }

/-- empties the buffer into the sink -/
def flush (w : Writer ε) : Writer ε :=
  if w.error.isSome || w.pending.isEmpty then w
  else { w.writeThrough w.pending with pending := [] }

/-- one piece into an empty buffer, or past it -/
def writeFresh (w : Writer ε) (piece : Bytes) : Writer ε :=
  if w.error.isSome then w
  else if piece.length ≤ capacity then { w with pending := piece }
  else w.writeThrough piece

/-- one piece of text -/
def write (w : Writer ε) (piece : Bytes) : Writer ε :=
  let available := capacity - w.pending.length
  if w.error.isSome then w
  else if piece.length ≤ available then { w with pending := w.pending ++ piece }
  else if w.pending.isEmpty then w.writeThrough piece
  else
    ({ w with pending := w.pending ++ piece.take available } : Writer ε).flush.writeFresh
      (piece.drop available)

/-- all pieces in order, and the rest of the buffer at the end -/
def writeAll (w : Writer ε) (pieces : List Bytes) : Writer ε := (pieces.foldl write w).flush

end Writer

/-- what a sink receives of a text in pieces, and its error if it failed -/
def deliverTo {ε : Type} (sink : Sink ε) (pieces : List Bytes) : Bytes × Option ε :=
  let w := (Writer.ofSink sink).writeAll pieces
  (w.sink.received, w.error)

/-- why a text was not written in full -/
inductive WriteError where
  | limitReached
  deriving DecidableEq

def WriteError.message : WriteError → Bytes
  | .limitReached => Bytes.ofString "limit reached"

/-- what a sink with a limit receives of a text in pieces, and whether it failed -/
def deliver (limit : Option Nat) (pieces : List Bytes) : Bytes × Option WriteError :=
  deliverTo (Sink.ofLimit limit .limitReached) pieces

end Footprint
