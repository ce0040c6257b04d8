import PCode.Trace.Basic

/-!
# Trace streams

Writing a trace to a sink that may refuse, and reading one from bytes.  After a
refused record a writer writes nothing more and reports the same error again.

Main definitions: `Trace.Writer.start`, `Trace.Writer.record`, `Trace.readHeader`,
`Trace.next`, `Trace.readAll`.
-/

namespace PCode.Trace

open Cbor (Bytes)

/-! ## Writing -/

/-- A place that takes items up to a number of bytes, if there is a limit. -/
structure Sink where
  limit : Option Nat := none
  /-- what was written, item by item -/
  items : Array Bytes := #[]
  /-- the number of bytes written -/
  size : Nat := 0
  deriving Inhabited

namespace Sink

/-- Take an item, or refuse it. -/
def write? (s : Sink) (item : Bytes) : Option Sink :=
  let size := s.size + item.length
  if s.limit.any (· < size) then none else some { s with items := s.items.push item, size }

/-- All that was written. -/
def bytes (s : Sink) : Bytes := s.items.toList.flatten

end Sink

/-- What could not be written. -/
inductive WriteError where
  | header
  | record (number : Nat)
  deriving DecidableEq, Inhabited, Repr

/-- The wording of a write error, given why the sink refused. -/
def WriteError.message (cause : String) : WriteError → String
  | header => "trace: write header: " ++ cause
  | record n => s!"trace: write record {n}: {cause}"

/-- A trace that is being written. -/
structure Writer where
  header : Header
  sink : Sink
  /-- the number of records so far, with one that was refused -/
  count : Nat := 0
  /-- the first error -/
  error : Option WriteError := none
  deriving Inhabited

namespace Writer

/-- Start a trace with its header. -/
def start (sink : Sink) (header : Header) : Except WriteError Writer :=
  match sink.write? header.toItem.encode with
  | some sink => .ok { header, sink }
  | none => .error .header

/-- Add the record of a snapshot. -/
def record (w : Writer) (s : Snapshot) : Writer :=
  if w.error.isSome then w
  else
    let number := w.count + 1
    let item := Record.toItem { number := UInt64.ofNat number, snapshot := s }
    match w.sink.write? item.encode with
    | some sink => { w with sink, count := number }
    | none => { w with count := number, error := some (.record number) }

/-- Add the records of snapshots. -/
def recordAll (w : Writer) (snapshots : Array Snapshot) : Writer := snapshots.foldl record w

end Writer

/-! ## Reading -/

/-- Why a trace cannot be read. -/
inductive ReadError where
  | empty
  | badHeader
  | unsupported (version : Int64)
  | badRecord
  deriving DecidableEq, Inhabited, Repr

/-- The wording of a read error. -/
def ReadError.message : ReadError → String
  | empty => "trace: empty stream"
  | badHeader => "trace: read header"
  | unsupported v => s!"trace: unsupported version {v.toInt}"
  | badRecord => "trace: read record"

/-- The header of a trace and the bytes after it. -/
def readHeader (bytes : Bytes) : Except ReadError (Header × Bytes) :=
  if bytes.isEmpty then .error .empty
  else
    match Cbor.read? bytes with
    | none => .error .badHeader
    | some (item, rest) =>
      match Header.ofItem? item with
      | none => .error .badHeader
      | some h => if h.version = version then .ok (h, rest) else .error (.unsupported h.version)

/-- The next record and the bytes after it, or nothing at the end. -/
def next (bytes : Bytes) : Except ReadError (Option (Record × Bytes)) :=
  if bytes.isEmpty then .ok none
  else
    match Cbor.read? bytes with
    | none => .error .badRecord
    | some (item, rest) =>
      match Record.ofItem? item with
      | none => .error .badRecord
      | some r => .ok (some (r, rest))

/-- The records in bytes, after those read so far, the latest of which is first, and the error that
they end with.  The number bounds the records that are read. -/
def readRecords : Nat → List Record → Bytes → List Record × Option ReadError
  | 0, sofar, _ => (sofar.reverse, none)
  | fuel + 1, sofar, bytes =>
    match next bytes with
    | .error e => (sofar.reverse, some e)
    | .ok none => (sofar.reverse, none)
    | .ok (some (r, rest)) => readRecords fuel (r :: sofar) rest

/-- What a trace holds. -/
structure Contents where
  header : Header
  records : List Record
  /-- the error after the records, if they do not end with the bytes -/
  error : Option ReadError
  deriving Inhabited

/-- Read a whole trace. -/
def readAll (bytes : Bytes) : Except ReadError Contents :=
  match readHeader bytes with
  | .error e => .error e
  | .ok (header, rest) =>
    let (records, error) := readRecords (rest.length + 1) [] rest
    .ok { header, records, error }

end PCode.Trace
