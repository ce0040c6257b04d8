import PCode.Command.Basic
import PCode.Trace.Calendar
import PCode.Trace.Stream

/-!
# Showing a trace

The command prints the header of a trace and its records, from a given number on
and up to a given count.

Main definition: `Show.command`.
-/

namespace PCode.Command.Show

open Cbor (Bytes)

/-- The flags of the command. -/
def flags : List (String × FlagKind) := [("header", .bool), ("from", .natural), ("n", .int)]

/-- How the command is used. -/
def usage : String := printed
  [ "Usage: pmtrace [options] trace.cbor"
  , ""
  , "  -header  print only the header"
  , "  -from n  first record to print"
  , "  -n n     print at most n records (0 for all)" ]

/-- The line for a header. -/
def headerLine (h : Trace.Header) : String :=
  s!"run {Trace.RunId.text h.id}: {h.program} ({h.instructions.toInt} instructions), " ++
    s!"started {Trace.timeText h.startSeconds}"

/-- The line for a record. -/
def recordLine (r : Trace.Record) : String :=
  Text.padLeft 6 (toString r.number.toNat) ++ " " ++ r.snapshot.text

/-- The lines for records, after those so far, the latest of which is first, and the error that they
end with.  The first number bounds the records read; the last two are the first record to show, and
how many may still be shown, if there is a limit. -/
def recordLines : Nat → List String → Bytes → UInt64 → Option Nat →
    List String × Option Trace.ReadError
  | 0, sofar, _, _, _ => (sofar.reverse, none)
  | fuel + 1, sofar, bytes, first, left =>
    if left = some 0 then (sofar.reverse, none)
    else
      match Trace.next bytes with
      | .error e => (sofar.reverse, some e)
      | .ok none => (sofar.reverse, none)
      | .ok (some (r, rest)) =>
        if r.number < first then recordLines fuel sofar rest first left
        else recordLines fuel (recordLine r :: sofar) rest first (left.map (· - 1))

/-- Show the trace in the bytes of a file. -/
def showBytes (w : World) (given : Flags.Given) (bytes : Bytes) : Outcome :=
  match Trace.readHeader bytes with
  | .error e => failed w.files "" e.message
  | .ok (h, rest) =>
    let head := headerLine h ++ "\n"
    if Flags.isOn given "header" then { output := head, files := w.files }
    else
      let n := Flags.intOf given "n" 0
      let left := if n = 0 then none else some n.toNatClampNeg
      let (lines, error) :=
        recordLines (rest.length + 1) [] rest (Flags.naturalOf given "from") left
      let output := head ++ printed lines
      match error with
      | some e => failed w.files output e.message
      | none => { output, files := w.files }

/-- The command. -/
def command (w : World) (args : List String) : Outcome :=
  match Flags.parse flags args with
  | .error e => flagOutcome w.files usage e
  | .ok (given, [path]) =>
    match w.files.resolve w.workingDirectory path with
    | .error fault => failed w.files "" s!"open {path}: {fault.message}"
    | .ok (_, .directory _) => failed w.files "" (Trace.ReadError.message .badHeader)
    | .ok (_, .file content) => showBytes w given content
  | .ok _ => misused w.files usage

end PCode.Command.Show
