import PCode.Cbor.Decode
import PCode.Snapshot
import PCode.Text.Quoted

/-!
# Traces

A trace is a sequence of binary items: a header that identifies a run, then one
record for each instruction executed, with the state after it.

Main definitions: `Trace.Header.toItem`, `Trace.Record.toItem`, and the readers
`Trace.Header.ofItem?` and `Trace.Record.ofItem?`.
-/

namespace PCode

open Cbor (Item)

/-! ## Values and snapshots as items -/

/-- A value as an item; payloads that are zero are left out. -/
def Value.toItem (v : Value) : Item :=
  .ofFields <|
    (if v.real == 0 then [] else [("f", .float v.real)])
    ++ (if v.int = 0 then [] else [("i", .ofInt64 v.int)])
    ++ [("k", .unsigned v.kind.byte.toUInt64)]
    ++ (if v.string = "" then [] else [("s", .text v.string)])

/-- The value that an item stands for. -/
def Value.ofItem? (item : Item) : Option Value := do
  let entries ← item.entries?
  let kind ← Item.field? entries "k" 0 Item.uint8?
  let int ← Item.field? entries "i" 0 Item.int64?
  let real ← Item.field? entries "f" 0 Item.real?
  let string ← Item.field? entries "s" "" Item.string?
  return { kind := .ofByte kind, int, real, string }

/-- Words as an item. -/
def wordsItem (words : Option (Array Value)) : Item :=
  match words with
  | some vs => .array (vs.toList.map Value.toItem)
  | none => .null

/-- A snapshot as an item; flags that are not set are left out. -/
def Snapshot.toItem (s : Snapshot) : Item :=
  .ofFields <|
    (if s.heapClipped then [("hc", .bool true)] else [])
    ++ [ ("hp", wordsItem s.heap)
       , ("in", .text s.instruction)
       , ("mp", .ofInt64 s.mp)
       , ("np", .ofInt64 s.np)
       , ("pc", .ofInt64 s.pc) ]
    ++ (if s.stackClipped then [("sc", .bool true)] else [])
    ++ [ ("sp", .ofInt64 s.sp)
       , ("st", wordsItem s.stack) ]

/-- The snapshot that an item stands for. -/
def Snapshot.ofItem? (item : Item) : Option Snapshot := do
  let entries ← item.entries?
  let pc ← Item.field? entries "pc" 0 Item.int64?
  let instruction ← Item.field? entries "in" "" Item.string?
  let mp ← Item.field? entries "mp" 0 Item.int64?
  let sp ← Item.field? entries "sp" 0 Item.int64?
  let np ← Item.field? entries "np" 0 Item.int64?
  let stack ← Item.field? entries "st" none (Item.list? Value.ofItem?)
  let stackClipped ← Item.field? entries "sc" false Item.bool?
  let heap ← Item.field? entries "hp" none (Item.list? Value.ofItem?)
  let heapClipped ← Item.field? entries "hc" false Item.bool?
  return { pc, instruction, mp, sp, np, stack, stackClipped, heap, heapClipped }

namespace Trace

/-! ## Headers -/

/-- The number that tells a run from all others. -/
abbrev RunId := Vector UInt8 16

/-- What identifies a run. -/
structure Header where
  version : Int64
  id : RunId
  /-- nanoseconds since the start of 1970 -/
  started : Int64
  program : String
  instructions : Int64
  deriving Inhabited

/-- The version that is written, and the only one that is read. -/
def version : Int64 := 1

/-- A header as an item. -/
def Header.toItem (h : Header) : Item :=
  .ofFields
    [ ("n", .ofInt64 h.instructions)
    , ("p", .text h.program)
    , ("t", .ofInt64 h.started)
    , ("v", .ofInt64 h.version)
    , ("id", .bytes h.id.toList) ]

/-- The header that an item stands for. -/
def Header.ofItem? (item : Item) : Option Header := do
  let entries ← item.entries?
  let version ← Item.field? entries "v" 0 Item.int64?
  let id ← Item.field? entries "id" (Vector.replicate 16 0) (Item.fixedBytes? 16)
  let started ← Item.field? entries "t" 0 Item.int64?
  let program ← Item.field? entries "p" "" Item.string?
  let instructions ← Item.field? entries "n" 0 Item.int64?
  return { version, id, started, program, instructions }

/-- The seconds from the start of 1970 to the start of the run. -/
def Header.startSeconds (h : Header) : Int := h.started.toInt.fdiv 1000000000

/-- Two digits for each byte. -/
def hexText (bytes : List UInt8) : String :=
  String.ofList (bytes.flatMap fun b => Text.hexDigits 'a' 2 b.toNat)

/-- The bytes that pairs of digits stand for. -/
def bytesOfHex : List Char → List UInt8
  | a :: b :: rest =>
    UInt8.ofNat (16 * (Text.hexValue? a).getD 0 + (Text.hexValue? b).getD 0) :: bytesOfHex rest
  | _ => []

/-- The number of a run in five groups of digits. -/
def RunId.text (id : RunId) : String :=
  let group (first count : Nat) : String := hexText ((id.toList.drop first).take count)
  String.intercalate "-" [group 0 4, group 4 2, group 6 2, group 8 2, group 10 6]

/-! ## Records -/

/-- The state after one instruction, with its number. -/
structure Record where
  number : UInt64
  snapshot : Snapshot
  deriving Inhabited

/-- A record as an item. -/
def Record.toItem (r : Record) : Item :=
  .ofFields [("q", .unsigned r.number), ("s", r.snapshot.toItem)]

/-- The record that an item stands for. -/
def Record.ofItem? (item : Item) : Option Record := do
  let entries ← item.entries?
  let number ← Item.field? entries "q" 0 Item.uint64?
  let snapshot ← Item.field? entries "s" default Snapshot.ofItem?
  return { number, snapshot }

end Trace

end PCode
