import PCode.Text.Column
import PCode.Value

/-!
# Snapshots

A snapshot copies the registers of a machine, the instruction at its program
counter and the words at the tops of stack and heap.  It is what a state dump
prints and what a trace records.
-/

namespace PCode

/-- The visible state of a machine at one moment. -/
structure Snapshot where
  pc : Int64
  /-- the instruction at `pc`, or dashes when there is none -/
  instruction : String
  mp : Int64
  sp : Int64
  np : Int64
  /-- the words at the top of the stack, lowest first, unless there is nothing to show -/
  stack : Option (Array Value)
  /-- whether the stack has words below those shown -/
  stackClipped : Bool
  /-- the words at the top of the store, lowest first, unless there is nothing to show -/
  heap : Option (Array Value)
  /-- whether the heap has words below those shown -/
  heapClipped : Bool
  deriving Inhabited

namespace Snapshot

/-- The number of words shown of the stack, and of the heap. -/
def shownWords : Nat := 20

/-- What stands in the place of an instruction when there is none. -/
def noInstruction : String := "---"

/-- Words between brackets, after dots if some are left out. -/
def renderWords (words : Option (Array Value)) (clipped : Bool) : String :=
  let shown := (words.getD #[]).toList.map Value.quoted
  let entries := if clipped then "..." :: shown else shown
  "[" ++ String.intercalate "," entries ++ "]"

/-- The one-line state dump. -/
def text (s : Snapshot) : String :=
  "pc = " ++ Text.padLeft 4 (toString s.pc.toInt) ++
  " " ++ Text.padRight 11 s.instruction ++
  " mp = " ++ Text.padLeft 3 (toString s.mp.toInt) ++
  " stack = " ++ Text.padRight 40 (renderWords s.stack s.stackClipped) ++
  " heap = " ++ renderWords s.heap s.heapClipped

end Snapshot

end PCode
