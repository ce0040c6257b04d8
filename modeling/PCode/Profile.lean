import PCode.Opcode
import PCode.Text.Column

/-!
# Profiles

A profile counts how often each opcode was executed and how often each entry
address was called.  An entry becomes hot at the call with which its count
reaches a threshold, and stays so until the profile is cleared.  Counters have
64 bits and wrap.
-/

namespace PCode

/-- The number of values that a counter can take. -/
def counterSize : Nat := 18446744073709551616

/-- A counter after some more events. -/
def countOn (n events : Nat) : Nat := (n + events) % counterSize

/-- The calls to one entry address. -/
structure CallCount where
  target : Int64
  count : Nat
  hot : Bool
  deriving DecidableEq, Inhabited, Repr

/-- Counts of executed opcodes and of calls. -/
structure Profile where
  /-- the number of calls that makes an entry hot -/
  threshold : Nat
  /-- the count of each opcode byte -/
  opcodes : Array Nat := Array.replicate 256 0
  /-- the entries in the order of their first calls -/
  calls : Array CallCount := #[]
  /-- how many entries have become hot -/
  hotCount : Nat := 0
  /-- the entries in the order in which they became hot, over all clearings -/
  hotLog : Array Int64 := #[]
  deriving Inhabited

/-- Totals of a profile. -/
structure ProfileTotals where
  instructions : Nat
  distinctOpcodes : Nat
  calls : Nat
  targets : Nat
  hotTargets : Nat
  deriving DecidableEq, Inhabited, Repr

namespace Profile

/-- The threshold of a profile that is given none. -/
def defaultThreshold : Nat := 1000

/-- An empty profile. -/
def empty (threshold : Nat) : Profile := { threshold }

/-! ## Counting -/

/-- Count one executed opcode. -/
def recordInstruction (p : Profile) (opcode : UInt8) : Profile :=
  { p with opcodes := p.opcodes.modify opcode.toNat (countOn · 1) }

/-- An entry after one more call. -/
def CallCount.again (threshold : Nat) (c : CallCount) : CallCount :=
  let count := countOn c.count 1
  { c with count, hot := c.hot || threshold ≤ count }

/-- The entry of a target in a list of entries, fresh if it is not there. -/
def entryOf (calls : Array CallCount) (target : Int64) : CallCount :=
  (calls.find? (·.target == target)).getD ⟨target, 0, false⟩

/-- Count one call; the first component says whether this call made the target hot. -/
def recordCall (p : Profile) (target : Int64) : Bool × Profile :=
  let before := entryOf p.calls target
  let after := CallCount.again p.threshold before
  let becameHot := after.hot && !before.hot
  let calls :=
    match p.calls.findIdx? (·.target == target) with
    | some index => p.calls.set! index after
    | none => p.calls.push after
  let hotCount := if becameHot then countOn p.hotCount 1 else p.hotCount
  let hotLog := if becameHot then p.hotLog.push target else p.hotLog
  (becameHot, { p with calls, hotCount, hotLog })

/-- Count calls of one target; the first component adds how many of them made it hot. -/
def recordCalls (target : Int64) : Nat → Nat → Profile → Nat × Profile
  | 0, hits, p => (hits, p)
  | n + 1, hits, p =>
    let (hot, p) := p.recordCall target
    recordCalls target n (hits + hot.toNat) p

/-- Forget all counts. -/
def clear (p : Profile) : Profile :=
  { p with opcodes := Array.replicate 256 0, calls := #[], hotCount := 0 }

/-! ## Reading -/

/-- How often an opcode was executed. -/
def opcodeCount (p : Profile) (opcode : UInt8) : Nat := p.opcodes.getD opcode.toNat 0

/-- The entry of a target that was called. -/
def call? (p : Profile) (target : Int64) : Option CallCount :=
  p.calls.find? (·.target == target)

/-- Whether a target is hot. -/
def isHot (p : Profile) (target : Int64) : Bool := (p.call? target).any (·.hot)

/-- The totals of a profile. -/
def totals (p : Profile) : ProfileTotals where
  instructions := p.opcodes.foldl countOn 0
  distinctOpcodes := p.opcodes.countP (0 < ·)
  calls := p.calls.foldl (fun sum c => countOn sum c.count) 0
  targets := p.calls.size
  hotTargets := p.hotCount

/-- The executed opcodes by decreasing count, those of equal count by increasing number. -/
def rankedOpcodes (p : Profile) : List (UInt8 × Nat) :=
  let counted := p.opcodes.toList.mapIdx fun index count => (UInt8.ofNat index, count)
  (counted.filter (0 < ·.2)).mergeSort fun a b => b.2 ≤ a.2

/-- The called targets by decreasing count, those of equal count by increasing target. -/
def rankedCalls (p : Profile) : List CallCount :=
  p.calls.toList.mergeSort fun a b =>
    b.count < a.count || (a.count == b.count && a.target ≤ b.target)

/-- The first entries of a ranking; there is no negative number of entries. -/
def top? {α : Type} (n : Int64) (ranking : List α) : Option (List α) :=
  if n < 0 then none else some (ranking.take n.toNatClampNeg)

/-! ## Report -/

/-- The report: the totals, then the ten busiest opcodes, then the ten busiest targets with their
labels. -/
def report (p : Profile) (label : Int64 → String) : String :=
  let t := p.totals
  let head :=
    s!"{t.instructions} instructions, {t.distinctOpcodes} opcodes, " ++
    s!"{t.calls} calls to {t.targets} targets ({t.hotTargets} hot)"
  let opcodeLines := (p.rankedOpcodes.take 10).map fun (opcode, count) =>
    "  " ++ Text.padRight 4 (Opcode.nameOfByte opcode) ++ " " ++
      Text.padLeft 10 (toString count)
  let callLines := (p.rankedCalls.take 10).map fun c =>
    "  " ++ Text.padZeros 4 c.target.toInt ++ " " ++ Text.padLeft 10 (toString c.count) ++ "  " ++
      label c.target
  String.join ((head :: opcodeLines ++ callLines).map (· ++ "\n"))

end Profile

end PCode
