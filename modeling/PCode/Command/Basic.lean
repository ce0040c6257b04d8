import PCode.Command.Flags
import PCode.Files.Tree
import PCode.Trace.Basic

/-!
# Commands

A command is a function of its arguments and of the world that it runs in: a
working directory, files, and lines to read.  It gives what it printed, its exit
code, and the files as it leaves them.
-/

namespace PCode.Command

/-- What a command can see. -/
structure World where
  workingDirectory : String
  files : FileTree := {}
  /-- the lines that can be read -/
  input : List String := []
  /-- the number and the time of start of a run -/
  runId : Trace.RunId := Vector.replicate 16 0
  started : Int64 := 0
  /-- the seed of random reals where none is chosen -/
  seed : UInt64 := 1

/-- What a command did. -/
structure Outcome where
  exit : Nat := 0
  output : String := ""
  /-- what it printed beside its output -/
  complaint : String := ""
  /-- the trace that it wrote, by its path -/
  written : Option (String × List UInt8) := none
  files : FileTree
  deriving Inhabited

/-- The end of a command with an error, after some output. -/
def failed (files : FileTree) (output message : String) : Outcome :=
  { exit := 1, output, complaint := s!"Error: {message}\n", files }

/-- The end of a command that was not used as it must be. -/
def misused (files : FileTree) (usage : String) : Outcome :=
  { exit := 2, complaint := usage, files }

/-- The end of a command whose flags cannot be read. -/
def flagOutcome (files : FileTree) (usage : String) : FlagError → Outcome
  | .help => { complaint := usage, files }
  | .unusable => misused files usage

/-- Lines as they are printed. -/
def printed (lines : List String) : String := String.join (lines.map (· ++ "\n"))

/-- The most bytes that a line which is read may have. -/
def maxLineBytes : Nat := 65535

/-- The lines of a text.  A carriage return before the end of a line does not count, nor does an
empty last line, and a line that is too long ends the input. -/
def linesOf (text : String) : List String :=
  let lines := text.splitOn "\n"
  let lines := if lines.getLast? == some "" then lines.dropLast else lines
  (lines.takeWhile (·.utf8ByteSize ≤ maxLineBytes)).map fun line =>
    let cs := line.toList
    if cs.getLast? == some '\r' then String.ofList cs.dropLast else line

end PCode.Command
