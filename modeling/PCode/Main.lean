import PCode.Command.Run
import PCode.Command.Show
import Std.Time.DateTime.Timestamp

/-!
# The command line

The first argument names the command, `pmrun` or `pmtrace`, and the others are its
arguments.  The files that it may look at are read before it starts; what it
printed and wrote is carried out when it has ended.  Every sample program brings
the lines that it reads.
-/

namespace PCode.Command

/-- Add what stands at a path to a file tree, with the directories that lead there. -/
def addPath (workingDirectory : String) (files : FileTree) (path : String) : IO FileTree := do
  let place := Path.shortestNames (Path.absolute workingDirectory path)
  try
    let bytes ← IO.FS.readBinFile path
    return files.putFile place bytes.toList
  catch
    | .noFileOrDirectory .. => return files
    | _ => return files.makeDirectories place

/-- Add what stands at paths and along them. -/
def addPaths (workingDirectory : String) (files : FileTree) (paths : List String) : IO FileTree :=
  (paths.flatMap Path.waysTo).foldlM (addPath workingDirectory) files

/-- Print what a command printed, write what it wrote, and give its exit code. -/
def carryOut (o : Outcome) : IO UInt32 := do
  (← IO.getStdout).putStr o.output
  (← IO.getStderr).putStr o.complaint
  if let some (path, bytes) := o.written then
    IO.FS.createDirAll (Path.parent path)
    IO.FS.writeBinFile path ⟨bytes.toArray⟩
  return o.exit.toUInt32

end PCode.Command

open PCode Command in
def main (args : List String) : IO UInt32 := do
  let workingDirectory := (← IO.currentDir).toString
  let files : FileTree := ({} : FileTree).makeDirectories (Path.shortestNames workingDirectory)
  match args with
  | "pmrun" :: args =>
    let files ← addPaths workingDirectory files (Run.settingsPaths workingDirectory args)
    let files ← addPaths workingDirectory files (Run.outputPaths { workingDirectory, files } args)
    let id ← IO.getRandomBytes 16
    let seed := id.toList.foldl (fun n b => n * 256 + b.toUInt64) 1
    let started := Int64.ofInt ((← Std.Time.Timestamp.now).toNanosecondsSinceUnixEpoch.val)
    carryOut (Run.command
      { workingDirectory, files, seed, started, runId := Vector.ofFn fun i => id.get! i } args)
  | "pmtrace" :: args =>
    let files ← addPaths workingDirectory files args
    carryOut (Show.command { workingDirectory, files } args)
  | _ =>
    (← IO.getStderr).putStr (Run.usage ++ "\n" ++ Show.usage)
    return 2
