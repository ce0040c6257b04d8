import PCode.Codegen.Program
import PCode.Command.Basic
import PCode.Machine.Host
import PCode.Settings
import PCode.Source.Sample
import PCode.Trace.Stream

/-!
# Running a sample program

The command compiles one of the sample programs and runs it: it may print the
listing before the run and a profile after it, and it may write a trace.

Main definition: `Run.command`.
-/

namespace PCode.Command.Run

/-- The flags of the command. -/
def flags : List (String × FlagKind) :=
  [ ("config", .text)
  , ("example", .text)
  , ("list", .bool)
  , ("dis", .bool)
  , ("trace", .text)
  , ("profile", .bool)
  , ("v", .int)
  , ("store", .int)
  , ("seed", .natural) ]

/-- How the command is used. -/
def usage : String := printed
  [ "Usage: pmrun [options] -example name"
  , ""
  , "Compiles a sample program and runs it on the p-machine."
  , ""
  , "Options:"
  , "  -config dir    directory of " ++ Settings.fileName
  , "  -example name  sample program to run"
  , "  -list          list the sample programs"
  , "  -dis           print the disassembly before running"
  , "  -trace file    write a snapshot trace"
  , "  -profile       print an execution profile after the run"
  , "  -v n           log verbosity"
  , "  -store n       data store size in words"
  , "  -seed n        seed for Random" ]

/-! ## Settings -/

/-- The settings of a document with those that flags override. -/
def override (given : Flags.Given) (s : Settings) : Settings :=
  let verbosity := Flags.intOf given "v" (-1)
  let store := Flags.intOf given "store" 0
  let trace := Flags.textOf given "trace"
  { s with
    verbosity := if 0 ≤ verbosity then verbosity else s.verbosity
    storeSize := if 0 < store then store else s.storeSize
    disassemble := s.disassemble || Flags.isOn given "dis"
    profile := s.profile || Flags.isOn given "profile"
    traceEnabled := s.traceEnabled || !trace.isEmpty
    traceOutput := if trace.isEmpty then s.traceOutput else trace }

/-- The settings that a run has. -/
def settings (w : World) (given : Flags.Given) : Except SettingsError Settings := do
  let directory := Flags.textOf given "config"
  let s ←
    if directory.isEmpty then Settings.search w.files w.workingDirectory w.workingDirectory
    else Settings.load w.files w.workingDirectory directory
  let s := override given s
  s.validate
  return s

/-! ## The run -/

/-- The names and descriptions of all samples. -/
def listing : String :=
  printed (Source.Sample.all.map fun s => Text.padRight 10 s.name ++ " " ++ s.description)

/-- The image of a sample, or the error. -/
def image (sample : Source.Sample) : Except String Image :=
  let refuse (cause : String) : Except String Image := .error s!"compile {sample.name}: {cause}"
  match sample.tree Library.registry with
  | .error e => refuse (e.message?.getD "")
  | .ok tree =>
    match compile Library.registry (some tree) with
    | .image image => .ok image
    | .errors errors =>
      refuse (String.intercalate "\n" (errors.toList.map CompileError.message))
    | .noProgram | .brokenOff => refuse ""

/-- The equipment of a machine for a sample. -/
def equipment (w : World) (s : Settings) (seed : UInt64) (sample : Source.Sample) : Equipment where
  storeSize := s.storeSize
  keyboard := none
  console := some { mode := .prompt, lines := sample.input ++ w.input }
  seed := if seed = 0 then w.seed else seed
  profile := if s.profile then some (.empty Profile.defaultThreshold) else none
  watched := s.traceEnabled

/-- The file for the trace, with the directory for it, if there is to be one. -/
def traceFile (w : World) (s : Settings) : Except String (FileTree × Option (List String)) := do
  if s.traceEnabled then
    let path := s.tracePath
    let directory := Path.parent path
    let files ←
      if directory = "." then pure w.files
      else w.files.makeAll w.workingDirectory directory
    match files.writable w.workingDirectory path with
    | .ok place => return (files, some place)
    | .error cause => .error ("create trace: " ++ cause)
  else return (w.files, none)

/-- The bytes of the trace of a run. -/
def traceBytes (w : World) (sample : Source.Sample) (image : Image) (snapshots : Array Snapshot) :
    List UInt8 :=
  let header : Trace.Header :=
    { version := Trace.version
      id := w.runId
      started := w.started
      program := sample.name
      instructions := Int64.ofNat image.code.size }
  match Trace.Writer.start {} header with
  | .ok writer => (writer.recordAll snapshots).sink.bytes
  | .error _ => []

/-- The number of rounds in which a machine is driven, more than any sample needs. -/
def rounds : Nat := 1000000000

/-- The error with which a machine that was driven stopped. -/
def endError : Machine.DriveEnd → Option String
  | .finished error => error.map MachineError.message
  | .cancelled => some "context canceled"
  | .deadline | .unfinished => some "context deadline exceeded"

/-- What a machine printed, and what it ended with. -/
def drive (s : Settings) (m : Machine) : Machine × Option String :=
  match Machine.drive rounds s.batchSize none false m.run with
  | .ok result m => (m, endError result)
  | .error _ m => (m, some "")

/-- Run a sample. -/
def runSample (w : World) (s : Settings) (seed : UInt64) (name : String) : Outcome :=
  match Source.Sample.find? name with
  | none => failed w.files "" s!"no sample program {Text.quote name} (try -list)"
  | some sample =>
    match image sample with
    | .error message => failed w.files "" message
    | .ok image =>
      let before := if s.disassemble then image.listing ++ "\n" else ""
      match Machine.create? (some image) (equipment w s seed sample) with
      | .error e => failed w.files before e.message
      | .ok m =>
        match traceFile w s with
        | .error message => failed w.files before message
        | .ok (files, place) =>
          let (m, error) := drive s m
          let report :=
            match m.profile with
            | some p => "\n" ++ p.report image.comment
            | none => ""
          let output := before ++ printed m.output.toList ++ report
          let bytes := traceBytes w sample image m.dumps
          let files :=
            match place with
            | some place => files.putFile place bytes
            | none => files
          let ended :=
            match error with
            | some message => failed files output message
            | none => { output, files }
          { ended with written := place.map fun _ => (s.tracePath, bytes) }

/-- Open the file for log output, if there is to be one: it is made unless it is there. -/
def openLog (w : World) (s : Settings) : Except String FileTree :=
  if s.logFile.isEmpty then .ok w.files
  else
    match w.files.writable w.workingDirectory s.logFile with
    | .error cause => .error cause
    | .ok place =>
      if w.files.exists? w.workingDirectory s.logFile then .ok w.files
      else .ok (w.files.putFile place [])

/-- Do what flags and settings ask for.  The log is opened before anything else. -/
def perform (w : World) (given : Flags.Given) (s : Settings) : Outcome :=
  match openLog w s with
  | .error cause => { exit := 1, complaint := s!"log file error: {cause}\n", files := w.files }
  | .ok files =>
    if Flags.isOn given "list" then { output := listing, files }
    else
      let name := Flags.textOf given "example"
      if name.isEmpty then misused files usage
      else runSample { w with files } s (Flags.naturalOf given "seed") name

/-- The command. -/
def command (w : World) (args : List String) : Outcome :=
  match Flags.parse flags args with
  | .error e => flagOutcome w.files usage e
  | .ok (given, _) =>
    match settings w given with
    | .error e => failed w.files "" e.message
    | .ok s => perform w given s

/-! ## Paths -/

/-- The directories whose settings the command may read. -/
def settingsPaths (workingDirectory : String) (args : List String) : List String :=
  match Flags.parse flags args with
  | .error _ => []
  | .ok (given, _) =>
    let directory := Flags.textOf given "config"
    if directory.isEmpty then
      let names := Path.shortestNames workingDirectory
      (List.range (names.length + 1)).map fun n =>
        Path.join ("/" ++ String.intercalate "/" (names.take n)) Settings.fileName
    else [Path.join directory Settings.fileName]

/-- The files that the command may write, once its settings can be read. -/
def outputPaths (w : World) (args : List String) : List String :=
  match Flags.parse flags args with
  | .error _ => []
  | .ok (given, _) =>
    match settings w given with
    | .error _ => []
    | .ok s => (if s.traceEnabled then [s.tracePath] else []) ++
        (if s.logFile.isEmpty then [] else [s.logFile])

end PCode.Command.Run
