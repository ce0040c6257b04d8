import PCode.Files.Tree
import PCode.Text.Case
import PCode.Toml.Document

/-!
# Settings

Settings of the host: the size of the store and of the batches in which a machine
is driven, what is logged, traced and printed.  They are read from a document in
a directory, and what the document leaves out keeps its default.

Main definitions: `Settings.parse`, `Settings.validate`, `Settings.load`,
`Settings.search`.
-/

namespace PCode

/-- Settings of the host. -/
structure Settings where
  storeSize : Int64 := 65536
  batchSize : Int64 := 100000
  verbosity : Int64 := 1
  /-- the file for log output; empty for none -/
  logFile : String := ""
  traceEnabled : Bool := false
  traceOutput : String := "trace.cbor"
  disassemble : Bool := false
  profile : Bool := false
  /-- the directory of the document; empty for none -/
  directory : String := ""
  deriving Inhabited, Repr

/-- Why there are no settings. -/
inductive SettingsError where
  /-- the document is not well formed, or a value has the wrong type -/
  | malformed
  | unknownKeys (keys : List Toml.Key)
  /-- what is wrong with the values -/
  | invalid (complaints : List String)
  | unreadable (path cause : String)
  /-- an error in a file -/
  | inFile (path : String) (error : SettingsError)
  deriving Inhabited

/-- The wording of an error. -/
def SettingsError.message : SettingsError → String
  | malformed => "parse error"
  | unknownKeys keys => "unknown keys: " ++ String.intercalate ", " (keys.map Toml.Key.text)
  | invalid complaints => String.intercalate "\n" complaints
  | unreadable path cause => s!"cannot read {path}: {cause}"
  | inFile path e => s!"{path}: {e.message}"

namespace Settings

/-! ## Validity -/

/-- The least size of a store. -/
def minStoreSize : Int64 := 1024

/-- The greatest size of a store. -/
def maxStoreSize : Int64 := 16777216

/-- What is wrong with the numbers. -/
def complaints (s : Settings) : List String :=
  (if s.storeSize < minStoreSize ∨ maxStoreSize < s.storeSize then
    [s!"machine.store-size {s.storeSize.toInt} outside " ++
      s!"[{minStoreSize.toInt}, {maxStoreSize.toInt}]"]
   else [])
  ++ (if s.batchSize ≤ 0 then
    [s!"machine.batch-size must be positive, got {s.batchSize.toInt}"] else [])
  ++ (if s.verbosity < 0 then
    [s!"log.verbosity must not be negative, got {s.verbosity.toInt}"] else [])

/-- Settings whose numbers are in order. -/
def validate (s : Settings) : Except SettingsError Unit :=
  if s.complaints.isEmpty then .ok () else .error (.invalid s.complaints)

/-! ## Documents -/

/-- How a setting is put into the settings. -/
inductive Slot where
  | integer (put : Int64 → Settings → Settings)
  | string (put : String → Settings → Settings)
  | bool (put : Bool → Settings → Settings)

/-- The tables of a document and their settings. -/
def slots : List (String × List (String × Slot)) :=
  [ ("machine",
      [ ("store-size", .integer fun n s => { s with storeSize := n })
      , ("batch-size", .integer fun n s => { s with batchSize := n }) ])
  , ("log",
      [ ("verbosity", .integer fun n s => { s with verbosity := n })
      , ("file", .string fun t s => { s with logFile := t }) ])
  , ("trace",
      [ ("enabled", .bool fun b s => { s with traceEnabled := b })
      , ("output", .string fun t s => { s with traceOutput := t }) ])
  , ("output",
      [ ("disassemble", .bool fun b s => { s with disassemble := b })
      , ("profile", .bool fun b s => { s with profile := b }) ]) ]

/-- What a name stands for: an exact match, or else one in which case does not count. -/
def match? {α : Type} (names : List (String × α)) (name : String) : Option α :=
  match names.lookup name with
  | some a => some a
  | none => (names.find? fun (other, _) => Text.sameFolded other name).map (·.2)

/-- Put a value into its slot, if it has the right type. -/
def Slot.fill? (slot : Slot) (node : Toml.Node) (s : Settings) : Option Settings :=
  match slot, node with
  | .integer put, .value (.scalar (.integer n)) => some (put n s)
  | .string put, .value (.scalar (.string t)) => some (put t s)
  | .bool put, .value (.scalar (.bool b)) => some (put b s)
  | _, _ => none

/-- Settings and the keys that they were taken from. -/
abbrev Taken := Settings × List Toml.Key

/-- Take the settings of one table. -/
def takeEntries? (table : String) (known : List (String × Slot)) :
    Toml.Entries → Taken → Option Taken
  | [], taken => some taken
  | (name, node) :: rest, (s, keys) =>
    match match? known name with
    | none => takeEntries? table known rest (s, keys)
    | some slot =>
      match slot.fill? node s with
      | none => none
      | some s => takeEntries? table known rest (s, [table, name] :: keys)

/-- Take the settings of all tables that entries name. -/
def takeTables? (tables : Toml.Tables) : Toml.Entries → Taken → Option Taken
  | [], taken => some taken
  | (name, node) :: rest, (s, keys) =>
    match match? slots name, node with
    | none, _ => takeTables? tables rest (s, keys)
    | some known, .table n =>
      match takeEntries? name known (tables.entries n) (s, [name] :: keys) with
      | none => none
      | some taken => takeTables? tables rest taken
    | some _, _ => none

/-- The settings that a document gives. -/
def ofDocument (d : Toml.Document) : Except SettingsError Settings :=
  match takeTables? d.tables d.root ({}, []) with
  | none => .error .malformed
  | some (s, taken) =>
    let unknown := d.keys.filter fun key => !taken.contains key
    if !unknown.isEmpty then .error (.unknownKeys unknown)
    else
      let s := if s.traceOutput.isEmpty then { s with traceOutput := "trace.cbor" } else s
      match s.validate with
      | .ok () => .ok s
      | .error e => .error e

/-- Bytes without the one mark for their encoding that may stand in front. -/
def withoutMark : List UInt8 → List UInt8
  | 0xff :: 0xfe :: rest => rest
  | 0xfe :: 0xff :: rest => rest
  | 0xef :: 0xbb :: 0xbf :: rest => rest
  | bytes => bytes

/-- The settings that the bytes of a document give. -/
def parseBytes (bytes : List UInt8) : Except SettingsError Settings :=
  match (String.fromUTF8? ⟨(withoutMark bytes).toArray⟩).bind Toml.Document.parse? with
  | some d => ofDocument d
  | none => .error .malformed

/-- The settings that a text gives. -/
def parse (text : String) : Except SettingsError Settings := parseBytes text.toUTF8.toList

/-! ## Files -/

/-- The name of the document in a directory. -/
def fileName : String := "pmachine.toml"

/-- The settings in a directory. -/
def load (files : FileTree) (workingDirectory directory : String) :
    Except SettingsError Settings :=
  let path := Path.join directory fileName
  match files.read workingDirectory path with
  | .error cause => .error (.unreadable path cause)
  | .ok bytes =>
    match parseBytes bytes with
    | .error e => .error (.inFile path e)
    | .ok s => .ok { s with directory := Path.absolute workingDirectory directory }

/-- The settings in the nearest directory that has any, from one upward, given its names. -/
def searchUp (files : FileTree) : Nat → List String → Except SettingsError Settings
  | 0, _ => .ok {}
  | fuel + 1, names =>
    let directory := "/" ++ String.intercalate "/" names
    if files.exists? "/" (Path.join directory fileName) then load files "/" directory
    else if names.isEmpty then .ok {}
    else searchUp files fuel names.dropLast

/-- The settings in the nearest directory that has any, from one upward, or else the default. -/
def search (files : FileTree) (workingDirectory directory : String) :
    Except SettingsError Settings :=
  let names := Path.shortestNames (Path.absolute workingDirectory directory)
  searchUp files (names.length + 1) names

/-- Where a trace is written. -/
def tracePath (s : Settings) : String :=
  if Path.isAbsolute s.traceOutput ∨ s.directory.isEmpty then s.traceOutput
  else Path.join s.directory s.traceOutput

end Settings

end PCode
