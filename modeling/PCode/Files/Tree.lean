import PCode.Files.Path

/-!
# Files

A tree of files and directories as far as a command sees it.  Names lead through
directories only, names and paths may have only so many bytes, and the errors are
worded as a file system words them.

Main definitions: `FileTree.resolve`, `FileTree.target`, `FileTree.makeAll`.
-/

namespace PCode

/-- A file or a directory. -/
inductive FileEntry where
  | file (content : List UInt8)
  | directory (entries : List (String × FileEntry))
  deriving Inhabited

/-- Why a path leads nowhere. -/
inductive FileFault where
  | missing
  | notDirectory
  | isDirectory
  | tooLong
  /-- the path has a zero character -/
  | malformed
  deriving DecidableEq, Inhabited, Repr

/-- The wording of a fault. -/
def FileFault.message : FileFault → String
  | missing => "no such file or directory"
  | notDirectory => "not a directory"
  | isDirectory => "is a directory"
  | tooLong => "file name too long"
  | malformed => "invalid argument"

namespace FileEntry

/-- Give a name a new entry among entries. -/
def putName (entries : List (String × FileEntry)) (name : String) (entry : FileEntry) :
    List (String × FileEntry) :=
  (name, entry) :: entries.filter (·.1 != name)

/-- What stands at a place below an entry: the names that lead there. -/
def at? : List String → FileEntry → Option FileEntry
  | [], entry => some entry
  | _ :: _, file _ => none
  | name :: rest, directory entries =>
    match entries.lookup name with
    | some entry => at? rest entry
    | none => none

/-- Change what stands at a place below an entry, with the directories that lead there.  Nothing
stands below a file. -/
def alter (change : Option FileEntry → FileEntry) : List String → Option FileEntry → FileEntry
  | [], old => change old
  | _ :: _, some (file content) => file content
  | name :: rest, some (directory entries) =>
    directory (putName entries name (alter change rest (entries.lookup name)))
  | name :: rest, none => directory [(name, alter change rest none)]

end FileEntry

/-- A tree of files, by its root directory. -/
structure FileTree where
  root : FileEntry := .directory []
  deriving Inhabited

namespace FileTree

/-- Make the directories along a place: the names from the root. -/
def makeDirectories (t : FileTree) (place : List String) : FileTree :=
  { root := FileEntry.alter (·.getD (.directory [])) place (some t.root) }

/-- Put a file at a place, with the directories that lead there. -/
def putFile (t : FileTree) (place : List String) (content : List UInt8) : FileTree :=
  { root := FileEntry.alter (fun _ => .file content) place (some t.root) }

/-! ## Paths -/

/-- The most bytes of a name. -/
def maxNameBytes : Nat := 255

/-- The most bytes of a path. -/
def maxPathBytes : Nat := 4095

/-- Follow names from a place, which is given last name first, with the entry there; two dots lead
back. -/
def follow (t : FileTree) : List String → FileEntry → List String →
    Except FileFault (List String × FileEntry)
  | place, entry, [] => .ok (place.reverse, entry)
  | _, .file _, _ :: _ => .error .notDirectory
  | place, .directory entries, name :: rest =>
    if name = "" ∨ name = "." then follow t place (.directory entries) rest
    else if name = ".." then
      follow t place.tail ((FileEntry.at? place.tail.reverse t.root).getD t.root) rest
    else if maxNameBytes < name.utf8ByteSize then .error .tooLong
    else
      match entries.lookup name with
      | none => .error .missing
      | some entry => follow t (name :: place) entry rest

/-- Follow names from where a path starts, seen from a working directory.  The path must be one that
can be looked up at all. -/
def followFrom (t : FileTree) (workingDirectory path : String) (names : List String) :
    Except FileFault (List String × FileEntry) :=
  if path.toList.contains (Char.ofNat 0) then .error .malformed
  else if path.isEmpty then .error .missing
  else if maxPathBytes < path.utf8ByteSize then .error .tooLong
  else
    let start := if Path.isAbsolute path then [] else Path.shortestNames workingDirectory
    match FileEntry.at? start t.root with
    | none => .error .missing
    | some entry => follow t start.reverse entry names

/-- What a path leads to, seen from a working directory. -/
def resolve (t : FileTree) (workingDirectory path : String) :
    Except FileFault (List String × FileEntry) :=
  t.followFrom workingDirectory path (Path.namesOf path)

/-- The place of something new, or of a file, to which a path leads.  Only its last name may be
missing. -/
def target (t : FileTree) (workingDirectory path : String) : Except FileFault (List String) :=
  let names := (Path.namesOf path).filter (· != "")
  let last := names.getLastD ""
  match t.followFrom workingDirectory path names.dropLast with
  | .error fault => .error fault
  | .ok (_, .file _) => .error .notDirectory
  | .ok (outer, .directory entries) =>
    if Path.endsInSlash path ∨ last = "." ∨ last = ".." then .error .isDirectory
    else if maxNameBytes < last.utf8ByteSize then .error .tooLong
    else
      match entries.lookup last with
      | some (.directory _) => .error .isDirectory
      | _ => .ok (outer ++ [last])

/-! ## Reading and writing -/

/-- Whether something stands at a path. -/
def exists? (t : FileTree) (workingDirectory path : String) : Bool :=
  match t.resolve workingDirectory path with
  | .ok _ => true
  | .error _ => false

/-- The content of a file, or the wording of the error. -/
def read (t : FileTree) (workingDirectory path : String) : Except String (List UInt8) :=
  match t.resolve workingDirectory path with
  | .ok (_, .file content) => .ok content
  | .ok (_, .directory _) => .error s!"read {path}: {FileFault.message .isDirectory}"
  | .error fault => .error s!"open {path}: {fault.message}"

/-- The place of a file that is to be written, or the wording of the error. -/
def writable (t : FileTree) (workingDirectory path : String) : Except String (List String) :=
  match t.target workingDirectory path with
  | .ok place => .ok place
  | .error fault => .error s!"open {path}: {fault.message}"

/-- Make directories at paths one after another, each in the one before it. -/
def makeEach (t : FileTree) (workingDirectory : String) : List String → Except String FileTree
  | [] => .ok t
  | path :: rest =>
    let refuse (fault : FileFault) : Except String FileTree :=
      .error s!"mkdir {path}: {fault.message}"
    match t.resolve workingDirectory path with
    | .ok (_, .directory _) => makeEach t workingDirectory rest
    | .ok (_, .file _) => refuse .notDirectory
    | .error _ =>
      match t.target workingDirectory path with
      | .error fault => refuse fault
      | .ok place => makeEach (t.makeDirectories place) workingDirectory rest

/-- Make a directory, given by a path in shortest form, and those that lead to it. -/
def makeAll (t : FileTree) (workingDirectory path : String) : Except String FileTree :=
  t.makeEach workingDirectory (Path.waysTo path)

end FileTree

end PCode
