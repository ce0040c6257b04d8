/-!
# Paths

Paths are texts of names between slashes.  A path that starts with a slash is
absolute.  The shortest form of a path has no empty names, no dots, and no two
dots after a name.
-/

namespace PCode.Path

/-- Whether a path starts at the root. -/
def isAbsolute (path : String) : Bool := path.toList.head? == some '/'

/-- The names of a path, with empty ones between slashes that follow each other. -/
def namesOf (path : String) : List String := path.splitOn "/"

/-- One more name after names in shortest form, which are given last name first. -/
def step (rooted : Bool) (sofar : List String) (name : String) : List String :=
  if name = "" ∨ name = "." then sofar
  else if name = ".." then
    match sofar with
    | [] => if rooted then [] else [".."]
    | last :: rest => if last = ".." then ".." :: sofar else rest
  else name :: sofar

/-- The names of the shortest form of a path. -/
def shortestNames (path : String) : List String :=
  ((namesOf path).foldl (step (isAbsolute path)) []).reverse

/-- The shortest form of a path. -/
def shortest (path : String) : String :=
  let names := String.intercalate "/" (shortestNames path)
  if isAbsolute path then "/" ++ names else if names.isEmpty then "." else names

/-- A path below another, in shortest form. -/
def join (base path : String) : String :=
  if base.isEmpty ∧ path.isEmpty then ""
  else if base.isEmpty then shortest path
  else if path.isEmpty then shortest base
  else shortest (base ++ "/" ++ path)

/-- The part of a path before its last name. -/
def parent (path : String) : String :=
  shortest (String.ofList (path.toList.reverse.dropWhile (· != '/')).reverse)

/-- The absolute form of a path, seen from a directory. -/
def absolute (workingDirectory path : String) : String :=
  if isAbsolute path then shortest path else join workingDirectory path

/-- Whether a path ends in a slash, so that it can only name a directory. -/
def endsInSlash (path : String) : Bool := path.toList.getLast? == some '/'

/-- The paths of the names that lead along a path, the shortest first. -/
def waysTo (path : String) : List String :=
  let names := namesOf path
  let ways := (List.range names.length).map fun n => String.intercalate "/" (names.take (n + 1))
  ways.filter (· != "")

end PCode.Path
