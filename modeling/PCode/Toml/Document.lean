import PCode.Toml.Grammar

/-!
# Documents as tables

The lines of a document define tables in tables.  A key may be defined only once,
except that a table that was only implied (by a longer key) can be defined later,
and that every head of an array of tables adds a table to it.

A table on one line is built twice: its entries are defined in the document under
its key, and by themselves as its value.  Where the value is taken into the
document it stands in both, and what is defined in it later is then seen from
both.  So tables are known by numbers, and a definition names its table.

The builder follows a document line by line.  It knows the table that the lines
are in, the tables that are only implied, and which keys hold arrays.

Main definitions: `Document.ofLines?`, `Document.parse?`.
-/

namespace PCode.Toml

/-! ## Tables -/

/-- What a name is defined as. -/
inductive Node where
  | value (v : Value)
  /-- the table with a number -/
  | table (number : Nat)
  /-- an array of tables, the latest first -/
  | tables (numbers : List Nat)
  deriving Inhabited

/-- The table in which the names after this one are looked up: in an array of tables, the latest. -/
def Node.number? : Node → Option Nat
  | .value _ => none
  | .table n => some n
  | .tables numbers => numbers.head?

/-- The entries of a table. -/
abbrev Entries := List (String × Node)

/-- Give a name a new definition. -/
def Entries.put (entries : Entries) (name : String) (node : Node) : Entries :=
  match entries with
  | [] => [(name, node)]
  | (other, old) :: rest =>
    if other = name then (name, node) :: rest else (other, old) :: put rest name node

/-- Tables by their numbers; number 0 is the outermost. -/
structure Tables where
  all : Array Entries := #[[]]
  deriving Inhabited

namespace Tables

/-- The entries of a table. -/
def entries (ts : Tables) (n : Nat) : Entries := ts.all.getD n []

/-- What a name is defined as in a table. -/
def lookup (ts : Tables) (n : Nat) (name : String) : Option Node := (ts.entries n).lookup name

/-- Give a name of a table a new definition. -/
def put (ts : Tables) (n : Nat) (name : String) (node : Node) : Tables :=
  { all := ts.all.modify n fun entries => entries.put name node }

/-- A new empty table: its number, and the tables with it. -/
def add (ts : Tables) : Nat × Tables := (ts.all.size, { all := ts.all.push [] })

/-- The table that a key leads to from a table. -/
def find? (ts : Tables) (n : Nat) : Key → Option Nat
  | [] => some n
  | name :: rest => ((ts.lookup n name).bind Node.number?).bind fun m => find? ts m rest

/-- Give a name below a key a new definition.  The tables along the key are made where they are
missing, and nothing else may stand there. -/
def putBelow? (ts : Tables) (n : Nat) (key : Key) (name : String) (node : Node) : Option Tables :=
  match key with
  | [] => some (ts.put n name node)
  | step :: rest =>
    match ts.lookup n step with
    | none =>
      let (m, ts) := ts.add
      putBelow? (ts.put n step (.table m)) m rest name node
    | some (.table m) => putBelow? ts m rest name node
    | some _ => none

end Tables

/-- A document: its tables, and all keys in the order in which they are written. -/
structure Document where
  tables : Tables
  keys : List Key
  deriving Inhabited

/-- The entries of the outermost table. -/
def Document.root (d : Document) : Entries := d.tables.entries 0

/-! ## The builder -/

/-- A document that is being built. -/
structure Builder where
  tables : Tables := {}
  /-- the keys written so far, the latest first -/
  written : List Key := []
  /-- the table that the lines are in -/
  context : Key := []
  /-- tables that are implied and not yet defined -/
  implied : List Key := []
  /-- keys that hold arrays -/
  arrays : List Key := []
  deriving Inhabited

namespace Builder

/-- A new empty table: its number, and the document with it. -/
def addTable (b : Builder) : Nat × Builder :=
  let (n, tables) := b.tables.add
  (n, { b with tables })

/-- Give a name of a table a new definition, whatever it was. -/
def put (b : Builder) (n : Nat) (name : String) (node : Node) : Builder :=
  { b with tables := b.tables.put n name node }

/-- Note that a table is implied. -/
def imply (b : Builder) (key : Key) : Builder := { b with implied := key :: b.implied }

/-- Note that a table is not only implied. -/
def unimply (b : Builder) (key : Key) : Builder :=
  { b with implied := b.implied.filter (· != key) }

/-- The key for which it is noted whether it holds an array, when a name of a table is defined.  The
empty name counts as its table, except in the outermost table. -/
def notedKey (context : Key) (name : String) : Key :=
  if name.isEmpty && !context.isEmpty then context else context ++ [name]

/-- Note whether a key holds an array. -/
def noteArray (b : Builder) (key : Key) (isArray : Bool) : Builder :=
  let others := b.arrays.filter (· != key)
  { b with arrays := if isArray then key :: others else others }

/-- Define a name in the table that the lines are in.  A name that was only implied keeps its table,
unless it is noted to hold an array. -/
def define? (b : Builder) (name : String) (node : Node) : Option Builder :=
  let key := b.context ++ [name]
  match b.tables.find? 0 b.context with
  | none => none
  | some n =>
    if (b.tables.lookup n name).isNone then some (b.put n name node)
    else if !b.implied.contains key then none
    else if b.arrays.contains key then some ((b.put n name node).unimply key)
    else some (b.unimply key)

/-- Imply the tables along a key that are not there, from the table with a number and a key of its
own, and give the number of the last. -/
def implyAlong? (b : Builder) (n : Nat) (outer : Key) : Key → Option (Nat × Builder)
  | [] => some (n, b)
  | name :: rest =>
    let key := outer ++ [name]
    match b.tables.lookup n name with
    | none =>
      let (m, b) := b.addTable
      implyAlong? ((b.put n name (.table m)).imply key) m key rest
    | some node =>
      match node.number? with
      | none => none
      | some m => implyAlong? b m key rest

/-- Open a table, or a new one in an array of tables, for the lines that follow. -/
def openTable? (b : Builder) (key : Key) (inArray : Bool) : Option Builder :=
  let name := key.getLastD ""
  match b.implyAlong? 0 [] key.dropLast with
  | none => none
  | some (n, b) =>
    let (m, b) := b.addTable
    let opened :=
      if inArray then
        match b.tables.lookup n name with
        | none => some (b.put n name (.tables [m]))
        | some (.tables earlier) => some (b.put n name (.tables (m :: earlier)))
        | some _ => none
      else { b with context := key.dropLast }.define? name (.table m)
    opened.map fun b => { b with context := key }

/-- Open the tables that a dotted key leads through. -/
def openAlong? (b : Builder) : Key → Option Builder
  | [] => some b
  | name :: rest =>
    let key := b.context ++ [name]
    match (b.imply key).openTable? key false with
    | none => none
    | some b => openAlong? b rest

/-- Open the tables that the key of an entry leads through, and note the key. -/
def startEntry? (b : Builder) (key : Key) : Option Builder :=
  (b.openAlong? key.dropLast).map fun b =>
    { b with written := (b.context ++ [key.getLastD ""]) :: b.written }

/-- Define the last name of a key whose value has been gone through, and go back to a table. -/
def endEntry? (b : Builder) (context : Key) (name : String) (node : Node) : Option Builder :=
  (b.define? name node).map fun b =>
    { b.noteArray (notedKey b.context name) (node matches .value (.array _)) with context }

mutual

/-- Go through a value under a name of the current table: tables in it define keys of their own.
The result has what the value is by itself. -/
def throughValue? (b : Builder) (name : String) (inArray : Bool) :
    Value → Option (Node × Builder)
  | .scalar s => some (.value (.scalar s), b)
  | .array items =>
    (throughItems? (b.noteArray (notedKey b.context name) true) name items).map fun b =>
      (.value (.array items), b)
  | .table entries =>
    let outer := b.context
    let key := b.context ++ [name]
    match (b.imply key).openTable? key inArray with
    | none => none
    | some b =>
      let (own, b) := b.addTable
      (throughEntries? b own entries).map fun b => (.table own, { b with context := outer })

/-- Go through the items of an array. -/
def throughItems? (b : Builder) (name : String) : List Value → Option Builder
  | [] => some b
  | v :: rest =>
    match throughValue? b name true v with
    | none => none
    | some (_, b) => throughItems? b name rest

/-- Go through the entries of a table on one line.  Each is defined in the document, and then in the
table by itself, which has a number of its own. -/
def throughEntries? (b : Builder) (own : Nat) : List (Key × Value) → Option Builder
  | [] => some b
  | (key, v) :: rest =>
    let context := b.context
    let name := key.getLastD ""
    match b.startEntry? key with
    | none => none
    | some b =>
      match throughValue? b name false v with
      | none => none
      | some (node, b) =>
        match b.endEntry? context name node with
        | none => none
        | some b =>
          match b.tables.putBelow? own key.dropLast name node with
          | none => none
          | some tables => throughEntries? { b with tables } own rest

end

/-- Note the key of a table. -/
def noteTable (b : Builder) (key : Key) : Builder :=
  { b.noteArray key false with written := key :: b.written }

/-- Follow one line. -/
def line? (b : Builder) : Line → Option Builder
  | .table key => (b.openTable? key false).map (·.noteTable key)
  | .tableArray key => (b.openTable? key true).map (·.noteTable key)
  | .entry key v =>
    let context := b.context
    let name := key.getLastD ""
    match b.startEntry? key with
    | none => none
    | some b =>
      match throughValue? b name false v with
      | none => none
      | some (node, b) => b.endEntry? context name node

/-- Follow lines one after another. -/
def lines? (b : Builder) : List Line → Option Builder
  | [] => some b
  | l :: rest =>
    match b.line? l with
    | none => none
    | some b => lines? b rest

end Builder

/-- The document that lines define. -/
def Document.ofLines? (lines : List Line) : Option Document :=
  (Builder.lines? {} lines).map fun b => { tables := b.tables, keys := b.written.reverse }

/-- The document that a text holds. -/
def Document.parse? (text : String) : Option Document :=
  match Toml.lines? text with
  | some lines => Document.ofLines? lines
  | none => none

end PCode.Toml
