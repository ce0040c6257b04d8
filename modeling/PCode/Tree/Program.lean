import PCode.Tree.Expr
import PCode.Value

/-!
# Statements and subprograms

The statements of a resolved program and the subprograms that hold them.  A
subprogram carries the sizes of its frame: the words of its parameters and of
its variables, which lie above the mark in this order.
-/

namespace PCode

/-- A statement. -/
inductive Stmt where
  | missing
  | assign (pos : Pos) (target value : Expr)
  | call (pos : Pos) (callee : Ident) (args : List Arg)
  | block (pos : Pos) (body : List Stmt)
  /-- without an else part, that is missing -/
  | cond (pos : Pos) (test : Expr) (yes no : Stmt)
  | whileDo (pos : Pos) (test : Expr) (body : Stmt)
  /-- a loop that ends when its test holds -/
  | repeatUntil (pos : Pos) (body : List Stmt) (test : Expr)
  | forTo (pos : Pos) (counter : Ident) (first last : Expr) (down : Bool) (body : Stmt)
  /-- leave the subprogram -/
  | exit (pos : Pos)
  deriving Inhabited

/-- Whether there is no statement. -/
def Stmt.isMissing : Stmt → Bool
  | .missing => true
  | _ => false

/-- Kinds of subprograms. -/
inductive SubprogramKind where
  | program
  | procedure
  | function
  deriving DecidableEq, Inhabited, Repr

namespace SubprogramKind

/-- The name of a kind. -/
def name : SubprogramKind → String
  | program => "program"
  | procedure => "procedure"
  | function => "function"

/-- Every kind, at the index that is its number. -/
def all : Array SubprogramKind := #[program, procedure, function]

/-- The kind with a given name; any other text gives a procedure. -/
def ofName (name : String) : SubprogramKind := (all.find? (·.name == name)).getD procedure

/-- The name shown for the number of a kind. -/
def nameOfNumber (n : UInt8) : String :=
  match all[n.toNat]? with
  | some kind => kind.name
  | none => s!"SubprogramKind({n.toNat})"

end SubprogramKind

/-- An initialised variable: its words are stored into its place on every entry. -/
structure TypedConst where
  pos : Pos := {}
  symbol : Symbol
  data : Array Value
  deriving Inhabited

/-- What a subprogram is apart from the subprograms in it. -/
structure SubprogramHeader where
  pos : Pos := {}
  kind : SubprogramKind
  name : String := ""
  /-- the declaration; the program itself has none -/
  symbol : Option Symbol
  /-- the type of a function's result, otherwise missing -/
  result : Ty
  paramWords : Int64
  varWords : Int64
  typedConsts : List TypedConst := []
  body : List Stmt
  deriving Inhabited

/-- A program, procedure or function with the subprograms declared in it. -/
inductive Subprogram where
  | mk (header : SubprogramHeader) (nested : List Subprogram)
  deriving Inhabited

/-- The number of words of a frame. -/
def SubprogramHeader.frameSize (h : SubprogramHeader) : Int64 :=
  Int64.ofNat markSize + h.paramWords + h.varWords

namespace Subprogram

/-- What a subprogram is apart from those in it. -/
def header : Subprogram → SubprogramHeader
  | mk h _ => h

/-- The subprograms in a subprogram. -/
def nested : Subprogram → List Subprogram
  | mk _ subs => subs

/-- The number of words of a frame. -/
def frameSize (s : Subprogram) : Int64 := s.header.frameSize

end Subprogram

end PCode
