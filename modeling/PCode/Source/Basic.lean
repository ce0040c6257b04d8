import PCode.Tree.Program

/-!
# Programs before resolution

A program as a front end gives it: declarations, statements and expressions that
refer to each other by name.  Resolution (`PCode.Source.Resolve`) turns it into a
tree of symbols.

A type is given as an optional one, since not all types can be formed: a record
of fields without layout cannot, nor can a pointer to nothing.
-/

namespace PCode.Source

/-- A reference by name.  It can override the level and the address that resolution finds. -/
structure Reference where
  name : String
  level : Option Int64 := none
  address : Option Int64 := none
  deriving Inhabited, Repr

mutual

/-- An expression that refers to declarations by name. -/
inductive Expr where
  | missing
  | number (pos : Pos) (value : Float)
  | string (pos : Pos) (value : String)
  | char (pos : Pos) (code : Int64)
  | bool (pos : Pos) (value : Bool)
  | nil (pos : Pos)
  | ident (pos : Pos) (target : Reference)
  /-- the place of the result of the function around it -/
  | result (pos : Pos)
  | index (pos : Pos) (base : Expr) (indices : List Expr)
  | field (pos : Pos) (base : Expr) (name : String)
  | deref (pos : Pos) (base : Expr)
  | addressOf (pos : Pos) (base : Expr)
  | unary (pos : Pos) (op : UnaryOp) (operand : Expr)
  | binary (pos : Pos) (op : BinaryOp) (left right : Expr) (type : Option Ty)
  | cast (pos : Pos) (operand : Expr) (target : Option Ty)
  | call (pos : Pos) (callee : Reference) (args : List Arg)

/-- An argument, which can be given several times over. -/
inductive Arg where
  | mk (value : Expr) (byRef : Bool) (count : Nat)

end

instance : Inhabited Expr := ⟨.missing⟩

instance : Inhabited Arg := ⟨.mk .missing false 1⟩

/-- A statement that refers to declarations by name. -/
inductive Stmt where
  | missing
  | assign (pos : Pos) (target value : Expr)
  | call (pos : Pos) (callee : Reference) (args : List Arg)
  | block (pos : Pos) (body : List Stmt)
  /-- one statement many times -/
  | times (pos : Pos) (count : Nat) (body : Stmt)
  | cond (pos : Pos) (test : Expr) (yes no : Stmt)
  | whileDo (pos : Pos) (test : Expr) (body : Stmt)
  | repeatUntil (pos : Pos) (body : List Stmt) (test : Expr)
  | forTo (pos : Pos) (counter : String) (first last : Expr) (down : Bool) (body : Stmt)
  | exit (pos : Pos)
  deriving Inhabited

/-- A parameter of a subprogram. -/
structure Param where
  name : String
  type : Option Ty
  byRef : Bool := false
  deriving Inhabited, Repr

mutual

/-- A declaration. -/
inductive Decl where
  | param (p : Param)
  | var (name : String) (type : Option Ty)
  | const (pos : Pos) (name : String) (type : Option Ty) (data : Array Value)
  | sub (s : Subprogram)
  /-- a signature without a body -/
  | bodiless (name : String) (params : List Param) (result : Option Ty)

/-- A program, procedure or function with its declarations. -/
inductive Subprogram where
  | mk (pos : Pos) (kind : SubprogramKind) (name : String) (result : Option (Option Ty))
      (decls : List Decl) (body : List Stmt)

end

instance : Inhabited Subprogram := ⟨.mk {} .program "" none [] []⟩

instance : Inhabited Decl := ⟨.var "" none⟩

/-- The parameters among declarations. -/
def paramsOf : List Decl → List Param
  | [] => []
  | .param p :: rest => p :: paramsOf rest
  | _ :: rest => paramsOf rest

end PCode.Source
