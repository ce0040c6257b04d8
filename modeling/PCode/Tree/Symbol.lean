import PCode.Tree.Type

/-!
# Symbols

A symbol is a declaration that names are resolved to.  Data symbols have an
address in the frame of their subprogram, native procedures have their index in
the registry, and subprograms get their address when code is made for them.
Symbols of the same name and type can be different declarations, so each carries
a number of its own.
-/

namespace PCode

/-- What a symbol names. -/
inductive SymbolKind where
  | data
  | param
  | typedConst
  /-- the place of a function's result -/
  | result
  | subprogram
  | native
  deriving DecidableEq, Inhabited, Repr

namespace SymbolKind

/-- The name of a kind. -/
def name : SymbolKind → String
  | data => "var"
  | param => "param"
  | typedConst => "typed const"
  | result => "result"
  | subprogram => "subprogram"
  | native => "native"

/-- Every kind, at the index that is its number. -/
def all : Array SymbolKind := #[data, param, typedConst, result, subprogram, native]

/-- The name shown for the number of a kind. -/
def nameOfNumber (n : UInt8) : String :=
  match all[n.toNat]? with
  | some kind => kind.name
  | none => s!"SymbolKind({n.toNat})"

end SymbolKind

/-- A resolved declaration. -/
structure Symbol where
  /-- the number that tells this declaration from all others -/
  id : Nat
  name : String
  kind : SymbolKind
  type : Ty
  address : Int64
  byRef : Bool
  deriving Inhabited, Repr

/-- A reference to a symbol, with the number of scopes between the reference and the
declaration. -/
structure Ident where
  symbol : Symbol
  level : Int64
  deriving Inhabited, Repr

/-- A position in a program text; line zero means that it is not known. -/
structure Pos where
  line : Int64 := 0
  column : Int64 := 0
  deriving DecidableEq, Inhabited, Repr

/-- A position as text. -/
def Pos.text (p : Pos) : String :=
  if p.line = 0 then "?" else s!"{p.line.toInt}:{p.column.toInt}"

end PCode
