import PCode.Native.Registry
import PCode.Tree.Program

/-!
# Scopes

A scope holds the declarations of one subprogram and gives each data symbol its
address in the frame: parameters above the mark, then variables in the order in
which they are declared.  A name is resolved in the innermost scope that
declares it, and in the registry of native procedures when none does.  Case does
not count, and a later declaration of a name hides an earlier one.

Main definitions:

- `Scope.addParam`, `Scope.addVar`, `Scope.addTypedConst`, `Scope.addResult`,
  `Scope.addSubprogram`: declarations.
- `Scopes.lookup?`: resolution of a name.
- `Scope.subprogram`: the subprogram whose declarations a scope holds.
-/

namespace PCode

/-- Why a tree cannot be built. -/
inductive TreeError where
  | unknownIdentifier (name : String)
  | noResult
  /-- a type is needed and missing -/
  | missingType
  deriving Inhabited, Repr

/-- The wording of a tree error, for those that have one. -/
def TreeError.message? : TreeError → Option String
  | unknownIdentifier name => some s!"ast: unknown identifier {Text.quote name}"
  | noResult => some "ast: scope has no result slot"
  | missingType => none

/-- The declarations of one subprogram. -/
structure Scope where
  /-- symbols under their lower-case names, the latest first -/
  symbols : List (String × Symbol) := []
  result : Option Symbol := none
  paramWords : Int64 := 0
  varWords : Int64 := 0
  deriving Inhabited

namespace Scope

/-! ## Declarations -/

/-- Make a symbol known by its name. -/
def define (s : Scope) (sym : Symbol) : Scope :=
  { s with symbols := (Text.lower sym.name, sym) :: s.symbols }

/-- The address of the next parameter. -/
def nextParam (s : Scope) : Int64 := Int64.ofNat markSize + s.paramWords

/-- The address of the next variable. -/
def nextVar (s : Scope) : Int64 := Int64.ofNat markSize + s.paramWords + s.varWords

/-- Declare a parameter. -/
def addParam (s : Scope) (id : Nat) (name : String) (type : Ty) (byRef : Bool) :
    Except TreeError (Symbol × Scope) :=
  if Ty.paramHasLayout type byRef then
    let sym : Symbol := { id, name, kind := .param, type, address := s.nextParam, byRef }
    .ok (sym, { s with paramWords := s.paramWords + Ty.paramWordsOf type byRef }.define sym)
  else .error .missingType

/-- Declare a symbol that takes words among the variables. -/
def addLocal (s : Scope) (kind : SymbolKind) (id : Nat) (name : String) (type : Ty) :
    Except TreeError (Symbol × Scope) :=
  if type.hasLayout then
    let sym : Symbol := { id, name, kind, type, address := s.nextVar, byRef := false }
    .ok (sym, { s with varWords := s.varWords + type.size }.define sym)
  else .error .missingType

/-- Declare a variable. -/
def addVar (s : Scope) (id : Nat) (name : String) (type : Ty) :
    Except TreeError (Symbol × Scope) :=
  s.addLocal .data id name type

/-- Declare an initialised variable. -/
def addTypedConst (s : Scope) (id : Nat) (name : String) (type : Ty) (data : Array Value) :
    Except TreeError (TypedConst × Scope) :=
  (s.addLocal .typedConst id name type).map fun (symbol, s) => ({ symbol, data }, s)

/-- Declare the place of the result, the first word of the mark.  It is not known by name, so that
the name of the function stands for the function. -/
def addResult (s : Scope) (id : Nat) (name : String) (type : Ty) : Symbol × Scope :=
  let sym : Symbol :=
    { id, name, kind := .result, type, address := Int64.ofNat markReturnValue, byRef := false }
  (sym, { s with result := some sym })

/-- Declare a subprogram. -/
def addSubprogram (s : Scope) (id : Nat) (name : String) (signature : Ty) : Symbol × Scope :=
  let sym : Symbol :=
    { id, name, kind := .subprogram, type := signature, address := 0, byRef := false }
  (sym, s.define sym)

/-! ## Resolution -/

/-- The symbol that a scope declares for a lower-case name. -/
def find? (s : Scope) (key : String) : Option Symbol := s.symbols.lookup key

/-- A reference to the place of the result. -/
def resultIdent (s : Scope) : Except TreeError Ident :=
  match s.result with
  | some symbol => .ok { symbol, level := 0 }
  | none => .error .noResult

/-- The subprogram whose declarations a scope holds. -/
def subprogram (s : Scope) (kind : SubprogramKind) (symbol : Option Symbol) (body : List Stmt)
    (nested : List Subprogram) : Subprogram :=
  .mk
    { kind
      name := (symbol.map (·.name)).getD ""
      symbol
      result :=
        match symbol with
        | some { type := .subprogram _ result, .. } => if result.isVoid then .missing else result
        | _ => .missing
      paramWords := s.paramWords
      varWords := s.varWords
      body }
    nested

end Scope

/-- The scopes around a place in the program, innermost first. -/
abbrev Scopes := List Scope

namespace Scopes

/-- The declared symbol for a lower-case name, with the number of scopes between. -/
def find? : Scopes → Nat → String → Option Ident
  | [], _, _ => none
  | s :: outer, level, key =>
    match s.find? key with
    | some symbol => some { symbol, level := Int64.ofNat level }
    | none => find? outer (level + 1) key

/-- The parameters of a native procedure, numbered from a given number on. -/
def nativeParams : Nat → List NativeParam → List (Parameter Ty)
  | _, [] => []
  | n, p :: rest => ⟨s!"p{n}", Ty.ofCode p.code, p.byRef⟩ :: nativeParams (n + 1) rest

/-- The symbol of a native procedure. -/
def nativeSymbol (id index : Nat) (native : NativeHeader) : Symbol where
  id := id
  name := native.name
  kind := .native
  type := .subprogram (nativeParams 0 native.params.toList) (Ty.ofCode native.returns)
  address := Int64.ofNat index
  byRef := false

/-- Resolve a name.  The number is for the symbol of a native procedure, which is new at every
resolution. -/
def lookup? (scopes : Scopes) (natives : Registry) (id : Nat) (name : String) : Option Ident :=
  match scopes.find? 0 (Text.lower name) with
  | some found => some found
  | none =>
    match natives.lookup? name with
    | none => none
    | some index =>
      (natives.at? index).map fun n =>
        { symbol := nativeSymbol id index n.toNativeHeader, level := 0 }

/-- Resolve a name that must be known. -/
def ident (scopes : Scopes) (natives : Registry) (id : Nat) (name : String) :
    Except TreeError Ident :=
  match scopes.lookup? natives id name with
  | some found => .ok found
  | none => .error (.unknownIdentifier name)

end Scopes

end PCode
