import PCode.Source.Basic
import PCode.Tree.Scope

/-!
# Resolution of names

Resolution walks a program with the scopes around it and replaces each name by
the symbol that it means.  The declarations of a subprogram are entered first, in
their order; then the subprograms in it are resolved, then its body.

Main definitions: `Expr.resolve`, `Subprogram.resolve`.
-/

namespace PCode.Source

/-- A part of resolution; the state is the number of the next new symbol. -/
abbrev Resolve := StateT Nat (Except TreeError)

/-- A number for a new symbol. -/
def fresh : Resolve Nat := modifyGet fun n => (n, n + 1)

/-- A type that must have been formed. -/
def formed (type : Option Ty) : Resolve Ty :=
  match type with
  | some t => pure t
  | none => throw .missingType

/-- The names that can be seen from a place. -/
structure Context where
  scopes : Scopes
  natives : Registry

/-! ## Expressions -/

/-- What a reference means. -/
def Reference.resolve (ctx : Context) (r : Reference) : Resolve Ident := do
  let found ← ctx.scopes.ident ctx.natives (← fresh) r.name
  let symbol ←
    match r.address with
    | some address => do pure { found.symbol with id := ← fresh, address }
    | none => pure found.symbol
  return { symbol, level := r.level.getD found.level }

/-- The place of the result of the subprogram around. -/
def resultPlace (ctx : Context) : Except TreeError Ident :=
  match ctx.scopes with
  | scope :: _ => scope.resultIdent
  | [] => .error .noResult

/-- The field of a record with a given name. -/
def fieldOf (base : PCode.Expr) (name : String) : Except TreeError Ty.Field :=
  match base.type?.bind (Ty.field? · name) with
  | some f => .ok f
  | none => .error .missingType

mutual

/-- Resolve the names in an expression. -/
def Expr.resolve (ctx : Context) : Expr → Resolve PCode.Expr
  | .missing => pure .missing
  | .number pos value => pure (.number pos value)
  | .string pos value => pure (.string pos value)
  | .char pos code => pure (.char pos code)
  | .bool pos value => pure (.bool pos value)
  | .nil pos => pure (.nil pos)
  | .ident pos target => do return .ident pos (← target.resolve ctx)
  | .result pos => do return .ident pos (← resultPlace ctx)
  | .index pos base indices => do
    let base ← base.resolve ctx
    return .index pos base (← resolveAll ctx indices)
  | .field pos base name => do
    let base ← base.resolve ctx
    return .field pos base (← fieldOf base name)
  | .deref pos base => do return .deref pos (← base.resolve ctx)
  | .addressOf pos base => do return .addressOf pos (← base.resolve ctx)
  | .unary pos op operand => do return .unary pos op (← operand.resolve ctx)
  | .binary pos op left right type => do
    let left ← left.resolve ctx
    let right ← right.resolve ctx
    return .binary pos op left right (← formed type)
  | .cast pos operand target => do
    let operand ← operand.resolve ctx
    return .cast pos operand (← formed target)
  | .call pos callee args => do
    let callee ← callee.resolve ctx
    return .call pos callee (← resolveArgs ctx args)

/-- Resolve the names in expressions, from left to right. -/
def resolveAll (ctx : Context) : List Expr → Resolve (List PCode.Expr)
  | [] => pure []
  | e :: rest => do
    let e ← e.resolve ctx
    return e :: (← resolveAll ctx rest)

/-- Resolve the names in arguments, from left to right. -/
def resolveArgs (ctx : Context) : List Arg → Resolve (List PCode.Arg)
  | [] => pure []
  | .mk value byRef count :: rest => do
    let value ← value.resolve ctx
    return List.replicate count (.mk value byRef) ++ (← resolveArgs ctx rest)

end

/-! ## Statements -/

mutual

/-- Resolve the names in a statement. -/
def Stmt.resolve (ctx : Context) : Stmt → Resolve PCode.Stmt
  | .missing => pure .missing
  | .assign pos target value => do
    let target ← target.resolve ctx
    return .assign pos target (← value.resolve ctx)
  | .call pos callee args => do
    let callee ← callee.resolve ctx
    return .call pos callee (← resolveArgs ctx args)
  | .block pos body => do return .block pos (← resolveStmts ctx body)
  | .times pos count body => do
    let body ← body.resolve ctx
    return .block pos (List.replicate count body)
  | .cond pos test yes no => do
    let test ← test.resolve ctx
    let yes ← yes.resolve ctx
    return .cond pos test yes (← no.resolve ctx)
  | .whileDo pos test body => do
    let test ← test.resolve ctx
    return .whileDo pos test (← body.resolve ctx)
  | .repeatUntil pos body test => do
    let body ← resolveStmts ctx body
    return .repeatUntil pos body (← test.resolve ctx)
  | .forTo pos counter first last down body => do
    let counter ← Reference.resolve ctx { name := counter }
    let first ← first.resolve ctx
    let last ← last.resolve ctx
    return .forTo pos counter first last down (← body.resolve ctx)
  | .exit pos => pure (.exit pos)

/-- Resolve the names in statements, in their order. -/
def resolveStmts (ctx : Context) : List Stmt → Resolve (List PCode.Stmt)
  | [] => pure []
  | s :: rest => do
    let s ← s.resolve ctx
    return s :: (← resolveStmts ctx rest)

end

/-! ## Declarations -/

/-- The formed types of parameters. -/
def formedParams : List Param → Resolve (List (Parameter Ty))
  | [] => pure []
  | p :: rest => do
    let type ← formed p.type
    return { name := p.name, type, byRef := p.byRef } :: (← formedParams rest)

/-- The type of a subprogram; without a result it is void. -/
def signatureOf (params : List Param) (result : Option (Option Ty)) : Resolve Ty := do
  let params ← formedParams params
  let result ← formed (result.getD (some .void))
  return .subprogram params result

/-- What declarations give: the scope, the symbols of subprograms with a body, in order, and the
initialised variables, in order. -/
structure Declared where
  scope : Scope
  subs : List Symbol
  consts : List TypedConst

/-- Enter declarations into a scope. -/
def declare (scope : Scope) : List Decl → Resolve Declared
  | [] => pure { scope, subs := [], consts := [] }
  | .param p :: rest => do
    let (_, scope) ← scope.addParam (← fresh) p.name (← formed p.type) p.byRef
    declare scope rest
  | .var name type :: rest => do
    let (_, scope) ← scope.addVar (← fresh) name (← formed type)
    declare scope rest
  | .const pos name type data :: rest => do
    let (const, scope) ← scope.addTypedConst (← fresh) name (← formed type) data
    let d ← declare scope rest
    return { d with consts := { const with pos } :: d.consts }
  | .sub (.mk _ _ name result decls _) :: rest => do
    let signature ← signatureOf (paramsOf decls) result
    let (symbol, scope) := scope.addSubprogram (← fresh) name signature
    let d ← declare scope rest
    return { d with subs := symbol :: d.subs }
  | .bodiless name params result :: rest => do
    let signature ← signatureOf params (result.map some)
    let (_, scope) := scope.addSubprogram (← fresh) name signature
    declare scope rest

/-- The scope of a subprogram with the place of its result, if it has one. -/
def openScope (name : String) (result : Option (Option Ty)) : Resolve Scope := do
  match result with
  | none => return {}
  | some type => return (Scope.addResult {} (← fresh) name (← formed type)).2

mutual

/-- Resolve the names in a subprogram, given the scopes around it, innermost first, and the symbol
that declares it. -/
def Subprogram.resolve (natives : Registry) (outer : Scopes) (symbol : Option Symbol) :
    Subprogram → Resolve PCode.Subprogram
  | .mk pos kind name result decls body => do
    let d ← declare (← openScope name result) decls
    let scopes := d.scope :: outer
    let nested ← resolveSubs natives scopes d.subs decls
    let body ← resolveStmts { scopes, natives } body
    match d.scope.subprogram kind symbol body nested with
    | .mk h nested => return .mk { h with name, pos, typedConsts := d.consts } nested

/-- Resolve the subprograms among declarations, which have the given symbols. -/
def resolveSubs (natives : Registry) (scopes : Scopes) :
    List Symbol → List Decl → Resolve (List PCode.Subprogram)
  | symbol :: symbols, .sub s :: rest => do
    let s ← s.resolve natives scopes (some symbol)
    return s :: (← resolveSubs natives scopes symbols rest)
  | symbols, _ :: rest => resolveSubs natives scopes symbols rest
  | _, [] => pure []

end

/-- The resolved tree of a program. -/
def Subprogram.tree (natives : Registry) (program : Subprogram) :
    Except TreeError PCode.Subprogram :=
  (program.resolve natives [] none).run' 0

end PCode.Source
