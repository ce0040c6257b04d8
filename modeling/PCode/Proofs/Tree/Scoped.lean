import PCode.Proofs.Tree.Tiling

/-!
# Programs built through scopes

A front end declares what a subprogram needs in a scope, and makes the
subprogram from the scope and a body.  This module says when a program was made
like this, and when it is well typed: every operand has one word, and every
argument has the words of its parameter.  Nothing that is computed from sizes
may wrap.

Main definitions and results:

- `Scope.Built`: a scope that declarations have led to.
- `Scope.declares_range`: declared words lie in the frame, above the mark.
- `Expr.Typed`, `Stmt.Typed`: operands and arguments have the words that are asked of them.
- `Scoped`: a subprogram together with the scopes of its declarations.
-/

namespace PCode

/-! ## Scopes -/

/-- Two members of a list of which neither is related to the other are one. -/
theorem eq_of_pairwise {α : Type} {R : α → α → Prop} {xs : List α} (h : xs.Pairwise R) {x y : α}
    (hx : x ∈ xs) (hy : y ∈ xs) (hxy : ¬ R x y) (hyx : ¬ R y x) : x = y := by
  obtain ⟨i, hi, rfl⟩ := List.getElem_of_mem hx
  obtain ⟨j, hj, rfl⟩ := List.getElem_of_mem hy
  have hpairs := List.pairwise_iff_getElem.mp h
  rcases Nat.lt_trichotomy i j with hij | rfl | hji
  · exact absurd (hpairs i j hi hj hij) hxy
  · rfl
  · exact absurd (hpairs j i hj hi hji) hyx

/-- The size of what is declared is computed without wrapping. -/
def Declaration.Sized : Declaration → Prop
  | param _ _ type byRef => byRef = false → type.Sized
  | var _ _ type | typedConst _ _ type _ => type.Sized
  | result .. | subprogram .. => True

/-- A declaration whose type is sized takes up no negative number of words. -/
theorem Declaration.Sized.words_nonneg {d : Declaration} (h : d.Sized) : 0 ≤ d.words.toInt := by
  cases d with
  | param => exact Ty.paramWordsOf_nonneg h
  | var | typedConst => exact Ty.size_nonneg h
  | result | subprogram => exact Int.le_refl 0

namespace Scope

/-- The words of the frame that a scope describes, in integers. -/
def words (s : Scope) : Int := (markSize : Nat) + s.paramWords.toInt + s.varWords.toInt

/-- A scope that declarations have led to: parameters before variables, and no size that is negative
or does not fit. -/
def Built (s : Scope) : Prop :=
  ∃ ds syms, ({} : Scope).declareAll ds = .ok (syms, s) ∧ ParamsFirst ds ∧ (∀ d ∈ ds, d.Sized) ∧
    (markSize : Nat) + totalWords ds < 2 ^ 63

/-- The words of a symbol lie in a frame of some size, above the mark. -/
def Within (sym : Symbol) (size : Int) : Prop :=
  (markSize : Nat) ≤ sym.address.toInt ∧ 0 ≤ sym.words.toInt ∧
    sym.address.toInt + sym.words.toInt ≤ size

/-- What is true of a scope whatever is declared in it. -/
structure Laid (s : Scope) : Prop where
  size : s.nextVar.toInt = s.words
  mark : (markSize : Nat) ≤ s.words
  within : ∀ p ∈ s.symbols, p.2.kind = .subprogram ∨ Within p.2 s.words
  result : ∀ sym, s.result = some sym → sym.address = Int64.ofNat markReturnValue
  declared : ∀ p ∈ s.symbols, p.2.kind ≠ .native

/-- Declarations give every symbol words of its own frame. -/
theorem laid_of_built {s : Scope} (h : s.Built) : s.Laid := by
  obtain ⟨ds, syms, hdeclare, hfirst, hsized, htotal⟩ := h
  have hplaces := placesAll_of_declareAll hdeclare
  have hcounted := counted_of_total hplaces (fun d hd => (hsized d hd).words_nonneg) htotal
  have hfollow := hplaces.follow_data hfirst
  have hend : s.nextVar.toInt = s.words := toInt_nextVar hplaces hfirst hcounted
  have hknown (p : String × Symbol) (hp : p ∈ s.symbols) : p.2 ∈ syms ∧ p.2.kind ≠ .result :=
    (hplaces.known p hp).resolve_left (by simp)
  constructor
  · exact hend
  · have hmark : (Int64.ofNat markSize).toInt = (markSize : Nat) := rfl
    have hpos := sum_nonneg hcounted.sizes
    rw [← hend, hcounted.last hfollow]
    omega
  · intro p hp
    obtain ⟨hmem, hresult⟩ := hknown p hp
    have hnative := hplaces.kind_ne_native p.2 hmem
    by_cases hsub : p.2.kind = .subprogram
    · exact .inl hsub
    · have hdata : p.2 ∈ dataOf syms := by
        refine List.mem_filter.mpr ⟨hmem, ?_⟩
        cases hkind : p.2.kind <;> first | rfl | contradiction
      obtain ⟨hlow, hhigh⟩ := hcounted.within hfollow hdata
      rw [hend] at hhigh
      exact .inr ⟨hlow, hcounted.sizes p.2 hdata, hhigh⟩
  · intro sym hsym
    obtain ⟨hmem, hkind⟩ := (hplaces.holds hsym).resolve_left (by simp)
    exact hplaces.result_address sym hmem hkind
  · exact fun p hp => hplaces.kind_ne_native p.2 (hknown p hp).1

/-- A distance from the base of a frame is that of a word of a declared variable, parameter or
typed constant, or of the result. -/
def Declares (s : Scope) (offset : Int) : Prop :=
  (∃ p ∈ s.symbols, p.2.kind ≠ .subprogram ∧ p.2.address.toInt ≤ offset ∧
    offset < p.2.address.toInt + p.2.words.toInt) ∨
  ∃ sym, s.result = some sym ∧ offset = sym.address.toInt

/-- Declared words lie in the frame, above the mark or in the place of its result. -/
theorem declares_range {s : Scope} (h : s.Built) {offset : Int} (ho : s.Declares offset) :
    offset = 0 ∨ (markSize : Nat) ≤ offset ∧ offset < s.words := by
  have hlaid := laid_of_built h
  rcases ho with ⟨p, hp, hkind, hlow, hhigh⟩ | ⟨sym, hsym, rfl⟩
  · rcases hlaid.within p hp with hsub | ⟨h₁, -, h₃⟩
    · exact absurd hsub hkind
    · exact .inr ⟨Int.le_trans h₁ hlow, Int.lt_of_lt_of_le hhigh h₃⟩
  · left
    rw [hlaid.result sym hsym]
    decide

/-- The subprogram with a symbol is declared in a scope. -/
def DeclaresCall (s : Scope) (sym : Symbol) : Prop :=
  sym.kind = .subprogram ∧ ∃ name, (name, sym) ∈ s.symbols

/-- The numbers of the subprograms declared in a scope. -/
def callIds (s : Scope) : List Nat :=
  s.symbols.filterMap fun p => if p.2.kind = .subprogram then some p.2.id else none

/-- The number of a declared subprogram is among those of its scope. -/
theorem DeclaresCall.mem_callIds {s : Scope} {sym : Symbol} (h : s.DeclaresCall sym) :
    sym.id ∈ s.callIds := by
  obtain ⟨hkind, name, hmem⟩ := h
  exact List.mem_filterMap.mpr ⟨_, hmem, by simp [hkind]⟩

/-- In a scope whose declarations have numbers of their own, a number determines a subprogram. -/
theorem declaresCall_unique {s : Scope} {sym sym' : Symbol} (hids : s.callIds.Nodup)
    (h : s.DeclaresCall sym) (h' : s.DeclaresCall sym') (hid : sym.id = sym'.id) : sym = sym' := by
  obtain ⟨hkind, name, hmem⟩ := h
  obtain ⟨hkind', name', hmem'⟩ := h'
  unfold callIds List.Nodup at hids
  rw [List.pairwise_filterMap] at hids
  have hsame : (name, sym) = (name', sym') := by
    refine eq_of_pairwise hids hmem hmem' (fun hne => ?_) fun hne => ?_
    · exact hne _ (by simp [hkind]) _ (by simp [hkind']) hid
    · exact hne _ (by simp [hkind']) _ (by simp [hkind]) hid.symm
  exact (Prod.mk.inj hsame).2

end Scope

/-! ## Resolution -/

namespace Scopes

/-- A name is resolved to an identifier at a place in the program. -/
def Resolves (scopes : Scopes) (natives : Registry) (id : Ident) : Prop :=
  ∃ number name, scopes.lookup? natives number name = some id

private theorem declared_of_find? {scopes : Scopes} {level : Nat} {key : String} {id : Ident}
    (h : scopes.find? level key = some id) :
    ∃ k s,
      scopes[k]? = some s ∧ (key, id.symbol) ∈ s.symbols ∧ id.level = Int64.ofNat (level + k) := by
  induction scopes generalizing level with
  | nil => simp [find?] at h
  | cons s outer ih =>
    unfold find? at h
    cases hs : s.find? key with
    | some sym =>
      simp only [hs, Option.some.injEq] at h
      subst h
      obtain ⟨l₁, l₂, heq, -⟩ := List.lookup_eq_some_iff.mp hs
      exact ⟨0, s, rfl, by simp [heq], rfl⟩
    | none =>
      simp only [hs] at h
      obtain ⟨k, s', hk, hmem, hlevel⟩ := ih h
      exact ⟨k + 1, s', by simpa using hk, hmem, by rw [hlevel]; congr 1; omega⟩

/-- The subprogram with a symbol is declared a number of scopes out. -/
def Calls (scopes : Scopes) (sym : Symbol) (level : Nat) : Prop :=
  ∃ s, scopes[level]? = some s ∧ s.DeclaresCall sym

/-- A name is resolved to a declaration in one of the scopes, or to a native procedure. -/
theorem Resolves.cases {scopes : Scopes} {natives : Registry} {id : Ident}
    (hbuilt : ∀ s ∈ scopes, s.Built) (h : scopes.Resolves natives id) :
    (id.symbol.kind ≠ .native ∧ ∃ k, id.level = Int64.ofNat k ∧ k < scopes.length ∧
      (id.symbol.kind = .subprogram → scopes.Calls id.symbol k)) ∨
    ∃ number index n, natives.at? index = some n ∧
      id = ⟨nativeSymbol number index n.toNativeHeader, 0⟩ := by
  obtain ⟨number, name, h⟩ := h
  unfold lookup? at h
  split at h
  · rename_i found hfound
    obtain rfl := Option.some.inj h
    obtain ⟨k, s, hk, hmem, hlevel⟩ := declared_of_find? hfound
    rw [Nat.zero_add] at hlevel
    have hs := Scope.laid_of_built (hbuilt s (List.mem_of_getElem? hk))
    exact .inl ⟨hs.declared _ hmem, k, hlevel, (List.getElem?_eq_some_iff.mp hk).1,
      fun hkind => ⟨s, hk, hkind, _, hmem⟩⟩
  · split at h
    · cases h
    · rename_i index _
      obtain ⟨n, hn, rfl⟩ := Option.map_eq_some_iff.mp h
      exact .inr ⟨number, index, n, hn, rfl⟩

end Scopes

private theorem TypeCode.byte_of_ofByte? {b : UInt8} {t : TypeCode} (h : ofByte? b = some t) :
    t.byte = b := by
  have hlt : b.toNat < all.size := by
    unfold ofByte? at h
    exact (Array.getElem?_eq_some_iff.mp h).1
  have key : ∀ n : Fin 9, ∀ t, all[n.val]? = some t → t.byte.toNat = n.val := by decide
  exact UInt8.toNat_inj.mp (key ⟨b.toNat, hlt⟩ t h)

/-- Only the type with the code of no type is void. -/
theorem Ty.isVoid_ofCode (code : UInt8) :
    (Ty.ofCode code).isVoid = (code == TypeCode.void.byte) := by
  unfold ofCode
  split <;> rename_i hcode <;> first
    | rw [← TypeCode.byte_of_ofByte? hcode]; rfl
    | rfl

/-- What a call returns is void exactly when the result of the signature is. -/
theorem Symbol.isVoid_resultType {sym : Symbol} {params : List (Parameter Ty)} {result : Ty}
    (h : sym.type = .subprogram params result) : sym.resultType.isVoid = result.isVoid := by
  unfold Symbol.resultType
  rw [h]
  cases result <;> rfl

/-- What a call returns is the result of the signature, unless that is void. -/
theorem Symbol.resultType_eq {sym : Symbol} {params : List (Parameter Ty)} {result : Ty}
    (h : sym.type = .subprogram params result) (hvoid : result.isVoid = false) :
    sym.resultType = result := by
  unfold Symbol.resultType
  rw [h]
  cases result <;> first | rfl | cases hvoid

/-- The result that a subprogram made from a scope returns is that of its signature. -/
theorem Scope.result_subprogram {s : Scope} {kind : SubprogramKind} {sym : Symbol}
    {body : List Stmt} {nested : List Subprogram} {params : List (Parameter Ty)} {result : Ty}
    (h : sym.type = .subprogram params result) (hvoid : result.isVoid = false) :
    (s.subprogram kind (some sym) body nested).header.result = result := by
  obtain ⟨id, name, kind, type, address, byRef⟩ := sym
  subst h
  simp [Scope.subprogram, Subprogram.header, hvoid]

/-- The symbol of a native procedure has a result exactly when a call leaves one. -/
theorem Scopes.isVoid_nativeSymbol (number index : Nat) (n : NativeHeader) :
    (nativeSymbol number index n).resultType.isVoid = !n.isFunction := by
  rw [Symbol.isVoid_resultType rfl, Ty.isVoid_ofCode, NativeHeader.isFunction, bne, Bool.not_not]

private theorem Ty.size_ofCode (code : UInt8) : (Ty.ofCode code).size = 1 := by
  unfold ofCode
  split <;> rfl

/-- What a native function returns has one word. -/
theorem Scopes.size_nativeSymbol (number index : Nat) (n : NativeHeader) :
    (nativeSymbol number index n).resultType.size = 1 := by
  have hsize := Ty.size_ofCode n.returns
  unfold Symbol.resultType nativeSymbol
  cases hcode : Ty.ofCode n.returns with
  | missing => simp [hcode, Ty.size] at hsize
  | _ => simpa only [hcode] using hsize

/-! ## Typed trees -/

/-- An expression has a type of one word that is not void. -/
def Expr.OneWord (e : Expr) : Prop := ∃ t, e.type? = some t ∧ t.size = 1 ∧ t.isVoid = false

/-- An argument passed by value to a native procedure has one word. -/
def Arg.OneWord : Arg → Prop
  | .mk e byRef => byRef = false → e.OneWord

/-- An argument is passed like its parameter, and one passed by value has as many words. -/
def Arg.Matches : Arg → Parameter Ty → Prop
  | .mk e byRef, p =>
    byRef = p.byRef ∧
      (byRef = false → ∃ t, e.type? = some t ∧ t.size = p.type.size ∧ t.isVoid = false)

/-- There are as many arguments as parameters, and each matches its parameter. -/
def ArgsMatch : List Arg → List (Parameter Ty) → Prop
  | [], [] => True
  | a :: args, p :: params => a.Matches p ∧ ArgsMatch args params
  | _, _ => False

/-- The callee is known where it is called, and the arguments fit it. -/
def CallTyped (natives : Registry) (scopes : Scopes) (callee : Ident) (args : List Arg) : Prop :=
  scopes.Resolves natives callee ∧
    match callee.symbol.kind, callee.symbol.type with
    | .native, _ => ∀ a ∈ args, a.OneWord
    | _, .subprogram params _ => Ty.ParamsSized params ∧ ArgsMatch args params
    | _, _ => True

section

variable (natives : Registry) (scopes : Scopes)

mutual

/-- The operands and arguments in an expression have the words that are asked of them. -/
def Expr.Typed : Expr → Prop
  | .ident _ id => id.symbol.type.Sized
  | .index _ base indices => base.Typed ∧ IndicesTyped indices
  | .field _ base _ | .addressOf _ base => base.Typed
  | .deref _ base | .unary _ _ base | .cast _ base _ => base.OneWord ∧ base.Typed
  | .binary _ _ left right type =>
    (left.OneWord ∧ left.Typed) ∧ (right.OneWord ∧ right.Typed) ∧ type.size = 1
  | .call _ callee args => CallTyped natives scopes callee args ∧ ArgsTyped args
  | .missing | .number .. | .string .. | .char .. | .bool .. | .nil _ => True

/-- Every index has one word. -/
def IndicesTyped : List Expr → Prop
  | [] => True
  | e :: rest => (e.OneWord ∧ e.Typed) ∧ IndicesTyped rest

/-- The values of all arguments are typed. -/
def ArgsTyped : List Arg → Prop
  | [] => True
  | .mk e _ :: rest => e.Typed ∧ ArgsTyped rest

end

mutual

/-- The conditions, assigned values and arguments in a statement have the words that are asked of
them. -/
def Stmt.Typed : Stmt → Prop
  | .assign _ target value =>
    target.Typed natives scopes ∧ value.OneWord ∧ value.Typed natives scopes
  | .call _ callee args => CallTyped natives scopes callee args ∧ ArgsTyped natives scopes args
  | .block _ body => StmtsTyped body
  | .cond _ test yes no => (test.OneWord ∧ test.Typed natives scopes) ∧ yes.Typed ∧ no.Typed
  | .whileDo _ test body => (test.OneWord ∧ test.Typed natives scopes) ∧ body.Typed
  | .repeatUntil _ body test => StmtsTyped body ∧ test.OneWord ∧ test.Typed natives scopes
  | .forTo _ _ first last _ body =>
    (first.OneWord ∧ first.Typed natives scopes) ∧ (last.OneWord ∧ last.Typed natives scopes) ∧
      body.Typed
  | .missing | .exit _ => True

/-- Statements are typed one by one. -/
def StmtsTyped : List Stmt → Prop
  | [] => True
  | s :: rest => s.Typed ∧ StmtsTyped rest

end

end

/-! ## Subprograms with their scopes -/

/-- A subprogram together with the scope of its declarations, and those in it likewise. -/
inductive Scoped where
  | mk (scope : Scope) (header : SubprogramHeader) (nested : List Scoped)
  deriving Inhabited

namespace Scoped

/-- The scope of the declarations. -/
def scope : Scoped → Scope
  | mk s _ _ => s

/-- The subprogram apart from those in it. -/
def header : Scoped → SubprogramHeader
  | mk _ h _ => h

mutual

/-- The subprogram without the scopes. -/
def tree : Scoped → Subprogram
  | mk _ h nested => .mk h (trees nested)

/-- Subprograms next to each other without the scopes. -/
def trees : List Scoped → List Subprogram
  | [] => []
  | s :: rest => s.tree :: trees rest

end

/-- What holds of one subprogram in the scopes around its body, its own scope first. -/
structure Fits (natives : Registry) (scopes : Scopes) (s : Scope) (h : SubprogramHeader)
    (nested : List Scoped) : Prop where
  built : s.Built
  /-- the header is made from the scope -/
  params : h.paramWords = s.paramWords
  vars : h.varWords = s.varWords
  result : h.result = (s.subprogram h.kind h.symbol h.body []).header.result
  /-- it is a function exactly when its signature has a result -/
  function : h.kind = .function ↔ ∃ sym, h.symbol = some sym ∧ sym.resultType.isVoid = false
  body : StmtsTyped natives scopes h.body
  /-- those in it are declared in its scope -/
  declared : ∀ n ∈ nested, ∃ sym, n.header.symbol = some sym ∧ s.DeclaresCall sym

mutual

/-- Every subprogram was built through its scope. -/
def WellFormed (natives : Registry) (outer : Scopes) : Scoped → Prop
  | mk s h nested =>
    Fits natives (s :: outer) s h nested ∧ AllWellFormed natives (s :: outer) nested

/-- Subprograms next to each other were built through their scopes. -/
def AllWellFormed (natives : Registry) (outer : Scopes) : List Scoped → Prop
  | [] => True
  | n :: rest => n.WellFormed natives outer ∧ AllWellFormed natives outer rest

end

mutual

/-- The numbers of all declared subprograms. -/
def callIds : Scoped → List Nat
  | mk s _ nested => allCallIds nested ++ s.callIds

/-- The numbers of all subprograms declared in subprograms next to each other. -/
def allCallIds : List Scoped → List Nat
  | [] => []
  | n :: rest => n.callIds ++ allCallIds rest

end

/-- A program that was built through scopes and is well typed. -/
structure Program (natives : Registry) (src : Scoped) : Prop where
  wellFormed : src.WellFormed natives []
  /-- the program itself is not declared -/
  symbol : src.header.symbol = none
  /-- every declaration has a number of its own -/
  distinct : src.callIds.Nodup

end Scoped

end PCode
