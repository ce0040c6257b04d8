import PCode.Proofs.Tree.Sized
import PCode.Tree.Scope

/-!
# Tiling of frames

A front end declares parameters, variables, typed constants, a result and
subprograms in a scope, one after another.  Parameters come before variables.
What takes words gets the words after those declared before it, so the
declarations tile the frame above its mark.  Addresses are computed in 64 bits:
they tile the frame exactly as long as the frame can be counted in 64 bits.

Main definitions and results:

- `Declaration`, `Scope.declareAll`: sequences of declarations.
- `Scope.Tiled`: what is declared covers a frame, and nothing twice.
- `Scope.PlacesAll`: where declarations put their symbols.
- `Scope.PlacesAll.follow_params`, `Scope.PlacesAll.follow_locals`: each address is the end of what
  was declared before.
- `Scope.tiled_iff`: a frame is tiled exactly if its words can be counted.
- `Scope.paramWords_of_signature`: a signature counts the words of a scope's parameters.
- `Scope.param_address`: a parameter lies behind the words of the parameters before it.
-/

namespace PCode

/-! ## Declarations -/

/-- The words that a symbol takes in a frame. -/
def Symbol.words (sym : Symbol) : Int64 := Ty.paramWordsOf sym.type sym.byRef

/-- Whether symbols of a kind take words of a frame above its mark. -/
def SymbolKind.hasWords : SymbolKind → Bool
  | param | data | typedConst => true
  | result | subprogram | native => false

/-- A declaration in a scope. -/
inductive Declaration where
  | param (id : Nat) (name : String) (type : Ty) (byRef : Bool)
  | var (id : Nat) (name : String) (type : Ty)
  | typedConst (id : Nat) (name : String) (type : Ty) (data : Array Value)
  | result (id : Nat) (name : String) (type : Ty)
  | subprogram (id : Nat) (name : String) (signature : Ty)

namespace Declaration

/-- What the declared symbol names. -/
def kind : Declaration → SymbolKind
  | param .. => .param
  | var .. => .data
  | typedConst .. => .typedConst
  | result .. => .result
  | subprogram .. => .subprogram

/-- The words that the declared symbol takes above the mark. -/
def words : Declaration → Int64
  | param _ _ type byRef => Ty.paramWordsOf type byRef
  | var _ _ type | typedConst _ _ type _ => type.size
  | result .. | subprogram .. => 0

/-- Whether the words can be counted: no type that is needed is missing. -/
def hasLayout : Declaration → Bool
  | param _ _ type byRef => Ty.paramHasLayout type byRef
  | var _ _ type | typedConst _ _ type _ => type.hasLayout
  | result .. | subprogram .. => true

/-- The parameter that is declared, as a signature lists it. -/
def parameter? : Declaration → Option (Parameter Ty)
  | param _ name type byRef => some ⟨name, type, byRef⟩
  | _ => none

end Declaration

/-- The words of a parameter. -/
def Parameter.words (p : Parameter Ty) : Int64 := Ty.paramWordsOf p.type p.byRef

/-- The parameters among declarations. -/
def parametersOf (ds : List Declaration) : List (Parameter Ty) :=
  ds.filterMap Declaration.parameter?

/-- No parameter is declared after a variable or typed constant. -/
def ParamsFirst (ds : List Declaration) : Prop :=
  ds.Pairwise fun d e => d.kind = .data ∨ d.kind = .typedConst → e.kind ≠ .param

/-- The words of all declarations, in integers. -/
def totalWords (ds : List Declaration) : Int := (ds.map fun d => d.words.toInt).sum

namespace Scope

/-- Make a declaration; the result is its symbol. -/
def declare (s : Scope) : Declaration → Except TreeError (Symbol × Scope)
  | .param id name type byRef => s.addParam id name type byRef
  | .var id name type => s.addVar id name type
  | .typedConst id name type data =>
    (s.addTypedConst id name type data).map fun (tc, s) => (tc.symbol, s)
  | .result id name type => .ok (s.addResult id name type)
  | .subprogram id name signature => .ok (s.addSubprogram id name signature)

/-- Make declarations one after another; the result is their symbols, in the same order. -/
def declareAll (s : Scope) : List Declaration → Except TreeError (List Symbol × Scope)
  | [] => .ok ([], s)
  | d :: rest => do
    let (sym, s) ← s.declare d
    let (syms, s) ← s.declareAll rest
    return (sym :: syms, s)

/-! ## One declaration -/

/-- Where a declaration puts its symbol, and how it moves the ends of parameters and variables. -/
structure Places (s : Scope) (d : Declaration) (sym : Symbol) (s' : Scope) : Prop where
  kind : sym.kind = d.kind
  words : d.kind.hasWords → sym.words = d.words
  parameter : ∀ p, d.parameter? = some p →
    sym.name = p.name ∧ sym.type = p.type ∧ sym.byRef = p.byRef
  param : d.kind = .param → sym.address = s.nextParam
  other : d.kind = .data ∨ d.kind = .typedConst → sym.address = s.nextVar
  direct : d.kind = .data ∨ d.kind = .typedConst → sym.byRef = false
  result : d.kind = .result → sym.address = Int64.ofNat markReturnValue
  paramWords : s'.paramWords = if d.kind = .param then s.paramWords + d.words else s.paramWords
  varWords : s'.varWords =
    if d.kind = .data ∨ d.kind = .typedConst then s.varWords + d.words else s.varWords
  /-- every declaration but a result makes its symbol known -/
  known : ∀ p ∈ s'.symbols, p ∈ s.symbols ∨ p.2 = sym ∧ d.kind ≠ .result
  /-- only the declaration of a result changes that of the scope -/
  holds : ∀ r, s'.result = some r → s.result = some r ∨ r = sym ∧ d.kind = .result

/-- What a declaration among the variables makes. -/
theorem eq_of_addLocal {s s' : Scope} {kind : SymbolKind} {id : Nat} {name : String} {type : Ty}
    {sym : Symbol} (h : s.addLocal kind id name type = .ok (sym, s')) :
    sym = { id, name, kind, type, address := s.nextVar, byRef := false } ∧
      s' = { s with varWords := s.varWords + type.size }.define sym := by
  unfold addLocal at h
  split at h
  · obtain ⟨rfl, rfl⟩ := Prod.mk.inj (Except.ok.inj h)
    exact ⟨rfl, rfl⟩
  · cases h

/-- A typed constant is declared like a variable. -/
theorem declare_typedConst (s : Scope) (id : Nat) (name : String) (type : Ty)
    (data : Array Value) :
    s.declare (.typedConst id name type data) = s.addLocal .typedConst id name type := by
  simp only [declare, addTypedConst]
  cases s.addLocal .typedConst id name type <;> rfl

/-- Defining a symbol makes no other one known. -/
theorem known_of_define {s : Scope} {sym : Symbol} {p : String × Symbol}
    (h : p ∈ (s.define sym).symbols) : p ∈ s.symbols ∨ p.2 = sym := by
  rcases List.mem_cons.mp h with rfl | h
  · exact .inr rfl
  · exact .inl h

/-- A declaration puts its symbol at the end of those of its kind. -/
theorem places_of_declare {s s' : Scope} {d : Declaration} {sym : Symbol}
    (h : s.declare d = .ok (sym, s')) : s.Places d sym s' := by
  cases d with
  | param id name type byRef =>
    simp only [declare, addParam] at h
    split at h
    · obtain ⟨rfl, rfl⟩ := Prod.mk.inj (Except.ok.inj h)
      constructor
      case known => exact fun p hp => (known_of_define hp).imp_right fun h => ⟨h, nofun⟩
      all_goals
        simp [Declaration.kind, Declaration.words, Declaration.parameter?, define, Symbol.words]
    · cases h
  | var id name type =>
    obtain ⟨rfl, rfl⟩ := eq_of_addLocal h
    constructor
    case known => exact fun p hp => (known_of_define hp).imp_right fun h => ⟨h, nofun⟩
    all_goals
      simp [Declaration.kind, Declaration.words, Declaration.parameter?, define, Symbol.words,
        Ty.paramWordsOf]
  | typedConst id name type data =>
    rw [declare_typedConst] at h
    obtain ⟨rfl, rfl⟩ := eq_of_addLocal h
    constructor
    case known => exact fun p hp => (known_of_define hp).imp_right fun h => ⟨h, nofun⟩
    all_goals
      simp [Declaration.kind, Declaration.words, Declaration.parameter?, define, Symbol.words,
        Ty.paramWordsOf]
  | result id name type =>
    obtain ⟨rfl, rfl⟩ := Prod.mk.inj (Except.ok.inj h)
    constructor
    case holds => exact fun r hr => .inr ⟨(Option.some.inj hr).symm, rfl⟩
    all_goals simp [Declaration.kind, Declaration.parameter?, SymbolKind.hasWords]
  | subprogram id name signature =>
    obtain ⟨rfl, rfl⟩ := Prod.mk.inj (Except.ok.inj h)
    constructor
    case known => exact fun p hp => (known_of_define hp).imp_right fun h => ⟨h, nofun⟩
    all_goals simp [Declaration.kind, Declaration.parameter?, define, SymbolKind.hasWords]

/-- A declaration whose words can be counted succeeds. -/
theorem exists_declare (s : Scope) {d : Declaration} (h : d.hasLayout = true) :
    ∃ sym s', s.declare d = .ok (sym, s') := by
  cases d with
  | param | var => exact ⟨_, _, if_pos h⟩
  | typedConst id name type data =>
    rw [declare_typedConst]
    exact ⟨_, _, if_pos h⟩
  | result | subprogram => exact ⟨_, _, rfl⟩

/-! ## Sequences of declarations -/

/-- Declarations one after another. -/
inductive PlacesAll : Scope → List Declaration → List Symbol → Scope → Prop where
  | nil (s : Scope) : PlacesAll s [] [] s
  | cons {s s₁ s' : Scope} {d : Declaration} {ds : List Declaration} {sym : Symbol}
      {syms : List Symbol} :
      s.Places d sym s₁ → PlacesAll s₁ ds syms s' → PlacesAll s (d :: ds) (sym :: syms) s'

/-- Declarations succeed if the first one does and then the others do. -/
theorem declareAll_cons {s s' : Scope} {d : Declaration} {ds : List Declaration}
    {syms : List Symbol} :
    s.declareAll (d :: ds) = .ok (syms, s') ↔
      ∃ sym s₁ rest, s.declare d = .ok (sym, s₁) ∧ s₁.declareAll ds = .ok (rest, s') ∧
        syms = sym :: rest := by
  rw [declareAll]
  cases hdeclare : s.declare d with
  | error e => simp [bind, Except.bind]
  | ok made =>
    obtain ⟨sym, s₁⟩ := made
    cases hrest : s₁.declareAll ds with
    | error e => simp [bind, Except.bind, hrest]
    | ok made =>
      obtain ⟨rest, s₂⟩ := made
      simp only [bind, Except.bind, pure, Except.pure, hrest, Except.ok.injEq, Prod.mk.injEq]
      constructor
      · rintro ⟨rfl, rfl⟩
        exact ⟨sym, s₁, rest, ⟨rfl, rfl⟩, hrest, rfl⟩
      · rintro ⟨_, _, _, ⟨rfl, rfl⟩, hrest', rfl⟩
        obtain ⟨rfl, rfl⟩ := Prod.mk.inj (Except.ok.inj (hrest.symm.trans hrest'))
        exact ⟨rfl, rfl⟩

/-- Declarations put their symbols one after another. -/
theorem placesAll_of_declareAll {s s' : Scope} {ds : List Declaration} {syms : List Symbol}
    (h : s.declareAll ds = .ok (syms, s')) : PlacesAll s ds syms s' := by
  induction ds generalizing s syms with
  | nil =>
    obtain ⟨rfl, rfl⟩ := Prod.mk.inj (Except.ok.inj h)
    exact .nil s
  | cons d ds ih =>
    obtain ⟨sym, s₁, rest, hdeclare, hrest, rfl⟩ := declareAll_cons.mp h
    exact .cons (places_of_declare hdeclare) (ih hrest)

/-- Declarations whose words can be counted succeed. -/
theorem exists_declareAll (s : Scope) {ds : List Declaration} (h : ∀ d ∈ ds, d.hasLayout = true) :
    ∃ syms s', s.declareAll ds = .ok (syms, s') := by
  induction ds generalizing s with
  | nil => exact ⟨[], s, rfl⟩
  | cons d ds ih =>
    obtain ⟨sym, s₁, hdeclare⟩ := s.exists_declare (h d List.mem_cons_self)
    obtain ⟨syms, s', hall⟩ := ih s₁ fun e he => h e (List.mem_cons_of_mem _ he)
    exact ⟨sym :: syms, s', declareAll_cons.mpr ⟨sym, s₁, syms, hdeclare, hall, rfl⟩⟩

/-- Symbols lie one after another from an address on, up to another. -/
def Follow : Int64 → List Symbol → Int64 → Prop
  | a, [], z => a = z
  | a, sym :: rest, z => sym.address = a ∧ Follow (a + sym.words) rest z

/-- Symbols that lie behind others continue them. -/
theorem Follow.append {xs ys : List Symbol} {a b z : Int64} (hxs : Follow a xs b)
    (hys : Follow b ys z) : Follow a (xs ++ ys) z := by
  induction xs generalizing a with
  | nil =>
    obtain rfl := hxs
    exact hys
  | cons x xs ih => exact ⟨hxs.1, ih hxs.2⟩

/-- The symbols that take words. -/
def dataOf (syms : List Symbol) : List Symbol := syms.filter (·.kind.hasWords)

/-- The symbols of parameters. -/
def paramsOf (syms : List Symbol) : List Symbol := syms.filter (·.kind == .param)

/-- The symbols of variables and typed constants. -/
def localsOf (syms : List Symbol) : List Symbol :=
  syms.filter fun sym => sym.kind = .data ∨ sym.kind = .typedConst

/-- The parameters after one more declaration. -/
theorem Places.paramsOf_cons {s s' : Scope} {d : Declaration} {sym : Symbol}
    (h : s.Places d sym s') (syms : List Symbol) :
    paramsOf (sym :: syms) = if d.kind = .param then sym :: paramsOf syms else paramsOf syms := by
  simp [paramsOf, List.filter_cons, h.kind]

/-- The variables and typed constants after one more declaration. -/
theorem Places.localsOf_cons {s s' : Scope} {d : Declaration} {sym : Symbol}
    (h : s.Places d sym s') (syms : List Symbol) :
    localsOf (sym :: syms) =
      if d.kind = .data ∨ d.kind = .typedConst then sym :: localsOf syms else localsOf syms := by
  simp [localsOf, List.filter_cons, h.kind]

/-- What takes words after one more declaration. -/
theorem Places.dataOf_cons {s s' : Scope} {d : Declaration} {sym : Symbol}
    (h : s.Places d sym s') (syms : List Symbol) :
    dataOf (sym :: syms) = if d.kind.hasWords then sym :: dataOf syms else dataOf syms := by
  simp [dataOf, List.filter_cons, h.kind]

/-- Only a parameter moves the end of the parameters. -/
theorem Places.nextParam {s s' : Scope} {d : Declaration} {sym : Symbol} (h : s.Places d sym s') :
    s'.nextParam = if d.kind = .param then s.nextParam + d.words else s.nextParam := by
  unfold Scope.nextParam
  rw [h.paramWords]
  split
  · exact (Int64.add_assoc ..).symm
  · rfl

namespace PlacesAll

variable {s s' : Scope} {ds : List Declaration} {syms : List Symbol}

/-- The parameters follow each other. -/
theorem follow_params (h : PlacesAll s ds syms s') :
    Follow s.nextParam (paramsOf syms) s'.nextParam := by
  induction h with
  | nil s => rfl
  | @cons s s₁ s' d ds sym syms hplaces _ ih =>
    rw [hplaces.nextParam] at ih
    rw [hplaces.paramsOf_cons]
    by_cases hkind : d.kind = .param
    · have hwords := hplaces.words (by rw [hkind]; rfl)
      rw [if_pos hkind, ← hwords] at ih
      rw [if_pos hkind]
      exact ⟨hplaces.param hkind, ih⟩
    · rw [if_neg hkind] at ih ⊢
      exact ih

/-- Without parameters among the declarations there are none among the symbols. -/
theorem paramsOf_eq_nil (h : PlacesAll s ds syms s') (hnone : ∀ d ∈ ds, d.kind ≠ .param) :
    paramsOf syms = [] := by
  induction h with
  | nil s => rfl
  | cons hplaces _ ih =>
    rw [hplaces.paramsOf_cons, if_neg (hnone _ List.mem_cons_self)]
    exact ih fun e he => hnone e (List.mem_cons_of_mem _ he)

/-- The variables and typed constants follow each other from the end of all parameters on, if no
parameter comes after one of them. -/
theorem follow_locals_from (h : PlacesAll s ds syms s') (hfirst : ParamsFirst ds)
    (hstart : s.varWords = 0 ∨ ∀ d ∈ ds, d.kind ≠ .param) :
    Follow (s'.nextParam + s.varWords) (localsOf syms) s'.nextVar := by
  induction h with
  | nil s => rfl
  | @cons s s₁ s' d ds sym syms hplaces hrest ih =>
    obtain ⟨hlater, hfirst⟩ := List.pairwise_cons.mp hfirst
    rw [hplaces.varWords] at ih
    rw [hplaces.localsOf_cons]
    by_cases hlocal : d.kind = .data ∨ d.kind = .typedConst
    · have hno : ∀ e ∈ ds, e.kind ≠ .param := fun e he => hlater e he hlocal
      have hwords : sym.words = d.words :=
        hplaces.words (by rcases hlocal with hkind | hkind <;> rw [hkind] <;> rfl)
      -- no parameter follows, so that their end is known already
      have hend : s.nextParam = s'.nextParam := by
        have hfollow := hrest.follow_params
        rw [hrest.paramsOf_eq_nil hno, hplaces.nextParam, if_neg (by grind)] at hfollow
        exact hfollow
      rw [if_pos hlocal] at ih ⊢
      refine ⟨?_, ?_⟩
      · rw [hplaces.other hlocal, ← hend]
        rfl
      · rw [hwords, Int64.add_assoc]
        exact ih hfirst (.inr hno)
    · rw [if_neg hlocal] at ih ⊢
      exact ih hfirst (hstart.imp_right fun hno e he => hno e (List.mem_cons_of_mem _ he))

/-- What takes words are the parameters and then the variables and typed constants, if no parameter
comes after one of those. -/
theorem dataOf_eq_append (h : PlacesAll s ds syms s') (hfirst : ParamsFirst ds) :
    dataOf syms = paramsOf syms ++ localsOf syms := by
  induction h with
  | nil s => rfl
  | @cons s s₁ s' d ds sym syms hplaces hrest ih =>
    obtain ⟨hlater, hfirst⟩ := List.pairwise_cons.mp hfirst
    rw [hplaces.dataOf_cons, hplaces.paramsOf_cons, hplaces.localsOf_cons, ih hfirst]
    cases d with
    | param => rfl
    | var | typedConst =>
      have hnone : paramsOf syms = [] :=
        hrest.paramsOf_eq_nil fun e he => hlater e he (by simp [Declaration.kind])
      simp [Declaration.kind, SymbolKind.hasWords, hnone]
    | result | subprogram => rfl

/-- In a new scope the variables and typed constants lie behind the parameters. -/
theorem follow_locals (h : PlacesAll {} ds syms s) (hfirst : ParamsFirst ds) :
    Follow s.nextParam (localsOf syms) s.nextVar := by
  have hfollow := h.follow_locals_from hfirst (.inl rfl)
  rwa [show ({} : Scope).varWords = 0 from rfl, Int64.add_zero] at hfollow

/-- In a new scope all that takes words follows each other. -/
theorem follow_data (h : PlacesAll {} ds syms s) (hfirst : ParamsFirst ds) :
    Follow (Int64.ofNat markSize) (dataOf syms) s.nextVar := by
  rw [h.dataOf_eq_append hfirst]
  exact h.follow_params.append (h.follow_locals hfirst)

/-- No declared symbol names a native procedure. -/
theorem kind_ne_native (h : PlacesAll s ds syms s') : ∀ sym ∈ syms, sym.kind ≠ .native := by
  induction h with
  | nil s => simp
  | @cons s s₁ s' d ds sym syms hplaces _ ih =>
    intro x hx
    rcases List.mem_cons.mp hx with rfl | hx
    · rw [hplaces.kind]
      cases d <;> nofun
    · exact ih x hx

/-- Variables and typed constants take the words of their type. -/
theorem words_localsOf (h : PlacesAll s ds syms s') :
    ∀ sym ∈ localsOf syms, sym.words = sym.type.size := by
  induction h with
  | nil s => simp [localsOf]
  | @cons s s₁ s' d ds sym syms hplaces _ ih =>
    rw [hplaces.localsOf_cons]
    split
    · rename_i hlocal
      refine List.forall_mem_cons.mpr ⟨?_, ih⟩
      rw [Symbol.words, hplaces.direct hlocal]
      rfl
    · exact ih

/-- What is known afterwards was known before or has been declared. -/
theorem known (h : PlacesAll s ds syms s') :
    ∀ p ∈ s'.symbols, p ∈ s.symbols ∨ p.2 ∈ syms ∧ p.2.kind ≠ .result := by
  induction h with
  | nil s => exact fun p hp => .inl hp
  | cons hplaces _ ih =>
    intro p hp
    rcases ih p hp with hp | ⟨hmem, hkind⟩
    · refine (hplaces.known p hp).imp_right ?_
      rintro ⟨rfl, hkind⟩
      exact ⟨List.mem_cons_self, hplaces.kind ▸ hkind⟩
    · exact .inr ⟨List.mem_cons_of_mem _ hmem, hkind⟩

/-- The result of a scope was there before or has been declared. -/
theorem holds (h : PlacesAll s ds syms s') {r : Symbol} (hr : s'.result = some r) :
    s.result = some r ∨ r ∈ syms ∧ r.kind = .result := by
  induction h with
  | nil s => exact .inl hr
  | cons hplaces _ ih =>
    rcases ih hr with hr | ⟨hmem, hkind⟩
    · refine (hplaces.holds r hr).imp_right ?_
      rintro ⟨rfl, hkind⟩
      exact ⟨List.mem_cons_self, hplaces.kind.trans hkind⟩
    · exact .inr ⟨List.mem_cons_of_mem _ hmem, hkind⟩

/-- The symbols of the parameters are those that a signature lists. -/
theorem parameters (h : PlacesAll s ds syms s') :
    (paramsOf syms).map (fun sym => (⟨sym.name, sym.type, sym.byRef⟩ : Parameter Ty)) =
      parametersOf ds := by
  induction h with
  | nil s => rfl
  | @cons s s₁ s' d ds sym syms hplaces _ ih =>
    rw [hplaces.paramsOf_cons]
    cases d with
    | param id name type byRef =>
      obtain ⟨hname, htype, href⟩ := hplaces.parameter _ rfl
      rw [if_pos (by rfl), List.map_cons, ih, hname, htype, href]
      rfl
    | var | typedConst | result | subprogram =>
      rw [if_neg (by simp [Declaration.kind]), ih]
      rfl

/-- The symbols that take words take the words of the declarations. -/
theorem words (h : PlacesAll s ds syms s') :
    ((dataOf syms).map fun sym => sym.words.toInt).sum = totalWords ds := by
  induction h with
  | nil s => rfl
  | @cons s s₁ s' d ds sym syms hplaces _ ih =>
    have htotal : totalWords (d :: ds) = d.words.toInt + totalWords ds := List.sum_cons
    rw [hplaces.dataOf_cons, htotal]
    by_cases hwords : d.kind.hasWords
    · rw [if_pos hwords, List.map_cons, List.sum_cons, ih, hplaces.words hwords]
    · have hzero : d.words = 0 := by
        cases d <;> first | rfl | exact absurd rfl hwords
      rw [if_neg hwords, ih, hzero, Int64.toInt_zero, Int.zero_add]

private theorem words_nonneg (h : PlacesAll s ds syms s') (hsizes : ∀ d ∈ ds, 0 ≤ d.words.toInt) :
    ∀ sym ∈ dataOf syms, 0 ≤ sym.words.toInt := by
  induction h with
  | nil s => simp [dataOf]
  | @cons s s₁ s' d ds sym syms hplaces _ ih =>
    intro x hx
    obtain ⟨hmem, hwords⟩ := List.mem_filter.mp hx
    rcases List.mem_cons.mp hmem with rfl | hmem
    · rw [hplaces.words (by rw [← hplaces.kind]; exact hwords)]
      exact hsizes d List.mem_cons_self
    · exact ih (fun e he => hsizes e (List.mem_cons_of_mem _ he)) x
        (List.mem_filter.mpr ⟨hmem, hwords⟩)

/-- The words of the parameters are added up as in a signature. -/
theorem paramWords (h : PlacesAll s ds syms s') :
    (parametersOf ds).foldl (fun n p => n + Ty.paramWordsOf p.type p.byRef) s.paramWords =
      s'.paramWords := by
  induction h with
  | nil s => rfl
  | @cons s s₁ s' d ds sym syms hplaces _ ih =>
    rw [← ih, hplaces.paramWords]
    cases d <;> rfl

/-- A result lies in the mark. -/
theorem result_address (h : PlacesAll s ds syms s') :
    ∀ sym ∈ syms, sym.kind = .result → sym.address = Int64.ofNat markReturnValue := by
  induction h with
  | nil s => simp
  | @cons s s₁ s' d ds sym syms hplaces _ ih =>
    intro x hx hkind
    rcases List.mem_cons.mp hx with rfl | hx
    · exact hplaces.result (hplaces.kind ▸ hkind)
    · exact ih x hx hkind

end PlacesAll

/-! ## Exact addresses -/

/-- The words of symbols can be counted from an address on. -/
structure Counted (a : Int64) (syms : List Symbol) : Prop where
  start : 0 ≤ a.toInt
  sizes : ∀ sym ∈ syms, 0 ≤ sym.words.toInt
  total : a.toInt + (syms.map fun sym => sym.words.toInt).sum < 2 ^ 63

/-- Words of which none has a negative number have no negative sum. -/
theorem sum_nonneg {syms : List Symbol} (h : ∀ sym ∈ syms, 0 ≤ sym.words.toInt) :
    0 ≤ (syms.map fun sym => sym.words.toInt).sum := by
  induction syms with
  | nil => exact Int.le_refl 0
  | cons sym syms ih =>
    have hhead := h sym List.mem_cons_self
    have htail := ih fun x hx => h x (List.mem_cons_of_mem _ hx)
    rw [List.map_cons, List.sum_cons]
    omega

private theorem sum_le_of_sublist {xs ys : List Symbol} (h : xs.Sublist ys)
    (hsizes : ∀ sym ∈ ys, 0 ≤ sym.words.toInt) :
    (xs.map fun sym => sym.words.toInt).sum ≤ (ys.map fun sym => sym.words.toInt).sum := by
  induction h with
  | slnil => exact Int.le_refl _
  | cons y _ ih =>
    have hhead := hsizes y List.mem_cons_self
    have htail := ih fun x hx => hsizes x (List.mem_cons_of_mem _ hx)
    rw [List.map_cons, List.sum_cons]
    omega
  | cons_cons y _ ih =>
    have htail := ih fun x hx => hsizes x (List.mem_cons_of_mem _ hx)
    rw [List.map_cons, List.sum_cons, List.map_cons, List.sum_cons]
    omega

private theorem paramsOf_sublist (syms : List Symbol) : (paramsOf syms).Sublist (dataOf syms) := by
  have hfilter : paramsOf syms = (dataOf syms).filter (·.kind == .param) := by
    rw [dataOf, List.filter_filter, paramsOf]
    congr 1
    funext sym
    cases sym.kind <;> rfl
  rw [hfilter]
  exact List.filter_sublist

private theorem Counted.sublist {a : Int64} {xs ys : List Symbol} (h : Counted a ys)
    (hsub : xs.Sublist ys) : Counted a xs where
  start := h.start
  sizes x hx := h.sizes x (hsub.mem hx)
  total := by
    have hle := sum_le_of_sublist hsub h.sizes
    have htotal := h.total
    omega

namespace Counted

variable {a z : Int64} {sym : Symbol} {syms : List Symbol}

private theorem next (h : Counted a (sym :: syms)) :
    (a + sym.words).toInt = a.toInt + sym.words.toInt := by
  have hstart := h.start
  have hhead := h.sizes sym List.mem_cons_self
  have htail := sum_nonneg fun x hx => h.sizes x (List.mem_cons_of_mem _ hx)
  have htotal := h.total
  rw [List.map_cons, List.sum_cons] at htotal
  exact toInt_add_of_fits (by omega) (by omega)

private theorem tail (h : Counted a (sym :: syms)) : Counted (a + sym.words) syms where
  start := by
    have hstart := h.start
    have hhead := h.sizes sym List.mem_cons_self
    rw [h.next]
    omega
  sizes x hx := h.sizes x (List.mem_cons_of_mem _ hx)
  total := by
    have htotal := h.total
    rw [List.map_cons, List.sum_cons] at htotal
    rw [h.next]
    omega

/-- The last address is the sum of the words. -/
theorem last (h : Counted a syms) (hfollow : Follow a syms z) :
    z.toInt = a.toInt + (syms.map fun sym => sym.words.toInt).sum := by
  induction syms generalizing a with
  | nil =>
    obtain rfl := hfollow
    simp
  | cons sym syms ih =>
    rw [ih h.tail hfollow.2, h.next, List.map_cons, List.sum_cons]
    omega

/-- Each address is the sum of the words before it. -/
theorem address (h : Counted a syms) (hfollow : Follow a syms z) {k : Nat}
    (hk : syms[k]? = some sym) :
    sym.address.toInt = a.toInt + ((syms.take k).map fun sym => sym.words.toInt).sum := by
  induction syms generalizing a k with
  | nil => simp at hk
  | cons x syms ih =>
    cases k with
    | zero =>
      obtain rfl := Option.some.inj hk
      rw [hfollow.1]
      simp
    | succ k =>
      rw [ih h.tail hfollow.2 hk, h.next, List.take_succ_cons, List.map_cons, List.sum_cons]
      omega

/-- The words of a symbol lie between the ends. -/
theorem within (h : Counted a syms) (hfollow : Follow a syms z) (hsym : sym ∈ syms) :
    a.toInt ≤ sym.address.toInt ∧ sym.address.toInt + sym.words.toInt ≤ z.toInt := by
  induction syms generalizing a with
  | nil => simp at hsym
  | cons x syms ih =>
    have hhead := h.sizes x List.mem_cons_self
    rcases List.mem_cons.mp hsym with rfl | hsym
    · have hlast := h.tail.last hfollow.2
      have hrest := sum_nonneg h.tail.sizes
      rw [h.next] at hlast
      rw [hfollow.1]
      omega
    · obtain ⟨hlow, hhigh⟩ := ih h.tail hfollow.2 hsym
      rw [h.next] at hlow
      exact ⟨by omega, hhigh⟩

/-- Words that can be counted can be counted from any of them on. -/
theorem append {xs ys : List Symbol} (h : Counted a (xs ++ ys)) (hfollow : Follow a xs z) :
    Counted z ys := by
  induction xs generalizing a with
  | nil =>
    obtain rfl := hfollow
    exact h
  | cons x xs ih => exact ih h.tail hfollow.2

/-- A word lies between the ends exactly if it is one of a symbol. -/
theorem covered (h : Counted a syms) (hfollow : Follow a syms z) (i : Int) :
    a.toInt ≤ i ∧ i < z.toInt ↔
      ∃ sym ∈ syms, sym.address.toInt ≤ i ∧ i < sym.address.toInt + sym.words.toInt := by
  induction syms generalizing a with
  | nil =>
    obtain rfl := hfollow
    simp
  | cons x syms ih =>
    have hhead := h.sizes x List.mem_cons_self
    have hlast := h.tail.last hfollow.2
    have hrest := sum_nonneg h.tail.sizes
    have htail := ih h.tail hfollow.2
    rw [h.next] at htail hlast
    simp only [List.mem_cons, exists_eq_or_imp, ← htail, hfollow.1]
    omega

/-- The words of symbols lie apart. -/
theorem apart (h : Counted a syms) (hfollow : Follow a syms z) :
    syms.Pairwise fun x y => x.address.toInt + x.words.toInt ≤ y.address.toInt := by
  induction syms generalizing a with
  | nil => exact .nil
  | cons x syms ih =>
    refine List.pairwise_cons.mpr ⟨fun y hy => ?_, ih h.tail hfollow.2⟩
    rw [hfollow.1, ← h.next]
    exact (h.tail.within hfollow.2 hy).1

end Counted

/-- If the words cannot be counted, some symbol goes past the last address. -/
theorem exists_past {a z : Int64} {syms : List Symbol} (hfollow : Follow a syms z)
    (hstart : 0 ≤ a.toInt) (hsizes : ∀ sym ∈ syms, 0 ≤ sym.words.toInt)
    (htotal : 2 ^ 63 ≤ a.toInt + (syms.map fun sym => sym.words.toInt).sum) :
    ∃ sym ∈ syms, sym.address.toInt ≤ 2 ^ 63 - 1 ∧
      2 ^ 63 - 1 < sym.address.toInt + sym.words.toInt := by
  have hhigh := a.toInt_lt
  induction syms generalizing a with
  | nil =>
    simp at htotal
    omega
  | cons x syms ih =>
    have hhead := hsizes x List.mem_cons_self
    rw [List.map_cons, List.sum_cons] at htotal
    by_cases hpast : 2 ^ 63 ≤ a.toInt + x.words.toInt
    · refine ⟨x, List.mem_cons_self, ?_⟩
      rw [hfollow.1]
      omega
    · have hnext : (a + x.words).toInt = a.toInt + x.words.toInt :=
        toInt_add_of_fits (by omega) (by omega)
      obtain ⟨sym, hmem, hsym⟩ := ih hfollow.2 (by omega)
        (fun y hy => hsizes y (List.mem_cons_of_mem _ hy)) (by omega) (a + x.words).toInt_lt
      exact ⟨sym, List.mem_cons_of_mem _ hmem, hsym⟩

/-! ## Frames -/

/-- The declared symbols tile a frame.  It ends at the address of the next variable, the symbols
that take words lie apart in the order of their declaration, and each word above the mark belongs to
one of them.  The place of a result lies in the mark. -/
structure Tiled (s : Scope) (syms : List Symbol) : Prop where
  size : s.nextVar.toInt = (markSize : Nat) + s.paramWords.toInt + s.varWords.toInt
  apart : (dataOf syms).Pairwise fun x y => x.address.toInt + x.words.toInt ≤ y.address.toInt
  covered : ∀ i : Int, (markSize : Nat) ≤ i ∧ i < s.nextVar.toInt ↔
    ∃ sym ∈ dataOf syms, sym.address.toInt ≤ i ∧ i < sym.address.toInt + sym.words.toInt
  result : ∀ sym ∈ syms, sym.kind = .result →
    0 ≤ sym.address.toInt ∧ sym.address.toInt < (markSize : Nat)

section

variable {s : Scope} {ds : List Declaration} {syms : List Symbol}

/-- Declarations whose total fits can be counted from the mark on. -/
theorem counted_of_total (h : PlacesAll {} ds syms s) (hsizes : ∀ d ∈ ds, 0 ≤ d.words.toInt)
    (htotal : (markSize : Nat) + totalWords ds < 2 ^ 63) :
    Counted (Int64.ofNat markSize) (dataOf syms) where
  start := by decide
  sizes := h.words_nonneg hsizes
  total := by
    rw [h.words]
    exact htotal

/-- The variables and typed constants can be counted from the end of the parameters on. -/
theorem counted_locals (h : PlacesAll {} ds syms s) (hfirst : ParamsFirst ds)
    (hcounted : Counted (Int64.ofNat markSize) (dataOf syms)) :
    Counted s.nextParam (localsOf syms) := by
  rw [h.dataOf_eq_append hfirst] at hcounted
  exact hcounted.append h.follow_params

private theorem words_paramsOf (h : PlacesAll {} ds syms s) :
    (paramsOf syms).map (fun sym => sym.words.toInt) =
      (parametersOf ds).map fun p => p.words.toInt := by
  rw [← h.parameters, List.map_map]
  rfl

private theorem toInt_nextParam (h : PlacesAll {} ds syms s)
    (hcounted : Counted (Int64.ofNat markSize) (dataOf syms)) :
    s.nextParam.toInt = (markSize : Nat) + ((parametersOf ds).map fun p => p.words.toInt).sum := by
  rw [← words_paramsOf h]
  exact (hcounted.sublist (paramsOf_sublist syms)).last h.follow_params

/-- The words of the parameters are added up without wrapping. -/
theorem toInt_paramWords (h : PlacesAll {} ds syms s)
    (hcounted : Counted (Int64.ofNat markSize) (dataOf syms)) :
    s.paramWords.toInt = ((parametersOf ds).map fun p => p.words.toInt).sum := by
  have hnext := toInt_nextParam h hcounted
  have hpos := sum_nonneg (hcounted.sublist (paramsOf_sublist syms)).sizes
  rw [words_paramsOf h] at hpos
  have hhigh := s.nextParam.toInt_lt
  have hmark : (Int64.ofNat markSize).toInt = (markSize : Nat) := rfl
  have heq : s.paramWords = s.nextParam - Int64.ofNat markSize := by
    rw [Scope.nextParam, Int64.add_comm, Int64.add_sub_cancel]
  rw [heq, toInt_sub_of_fits] <;> omega

/-- The words of the variables and typed constants are added up without wrapping. -/
theorem toInt_varWords (h : PlacesAll {} ds syms s) (hfirst : ParamsFirst ds)
    (hcounted : Counted s.nextParam (localsOf syms)) :
    s.varWords.toInt = ((localsOf syms).map fun sym => sym.words.toInt).sum := by
  have hlast := hcounted.last (h.follow_locals hfirst)
  have hstart := hcounted.start
  have hpos := sum_nonneg hcounted.sizes
  have hhigh := s.nextVar.toInt_lt
  have heq : s.varWords = s.nextVar - s.nextParam := by
    rw [Scope.nextVar, Scope.nextParam, Int64.add_comm _ s.varWords, Int64.add_sub_cancel]
  rw [heq, toInt_sub_of_fits] <;> omega

/-- The end of the variables is computed without wrapping. -/
theorem toInt_nextVar (h : PlacesAll {} ds syms s) (hfirst : ParamsFirst ds)
    (hcounted : Counted (Int64.ofNat markSize) (dataOf syms)) :
    s.nextVar.toInt = (markSize : Nat) + s.paramWords.toInt + s.varWords.toInt := by
  have hlocals := counted_locals h hfirst hcounted
  rw [hlocals.last (h.follow_locals hfirst), toInt_varWords h hfirst hlocals,
    toInt_nextParam h hcounted, toInt_paramWords h hcounted]

/-- A frame is tiled exactly if its words can be counted in 64 bits. -/
theorem tiled_iff (h : PlacesAll {} ds syms s) (hfirst : ParamsFirst ds)
    (hsizes : ∀ d ∈ ds, 0 ≤ d.words.toInt) :
    s.Tiled syms ↔ (markSize : Nat) + totalWords ds < 2 ^ 63 := by
  have hfollow := h.follow_data hfirst
  constructor
  · intro htiled
    refine Int.not_le.mp fun hlarge => ?_
    -- the first symbol whose end wraps has the last address, which no frame has
    obtain ⟨sym, hmem, hlow, hhigh⟩ := exists_past hfollow (by decide) (h.words_nonneg hsizes)
      (by rw [h.words]; exact hlarge)
    have hend := ((htiled.covered (2 ^ 63 - 1)).mpr ⟨sym, hmem, hlow, hhigh⟩).2
    have hlast := s.nextVar.toInt_lt
    omega
  · intro htotal
    have hcounted := counted_of_total h hsizes htotal
    refine ⟨toInt_nextVar h hfirst hcounted, hcounted.apart hfollow, hcounted.covered hfollow, ?_⟩
    intro sym hmem hkind
    rw [h.result_address sym hmem hkind]
    decide

/-- A signature with the same parameters counts the words of a scope's parameters. -/
theorem paramWords_of_signature (h : PlacesAll {} ds syms s) (result : Ty) :
    (Ty.subprogram (parametersOf ds) result).paramWords = s.paramWords :=
  h.paramWords

/-- A parameter lies behind the words of the parameters before it. -/
theorem param_address (h : PlacesAll {} ds syms s)
    (hcounted : Counted (Int64.ofNat markSize) (dataOf syms)) {k : Nat} {sym : Symbol}
    (hk : (paramsOf syms)[k]? = some sym) :
    sym.address.toInt =
      (markSize : Nat) + (((parametersOf ds).take k).map fun p => p.words.toInt).sum := by
  have haddress := (hcounted.sublist (paramsOf_sublist syms)).address h.follow_params hk
  rw [haddress, List.map_take, words_paramsOf h, List.map_take]
  rfl

end

end Scope

end PCode
