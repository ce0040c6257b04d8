import PCode.Proofs.Tree.Tiling

/-!
# Places of declared variables

A scope gives every variable and every typed constant the words after those of
the one declared before it, above the parameters.  The addresses are computed in
64 bits.  If no size is negative and the frame fits in a word, the places of two
declarations lie apart, and together they are the frame above the parameters.

Main definitions and results:

- `Scope.Declared`: the declarations that have led to a scope.
- `Scope.Fits`: no declared size is negative, and their sum fits.
- `Scope.Declared.toInt_nextVar`: the declared symbols are what the frame has above the parameters.
- `Scope.Declared.typedConsts_apart`: the words of two typed constants lie apart.
-/

namespace PCode.Scope

/-- The symbols of declared typed constants with their data. -/
def constantsOf : List Declaration → List Symbol → List (Symbol × Array Value)
  | .typedConst _ _ _ data :: ds, sym :: syms => (sym, data) :: constantsOf ds syms
  | _ :: ds, _ :: syms => constantsOf ds syms
  | _, _ => []

/-- Declarations that have led to a scope, parameters before variables: the symbols with words above
the parameters and the typed constants among them, in the order of their declaration.  A typed
constant may be given its position later. -/
def Declared (s : Scope) (locals : List Symbol) (tcs : List TypedConst) : Prop :=
  ∃ ds syms, ({} : Scope).declareAll ds = .ok (syms, s) ∧ ParamsFirst ds ∧ locals = localsOf syms ∧
    tcs.map (fun tc => (tc.symbol, tc.data)) = constantsOf ds syms

/-- The words of symbols, in integers. -/
def wordsOf (locals : List Symbol) : Int := (locals.map fun sym => sym.type.size.toInt).sum

/-- No size of a declaration is negative, the frame fits in a word, and no typed constant has more
words of data than its type. -/
structure Fits (s : Scope) (locals : List Symbol) (tcs : List TypedConst) : Prop where
  params : 0 ≤ s.paramWords.toInt
  sizes : ∀ sym ∈ locals, 0 ≤ sym.type.size.toInt
  frame : (markSize : Nat) + s.paramWords.toInt + wordsOf locals < 2 ^ 63
  data : ∀ tc ∈ tcs, (tc.data.size : Int) ≤ tc.symbol.type.size.toInt

/-- The symbols of the typed constants are among those declared, in the same order. -/
theorem PlacesAll.constantsOf_sublist {s s' : Scope} {ds : List Declaration} {syms : List Symbol}
    (h : PlacesAll s ds syms s') :
    ((constantsOf ds syms).map Prod.fst).Sublist (localsOf syms) := by
  induction h with
  | nil s => exact .slnil
  | @cons s s₁ s' d ds sym syms hplaces _ ih =>
    rw [hplaces.localsOf_cons]
    cases d with
    | typedConst => exact ih.cons_cons sym
    | var => exact ih.cons sym
    | param | result | subprogram => exact ih

namespace Declared

variable {s : Scope} {locals : List Symbol} {tcs : List TypedConst}

/-- The symbols of the typed constants are among those with words above the parameters. -/
theorem symbols_sublist (h : s.Declared locals tcs) :
    (tcs.map TypedConst.symbol).Sublist locals := by
  obtain ⟨ds, syms, hdeclare, -, rfl, hconstants⟩ := h
  have hsublist := (placesAll_of_declareAll hdeclare).constantsOf_sublist
  rwa [← hconstants, List.map_map] at hsublist

/-- The declared symbols lie one after another, from the parameters to the end of the frame. -/
theorem follow (h : s.Declared locals tcs) : Follow s.nextParam locals s.nextVar := by
  obtain ⟨ds, syms, hdeclare, hfirst, rfl, -⟩ := h
  exact (placesAll_of_declareAll hdeclare).follow_locals hfirst

/-- The declared symbols take the words of their types. -/
theorem words_eq (h : s.Declared locals tcs) : ∀ sym ∈ locals, sym.words = sym.type.size := by
  obtain ⟨ds, syms, hdeclare, -, rfl, -⟩ := h
  exact (placesAll_of_declareAll hdeclare).words_localsOf

/-- The words of the declared symbols are those of their types. -/
theorem sum_words (h : s.Declared locals tcs) :
    (locals.map fun sym => sym.words.toInt).sum = wordsOf locals :=
  congrArg List.sum (List.map_congr_left fun sym hsym => by rw [h.words_eq sym hsym])

/-- The declared symbols have no negative number of words. -/
theorem wordsOf_nonneg (h : s.Declared locals tcs) (hfits : s.Fits locals tcs) :
    0 ≤ wordsOf locals := by
  rw [← h.sum_words]
  exact sum_nonneg fun sym hsym => h.words_eq sym hsym ▸ hfits.sizes sym hsym

/-- The end of the parameters is computed without wrapping. -/
theorem toInt_nextParam (h : s.Declared locals tcs) (hfits : s.Fits locals tcs) :
    s.nextParam.toInt = (markSize : Nat) + s.paramWords.toInt := by
  have hparams := hfits.params
  have hframe := hfits.frame
  have hnonneg := h.wordsOf_nonneg hfits
  have hmark : (Int64.ofNat markSize).toInt = (markSize : Nat) := rfl
  rw [nextParam, toInt_add_of_fits] <;> omega

/-- The declared symbols can be counted from the end of the parameters on. -/
theorem counted (h : s.Declared locals tcs) (hfits : s.Fits locals tcs) :
    Counted s.nextParam locals where
  start := by
    have hparams := hfits.params
    rw [h.toInt_nextParam hfits]
    omega
  sizes sym hsym := h.words_eq sym hsym ▸ hfits.sizes sym hsym
  total := by
    rw [h.toInt_nextParam hfits, h.sum_words]
    exact hfits.frame

/-- The declared symbols are all that the frame has above the parameters. -/
theorem toInt_nextVar (h : s.Declared locals tcs) (hfits : s.Fits locals tcs) :
    s.nextVar.toInt = (markSize : Nat) + s.paramWords.toInt + wordsOf locals := by
  rw [(h.counted hfits).last h.follow, h.sum_words, h.toInt_nextParam hfits]

/-- The words of a typed constant lie above the parameters, in the frame. -/
theorem typedConst_within (h : s.Declared locals tcs) (hfits : s.Fits locals tcs) {tc : TypedConst}
    (htc : tc ∈ tcs) :
    (markSize : Nat) + s.paramWords.toInt ≤ tc.symbol.address.toInt ∧
      tc.symbol.address.toInt + tc.data.size ≤
        (markSize : Nat) + s.paramWords.toInt + wordsOf locals := by
  have hmem : tc.symbol ∈ locals := List.Sublist.mem (List.mem_map_of_mem htc) h.symbols_sublist
  obtain ⟨hlow, hhigh⟩ := (h.counted hfits).within h.follow hmem
  rw [h.toInt_nextParam hfits] at hlow
  rw [h.words_eq _ hmem, h.toInt_nextVar hfits] at hhigh
  have hdata := hfits.data tc htc
  exact ⟨hlow, by omega⟩

/-- The words of two typed constants lie apart. -/
theorem typedConsts_apart (h : s.Declared locals tcs) (hfits : s.Fits locals tcs) :
    tcs.Pairwise fun x y =>
      x.symbol.address.toInt + (x.data.size : Int) ≤ y.symbol.address.toInt := by
  have hsymbols := ((h.counted hfits).apart h.follow).sublist h.symbols_sublist
  refine (List.pairwise_map.mp hsymbols).imp_of_mem fun {x _} hx _ hle => ?_
  have hdata := hfits.data x hx
  rw [h.words_eq _ (List.Sublist.mem (List.mem_map_of_mem hx) h.symbols_sublist)] at hle
  omega

end Declared

end PCode.Scope
