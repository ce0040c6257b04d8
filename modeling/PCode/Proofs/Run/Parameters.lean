import PCode.Proofs.Machine.Shifts
import PCode.Proofs.Run.Entry
import PCode.Proofs.Tree.Tiling

/-!
# Parameters in a frame

A caller pushes a mark, then the words of its arguments from left to right, and
calls.  The mark becomes the base of the new frame.  So an argument lies behind
the mark and the arguments before it, and this is where the scope of the
subprogram has put the parameter.

Main definitions and results:

- `Machine.callWith`: a call as its caller makes it.
- `Machine.exists_callWith`: the argument words stand behind the mark of the new frame.
- `Scope.Receives`: arguments are found at the addresses of the parameters.
- `declarations_tile_frame`: declarations tile a frame, and parameters find their arguments.
-/

namespace PCode

/-! ## Calls -/

namespace Machine

variable {b m : Machine} {a : Nat} {ws : List Value}

private theorem Stacked.pushAll (h : Stacked b a ws m) (hb : b.Sound) (vs : List Value)
    (hroom : (ws.length : Int) + vs.length ≤ b.room) :
    ∃ m', Machine.pushAll vs m = .ok () m' ∧ Stacked b a (ws ++ vs) m' := by
  induction vs generalizing ws m with
  | nil => exact ⟨m, rfl, by rwa [List.append_nil]⟩
  | cons v vs ih =>
    rw [List.length_cons] at hroom
    obtain ⟨m₁, hpush, h₁⟩ := h.push hb (by omega) v
    obtain ⟨m₂, hall, h₂⟩ := ih h₁ (by rw [List.length_append, List.length_singleton]; omega)
    rw [List.append_assoc] at h₂
    exact ⟨m₂, (bind_eq hpush).trans hall, h₂⟩

/-- A call as its caller makes it: a mark, then the words of the arguments, then the call. -/
def callWith (level : Nat) (words : List Value) (argumentWords target : Nat) : Instr Unit := do
  perform .mst level 0
  pushAll words
  perform .cup argumentWords target

/-- The argument words stand behind the mark of the new frame. -/
theorem exists_callWith {level : Nat} {link : Int64} {words : List Value} (hm : m.Sound)
    (hlink : frame level m = .ok link m) (hroom : (markSize : Nat) + (words.length : Int) ≤ m.room)
    (target : Nat) :
    ∃ m', callWith level words words.length target m = .ok () m' ∧ m'.mp = m.sp ∧
      WordsAt m'.store (m.sp.toNatClampNeg + markSize) words := by
  have hbase := hm.base
  obtain ⟨a, ha⟩ : ∃ a : Nat, m.pc = Int64.ofNat a :=
    ⟨m.pc.toBitVec.toNat, Int64.toBitVec_inj.mp (by simp)⟩
  have h₀ : Stacked m a [] m := .refl hm ha
  have hmark : markSize = 5 := rfl
  obtain ⟨m₁, hpush, h₁⟩ := h₀.pushAll hm
    [.ofInt 0, .ofInt link, .ofInt m.mp, .ofInt m.ep, .ofInt 0] (by simp; omega)
  obtain ⟨m₂, hwords, h₂⟩ := h₁.pushAll hm words (by simp; omega)
  have hsp : m₂.sp.toInt = m.sp.toInt + markSize + words.length := by
    rw [h₂.sp]
    simp
    omega
  have hcall := callUser_eq (h₂.sound hm) (by rw [h₂.image]; exact hbase) hsp target
  have hmst : perform .mst level 0 m = .ok () m₁ := (bind_eq hlink).trans hpush
  refine ⟨m₂.called m.sp target, ?_, rfl, fun j v hj => ?_⟩
  · exact (bind_eq hmst).trans ((bind_eq hwords).trans hcall)
  · -- the call writes into the mark, below the words
    have hslot : (m.sp + Int64.ofNat markReturnAddress).toNatClampNeg ≠
        m.sp.toNatClampNeg + markSize + j := by
      have hreturn : (Int64.ofNat markReturnAddress).toInt = 4 := rfl
      have htop := hm.top
      have hsize := hm.size
      unfold room at hroom
      have hadd : (m.sp + Int64.ofNat markReturnAddress).toInt = m.sp.toInt + 4 := by
        rw [toInt_add_of_fits] <;> omega
      simp only [toNatClampNeg_eq]
      omega
    simp only [called, setWord, Array.getElem?_setIfInBounds_ne hslot]
    rw [Nat.add_assoc]
    refine h₂.words (markSize + j) v ?_
    rw [List.getElem?_append_right (by simp; omega)]
    simpa [hmark] using hj

/-! ## Arguments -/

private theorem wordsAt_flatten {store : Array Value} {a k : Nat} {args : List (List Value)}
    {ws : List Value} (h : WordsAt store a args.flatten) (hk : args[k]? = some ws) :
    WordsAt store (a + ((args.take k).map List.length).sum) ws := by
  induction args generalizing a k with
  | nil => simp at hk
  | cons arg args ih =>
    obtain ⟨hfirst, hrest⟩ := wordsAt_append.mp (by rwa [List.flatten_cons] at h)
    cases k with
    | zero =>
      obtain rfl := Option.some.inj hk
      exact hfirst
    | succ k =>
      rw [List.take_succ_cons, List.map_cons, List.sum_cons, ← Nat.add_assoc]
      exact ih hrest hk

private theorem toInt_sum_lengths (args : List (List Value)) :
    (((args.map List.length).sum : Nat) : Int) = (args.map fun ws => (ws.length : Int)).sum := by
  induction args with
  | nil => rfl
  | cons arg args ih =>
    rw [List.map_cons, List.sum_cons, List.map_cons, List.sum_cons, ← ih]
    omega

end Machine

/-! ## Parameters -/

namespace Scope

open Machine

/-- Arguments are found at the addresses of the parameters.  Whenever a call is made with as many
words for each argument as its parameter has, where there is room for them, the words of each
argument stand in the new frame from the address of its parameter on. -/
def Receives (s : Scope) (params : List (Parameter Ty)) (syms : List Symbol) : Prop :=
  ∀ (args : List (List Value)) (m : Machine) (level target : Nat) (link : Int64),
    (args.map fun ws => (ws.length : Int)) = (params.map fun p => p.words.toInt) →
    m.Sound → frame level m = .ok link m → (markSize : Nat) + s.paramWords.toInt ≤ m.room →
    ∃ m', callWith level args.flatten s.paramWords.toNatClampNeg target m = .ok () m' ∧
      m'.mp = m.sp ∧
      ∀ (k : Nat) (sym : Symbol) (ws : List Value),
        (paramsOf syms)[k]? = some sym → args[k]? = some ws →
        WordsAt m'.store (m'.mp + sym.address).toNatClampNeg ws

/-- A scope puts its parameters where a caller leaves the arguments. -/
theorem receives {s : Scope} {ds : List Declaration} {syms : List Symbol}
    (h : PlacesAll {} ds syms s) (hcounted : Counted (Int64.ofNat markSize) (dataOf syms)) :
    s.Receives (parametersOf ds) syms := by
  intro args m level target link hwords hm hlink hroom
  have hparams := toInt_paramWords h hcounted
  have hlength : ((args.flatten.length : Nat) : Int) = s.paramWords.toInt := by
    rw [List.length_flatten, toInt_sum_lengths, hwords, hparams]
  have hcount : s.paramWords.toNatClampNeg = args.flatten.length := by
    rw [toNatClampNeg_eq]
    omega
  obtain ⟨m', hcall, hmp, hstand⟩ := exists_callWith hm hlink
    (by rw [hlength]; exact hroom) target
  refine ⟨m', by rw [hcount]; exact hcall, hmp, fun k sym ws hsym hws => ?_⟩
  have haddress := param_address h hcounted hsym
  have hbefore : ((((args.take k).map List.length).sum : Nat) : Int) =
      (((parametersOf ds).take k).map fun p => p.words.toInt).sum := by
    rw [toInt_sum_lengths, List.map_take, hwords, List.map_take]
  have hwithin : ((args.take k).map List.length).sum ≤ args.flatten.length := by
    have hsplit : (args.take k).flatten ++ (args.drop k).flatten = args.flatten := by
      rw [← List.flatten_append, List.take_append_drop]
    rw [← List.length_flatten, ← hsplit, List.length_append]
    exact Nat.le_add_right ..
  have hplace : (m'.mp + sym.address).toNatClampNeg =
      m.sp.toNatClampNeg + markSize + ((args.take k).map List.length).sum := by
    have hbase := hm.base
    have htop := hm.top
    have hsize := hm.size
    unfold room at hroom
    have hadd : (m.sp + sym.address).toInt = m.sp.toInt + sym.address.toInt := by
      rw [toInt_add_of_fits] <;> omega
    rw [hmp, toNatClampNeg_eq, toNatClampNeg_eq]
    omega
  rw [hplace]
  exact wordsAt_flatten hstand hws

end Scope

/-- Declarations tile the frame of their scope.  If no parameter comes after a variable and no size
is negative, all declarations succeed; those that take words tile the frame above the mark exactly
if its words can be counted in 64 bits.  A signature with the same parameters counts their words as
the scope does, each parameter lies behind the words of the parameters before it, and this is where
a caller leaves the argument. -/
theorem declarations_tile_frame {ds : List Declaration}
    (hlayout : ∀ d ∈ ds, d.hasLayout = true) (hsizes : ∀ d ∈ ds, 0 ≤ d.words.toInt)
    (hfirst : ParamsFirst ds) :
    ∃ (syms : List Symbol) (s : Scope), ({} : Scope).declareAll ds = .ok (syms, s) ∧
      (∀ kind symbol body nested, (s.subprogram kind symbol body nested).frameSize = s.nextVar) ∧
      (∀ result, (Ty.subprogram (parametersOf ds) result).paramWords = s.paramWords) ∧
      (Scope.paramsOf syms).map (fun sym => ⟨sym.name, sym.type, sym.byRef⟩) = parametersOf ds ∧
      (s.Tiled syms ↔ (markSize : Nat) + totalWords ds < 2 ^ 63) ∧
      ((markSize : Nat) + totalWords ds < 2 ^ 63 →
        (∀ (k : Nat) (sym : Symbol), (Scope.paramsOf syms)[k]? = some sym →
          sym.address.toInt =
            (markSize : Nat) + (((parametersOf ds).take k).map fun p => p.words.toInt).sum) ∧
        s.Receives (parametersOf ds) syms) := by
  obtain ⟨syms, s, hdeclare⟩ := ({} : Scope).exists_declareAll hlayout
  have hplaces := Scope.placesAll_of_declareAll hdeclare
  refine ⟨syms, s, hdeclare, fun _ _ _ _ => rfl, Scope.paramWords_of_signature hplaces,
    hplaces.parameters, Scope.tiled_iff hplaces hfirst hsizes, fun htotal => ?_⟩
  have hcounted := Scope.counted_of_total hplaces hsizes htotal
  exact ⟨fun k sym hk => Scope.param_address hplaces hcounted hk, Scope.receives hplaces hcounted⟩

/-- Declarations of every kind, with a composite parameter, one by reference and a name that is
declared twice. -/
def mixedDeclarations : List Declaration :=
  [ .result 0 "f" .integer
  , .param 1 "n" .integer false
  , .param 2 "all" (.array [⟨0, 9⟩] .integer) true
  , .subprogram 3 "g" (.subprogram [] .void)
  , .param 4 "pair" (.array [⟨0, 1⟩] .integer) false
  , .var 5 "x" .real
  , .typedConst 6 "table" (.array [⟨1, 3⟩] .integer) #[.ofInt 1, .ofInt 2, .ofInt 3]
  , .var 7 "X" .integer ]

/-- The declarations of every kind tile their frame. -/
theorem declarations_tile_frame_mixed :
    (∀ d ∈ mixedDeclarations, d.hasLayout = true) ∧
    (∀ d ∈ mixedDeclarations, 0 ≤ d.words.toInt) ∧ ParamsFirst mixedDeclarations ∧
    ∃ (syms : List Symbol) (s : Scope), ({} : Scope).declareAll mixedDeclarations = .ok (syms, s) ∧
      s.Tiled syms ∧ s.Receives (parametersOf mixedDeclarations) syms := by
  have hlayout : ∀ d ∈ mixedDeclarations, d.hasLayout = true := by decide
  have hsizes : ∀ d ∈ mixedDeclarations, 0 ≤ d.words.toInt := by decide
  have hfirst : ParamsFirst mixedDeclarations := by unfold ParamsFirst; decide
  have htotal : (markSize : Nat) + totalWords mixedDeclarations < 2 ^ 63 := by decide
  obtain ⟨syms, s, hdeclare, -, -, -, htiled, hreceives⟩ :=
    declarations_tile_frame hlayout hsizes hfirst
  exact ⟨hlayout, hsizes, hfirst, syms, s, hdeclare, htiled.mpr htotal, (hreceives htotal).2⟩

/-- Two variables that together have more words than can be counted, and one behind them. -/
def hugeDeclarations : List Declaration :=
  [ .var 0 "huge" (.array [⟨0, 9223372036854775805⟩] .integer)
  , .var 1 "huger" (.array [⟨0, 9223372036854775806⟩] .integer)
  , .var 2 "x" .integer ]

/-- The variable behind them lies in the mark, at the place of the dynamic link. -/
theorem huge_variables_reach_mark :
    (∀ d ∈ hugeDeclarations, d.hasLayout = true) ∧
    (∀ d ∈ hugeDeclarations, 0 ≤ d.words.toInt) ∧ ParamsFirst hugeDeclarations ∧
    ∃ (syms : List Symbol) (s : Scope), ({} : Scope).declareAll hugeDeclarations = .ok (syms, s) ∧
      (∃ sym ∈ syms, sym.kind = .data ∧ sym.words = 1 ∧
        sym.address = Int64.ofNat markDynamicLink) ∧
      ¬ s.Tiled syms := by
  refine ⟨by decide, by decide, by unfold ParamsFirst; decide, _, _, rfl,
    ⟨_, .tail _ (.tail _ (.head _)), rfl, rfl, by decide⟩, fun htiled => ?_⟩
  have hcovered := (htiled.covered 2).mpr ⟨_, .tail _ (.tail _ (.head _)), by decide, by decide⟩
  exact absurd hcovered.1 (by decide)

end PCode
