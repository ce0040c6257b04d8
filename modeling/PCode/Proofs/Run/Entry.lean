import PCode.Proofs.Codegen.Blocks
import PCode.Proofs.Machine.Passing
import PCode.Proofs.Tree.Declared

/-!
# Entry of a subprogram

The first instruction of a subprogram makes its frame, with zero in every word
above the parameters.  The instructions that follow copy the words of its typed
constants, one by one, from where they stand in the store.  The source addresses
were given when the subprogram was generated, after all subprograms before it,
and the places come from its scope.

Main definitions and results:

- `WordsAt`: words stand in a store one after another.
- `Machine.Runs`: code is executed once from its first instruction to its last.
- `Machine.runs_enter`: a frame is made.
- `Machine.runs_initialiseAllCode`: typed constants are copied to their places.
- `entry_initialises_frame`: every word of a new frame is initialised.
-/

namespace PCode

open Gen

/-! ## Words in a store -/

/-- Words stand in a store from an address on, one after another. -/
def WordsAt (store : Array Value) (a : Nat) (ws : List Value) : Prop :=
  ∀ (j : Nat) (v : Value), ws[j]? = some v → store[a + j]? = some v

section

variable {store store' : Array Value} {a : Nat}

private theorem wordsAt_nil : WordsAt store a [] := fun j v h => by simp at h

private theorem wordsAt_cons {v : Value} {ws : List Value} :
    WordsAt store a (v :: ws) ↔ store[a]? = some v ∧ WordsAt store (a + 1) ws := by
  constructor
  · intro h
    refine ⟨h 0 v rfl, fun j w hj => ?_⟩
    have hnext := h (j + 1) w (by simpa using hj)
    rwa [show a + (j + 1) = a + 1 + j by omega] at hnext
  · rintro ⟨hfirst, hrest⟩ j w hj
    cases j with
    | zero =>
      obtain rfl : v = w := by simpa using hj
      exact hfirst
    | succ j =>
      rw [show a + (j + 1) = a + 1 + j by omega]
      exact hrest j w (by simpa using hj)

/-- Words stand one after another if their parts do. -/
theorem wordsAt_append {us ws : List Value} :
    WordsAt store a (us ++ ws) ↔ WordsAt store a us ∧ WordsAt store (a + us.length) ws := by
  induction us generalizing a with
  | nil => simp [wordsAt_nil]
  | cons u us ih =>
    rw [List.cons_append, wordsAt_cons, wordsAt_cons, ih, and_assoc, List.length_cons,
      show a + 1 + us.length = a + (us.length + 1) by omega]

/-- Words stand where another store has the same. -/
theorem WordsAt.congr {ws : List Value} (h : WordsAt store a ws)
    (hsame : ∀ x, a ≤ x → x < a + ws.length → store'[x]? = store[x]?) : WordsAt store' a ws := by
  intro j v hj
  have hlt := (List.getElem?_eq_some_iff.mp hj).1
  rw [hsame (a + j) (by omega) (by omega)]
  exact h j v hj

end

namespace Machine

variable {b b' b₁ : Machine} {k : Linking} {a : Nat}

/-! ## Code that is executed once -/

/-- In as many steps as there are items, every machine at the first comes to the address after the
last, with nothing pushed. -/
def Runs (b : Machine) (a : Nat) (items : List Item) (b' : Machine) : Prop :=
  ∀ m, Stacked b a [] m →
    ∃ m', stepSingly items.length m = .ok () m' ∧ Stacked b' (a + items.length) [] m'

private theorem runs_nil (b : Machine) (a : Nat) : Runs b a [] b := fun m h => ⟨m, rfl, h⟩

private theorem Runs.append {is js : List Item} (h : Runs b a is b₁)
    (h' : Runs b₁ (a + is.length) js b') :
    Runs b a (is ++ js) b' := by
  intro m hm
  obtain ⟨m₁, hrun₁, hm₁⟩ := h m hm
  obtain ⟨m₂, hrun₂, hm₂⟩ := h' m₁ hm₁
  rw [Nat.add_assoc, ← List.length_append] at hm₂
  refine ⟨m₂, ?_, hm₂⟩
  rw [List.length_append, stepSingly_append hrun₁]
  exact hrun₂

/-! ## Frames -/

/-- The first instruction of a subprogram makes its frame: the words above the parameters are zero,
and all others as they were. -/
theorem runs_enter {size : Int64} (hb : b.Ready) (hit : At b k a (.op .ent 0 size))
    (hlow : b.sp.toInt ≤ b.mp.toInt + size.toInt) (hhigh : b.mp.toInt + size.toInt ≤ b.np.toInt) :
    ∃ store : Array Value,
      Runs b a [.op .ent 0 size] { b with sp := b.mp + size, store } ∧
      store.size = b.store.size ∧
      (∀ i : Nat, b.sp.toInt ≤ i → (i : Int) < b.mp.toInt + size.toInt →
        store[i]? = some (.ofInt 0)) ∧
      ∀ i : Nat, (i : Int) < b.sp.toInt ∨ b.mp.toInt + size.toInt ≤ i →
        store[i]? = b.store[i]? := by
  have hbase := hb.sound.base
  have htop := hb.sound.top
  have hsize := hb.sound.size
  have hsum : (b.mp + size).toInt = b.mp.toInt + size.toInt := by
    rw [toInt_add_of_fits] <;> omega
  have hcount : b.sp.toNatClampNeg + span b.sp (b.mp + size) = (b.mp + size).toNatClampNeg := by
    simp only [span, toNatClampNeg_eq]
    omega
  have hfits : (b.mp + size).toNatClampNeg ≤ b.store.size := by
    rw [toNatClampNeg_eq]
    omega
  have hsp : Int64.ofNat b.sp.toNatClampNeg = b.sp := ofNat_toNatClampNeg (by omega)
  obtain ⟨store, -, hstore, hzero, hsame⟩ :=
    fill_eq (m := b) (.ofInt 0) (span b.sp (b.mp + size)) (hcount ▸ hfits) hsize
  rw [hcount] at hzero hsame
  simp only [toNatClampNeg_eq] at hzero hsame
  refine ⟨store, ?_, hstore, fun i hi hlt => hzero i (by omega) (by omega),
    fun i hi => hsame i (by omega)⟩
  -- a machine at the instruction differs from the base in the gap only, and so does its new frame
  have hsteps : Steps b a [] { b with sp := b.mp + size, store } (a + 1) [] := by
    refine steps_op hb hit fun _ hnonneg m h => ?_
    have hmsp : m.sp = b.sp := Int64.toInt_inj.mp (by simpa using h.sp)
    obtain ⟨store', hfill, hstore', hzero', hsame'⟩ :=
      fill_eq (m := m) (.ofInt 0) (span b.sp (b.mp + size)) (a := b.sp.toNatClampNeg)
        (by rw [h.size]; exact hcount ▸ hfits) (by rw [h.size]; exact hsize)
    rw [hcount] at hzero' hsame'
    simp only [toNatClampNeg_eq] at hzero' hsame'
    refine ⟨{ m with sp := b.mp + size, store := store' }, ?_, ?_⟩
    · have hroom : ¬ m.np < b.mp + size := by
        rw [Int64.lt_iff_toInt_lt, h.np]
        omega
      rw [hsp] at hfill
      change enter 0 size.toNatClampNeg m = _
      simp only [enter, ofNat_toNatClampNeg hnonneg, h.mp, hmsp, if_neg hroom, hfill]
    · constructor
      · exact h.pc
      · simp
      · simp only [room, List.length_nil]
        omega
      · exact hstore'.trans (h.size.trans hstore.symm)
      · intro i v hv
        simp at hv
      · intro i hi
        simp only [toNatClampNeg_eq] at hi
        have hkept := h.kept i
        simp only [toNatClampNeg_eq] at hkept
        change store'[i]? = store[i]?
        by_cases hnew : b.sp.toInt.toNat ≤ i ∧ i < (b.mp + size).toInt.toNat
        · rw [hzero i hnew.1 hnew.2, hzero' i hnew.1 hnew.2]
        · rw [hsame i (by omega), hsame' i (by omega)]
          exact hkept (by omega)
      · exact h.rest
  intro m hm
  obtain ⟨m', hstep, hm'⟩ := hsteps m hm
  exact ⟨m', stepSingly_succ hstep 0, hm'⟩

/-! ## Typed constants -/

/-- The code that copies a word between two addresses, of which one is in the frame. -/
def copyCode (offset : Int64) (source : Nat) (code : UInt8) : List Item :=
  [.op .lda 0 offset, .const .pointer (.ofAddress (Int64.ofNat source)),
    .op .ldi (operandOfCode code) 0, .op .sti (operandOfCode code) 0]

/-- A word on the stack can be read and replaced. -/
theorem accessible_of_lt (hb : b.Sound) {x : Int64} {i : Nat} (hx : x.toInt = i)
    (hi : (i : Int) < b.sp.toInt) : b.memory.accessible x := by
  have hgap := hb.gap
  have htop := hb.top
  have hsize := hb.size
  refine ⟨?_, ?_, .inl ?_⟩
  · rw [Int64.le_iff_toInt_le, Int64.toInt_zero]
    omega
  · rw [Int64.lt_iff_toInt_lt]
    simp only [memory, Int64.toInt_ofNat_of_lt hsize]
    omega
  · rw [Int64.lt_iff_toInt_lt]
    simp only [memory]
    omega

/-- A word is copied. -/
theorem runs_copyCode {offset : Int64} {source place : Nat} {code : UInt8} {v : Value}
    (hb : b.Ready) (hk : k.constants = b.image.constants)
    (hcode : CodeAt b.image.code k a (copyCode offset source code)) (hroom : 2 ≤ b.room)
    (hsource : (source : Int) < b.sp.toInt) (hv : b.store[source]? = some v)
    (hoffset : (b.mp + offset).toInt = place) (hplace : (place : Int) < b.sp.toInt) :
    Runs b a (copyCode offset source code)
      { b with store := b.store.setIfInBounds place v } := by
  have hsize := hb.sound.size
  have hgap := hb.sound.gap
  have htop := hb.sound.top
  have hsourceInt : (Int64.ofNat source).toInt = source := toInt_ofNat (by omega)
  obtain ⟨hlda, hcode⟩ := codeAt_cons.mp hcode
  obtain ⟨hldc, hcode⟩ := codeAt_cons.mp hcode
  obtain ⟨hldi, hcode⟩ := codeAt_cons.mp hcode
  obtain ⟨hsti, -⟩ := codeAt_cons.mp hcode
  have hread : b.memory.read (Int64.ofNat source) = some v := by
    rw [Memory.read, if_pos (accessible_of_lt hb.sound hsourceInt hsource)]
    simp only [memory, toNatClampNeg_eq, hsourceInt, Int.toNat_natCast,
      Array.getD_eq_getD_getElem?, hv, Option.getD_some]
  have hwrite : b.memory.write (Value.ofAddress (b.mp + offset)).toInt v =
      some { b.memory with store := b.store.setIfInBounds place v } := by
    rw [Value.ofAddress, Value.toInt_ofInt, Memory.write,
      if_pos (accessible_of_lt hb.sound hoffset hplace)]
    simp only [memory, toNatClampNeg_eq, hoffset, Int.toNat_natCast]
  have hpush : Steps b a [] b (a + 1) [.ofAddress (b.mp + offset)] :=
    steps_lda hb hlda rfl (by simp; omega)
  obtain ⟨c, -, hsame, hconst⟩ :
      ∃ c, _ ∧ c.same (.ofInt (Int64.ofNat source)) = true ∧
        Steps b (a + 1) [.ofAddress (b.mp + offset)] b (a + 1 + 1)
          ([.ofAddress (b.mp + offset)] ++ [c]) :=
    steps_const hb hk (by simp) hldc (by simp; omega)
  have hload : Steps b (a + 1 + 1) ([.ofAddress (b.mp + offset)] ++ [c]) b (a + 1 + 1 + 1)
      ([.ofAddress (b.mp + offset)] ++ [v]) :=
    steps_ldi hb hldi (by rw [Value.toInt_of_same hsame]; exact hread)
  have hstore : Steps b (a + 1 + 1 + 1) ([] ++ [.ofAddress (b.mp + offset), v])
      { b with store := b.store.setIfInBounds place v } (a + 1 + 1 + 1 + 1) [] :=
    steps_sti hb hsti hwrite
  intro m hm
  obtain ⟨m₁, hstep₁, hm₁⟩ := hpush m hm
  obtain ⟨m₂, hstep₂, hm₂⟩ := hconst m₁ hm₁
  obtain ⟨m₃, hstep₃, hm₃⟩ := hload m₂ hm₂
  obtain ⟨m₄, hstep₄, hm₄⟩ := hstore m₃ hm₃
  refine ⟨m₄, ?_, hm₄⟩
  calc stepSingly 4 m = stepSingly 3 m₁ := stepSingly_succ hstep₁ 3
    _ = stepSingly 2 m₂ := stepSingly_succ hstep₂ 2
    _ = stepSingly 1 m₃ := stepSingly_succ hstep₃ 1
    _ = .ok () m₄ := stepSingly_succ hstep₄ 0

private theorem Ready.withStore (hb : b.Ready) {store : Array Value}
    (hsize : store.size = b.store.size) : ({ b with store } : Machine).Ready where
  sound := ⟨hb.sound.base, hb.sound.gap, by simpa [hsize] using hb.sound.top,
    by simpa [hsize] using hb.sound.size⟩
  running := hb.running
  bound := hb.bound

/-- The code of `initialiseWords` copies words from below a place on the stack to the place. -/
theorem runs_initialiseWordsCode (hb : b.Ready) (hk : k.constants = b.image.constants)
    {tc : TypedConst} {base place i : Nat} {codes : List UInt8} {ws : List Value}
    (hlength : codes.length = ws.length) (hroom : ws ≠ [] → 2 ≤ b.room)
    (hcode : CodeAt b.image.code k a (initialiseWordsCode tc base i codes))
    (haddress : 0 ≤ tc.symbol.address.toInt)
    (hfits : tc.symbol.address.toInt + (i + ws.length : Nat) < 2 ^ 63)
    (hplace : b.mp.toInt + tc.symbol.address.toInt = place)
    (hbelow : base + i + ws.length ≤ place) (hhigh : (place + i + ws.length : Nat) ≤ b.sp.toInt)
    (hwords : WordsAt b.store (base + i) ws) :
    ∃ store : Array Value, Runs b a (initialiseWordsCode tc base i codes) { b with store } ∧
      store.size = b.store.size ∧ WordsAt store (place + i) ws ∧
      ∀ x : Nat, x < place + i ∨ place + i + ws.length ≤ x → store[x]? = b.store[x]? := by
  induction codes generalizing b a i ws with
  | nil =>
    obtain rfl := List.length_eq_zero_iff.mp hlength.symm
    exact ⟨b.store, runs_nil b a, rfl, wordsAt_nil, fun _ _ => rfl⟩
  | cons code rest ih =>
    obtain _ | ⟨v, ws⟩ := ws
    · simp at hlength
    obtain ⟨hv, hothers⟩ := wordsAt_cons.mp hwords
    rw [List.length_cons] at hfits hbelow hhigh
    have hsize := hb.sound.size
    have hgap := hb.sound.gap
    have htop := hb.sound.top
    have hi : (Int64.ofNat i).toInt = i := toInt_ofNat (by omega)
    have hoffset : (tc.symbol.address + Int64.ofNat i).toInt = tc.symbol.address.toInt + i := by
      rw [toInt_add_of_fits] <;> omega
    have hsum : (b.mp + (tc.symbol.address + Int64.ofNat i)).toInt = (place + i : Nat) := by
      rw [toInt_add_of_fits] <;> omega
    have hend : (place + (i + 1) + ws.length : Nat) ≤ b.sp.toInt := by omega
    have hsplit : initialiseWordsCode tc base i (code :: rest) =
        copyCode (tc.symbol.address + Int64.ofNat i) (base + i) code ++
          initialiseWordsCode tc base (i + 1) rest := rfl
    rw [hsplit] at hcode ⊢
    obtain ⟨hword, hrest⟩ := codeAt_append.mp hcode
    have hfirst := runs_copyCode hb hk hword (hroom (by simp)) (by omega) hv hsum (by omega)
    -- the words still to be copied lie below the place that was written
    have hsource : WordsAt (b.store.setIfInBounds (place + i) v) (base + (i + 1)) ws :=
      hothers.congr fun x _ hx => Array.getElem?_setIfInBounds_ne (by omega)
    obtain ⟨store, hruns, hstore, hcopied, hsame⟩ :=
      ih (b := { b with store := b.store.setIfInBounds (place + i) v }) (hb.withStore (by simp)) hk
        (by simpa using hlength) (fun _ => hroom (by simp)) hrest (by omega) hplace (by omega) hend
        hsource
    refine ⟨store, hfirst.append hruns, by simpa using hstore, ?_, fun x hx => ?_⟩
    · refine wordsAt_cons.mpr ⟨?_, hcopied⟩
      rw [hsame _ (by omega)]
      exact Array.getElem?_setIfInBounds_self_of_lt (by omega)
    · rw [List.length_cons] at hx
      rw [hsame x (by omega)]
      exact Array.getElem?_setIfInBounds_ne (by omega)

/-- The place of a typed constant in a frame. -/
def placeOf (mp : Int64) (tc : TypedConst) : Nat := (mp.toInt + tc.symbol.address.toInt).toNat

/-- The words of a typed constant in a frame. -/
def Covers (mp : Int64) (tc : TypedConst) (x : Nat) : Prop :=
  placeOf mp tc ≤ x ∧ x < placeOf mp tc + tc.data.size

/-- A typed constant has a place on the stack, above an address. -/
structure HasPlace (b : Machine) (last : Nat) (tc : TypedConst) : Prop where
  address : 0 ≤ tc.symbol.address.toInt
  offsets : tc.symbol.address.toInt + tc.data.size < 2 ^ 63
  low : (last : Int) ≤ b.mp.toInt + tc.symbol.address.toInt
  high : b.mp.toInt + tc.symbol.address.toInt + tc.data.size ≤ b.sp.toInt

/-- Code that stands initialises a typed constant whose words of data are those of its type. -/
theorem codeAt_initialiseCode {code : Array Word} {tc : TypedConst} {base : Nat}
    (h : CodeAt code k a (initialiseCode tc base)) :
    ∃ codes, codes.length = tc.data.toList.length ∧
      initialiseCode tc base = initialiseWordsCode tc base 0 codes := by
  unfold initialiseCode at h ⊢
  split at h
  · rename_i codes hcodes
    split at h
    · rename_i hlength
      exact ⟨codes, hlength, by simp [hlength]⟩
    · obtain ⟨⟨w, -, hrefused⟩, -⟩ := codeAt_cons.mp h
      exact hrefused.elim
  · obtain ⟨⟨w, -, hrefused⟩, -⟩ := codeAt_cons.mp h
    exact hrefused.elim

/-- The words of a typed constant are copied to its place. -/
theorem runs_initialiseCode (hb : b.Ready) (hk : k.constants = b.image.constants)
    {tc : TypedConst} {base last : Nat} (hroom : tc.data.toList ≠ [] → 2 ≤ b.room)
    (hcode : CodeAt b.image.code k a (initialiseCode tc base)) (hlast : base + tc.data.size ≤ last)
    (hplace : HasPlace b last tc) (hwords : WordsAt b.store base tc.data.toList) :
    ∃ store : Array Value, Runs b a (initialiseCode tc base) { b with store } ∧
      store.size = b.store.size ∧ WordsAt store (placeOf b.mp tc) tc.data.toList ∧
      ∀ x : Nat, ¬ Covers b.mp tc x → store[x]? = b.store[x]? := by
  have hoffsets := hplace.offsets
  have hlow := hplace.low
  have hhigh := hplace.high
  have hof : b.mp.toInt + tc.symbol.address.toInt = placeOf b.mp tc := by
    unfold placeOf
    omega
  obtain ⟨codes, hlength, heq⟩ := codeAt_initialiseCode hcode
  rw [heq] at hcode ⊢
  obtain ⟨store, hruns, hsize, hcopied, hsame⟩ :=
    runs_initialiseWordsCode hb hk hlength hroom hcode hplace.address
      (by rw [Array.length_toList]; omega) hof (by rw [Array.length_toList]; omega)
      (by rw [Array.length_toList]; omega) hwords
  refine ⟨store, hruns, hsize, hcopied, fun x hx => hsame x ?_⟩
  unfold Covers at hx
  rw [Array.length_toList]
  omega

/-- The words of typed constants, one after another. -/
def wordsOf (tcs : List TypedConst) : List Value := tcs.flatMap (·.data.toList)

private theorem wordsOf_cons (tc : TypedConst) (tcs : List TypedConst) :
    wordsOf (tc :: tcs) = tc.data.toList ++ wordsOf tcs :=
  List.flatMap_cons

/-- The words of typed constants are copied to their places, which lie apart, and no other word
changes. -/
theorem runs_initialiseAllCode (hb : b.Ready) (hk : k.constants = b.image.constants)
    {tcs : List TypedConst} {base last : Nat} (hroom : wordsOf tcs ≠ [] → 2 ≤ b.room)
    (hcode : CodeAt b.image.code k a (initialiseAllCode base tcs))
    (hlast : base + (wordsOf tcs).length ≤ last) (hplaces : ∀ tc ∈ tcs, HasPlace b last tc)
    (hapart : tcs.Pairwise fun x y => ∀ i, Covers b.mp x i → ¬ Covers b.mp y i)
    (hwords : WordsAt b.store base (wordsOf tcs)) :
    ∃ store : Array Value, Runs b a (initialiseAllCode base tcs) { b with store } ∧
      store.size = b.store.size ∧
      (∀ tc ∈ tcs, WordsAt store (placeOf b.mp tc) tc.data.toList) ∧
      ∀ x : Nat, (∀ tc ∈ tcs, ¬ Covers b.mp tc x) → store[x]? = b.store[x]? := by
  induction tcs generalizing b a base with
  | nil => exact ⟨b.store, runs_nil b a, rfl, fun tc h => by simp at h, fun _ _ => rfl⟩
  | cons tc rest ih =>
    rw [wordsOf_cons] at hwords
    obtain ⟨hown, hothers⟩ := wordsAt_append.mp hwords
    rw [wordsOf_cons, List.length_append, Array.length_toList] at hlast
    obtain ⟨hclear, hapart'⟩ := List.pairwise_cons.mp hapart
    have hplace := hplaces tc List.mem_cons_self
    have hlow := hplace.low
    rw [initialiseAllCode] at hcode ⊢
    obtain ⟨hhead, hrest⟩ := codeAt_append.mp hcode
    obtain ⟨store₁, hruns₁, hsize₁, hcopied₁, hsame₁⟩ :=
      runs_initialiseCode hb hk (fun hne => hroom (by simp [wordsOf_cons, hne])) hhead (by omega)
        hplace hown
    -- the words of the others lie below the place, and still stand there
    have hsource : WordsAt store₁ (base + tc.data.size) (wordsOf rest) := by
      rw [Array.length_toList] at hothers
      refine hothers.congr fun x _ hx => hsame₁ x fun hcover => ?_
      unfold Covers placeOf at hcover
      omega
    obtain ⟨store, hruns, hsize, hcopied, hsame⟩ :=
      ih (b := { b with store := store₁ }) (hb.withStore hsize₁) hk
        (fun hne => hroom (by simp [wordsOf_cons, hne])) hrest (by omega)
        (fun x hx => let h := hplaces x (.tail _ hx); ⟨h.address, h.offsets, h.low, h.high⟩)
        hapart' hsource
    refine ⟨store, hruns₁.append hruns, hsize.trans hsize₁, ?_, ?_⟩
    · intro x hx
      rcases List.mem_cons.mp hx with rfl | hx
      · refine hcopied₁.congr fun i hi hlt => hsame i fun y hy => hclear y hy i ⟨hi, ?_⟩
        rwa [Array.length_toList] at hlt
      · exact hcopied x hx
    · intro x hx
      rw [hsame x fun y hy => hx y (.tail _ hy)]
      exact hsame₁ x (hx tc List.mem_cons_self)

end Machine

/-! ## Entry -/

/-- A subprogram that was made from a scope, with the typed constants that were declared in it, in
any order. -/
structure SubprogramHeader.MadeFrom (h : SubprogramHeader) (s : Scope) (tcs : List TypedConst) :
    Prop where
  params : h.paramWords = s.paramWords
  vars : h.varWords = s.varWords
  typedConsts : h.typedConsts.Perm tcs

section

variable {h : SubprogramHeader} {s : Scope} {locals : List Symbol} {tcs : List TypedConst}

/-- The frame of a subprogram that was made from a scope. -/
theorem SubprogramHeader.MadeFrom.toInt_frameSize (hmade : h.MadeFrom s tcs)
    (hdeclared : s.Declared locals tcs) (hfits : s.Fits locals tcs) :
    h.frameSize.toInt = (markSize : Nat) + s.paramWords.toInt + Scope.wordsOf locals := by
  rw [frameSize, hmade.params, hmade.vars]
  exact hdeclared.toInt_nextVar hfits

/-- Its typed constants lie in the frame, above the parameters. -/
theorem SubprogramHeader.MadeFrom.within (hmade : h.MadeFrom s tcs)
    (hdeclared : s.Declared locals tcs) (hfits : s.Fits locals tcs) {tc : TypedConst}
    (htc : tc ∈ h.typedConsts) :
    (markSize : Nat) + s.paramWords.toInt ≤ tc.symbol.address.toInt ∧
      tc.symbol.address.toInt + tc.data.size ≤ h.frameSize.toInt := by
  rw [hmade.toInt_frameSize hdeclared hfits]
  exact hdeclared.typedConst_within hfits (hmade.typedConsts.mem_iff.mp htc)

/-- Its typed constants lie apart in every frame. -/
theorem SubprogramHeader.MadeFrom.apart (hmade : h.MadeFrom s tcs)
    (hdeclared : s.Declared locals tcs) (hfits : s.Fits locals tcs) {mp : Int64}
    (hmp : 0 ≤ mp.toInt + (markSize : Nat) + s.paramWords.toInt) :
    h.typedConsts.Pairwise fun x y => ∀ i, Machine.Covers mp x i → ¬ Machine.Covers mp y i := by
  refine hmade.typedConsts.symm.pairwise ?_ fun hxy i hy hx => hxy i hx hy
  refine (hdeclared.typedConsts_apart hfits).imp_of_mem fun hx hy hle i hxi hyi => ?_
  have hxw := hdeclared.typedConst_within hfits hx
  have hyw := hdeclared.typedConst_within hfits hy
  unfold Machine.Covers Machine.placeOf at hxi hyi
  omega

end

/-- A machine that has just entered a subprogram, and one that has come to its body: the frame has
been made up to its top, the words of each typed constant stand at its place, every other word above
the parameters is zero, and nothing else has changed. -/
structure Machine.Entered (m m' : Machine) (top : Int) (tcs : List TypedConst) : Prop where
  running : m'.state = .running
  mp : m'.mp = m.mp
  np : m'.np = m.np
  sp : m'.sp.toInt = top
  size : m'.store.size = m.store.size
  constants : ∀ tc ∈ tcs, ∀ j < tc.data.size,
    m'.store[Machine.placeOf m.mp tc + j]? = tc.data[j]?
  zero : ∀ i : Nat, m.sp.toInt ≤ i → (i : Int) < top →
    (∀ tc ∈ tcs, ¬ Machine.Covers m.mp tc i) → m'.store[i]? = some (.ofInt 0)
  kept : ∀ i : Nat, (i : Int) < m.sp.toInt ∨ m.np.toInt ≤ i → m'.store[i]? = m.store[i]?

/-- Entry of a subprogram initialises its whole frame.  The code before the body is executed once,
from its first instruction to its last. -/
theorem entry_initialises_frame {natives : Registry} {main : Subprogram} {im : Image}
    (hcompile : compile natives (some main) = .image im) (hbound : im.code.size < 2 ^ 63)
    {b : Block} (hb : b ∈ (Ledger.program natives main).blocks)
    {s : Scope} {locals : List Symbol} {tcs : List TypedConst} (hdeclared : s.Declared locals tcs)
    (hfits : s.Fits locals tcs) (hmade : b.header.MadeFrom s tcs)
    {m : Machine} (himage : m.image = im) (hrun : m.state = .running) (hsound : m.Sound)
    (hpc : m.pc = Int64.ofNat b.entry)
    (hsp : m.sp.toInt = m.mp.toInt + (markSize : Nat) + s.paramWords.toInt)
    (htyped : ∀ i < im.typedConstants.size, m.store[i]? = im.typedConstants[i]?)
    (hroom : m.mp.toInt + b.header.frameSize.toInt +
      (if b.header.typedWords = [] then 0 else 2) ≤ m.np.toInt) :
    ∃ m', Machine.stepSingly (b.header.prologue b.typed).length m = .ok () m' ∧
      m'.pc = Int64.ofNat b.body ∧
      m.Entered m' (m.mp.toInt + b.header.frameSize.toInt) tcs := by
  subst himage
  obtain ⟨hholds, -, -⟩ := compile_holds hcompile hbound
  have hplaced := Ledger.placed_program natives main
  have hbase := hsound.base
  have htop := hsound.top
  have hsize := hsound.size
  have hframe := hmade.toInt_frameSize hdeclared hfits
  have hnonneg := hdeclared.wordsOf_nonneg hfits
  have hfitsFrame := hfits.frame
  have hparams := hfits.params
  have henough : m.mp.toInt + b.header.frameSize.toInt ≤ m.np.toInt := by
    split at hroom <;> omega
  have hnewTop : (m.mp + b.header.frameSize).toInt = m.mp.toInt + b.header.frameSize.toInt := by
    rw [toInt_add_of_fits] <;> omega
  have hcovers (tc : TypedConst) (htc : tc ∈ b.header.typedConsts) (i : Nat)
      (hi : Machine.Covers m.mp tc i) :
      m.sp.toInt ≤ i ∧ (i : Int) < m.mp.toInt + b.header.frameSize.toInt := by
    have hwithin := hmade.within hdeclared hfits htc
    unfold Machine.Covers Machine.placeOf at hi
    omega
  -- first the frame, and then the typed constants in it
  obtain ⟨hent, hconsts⟩ := codeAt_cons.mp (hholds.codeAt_prologue hplaced hb)
  obtain ⟨hlast, hwords⟩ := hholds.typedWords_at hplaced hb
  obtain ⟨store₁, hruns₁, hsize₁, hzero₁, hsame₁⟩ :=
    Machine.runs_enter ⟨hsound, hrun, hbound⟩ hent (by omega) henough
  have hready₁ : ({ m with sp := m.mp + b.header.frameSize, store := store₁ } : Machine).Ready :=
    ⟨⟨by simp only; omega, by simp only; omega, by simp only; omega, by simp only; omega⟩,
      hrun, hbound⟩
  have hroom₁ (hne : b.header.typedWords ≠ []) :
      2 ≤ ({ m with sp := m.mp + b.header.frameSize, store := store₁ } : Machine).room := by
    rw [if_neg hne] at hroom
    simp only [Machine.room]
    omega
  have hstored : WordsAt store₁ b.typed b.header.typedWords := by
    intro j v hj
    have hlt := (List.getElem?_eq_some_iff.mp hj).1
    rw [hsame₁ _ (by omega), htyped _ (by omega), hwords j hlt, hj]
  have hplaces (tc : TypedConst) (htc : tc ∈ b.header.typedConsts) :
      Machine.HasPlace { m with sp := m.mp + b.header.frameSize, store := store₁ }
        m.image.typedConstants.size tc := by
    have hwithin := hmade.within hdeclared hfits htc
    exact ⟨by omega, by omega, by simp only; omega, by simp only; omega⟩
  obtain ⟨store, hruns, hsize₂, hcopied, hsame⟩ :=
    Machine.runs_initialiseAllCode hready₁ rfl hroom₁ hconsts hlast hplaces
      (hmade.apart hdeclared hfits (by simp only; omega)) hstored
  obtain ⟨m', hsteps, hstacked⟩ := hruns₁.append hruns m (.refl hsound hpc)
  -- below the top of the frame and in the heap the machine has the words of the base
  have hkept (i : Nat) (hi : (i : Int) < m.mp.toInt + b.header.frameSize.toInt ∨ m.np.toInt ≤ i) :
      m'.store[i]? = store[i]? := by
    refine hstacked.kept i ?_
    simp only [toNatClampNeg_eq]
    omega
  refine ⟨m', hsteps, hstacked.pc, ?_⟩
  constructor
  · exact hstacked.state.trans hrun
  · exact hstacked.mp
  · exact hstacked.np
  · simpa [hnewTop] using hstacked.sp
  · exact hstacked.size.trans (hsize₂.trans hsize₁)
  · intro tc htc j hj
    have htc' := hmade.typedConsts.mem_iff.mpr htc
    have hcover : Machine.Covers m.mp tc (Machine.placeOf m.mp tc + j) := ⟨by omega, by omega⟩
    rw [hkept _ (.inl (hcovers tc htc' _ hcover).2)]
    rw [Array.getElem?_eq_getElem hj]
    exact hcopied tc htc' j _ (by simp [hj])
  · intro i hlow hhigh hnone
    rw [hkept i (.inl hhigh), hsame i fun tc htc => hnone tc (hmade.typedConsts.mem_iff.mp htc)]
    exact hzero₁ i hlow hhigh
  · intro i hi
    rw [hkept i (by omega), hsame i fun tc htc hcover => ?_]
    · exact hsame₁ i (by omega)
    · have := hcovers tc htc i hcover
      omega

/-! ## A frame with two typed constants -/

/-- A symbol with words among the variables. -/
def localSymbol (id : Nat) (name : String) (kind : SymbolKind) (type : Ty) (address : Int64) :
    Symbol :=
  { id, name, kind, type, address, byRef := false }

/-- A typed constant of two words, the first of its frame. -/
def pairConst : TypedConst where
  symbol := localSymbol 0 "pair" .typedConst (.array [⟨0, 1⟩] .integer) 5
  data := #[.ofInt 3, .ofInt 4]

/-- A typed constant of one word, with a variable between the two. -/
def limitConst : TypedConst where
  symbol := localSymbol 2 "limit" .typedConst .integer 8
  data := #[.ofInt 5]

/-- A variable between two typed constants. -/
def betweenSymbol : Symbol := localSymbol 1 "x" .data .integer 7

/-- The scopes that declare the three, one after another. -/
def afterPair : Scope := { ({} : Scope) with varWords := 2 }.define pairConst.symbol

/-- The scope after the variable. -/
def afterBetween : Scope := { afterPair with varWords := 3 }.define betweenSymbol

/-- The scope after all three declarations. -/
def limitScope : Scope := { afterBetween with varWords := 4 }.define limitConst.symbol

/-- The procedure in it has a typed constant of its own. -/
def ownConst : TypedConst where
  symbol := localSymbol 4 "own" .typedConst .integer 5
  data := #[.ofInt 7]

/-- The symbol of the procedure. -/
def ownSymbol : Symbol := localSymbol 3 "inner" .subprogram (.subprogram [] .void) 0

/-- The procedure. -/
def ownProcedure : Subprogram :=
  .mk
    { kind := .procedure, symbol := some ownSymbol, result := .missing, paramWords := 0
      varWords := 1, typedConsts := [ownConst], body := [] }
    []

/-- A program with typed constants, listed in the other order, and a procedure in it. -/
def limitProgram : Subprogram :=
  .mk
    { kind := .program, symbol := none, result := .missing, paramWords := limitScope.paramWords
      varWords := limitScope.varWords, typedConsts := [limitConst, pairConst], body := [.exit {}] }
    [ownProcedure]

/-- A machine that has just called the program. -/
def limitMachine : Machine :=
  { (default : Machine) with
    image := (compile .empty (some limitProgram)).result
    store := (compile .empty (some limitProgram)).result.typedConstants ++
      Array.replicate 12 (.ofInt 9)
    pc := 6, sp := 9, mp := 4, np := 16
    state := .running }

private theorem limitScope_declared :
    limitScope.Declared [pairConst.symbol, betweenSymbol, limitConst.symbol]
      [pairConst, limitConst] :=
  ⟨[ .typedConst 0 "pair" (.array [⟨0, 1⟩] .integer) pairConst.data
   , .var 1 "x" .integer
   , .typedConst 2 "limit" .integer limitConst.data ],
    _, rfl, by unfold ParamsFirst; decide, rfl, rfl⟩

/-- The frame of the program is initialised: its typed constants lie behind that of the procedure
in the store, and go to the places that the scope gave them. -/
theorem entry_initialises_frame_limit :
    ∃ m', Machine.stepSingly 13 limitMachine = .ok () m' ∧ m'.pc = 19 ∧
      limitMachine.Entered m' 13 [pairConst, limitConst] := by
  have hcompile : compile .empty (some limitProgram) = .image limitMachine.image :=
    Compilation.eq_image (by decide +kernel)
  have hfits : limitScope.Fits
      [pairConst.symbol, betweenSymbol, limitConst.symbol]
      [pairConst, limitConst] :=
    ⟨by decide, by decide, by decide, by decide⟩
  obtain ⟨b, hb, hheader, hentry, hbody, hlength⟩ :
      ∃ b ∈ (Ledger.program .empty limitProgram).blocks,
        b.header = limitProgram.header ∧ b.entry = 6 ∧ b.body = 19 ∧
          (b.header.prologue b.typed).length = 13 :=
    ⟨_, .tail _ (.head _), rfl, rfl, rfl, rfl⟩
  have hmade : b.header.MadeFrom limitScope [pairConst, limitConst] := by
    rw [hheader]
    exact ⟨rfl, rfl, .swap ..⟩
  have h := entry_initialises_frame hcompile (by decide +kernel) hb limitScope_declared hfits hmade
    rfl rfl ⟨by decide +kernel, by decide +kernel, by decide +kernel, by decide +kernel⟩
    (by rw [hentry]; rfl) rfl (fun i hi => Array.getElem?_append_left hi)
    (by rw [hheader]; decide +kernel)
  rw [hlength, hbody, hheader] at h
  exact h

/-! ## A variable of negative size -/

/-- A typed constant of one word. -/
def loneConst : TypedConst where
  symbol := localSymbol 0 "lone" .typedConst .integer 5
  data := #[.ofInt 7]

/-- A variable with an array that has one element less than none. -/
def negativeSymbol : Symbol := localSymbol 1 "w" .data (.array [⟨0, -2⟩] .integer) 6

/-- The scope after the typed constant. -/
def afterLone : Scope := { ({} : Scope) with varWords := 1 }.define loneConst.symbol

/-- The variable takes the word of the typed constant from the frame. -/
def negativeScope : Scope := { afterLone with varWords := 0 }.define negativeSymbol

/-- A program with that scope. -/
def negativeProgram : Subprogram :=
  .mk
    { kind := .program, symbol := none, result := .missing, paramWords := negativeScope.paramWords
      varWords := negativeScope.varWords, typedConsts := [loneConst], body := [.exit {}] }
    []

/-- A machine that has just called the program with the negative size. -/
def negativeMachine : Machine :=
  { (default : Machine) with
    image := (compile .empty (some negativeProgram)).result
    store := (compile .empty (some negativeProgram)).result.typedConstants ++
      Array.replicate 31 .undefined
    pc := 0, sp := 6, mp := 1, np := 32
    state := .running }

/-- After a declaration of negative size a typed constant has its place above the frame, where
nothing can be stored: the machine stops before it comes to the body. -/
theorem negative_size_uncovers_constant :
    negativeScope.Declared [loneConst.symbol, negativeSymbol] [loneConst] ∧
      compile .empty (some negativeProgram) = .image negativeMachine.image ∧
      negativeMachine.state = .running ∧ negativeMachine.Sound ∧
      (∀ i < negativeMachine.image.typedConstants.size,
        negativeMachine.store[i]? = negativeMachine.image.typedConstants[i]?) ∧
      negativeMachine.sp.toInt =
        negativeMachine.mp.toInt + (markSize : Nat) + negativeScope.paramWords.toInt ∧
      ∃ b ∈ (Ledger.program .empty negativeProgram).blocks,
        b.header.MadeFrom negativeScope [loneConst] ∧
        negativeMachine.pc = Int64.ofNat b.entry ∧
        negativeMachine.mp.toInt + b.header.frameSize.toInt + 2 ≤ negativeMachine.np.toInt ∧
        ∃ m', Machine.stepSingly (b.header.prologue b.typed).length negativeMachine = .ok () m' ∧
          m'.state = .stopped := by
  have hdeclared : negativeScope.Declared [loneConst.symbol, negativeSymbol] [loneConst] :=
    ⟨[.typedConst 0 "lone" .integer loneConst.data, .var 1 "w" (.array [⟨0, -2⟩] .integer)],
      _, rfl, by unfold ParamsFirst; decide, rfl, rfl⟩
  refine ⟨hdeclared,
    Compilation.eq_image (by decide +kernel), rfl,
    ⟨by decide +kernel, by decide +kernel, by decide +kernel, by decide +kernel⟩,
    fun i hi => Array.getElem?_append_left hi, rfl, _, .head _, ⟨rfl, rfl, .refl _⟩, rfl,
    by decide +kernel, ?_⟩
  have hstops : (negativeMachine.after 5).any (·.state = .stopped) = true := by decide +kernel
  obtain ⟨m', hafter, hstate⟩ := (Option.any_eq_true _ _).mp hstops
  exact ⟨m', Machine.after_eq_some_iff.mp hafter, of_decide_eq_true hstate⟩

end PCode
