import PCode.Proofs.Codegen.Stmt

/-!
# Where the code of a program stands

The blocks of a program lie one after another, that of a subprogram after those
of the subprograms in it, and the code that calls the program comes last.  When
a block is finished its exit jumps lead to its return, and when a subprogram is
entered the calls that waited for it lead to its entry.

Main definitions and results:

- `Ledger.program`: the account of a whole program.
- `Image.Holds`: an image holds what a ledger lists, with every jump and call at its target.
- `compile_holds`: a compiled program is held by its image.
-/

namespace PCode

/-! ## The account of a program -/

namespace Ledger

/-- Give a symbol its entry address. -/
def enter (l : Ledger) (id entry : Nat) : Ledger := { l with entered := (id, entry) :: l.entered }

/-- Enter the symbol of a subprogram at the present address, if it has one. -/
def enterSymbol (l : Ledger) (symbol : Option Symbol) : Ledger :=
  match symbol with
  | some sym => l.enter sym.id l.items.length
  | none => l

/-- Add words of typed constants. -/
def addTyped (l : Ledger) (words : List Value) : Ledger := { l with typed := l.typed ++ words }

/-- Add the code of a typed constant and its words. -/
def initialise (l : Ledger) (tc : TypedConst) : Ledger :=
  (l.addTyped tc.data.toList).add (Gen.initialiseCode tc l.typed.length)

/-- Finish a block, which ends here. -/
def finish (l : Ledger) (b : Block) : Ledger :=
  { l with blocks := l.blocks ++ [b], start := l.items.length }

/-- The block of a subprogram that is generated next. -/
def nextBlock (l : Ledger) (h : SubprogramHeader) : Block := ⟨h, l.items.length, l.typed.length⟩

/-- Add the block of a subprogram. -/
def addBlock (l : Ledger) (h : SubprogramHeader) : Ledger :=
  (((l.enterSymbol h.symbol).addTyped h.typedWords).add (l.nextBlock h).code).finish
    (l.nextBlock h)

section

variable (l : Ledger) (h : SubprogramHeader)

/-- A block adds its code. -/
theorem addBlock_items : (l.addBlock h).items = l.items ++ (l.nextBlock h).code := by
  unfold addBlock enterSymbol
  split <;> rfl

/-- A block adds the words of its typed constants. -/
theorem addBlock_typed : (l.addBlock h).typed = l.typed ++ h.typedWords := by
  unfold addBlock enterSymbol
  split <;> rfl

/-- A block is the last one. -/
theorem addBlock_blocks : (l.addBlock h).blocks = l.blocks ++ [l.nextBlock h] := by
  unfold addBlock enterSymbol
  split <;> rfl

/-- A block makes its entry known under the number of its symbol. -/
theorem addBlock_entered :
    (l.addBlock h).entered
      = (h.symbol.map fun sym => (sym.id, l.items.length)).toList ++ l.entered := by
  unfold addBlock enterSymbol
  cases h.symbol <;> rfl

/-- The next block starts behind the code. -/
theorem addBlock_start : (l.addBlock h).start = (l.addBlock h).items.length := rfl

private theorem addBlock_natives : (l.addBlock h).natives = l.natives := by
  unfold addBlock enterSymbol
  split <;> rfl

end

mutual

/-- Add the blocks of a subprogram and of those in it. -/
def addSubprogram (l : Ledger) : Subprogram → Ledger
  | .mk h nested => (l.addSubprograms nested).addBlock h

/-- Add the blocks of subprograms one after another. -/
def addSubprograms (l : Ledger) : List Subprogram → Ledger
  | [] => l
  | s :: rest => (l.addSubprogram s).addSubprograms rest

end

/-- After a subprogram everything belongs to a finished block. -/
theorem start_addSubprogram (l : Ledger) (s : Subprogram) :
    (l.addSubprogram s).start = (l.addSubprogram s).items.length := by
  cases s
  simp only [addSubprogram, addBlock, finish]

mutual

private theorem natives_addSubprogram (l : Ledger) :
    ∀ s : Subprogram, (l.addSubprogram s).natives = l.natives
  | .mk h nested => by
    rw [addSubprogram, addBlock_natives, natives_addSubprograms l nested]

private theorem natives_addSubprograms (l : Ledger) :
    ∀ subs : List Subprogram, (l.addSubprograms subs).natives = l.natives
  | [] => by rw [addSubprograms]
  | s :: rest => by
    rw [addSubprograms, natives_addSubprograms _ rest, natives_addSubprogram l s]

end

/-- The entry address of a program. -/
def mainEntry (natives : Registry) (main : Subprogram) : Nat :=
  (({ natives } : Ledger).addSubprograms main.nested).items.length

/-- The account of a whole program. -/
def program (natives : Registry) (main : Subprogram) : Ledger :=
  (({ natives } : Ledger).addSubprogram main).add
    [.op .mst 0 0, .op .cup 0 (Int64.ofNat (mainEntry natives main)), .op .stp 0 0]

/-- A program is laid out over the registry that it was given. -/
theorem program_natives (natives : Registry) (main : Subprogram) :
    (program natives main).natives = natives :=
  natives_addSubprogram _ main

end Ledger

namespace Gen

/-! ## Patches of remembered instructions -/

/-- Several clean patches change the words at their addresses, whose other fields stay. -/
theorem patchAll_spec {pos : Pos} {t : Nat} {as : List Nat} {g g' : Generation} {u : Unit}
    (h : patchAll pos t as g = .ok u g') (hc : g'.Clean) :
    g.Clean ∧ ((∀ a ∈ as, a < g.image.code.size) → t ≤ g.image.code.size →
      ∃ code, g' = { g with image := { g.image with code } } ∧
        code.size = g.image.code.size ∧
        (∀ a, a ∉ as → code[a]? = g.image.code[a]?) ∧
        ∀ a ∈ as, ∃ w w', g.image.code[a]? = some w ∧ code[a]? = some w' ∧
          ∀ op x y, w.Reads op x y → w'.Reads op x t) := by
  induction as generalizing g with
  | nil =>
    obtain ⟨-, rfl⟩ := pure_ok h
    exact ⟨hc, fun _ _ => ⟨_, rfl, rfl, fun _ _ => rfl, fun a ha => by simp at ha⟩⟩
  | cons b rest ih =>
    obtain ⟨_, g₁, h₁, h₂⟩ := bind_ok h
    obtain ⟨hc₁, hrest⟩ := ih h₂
    obtain ⟨hc₀, hfirst⟩ := patch_spec h₁ hc₁
    refine ⟨hc₀, fun has ht => ?_⟩
    obtain ⟨w, w', hw, hreads, rfl⟩ := hfirst (has b (by simp)) ht
    have hb := has b (by simp)
    simp only [Array.size_setIfInBounds] at hrest
    obtain ⟨code, rfl, hsize, hsame, hset⟩ := hrest (fun a ha => has a (by simp [ha])) ht
    refine ⟨code, rfl, hsize, fun a ha => ?_, fun a ha => ?_⟩
    · rw [List.mem_cons, not_or] at ha
      rw [hsame a ha.2, Array.getElem?_setIfInBounds_ne (Ne.symm ha.1)]
    · by_cases hab : a = b
      · subst hab
        by_cases har : a ∈ rest
        · obtain ⟨v, v', hv, hv', hreads'⟩ := hset a har
          rw [Array.getElem?_setIfInBounds_self_of_lt hb] at hv
          obtain rfl := Option.some.inj hv
          exact ⟨w, v', hw, hv', fun op x y hr => hreads' op x _ (hreads op x y hr)⟩
        · refine ⟨w, w', hw, ?_, hreads⟩
          rw [hsame a har, Array.getElem?_setIfInBounds_self_of_lt hb]
      · have har : a ∈ rest := by simpa [hab] using ha
        obtain ⟨v, v', hv, hv', hreads'⟩ := hset a har
        rw [Array.getElem?_setIfInBounds_ne (Ne.symm hab)] at hv
        exact ⟨v, v', hv, hv', hreads'⟩

/-- Entering a symbol points the calls that wait for it to the entry. -/
theorem enterAt_spec {pos : Pos} {sym : Symbol} {g g' : Generation} {u : Unit}
    (h : enterAt pos sym g.image.code.size g = .ok u g') (hc : g'.Clean) :
    g.Clean ∧ ∀ l : Ledger, l.Realizes g →
      g'.exits = g.exits ∧ g'.image.code.size = g.image.code.size ∧
      (l.enter sym.id l.items.length).Realizes g' := by
  unfold enterAt at h
  obtain ⟨_, _, h₀, h⟩ := bind_ok h
  obtain ⟨rfl, rfl⟩ := EStateM.Result.ok.inj h₀
  obtain ⟨_, _, h₁, h₂⟩ := bind_ok h
  obtain ⟨-, rfl⟩ := EStateM.Result.ok.inj h₁
  obtain ⟨hc₁, hchange⟩ := patchAll_spec h₂ hc
  refine ⟨hc₁, fun l hl => ?_⟩
  -- The patched addresses are those that wait for the symbol.
  have hwait : ∀ a, a ∈ (g.pending.filter (·.symbol.id == sym.id)).flatMap (·.addresses.reverse) ↔
      ∃ p ∈ g.pending, p.symbol.id = sym.id ∧ a ∈ p.addresses := by
    intro a
    simp only [List.mem_flatMap, List.mem_filter, beq_iff_eq, List.mem_reverse, and_assoc]
  have hitem : ∀ p ∈ g.pending, p.symbol.id = sym.id → ∀ a ∈ p.addresses,
      ∃ words sym', l.items[a]? = some (.call words sym') ∧ sym'.id = sym.id := by
    intro p hp hid a ha
    obtain ⟨words, sym', hit, hid'⟩ := hl.pending p hp a ha
    exact ⟨words, sym', hit, hid'.trans hid⟩
  obtain ⟨code, rfl, hsize, hsame, hset⟩ := hchange
    (by
      intro a ha
      obtain ⟨p, hp, hid, hap⟩ := (hwait a).mp ha
      obtain ⟨words, sym', hit, -⟩ := hitem p hp hid a hap
      rw [hl.size]
      exact (List.getElem?_eq_some_iff.mp hit).1)
    (Nat.le_refl _)
  refine ⟨rfl, hsize, ?_⟩
  constructor
  · exact hl.natives
  · exact hsize.trans hl.size
  · intro a it hit
    obtain ⟨w, hw, hst⟩ := hl.stands a it hit
    by_cases ha : a ∈ (g.pending.filter (·.symbol.id == sym.id)).flatMap (·.addresses.reverse)
    · obtain ⟨p, hp, hid, hap⟩ := (hwait a).mp ha
      obtain ⟨words, sym', hit', hid'⟩ := hitem p hp hid a hap
      obtain rfl : it = .call words sym' := Option.some.inj (hit.symm.trans hit')
      obtain ⟨w₁, w', hw₁, hw', hreads⟩ := hset a ha
      obtain rfl := Option.some.inj (hw₁.symm.trans hw)
      obtain ⟨t, hr, -⟩ := hst
      refine ⟨w', hw', g.image.code.size, hreads _ _ _ hr, .inr ?_⟩
      rw [hid', hl.size]
      exact List.mem_cons_self
    · refine ⟨w, (hsame a ha).trans hw, hst.imp (fun _ _ hv => hv) (fun _ hleave => hleave) ?_⟩
      rintro id t (⟨p, hp, hid, hap⟩ | hin)
      · have hne : p.symbol.id ≠ sym.id := fun heq => ha ((hwait a).mpr ⟨p, hp, heq, hap⟩)
        exact .inl ⟨p, List.mem_filter.mpr ⟨hp, by simpa using hne⟩, hid, hap⟩
      · exact .inr (List.mem_cons_of_mem _ hin)
  · exact hl.start
  · exact hl.exits
  · intro p hp a ha
    exact hl.pending p (List.mem_filter.mp hp).1 a ha
  · intro id t ht
    rw [List.lookup_cons] at ht
    split at ht
    · rename_i hid
      obtain rfl := Option.some.inj ht
      rw [hl.size, beq_iff_eq.mp hid]
      exact List.mem_cons_self
    · exact List.mem_cons_of_mem _ (hl.entries id t ht)
  · intro id t ht
    rcases List.mem_cons.mp ht with hnew | hold
    · obtain ⟨-, rfl⟩ := Prod.mk.inj hnew
      exact Nat.le_refl _
    · exact hl.entered id t hold
  · exact hl.typed
  · exact hsize ▸ hl.pool
  · exact hl.requested

/-! ## Typed constants -/

private theorem emits_initialiseWords (tc : TypedConst) (base i : Nat) (codes : List UInt8) :
    Emits (initialiseWords tc base i codes) (initialiseWordsCode tc base i codes) := by
  induction codes generalizing i with
  | nil => exact emits_pure ()
  | cons code rest ih =>
    exact (emits_put _ .lda 0 _ _).bind fun _ => (emits_putConstant _ .pointer _ _).bind fun _ =>
      (emits_put _ .ldi _ 0 _).bind fun _ => (emits_put _ .sti _ 0 _).bind fun _ => ih (i + 1)

/-- The words of typed constants change nothing else. -/
theorem realizes_addTyped {l : Ledger} {g : Generation} (hl : l.Realizes g) (words : Array Value) :
    (l.addTyped words.toList).Realizes
      { g with
        image := { g.image with typedConstants := g.image.typedConstants ++ words } } where
  natives := hl.natives
  size := hl.size
  stands := hl.stands
  start := hl.start
  exits := hl.exits
  pending := hl.pending
  entries := hl.entries
  entered := hl.entered
  typed := by
    rw [Array.toList_append, hl.typed]
    rfl
  pool := hl.pool
  requested := hl.requested

/-- A typed constant gets its words and the code that stores them. -/
theorem initialise_spec {tc : TypedConst} {g g' : Generation} {u : Unit}
    (h : initialise tc g = .ok u g') (hc : g'.Clean) :
    g.Clean ∧ ∀ own outer, g.exits = own :: outer → (∃ own', g'.exits = own' :: outer) ∧
      ∀ l : Ledger, l.Realizes g → (l.initialise tc).Realizes g' := by
  unfold initialise at h
  cases hcodes : tc.symbol.type.codes? with
  | none =>
    simp only [hcodes] at h
    exact absurd h throw_ne_ok
  | some codes =>
    simp only [hcodes] at h
    by_cases hlen : codes.length = tc.data.size
    · simp only [hlen, ne_eq, not_true_eq_false, if_false] at h
      obtain ⟨r, g₁, h₁, h₂⟩ := bind_ok h
      cases r with
      | none =>
        obtain ⟨-, rfl⟩ := pure_ok h₂
        obtain ⟨-, base, -, hbase, -⟩ := onImage_ok h₁ hc
        cases hbase
      | some base =>
        have hgrow := emits_initialiseWords tc base 0 codes _ _ _ h₂ hc
        obtain ⟨herr, base', im, hbase, hx, rfl⟩ := onImage_ok h₁ hgrow.clean
        obtain rfl := Option.some.inj hbase
        obtain ⟨rfl, rfl⟩ := Image.addTypedConstants_ok hx
        refine ⟨⟨herr, hgrow.clean.2⟩, fun own outer hg =>
          ⟨hgrow.exits own outer hg, fun l hl => ?_⟩⟩
        have hl' := hgrow.realizes _ (by simp [hg]) (realizes_addTyped hl tc.data)
        have hbase : g.image.typedConstants.size = l.typed.length := by
          rw [← hl.typed, Array.length_toList]
        simpa only [Ledger.initialise, initialiseCode, hcodes, hlen, if_true, hbase] using hl'
    · simp only [hlen, ne_eq, not_false_eq_true, if_true] at h
      exact absurd hc (report_not_clean h)

/-- Typed constants get their words and code one after another. -/
theorem initialiseAll_spec {tcs : List TypedConst} {g g' : Generation} {u : Unit}
    (h : initialiseAll tcs g = .ok u g') (hc : g'.Clean) :
    g.Clean ∧ ∀ own outer, g.exits = own :: outer → (∃ own', g'.exits = own' :: outer) ∧
      ∀ l : Ledger, l.Realizes g →
        ((l.addTyped (tcs.flatMap (·.data.toList))).add
          (initialiseAllCode l.typed.length tcs)).Realizes g' := by
  induction tcs generalizing g with
  | nil =>
    obtain ⟨-, rfl⟩ := pure_ok h
    exact ⟨hc, fun own outer hg => ⟨⟨own, hg⟩, fun l hl => by
      simpa [Ledger.addTyped, initialiseAllCode] using hl⟩⟩
  | cons tc rest ih =>
    obtain ⟨_, g₁, h₁, h₂⟩ := bind_ok h
    obtain ⟨hc₁, hrest⟩ := ih h₂
    obtain ⟨hc₀, hfirst⟩ := initialise_spec h₁ hc₁
    refine ⟨hc₀, fun own outer hg => ?_⟩
    obtain ⟨⟨own₁, hg₁⟩, k₁⟩ := hfirst own outer hg
    obtain ⟨hg₂, k₂⟩ := hrest own₁ outer hg₁
    refine ⟨hg₂, fun l hl => ?_⟩
    have hl' := k₂ _ (k₁ l hl)
    simpa [Ledger.initialise, Ledger.addTyped, Ledger.add, initialiseAllCode] using hl'

/-! ## Blocks -/

/-- A ledger stays realized when a block is finished and its exit jumps lead to its return. -/
theorem realizes_finish {l : Ledger} {g : Generation} {own : List Nat} {outer : List (List Nat)}
    {b : Block} {code : Array Word} (hl : l.Realizes g) (hexits : g.exits = own :: outer)
    (houter : outer.flatten = []) (hentry : b.entry = l.start)
    (hexit : b.exit + 1 = l.items.length) (hsize : code.size = g.image.code.size)
    (hsame : ∀ a, a ∉ own → code[a]? = g.image.code[a]?)
    (hset : ∀ a ∈ own, ∃ w w', g.image.code[a]? = some w ∧ code[a]? = some w' ∧
      ∀ op x y, w.Reads op x y → w'.Reads op x b.exit) :
    (l.finish b).Realizes { g with image := { g.image with code }, exits := outer } := by
  have hflat : g.exits.flatten = own := by rw [hexits, List.flatten_cons, houter, List.append_nil]
  constructor
  · exact hl.natives
  · exact hsize.trans hl.size
  · intro a it hit
    obtain ⟨w, hw, hst⟩ := hl.stands a it hit
    by_cases ha : a ∈ own
    · obtain ⟨hleave, hstart⟩ := hl.exits a (hflat ▸ ha)
      obtain rfl : it = .leave := Option.some.inj (hit.symm.trans hleave)
      obtain ⟨w₁, w', hw₁, hw', hreads⟩ := hset a ha
      obtain rfl := Option.some.inj (hw₁.symm.trans hw)
      obtain ⟨t, hr, -⟩ := hst
      have hlt : a < l.items.length := (List.getElem?_eq_some_iff.mp hit).1
      exact ⟨w', hw', b.exit, hreads _ _ _ hr,
        .inr ⟨b, by simp [Ledger.finish], by omega, by omega, rfl⟩⟩
    · refine ⟨w, (hsame a ha).trans hw, hst.imp (fun _ _ hv => hv) ?_ (fun _ _ hcall => hcall)⟩
      rintro t (hopen | ⟨b', hb', hin⟩)
      · exact absurd (hflat ▸ hopen) ha
      · exact .inr ⟨b', List.mem_append_left _ hb', hin⟩
  · exact Nat.le_refl _
  · intro a ha
    rw [houter] at ha
    simp at ha
  · exact hl.pending
  · exact hl.entries
  · exact hl.entered
  · exact hl.typed
  · exact hsize ▸ hl.pool
  · exact hl.requested

/-- The type code of a return is known in a clean walk. -/
theorem resultCode_ok {h : SubprogramHeader} {g g' : Generation} {code : UInt8}
    (hr : resultCode h g = .ok code g') (hc : g'.Clean) :
    returnCode? h = some code ∧ g' = g := by
  unfold resultCode at hr
  unfold returnCode?
  by_cases hkind : h.kind = .function
  · simp only [hkind, if_true] at hr ⊢
    cases hcode : h.result.code? with
    | some c =>
      simp only [hcode] at hr
      obtain ⟨rfl, rfl⟩ := pure_ok hr
      exact ⟨rfl, rfl⟩
    | none =>
      simp only [hcode] at hr
      obtain ⟨_, _, h₁, h₂⟩ := bind_ok hr
      obtain ⟨-, rfl⟩ := pure_ok h₂
      exact absurd hc (report_not_clean h₁)
  · simp only [hkind, if_false] at hr ⊢
    obtain ⟨rfl, rfl⟩ := pure_ok hr
    exact ⟨rfl, rfl⟩

/-- The exit jumps of a subprogram are given out, and those of the subprograms around stay. -/
theorem closeExits_ok {g g' : Generation} {as : List Nat} (h : closeExits g = .ok as g') :
    (g'.Clean → g.Clean) ∧ ∀ own outer, g.exits = own :: outer →
      as = own.reverse ∧ g' = { g with exits := outer } := by
  unfold closeExits at h
  cases hexits : g.exits with
  | nil =>
    simp only [modifyGet, MonadStateOf.modifyGet] at h
    delta EStateM.modifyGet at h
    simp only [hexits] at h
    obtain ⟨-, rfl⟩ := EStateM.Result.ok.inj h
    exact ⟨id, fun own outer hg => by cases hg⟩
  | cons own outer =>
    simp only [modifyGet, MonadStateOf.modifyGet] at h
    delta EStateM.modifyGet at h
    simp only [hexits] at h
    obtain ⟨rfl, rfl⟩ := EStateM.Result.ok.inj h
    refine ⟨id, fun own' outer' hg => ?_⟩
    obtain ⟨rfl, rfl⟩ := List.cons.inj hg
    exact ⟨rfl, rfl⟩

/-- The code of a subprogram after it has been entered. -/
theorem lowerBlock_spec {h : SubprogramHeader} {g g' : Generation} {n entry : Nat}
    (hx : (do
      put h.pos .ent 0 h.frameSize s!"start of {h.name} -----------------"
      initialiseAll h.typedConsts
      lowerStmts h.body
      let exits ← closeExits
      let leave ← nextAddress
      let code ← resultCode h
      put h.pos .rtn (operandOfCode code) 0 ("end of " ++ h.name)
      patchAll h.pos leave exits
      return n : Gen Nat) g = .ok entry g') (hc : g'.Clean) :
    entry = n ∧ g.Clean ∧ ∀ outer, g.exits = [] :: outer → outer.flatten = [] →
      ∀ l : Ledger, l.Realizes g → l.start = l.items.length →
        g'.exits = outer ∧
        (((l.addTyped h.typedWords).add (l.nextBlock h).code).finish (l.nextBlock h)).Realizes
          g' := by
  obtain ⟨_, g₁, h₁, hx⟩ := bind_ok hx
  obtain ⟨_, g₂, h₂, hx⟩ := bind_ok hx
  obtain ⟨_, g₃, h₃, hx⟩ := bind_ok hx
  obtain ⟨as, g₄, h₄, hx⟩ := bind_ok hx
  obtain ⟨_, _, h₅, hx⟩ := bind_ok hx
  obtain ⟨rfl, rfl⟩ := nextAddress_ok h₅
  obtain ⟨code, g₆, h₆, hx⟩ := bind_ok hx
  obtain ⟨_, g₇, h₇, hx⟩ := bind_ok hx
  obtain ⟨_, g₈, h₈, hx⟩ := bind_ok hx
  obtain ⟨hn, rfl⟩ := pure_ok hx
  obtain ⟨hc₇, hpatch⟩ := patchAll_spec h₈ hc
  obtain ⟨_, g₇', h₇', hx⟩ := bind_ok h₇
  obtain ⟨-, rfl⟩ := pure_ok hx
  obtain ⟨hc₆, -, w, im, hw, rfl, hcode, hdata⟩ := emit_spec h₇' hc₇
  obtain ⟨hreturn, rfl⟩ := resultCode_ok h₆ hc₆
  obtain ⟨hclean, hclose⟩ := closeExits_ok h₄
  have k₃ := emits_lowerStmts h.body _ _ _ h₃ (hclean hc₆)
  obtain ⟨hc₁, k₂⟩ := initialiseAll_spec h₂ k₃.clean
  have k₁ := emits_put _ _ _ _ _ _ _ _ h₁ hc₁
  refine ⟨hn, k₁.clean, fun outer hg houter l hl hstart => ?_⟩
  obtain ⟨own₁, hg₁⟩ := k₁.exits _ _ hg
  obtain ⟨⟨own₂, hg₂⟩, k₂⟩ := k₂ _ _ hg₁
  obtain ⟨own₃, hg₃⟩ := k₃.exits _ _ hg₂
  obtain ⟨rfl, rfl⟩ := hclose _ _ hg₃
  have hl₃ : ((l.addTyped h.typedWords).add
      (h.prologue l.typed.length ++ stmtsCode h.body)).Realizes g₃ := by
    have := k₃.realizes _ (by simp [hg₂]) (k₂ _ (k₁.realizes l (by simp [hg]) hl))
    simpa [Ledger.add, Ledger.addTyped, SubprogramHeader.prologue, SubprogramHeader.typedWords]
      using this
  -- The return is emitted while the exit jumps are still open.
  have hl₄ : ((l.addTyped h.typedWords).add (l.nextBlock h).code).Realizes
      { g₃ with image := im } := by
    have hstand : ∀ k a, (returnItem h).Stands k a w := by
      intro k a
      rw [returnItem, hreturn]
      exact hw
    have hplain : ∀ constants, (returnItem h).pool constants = constants := by
      intro constants
      rw [returnItem, hreturn]
      rfl
    have := realizes_emitted hl₃ (hstand _ _) hplain hcode hdata
    rwa [Ledger.add_add] at this
  have hlen : (l.nextBlock h).exit = g₃.image.code.size := by
    rw [hl₃.size]
    simp [Block.exit, Block.body, Ledger.nextBlock, Ledger.addTyped, Nat.add_assoc]
  have hown : ∀ a ∈ own₃, a < im.code.size := by
    intro a ha
    obtain ⟨hit, -⟩ := hl₄.exits a (by simp [hg₃, ha])
    rw [show im.code.size = _ from hl₄.size]
    exact (List.getElem?_eq_some_iff.mp hit).1
  obtain ⟨code', rfl, hsize, hsame, hset⟩ := hpatch (by simpa using hown) (by simp [hcode])
  have hfinish := realizes_finish (b := l.nextBlock h) hl₄ hg₃ houter hstart.symm
    (by rw [Block.exit_eq]; simp [Ledger.nextBlock, Ledger.addTyped]) hsize
    (by simpa using hsame) (by rw [hlen]; simpa using hset)
  exact ⟨rfl, hfinish⟩

/-- The code of a subprogram without those in it. -/
theorem lowerHeader_spec {h : SubprogramHeader} {g g' : Generation} {entry : Nat}
    (hx : lowerHeader h g = .ok entry g') (hc : g'.Clean) :
    g.Clean ∧ ∀ outer, g.exits = [] :: outer → outer.flatten = [] →
      ∀ l : Ledger, l.Realizes g → l.start = l.items.length →
        entry = l.items.length ∧ g'.exits = outer ∧ (l.addBlock h).Realizes g' := by
  unfold lowerHeader at hx
  obtain ⟨_, _, h₀, hx⟩ := bind_ok hx
  obtain ⟨rfl, rfl⟩ := nextAddress_ok h₀
  cases hsym : h.symbol with
  | none =>
    simp only [hsym] at hx
    obtain ⟨rfl, hc₀, hblock⟩ := lowerBlock_spec hx hc
    refine ⟨hc₀, fun outer hg houter l hl hstart => ?_⟩
    obtain ⟨hexits, hl'⟩ := hblock outer hg houter l hl hstart
    refine ⟨hl.size, hexits, ?_⟩
    simpa [Ledger.addBlock, Ledger.enterSymbol, hsym] using hl'
  | some sym =>
    simp only [hsym] at hx
    obtain ⟨_, g₁, h₁, hx⟩ := bind_ok hx
    obtain ⟨rfl, hc₁, hblock⟩ := lowerBlock_spec hx hc
    obtain ⟨hc₀, henter⟩ := enterAt_spec h₁ hc₁
    refine ⟨hc₀, fun outer hg houter l hl hstart => ?_⟩
    obtain ⟨hexits₁, -, hl₁⟩ := henter l hl
    obtain ⟨hexits, hl'⟩ := hblock outer (hexits₁.trans hg) houter _ hl₁ hstart
    refine ⟨hl.size, hexits, ?_⟩
    simpa [Ledger.addBlock, Ledger.enterSymbol, Ledger.nextBlock, Ledger.enter, hsym] using hl'

/-! ## Programs -/

private theorem openExits_ok {g g' : Generation} {u : Unit} (h : openExits g = .ok u g') :
    g' = { g with exits := [] :: g.exits } := by
  obtain ⟨-, rfl⟩ := EStateM.Result.ok.inj h
  rfl

mutual

/-- The code of a subprogram and of those in it. -/
theorem lowerSubprogram_spec : ∀ (s : Subprogram) {g g' : Generation} {entry : Nat},
    lowerSubprogram s g = .ok entry g' → g'.Clean →
      g.Clean ∧ (g.exits.flatten = [] → ∀ l : Ledger, l.Realizes g → l.start = l.items.length →
        entry = (l.addSubprograms s.nested).items.length ∧ g'.exits = g.exits ∧
        (l.addSubprogram s).Realizes g')
  | .mk h nested, g, g', entry, hx, hc => by
    unfold lowerSubprogram at hx
    obtain ⟨_, _, h₁, hx⟩ := bind_ok hx
    obtain rfl := openExits_ok h₁
    obtain ⟨_, g₂, h₂, h₃⟩ := bind_ok hx
    obtain ⟨hc₂, hheader⟩ := lowerHeader_spec h₃ hc
    obtain ⟨hc₁, hnested⟩ := lowerSubprograms_spec nested h₂ hc₂
    refine ⟨hc₁, fun hflat l hl hstart => ?_⟩
    have hl₁ : l.Realizes { g with exits := [] :: g.exits } :=
      ⟨hl.natives, hl.size, hl.stands, hl.start, hl.exits, hl.pending, hl.entries, hl.entered,
        hl.typed, hl.pool, hl.requested⟩
    obtain ⟨hexits₂, hstart₂, hl₂⟩ := hnested (by simpa using hflat) l hl₁ hstart
    obtain ⟨rfl, hexits, hl₃⟩ := hheader g.exits hexits₂ hflat _ hl₂ hstart₂
    refine ⟨rfl, hexits, ?_⟩
    simpa only [Ledger.addSubprogram] using hl₃

/-- The code of subprograms one after another. -/
theorem lowerSubprograms_spec : ∀ (subs : List Subprogram) {g g' : Generation} {u : Unit},
    lowerSubprograms subs g = .ok u g' → g'.Clean →
      g.Clean ∧ (g.exits.flatten = [] → ∀ l : Ledger, l.Realizes g → l.start = l.items.length →
        g'.exits = g.exits ∧ (l.addSubprograms subs).start = (l.addSubprograms subs).items.length ∧
        (l.addSubprograms subs).Realizes g')
  | [], g, g', u, hx, hc => by
    unfold lowerSubprograms at hx
    obtain ⟨-, rfl⟩ := pure_ok hx
    refine ⟨hc, fun _ l hl hstart => ?_⟩
    rw [Ledger.addSubprograms]
    exact ⟨rfl, hstart, hl⟩
  | s :: rest, g, g', u, hx, hc => by
    unfold lowerSubprograms at hx
    obtain ⟨_, g₁, h₁, h₂⟩ := bind_ok hx
    obtain ⟨hc₁, hrest⟩ := lowerSubprograms_spec rest h₂ hc
    obtain ⟨hc₀, hfirst⟩ := lowerSubprogram_spec s h₁ hc₁
    refine ⟨hc₀, fun hflat l hl hstart => ?_⟩
    obtain ⟨-, hexits₁, hl₁⟩ := hfirst hflat l hl hstart
    obtain ⟨hexits₂, hstart₂, hl₂⟩ := hrest (by rw [hexits₁]; exact hflat) _ hl₁
      (l.start_addSubprogram s)
    simpa only [Ledger.addSubprograms] using ⟨hexits₂.trans hexits₁, hstart₂, hl₂⟩

end

/-- Outside any subprogram too, an instruction adds its item. -/
theorem put_spec {pos : Pos} {op : Opcode} {a b : Int64} {c : String} {g g' : Generation}
    {u : Unit} (h : put pos op a b c g = .ok u g') (hc : g'.Clean) :
    g.Clean ∧ g'.exits = g.exits ∧ g'.pending = g.pending ∧ g'.image.start = g.image.start ∧
      ∀ l : Ledger, l.Realizes g → (l.add [.op op a b]).Realizes g' := by
  obtain ⟨r, g₁, h₁, h₂⟩ := bind_ok h
  obtain ⟨-, rfl⟩ := pure_ok h₂
  obtain ⟨hc₀, -, w, im, hw, rfl, hcode, hdata⟩ := emit_spec h₁ hc
  exact ⟨hc₀, rfl, rfl, hdata.start, fun l hl => realizes_emitted hl hw (fun _ => rfl) hcode hdata⟩

/-- Calls that still wait make errors. -/
theorem missingBodies_eq_nil {pending : List PendingCalls} (h : missingBodies pending = []) :
    pending = [] := by
  have hlen := congrArg List.length h
  simpa [missingBodies] using hlen

/-- Nothing has been generated at first. -/
theorem realizes_empty (natives : Registry) :
    ({ natives } : Ledger).Realizes { image := Image.empty natives } where
  natives := rfl
  size := rfl
  stands a it h := by simp at h
  start := Nat.le_refl _
  exits a h := by simp at h
  pending p h := by simp at h
  entries id t h := by simp at h
  entered id t h := by simp at h
  typed := rfl
  pool := Nat.le_refl _
  requested := rfl

/-- The start of a program calls it and stops. -/
theorem lowerProgram_spec {natives : Registry} {main : Subprogram} {g : Generation} {u : Unit}
    (hx : lowerProgram main { image := Image.empty natives } = .ok u g) (hc : g.Clean) :
    (Ledger.program natives main).Realizes g ∧ g.pending = [] ∧ g.exits = [] ∧
      g.image.start = Int64.ofNat (({ natives } : Ledger).addSubprogram main).items.length := by
  unfold lowerProgram at hx
  obtain ⟨entry, g₁, h₁, hx⟩ := bind_ok hx
  obtain ⟨_, _, h₂, hx⟩ := bind_ok hx
  obtain ⟨-, rfl⟩ := EStateM.Result.ok.inj h₂
  obtain ⟨_, _, h₃, hx⟩ := bind_ok hx
  obtain ⟨rfl, rfl⟩ := nextAddress_ok h₃
  obtain ⟨_, g₃, h₄, hx⟩ := bind_ok hx
  obtain ⟨_, g₄, h₅, hx⟩ := bind_ok hx
  obtain ⟨_, g₅, h₆, h₇⟩ := bind_ok hx
  obtain ⟨hc₅, e₇, p₇, s₇, k₇⟩ := put_spec h₇ hc
  obtain ⟨hc₄, e₆, p₆, s₆, k₆⟩ := put_spec h₆ hc₅
  obtain ⟨hc₃, e₅, p₅, s₅, k₅⟩ := put_spec h₅ hc₄
  obtain ⟨herr, _, im, -, hstart, rfl⟩ := onImage_ok h₄ hc₃
  obtain rfl := Image.setStart_ok hstart
  obtain ⟨herr₁, hbodies⟩ : g₁.errors = #[] ∧ missingBodies g₁.pending = [] := by
    simpa using herr
  have hpending := missingBodies_eq_nil hbodies
  obtain ⟨-, hmain⟩ := lowerSubprogram_spec main h₁ ⟨herr₁, hc₃.2⟩
  obtain ⟨rfl, hexits, hl⟩ := hmain rfl _ (realizes_empty natives) rfl
  refine ⟨?_, ?_, ?_, ?_⟩
  · have := k₇ _ (k₆ _ (k₅ _ ⟨hl.natives, hl.size, hl.stands, hl.start, hl.exits, hl.pending,
      hl.entries, hl.entered, hl.typed, hl.pool, hl.requested⟩))
    simpa [Ledger.program, Ledger.mainEntry] using this
  · rw [p₇, p₆, p₅]
    exact hpending
  · rw [e₇, e₆, e₅]
    exact hexits
  · rw [s₇, s₆, s₅, hl.size]

end Gen

/-! ## Finished images -/

namespace Compilation

/-- Whether compilation ends with an image. -/
def isImage : Compilation → Bool
  | .image _ => true
  | _ => false

/-- The image that compilation ends with, or one without instructions. -/
def result : Compilation → Image
  | .image im => im
  | _ => {}

/-- A compilation that succeeds results in its image. -/
theorem eq_image {c : Compilation} (h : c.isImage = true) : c = .image c.result := by
  cases c with
  | image im => rfl
  | _ => cases h

end Compilation

/-- The targets in a finished image: an exit jump leads to the return of its block, and a call to
an entry of its symbol. -/
def Ledger.finalLinking (l : Ledger) (im : Image) : Linking where
  constants := im.constants
  leaves a t := ∃ b ∈ l.blocks, b.entry ≤ a ∧ a ≤ b.exit ∧ t = b.exit
  calls id _ t := (id, t) ∈ l.entered

/-- An image holds what a ledger lists. -/
structure Image.Holds (im : Image) (l : Ledger) : Prop where
  natives : im.natives = l.natives
  size : im.code.size = l.items.length
  bound : im.code.size < 2 ^ 63
  stands : ∀ a (it : Item), l.items[a]? = some it →
    ∃ w, im.code[a]? = some w ∧ it.Stands (l.finalLinking im) a w
  entered : ∀ id t, (id, t) ∈ l.entered → t ≤ l.items.length
  typed : im.typedConstants.toList = l.typed
  requested : im.constants = poolOf l.items

/-- The image of a compiled program holds the account of the program. -/
theorem compile_holds {natives : Registry} {main : Subprogram} {im : Image}
    (h : compile natives (some main) = .image im) (hsize : im.code.size < 2 ^ 63) :
    im.Holds (Ledger.program natives main) ∧ im.frozen = true ∧
      im.start = Int64.ofNat (({ natives } : Ledger).addSubprogram main).items.length := by
  unfold compile at h
  cases hx : Gen.lowerProgram main { image := Image.empty natives } with
  | error e g => simp only [hx, reduceCtorEq] at h
  | ok u g =>
    simp only [hx] at h
    split at h
    · rename_i herr
      obtain rfl := Compilation.image.inj h
      have hc : g.Clean := ⟨by simpa using herr, hsize⟩
      obtain ⟨hl, hpending, hexits, hstart⟩ := Gen.lowerProgram_spec hx hc
      refine ⟨⟨hl.natives, hl.size, hsize, ?_, hl.entered, hl.typed, hl.requested⟩, rfl, hstart⟩
      intro a it hit
      obtain ⟨w, hw, hst⟩ := hl.stands a it hit
      refine ⟨w, hw, hst.imp (fun _ _ hv => hv) ?_ ?_⟩
      · rintro t (hopen | hblock)
        · simp [hexits] at hopen
        · exact hblock
      · rintro id t (⟨p, hp, -⟩ | hin)
        · simp [hpending] at hp
        · exact hin
    · cases h

end PCode
