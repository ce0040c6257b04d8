import PCode.Proofs.Codegen.StmtShape

/-!
# The nesting of blocks

Each block of a program belongs to a subprogram, and with it to those around
that.  A chain lists them, the innermost first.  The place of a call names its
callee by the number of scopes between, and the address of the callee is found
by its number among all declarations; here the two are shown to agree.

Main definitions and results:

- `Scoped.chains`: the chain of every subprogram.
- `Scoped.Placed`: what is known of the chains of a program.
- `Scoped.Program.callee`: the chain of what a call enters.
-/

namespace PCode

open Gen

/-- A subprogram of a program, as its block and the scope of its declarations. -/
structure Level where
  block : Block
  scope : Scope
  deriving Inhabited

namespace Scoped

/-! ## Chains -/

/-- A subprogram when its block comes after those that a ledger lists. -/
def level (l : Ledger) : Scoped → Level
  | mk s h nested => ⟨(l.addSubprograms (trees nested)).nextBlock h, s⟩

mutual

/-- The chains of a subprogram and of those in it, in the order of their blocks. -/
def chains (l : Ledger) (outer : List Level) : Scoped → List (List Level)
  | mk s h nested =>
    let own := (mk s h nested).level l :: outer
    allChains l own nested ++ [own]

/-- The chains of subprograms next to each other. -/
def allChains (l : Ledger) (outer : List Level) : List Scoped → List (List Level)
  | [] => []
  | n :: rest => n.chains l outer ++ allChains (l.addSubprogram n.tree) outer rest

end

/-- The blocks at the heads of chains. -/
def heads (cs : List (List Level)) : List Block := cs.filterMap fun c => c.head?.map Level.block

private theorem heads_append (cs ds : List (List Level)) :
    heads (cs ++ ds) = heads cs ++ heads ds :=
  List.filterMap_append

mutual

/-- The heads of the chains are the blocks that are added. -/
theorem blocks_chains (l : Ledger) (outer : List Level) :
    ∀ s : Scoped, (l.addSubprogram s.tree).blocks = l.blocks ++ heads (s.chains l outer)
  | mk s h nested => by
    rw [tree, Ledger.addSubprogram, Ledger.addBlock_blocks, blocks_allChains l _ nested, chains,
      heads_append, List.append_assoc]
    rfl

private theorem blocks_allChains (l : Ledger) (outer : List Level) :
    ∀ ns : List Scoped, (l.addSubprograms (trees ns)).blocks =
      l.blocks ++ heads (allChains l outer ns)
  | [] => by simp [trees, Ledger.addSubprograms, allChains, heads]
  | n :: rest => by
    rw [trees, Ledger.addSubprograms, blocks_allChains _ outer rest, blocks_chains l outer n,
      allChains, heads_append, List.append_assoc]

end

/-- The numbers of the subprograms declared at the heads of chains. -/
def headIds (cs : List (List Level)) : List Nat :=
  cs.flatMap fun c => (c.head?.map fun q => q.scope.callIds).getD []

mutual

private theorem headIds_chains (l : Ledger) (outer : List Level) :
    ∀ s : Scoped, headIds (s.chains l outer) = s.callIds
  | mk s h nested => by
    have hnested := headIds_allChains l ((mk s h nested).level l :: outer) nested
    rw [headIds] at hnested ⊢
    rw [chains, List.flatMap_append, hnested, callIds]
    simp [level]

private theorem headIds_allChains (l : Ledger) (outer : List Level) :
    ∀ ns : List Scoped, headIds (allChains l outer ns) = allCallIds ns
  | [] => rfl
  | n :: rest => by
    have hfirst := headIds_chains l outer n
    have hrest := headIds_allChains (l.addSubprogram n.tree) outer rest
    rw [headIds] at hfirst hrest ⊢
    rw [allChains, List.flatMap_append, hfirst, hrest, allCallIds]

end

mutual

private theorem items_chains (l : Ledger) :
    ∀ s : Scoped, l.items.length ≤ (l.addSubprogram s.tree).items.length
  | mk s h nested => by
    have hgrows := items_allChains l nested
    rw [tree, Ledger.addSubprogram, Ledger.addBlock_items, List.length_append]
    omega

private theorem items_allChains (l : Ledger) :
    ∀ ns : List Scoped, l.items.length ≤ (l.addSubprograms (trees ns)).items.length
  | [] => by simp [trees, Ledger.addSubprograms]
  | n :: rest => by
    have hfirst := items_chains l n
    have hrest := items_allChains (l.addSubprogram n.tree) rest
    rw [trees, Ledger.addSubprograms]
    omega

end

mutual

/-- Every chain is no longer than the code, since each block of it has an instruction. -/
theorem length_chains (l : Ledger) (outer : List Level) :
    ∀ s : Scoped, ∀ c ∈ s.chains l outer,
      c.length + l.items.length ≤ outer.length + (l.addSubprogram s.tree).items.length
  | mk s h nested, c, hc => by
    have hgrows := items_allChains l nested
    have hcode := ((l.addSubprograms (trees nested)).nextBlock h).exit_eq
    have hle := ((l.addSubprograms (trees nested)).nextBlock h).entry_le_exit
    rw [tree, Ledger.addSubprogram, Ledger.addBlock_items, List.length_append]
    rw [chains, List.mem_append, List.mem_singleton] at hc
    rcases hc with hc | rfl
    · have hnested := length_allChains l _ nested c hc
      rw [List.length_cons] at hnested
      omega
    · rw [List.length_cons]
      omega

private theorem length_allChains (l : Ledger) (outer : List Level) :
    ∀ ns : List Scoped, ∀ c ∈ allChains l outer ns,
      c.length + l.items.length ≤ outer.length + (l.addSubprograms (trees ns)).items.length
  | [], c, hc => by simp [allChains] at hc
  | n :: rest, c, hc => by
    have hitems := items_chains l n
    have hgrows := items_allChains (l.addSubprogram n.tree) rest
    rw [trees, Ledger.addSubprograms]
    rw [allChains, List.mem_append] at hc
    rcases hc with hc | hc
    · have hfirst := length_chains l outer n c hc
      omega
    · have hrest := length_allChains (l.addSubprogram n.tree) outer rest c hc
      omega

end

/-! ## Surroundings -/

/-- A chain among others: its head fits the scopes of the chain, and is declared by the subprogram
around it, unless that is outside. -/
structure Nested (natives : Registry) (outer : List Level) (root : Option Symbol → Prop)
    (all : List (List Level)) (q : Level) (t : List Level) : Prop where
  fits : ∃ nested, Fits natives ((q :: t).map Level.scope) q.scope q.block.header nested
  outside : t = outer ∧ root q.block.header.symbol ∨
    ∃ p t' sym, t = p :: t' ∧ t ∈ all ∧ q.block.header.symbol = some sym ∧ p.scope.DeclaresCall sym

private theorem Nested.mono {natives : Registry} {outer : List Level}
    {root root' : Option Symbol → Prop} {all all' : List (List Level)} {q : Level} {t : List Level}
    (h : Nested natives outer root all q t) (hroot : ∀ o, root o → root' o)
    (hall : ∀ c ∈ all, c ∈ all') : Nested natives outer root' all' q t := by
  refine ⟨h.fits, ?_⟩
  rcases h.outside with ⟨ht, ho⟩ | ⟨p, t', sym, ht, hmem, hsym⟩
  · exact .inl ⟨ht, hroot _ ho⟩
  · exact .inr ⟨p, t', sym, ht, hall _ hmem, hsym⟩

mutual

/-- Every chain of a well-formed subprogram is nested. -/
theorem nested_chains {natives : Registry} (l : Ledger) (outer : List Level) :
    ∀ s : Scoped, s.WellFormed natives (outer.map Level.scope) → ∀ c ∈ s.chains l outer,
      ∃ q t, c = q :: t ∧ Nested natives outer (· = s.header.symbol) (s.chains l outer) q t
  | mk s h nested, hwf, c, hc => by
    obtain ⟨hfits, hall⟩ := hwf
    rw [chains] at hc ⊢
    rw [List.mem_append, List.mem_singleton] at hc
    rcases hc with hc | rfl
    · obtain ⟨q, t, rfl, hq⟩ :=
        nested_allChains l ((mk s h nested).level l :: outer) nested hall c hc
      refine ⟨q, t, rfl, hq.fits, .inr ?_⟩
      rcases hq.outside with ⟨rfl, n, hn, hsym⟩ | ⟨p, t', sym, ht, hmem, hsym⟩
      · obtain ⟨sym, hsym', hdeclared⟩ := hfits.declared n hn
        exact ⟨_, outer, sym, rfl, by simp, hsym.trans hsym', hdeclared⟩
      · exact ⟨p, t', sym, ht, List.mem_append_left _ hmem, hsym⟩
    · exact ⟨_, outer, rfl, ⟨nested, hfits⟩, .inl ⟨rfl, rfl⟩⟩

private theorem nested_allChains {natives : Registry} (l : Ledger) (outer : List Level) :
    ∀ ns : List Scoped, AllWellFormed natives (outer.map Level.scope) ns →
      ∀ c ∈ allChains l outer ns, ∃ q t, c = q :: t ∧
        Nested natives outer (fun o => ∃ n ∈ ns, o = n.header.symbol) (allChains l outer ns) q t
  | [], hwf, c, hc => by simp [allChains] at hc
  | n :: rest, hwf, c, hc => by
    obtain ⟨hn, hrest⟩ := hwf
    rw [allChains] at hc ⊢
    rcases List.mem_append.mp hc with hc | hc
    · obtain ⟨q, t, rfl, hq⟩ := nested_chains l outer n hn c hc
      exact ⟨q, t, rfl, hq.mono (fun o ho => ⟨n, .head _, ho⟩)
        fun c hc => List.mem_append_left _ hc⟩
    · obtain ⟨q, t, rfl, hq⟩ := nested_allChains (l.addSubprogram n.tree) outer rest hrest c hc
      exact ⟨q, t, rfl, hq.mono (fun o ⟨n', hn', ho⟩ => ⟨n', .tail _ hn', ho⟩)
        fun c hc => List.mem_append_right _ hc⟩

end

/-! ## Programs -/

/-- The chains of a program. -/
def sites (natives : Registry) (src : Scoped) : List (List Level) := src.chains { natives } []

/-- The program itself, which all other subprograms are in. -/
def root (natives : Registry) (src : Scoped) : Level := src.level { natives }

/-- The program itself is a chain of one. -/
theorem root_mem_sites (natives : Registry) (src : Scoped) :
    [src.root natives] ∈ src.sites natives := by
  cases src
  simp [sites, chains, root]

/-- The program is entered at its entry address. -/
theorem root_entry (natives : Registry) (src : Scoped) :
    (src.root natives).block.entry = Ledger.mainEntry natives src.tree := by
  cases src
  rfl

/-- The outermost block has the symbol of the program. -/
theorem root_symbol (natives : Registry) (src : Scoped) :
    (src.root natives).block.header.symbol = src.header.symbol := by
  cases src
  rfl

/-- The heads of the chains of a program are its blocks. -/
theorem heads_sites (natives : Registry) (src : Scoped) :
    heads (src.sites natives) = (Ledger.program natives src.tree).blocks := by
  rw [Ledger.program, Ledger.add_blocks, blocks_chains _ []]
  rfl

/-- The head of a chain is a block of the program. -/
theorem mem_blocks {natives : Registry} {src : Scoped} {q : Level} {t : List Level}
    (h : q :: t ∈ src.sites natives) : q.block ∈ (Ledger.program natives src.tree).blocks := by
  rw [← heads_sites]
  exact List.mem_filterMap.mpr ⟨_, h, rfl⟩

/-- An address lies in the block of one chain only. -/
theorem site_of_address {natives : Registry} {src : Scoped} {q q' : Level} {t t' : List Level}
    {p : Nat} (h : q :: t ∈ src.sites natives) (h' : q' :: t' ∈ src.sites natives)
    (hp : q.block.entry ≤ p ∧ p ≤ q.block.exit) (hp' : q'.block.entry ≤ p ∧ p ≤ q'.block.exit) :
    q :: t = q' :: t' := by
  have horder := (Ledger.placed_program natives src.tree).order
  rw [← heads_sites, heads, List.pairwise_filterMap] at horder
  refine eq_of_pairwise horder h h' (fun hlt => ?_) fun hlt => ?_
  · have := hlt _ rfl _ rfl
    omega
  · have := hlt _ rfl _ rfl
    omega

/-- A chain is determined by the entry of its block. -/
theorem site_unique {natives : Registry} {src : Scoped} {q q' : Level} {t t' : List Level}
    (h : q :: t ∈ src.sites natives) (h' : q' :: t' ∈ src.sites natives)
    (hentry : q.block.entry = q'.block.entry) : q :: t = q' :: t' :=
  site_of_address h h' ⟨Nat.le_refl _, q.block.entry_le_exit⟩
    ⟨hentry.ge, hentry ▸ q'.block.entry_le_exit⟩

namespace Program

variable {natives : Registry} {src : Scoped} {q : Level} {t : List Level}

private theorem nested (hp : Program natives src) {c : List Level} (hc : c ∈ src.sites natives) :
    ∃ q t, c = q :: t ∧ Nested natives [] (· = none) (src.sites natives) q t := by
  obtain ⟨q, t, rfl, hq⟩ := nested_chains { natives } [] src hp.wellFormed c hc
  exact ⟨q, t, rfl, hq.mono (fun o ho => ho.trans hp.symbol) fun _ h => h⟩

/-- A chain of a program lies in it level by level. -/
theorem nested_cons (hp : Program natives src) (h : q :: t ∈ src.sites natives) :
    Nested natives [] (· = none) (src.sites natives) q t := by
  obtain ⟨q', t', heq, hq⟩ := hp.nested h
  obtain ⟨rfl, rfl⟩ := List.cons.inj heq
  exact hq

/-- What is around a subprogram is a chain too, if it is not empty. -/
theorem drop_mem (hp : Program natives src) {c : List Level} (hc : c ∈ src.sites natives)
    (k : Nat) : c.drop k = [] ∨ c.drop k ∈ src.sites natives := by
  induction k with
  | zero => exact .inr hc
  | succ k ih =>
    rw [← List.drop_drop]
    rcases ih with hnil | hmem
    · simp [hnil]
    · obtain ⟨q, t, heq, hq⟩ := hp.nested hmem
      rw [heq, List.drop_succ_cons, List.drop_zero]
      rcases hq.outside with ⟨rfl, -⟩ | ⟨_, _, _, -, ht, -⟩
      · exact .inl rfl
      · exact .inr ht

/-- All scopes around a subprogram were built. -/
theorem built (hp : Program natives src) {c : List Level} (hc : c ∈ src.sites natives) :
    ∀ s ∈ c.map Level.scope, s.Built := by
  intro s hs
  obtain ⟨q, hq, rfl⟩ := List.mem_map.mp hs
  obtain ⟨k, hk⟩ := List.getElem?_of_mem hq
  have hdrop : c.drop k = q :: c.drop (k + 1) := by
    obtain ⟨hlt, rfl⟩ := List.getElem?_eq_some_iff.mp hk
    exact List.drop_eq_getElem_cons hlt
  rcases hp.drop_mem hc k with hnil | hmem
  · simp [hnil] at hdrop
  · rw [hdrop] at hmem
    obtain ⟨nested, hfits⟩ := (hp.nested_cons hmem).fits
    exact hfits.built

/-- The chain of what a call enters: it is around the call, as far out as the call says. -/
theorem callee (hp : Program natives src) {chain : List Level} (hc : chain ∈ src.sites natives)
    {sym : Symbol} {level entry : Nat} (hcalls : Scopes.Calls (chain.map Level.scope) sym level)
    (hentered : (sym.id, entry) ∈ (Ledger.program natives src.tree).entered) :
    ∃ q, q :: chain.drop level ∈ src.sites natives ∧ q.block.entry = entry ∧
      q.block.header.symbol = some sym := by
  -- What declares the callee is a chain.
  obtain ⟨s, hs, hdeclared⟩ := hcalls
  obtain ⟨p, hp', rfl⟩ : ∃ p, chain[level]? = some p ∧ p.scope = s := by simpa using hs
  have hdrop : chain.drop level = p :: chain.drop (level + 1) := by
    obtain ⟨hlt, rfl⟩ := List.getElem?_eq_some_iff.mp hp'
    exact List.drop_eq_getElem_cons hlt
  have hsite : p :: chain.drop (level + 1) ∈ src.sites natives := by
    rcases hp.drop_mem hc level with hnil | hmem
    · simp [hnil] at hdrop
    · rwa [hdrop] at hmem
  -- What is entered is a block with the number of the callee.
  obtain ⟨b, hb, sym', hsym', hid, rfl⟩ :=
    ((Ledger.placed_program natives src.tree).entered _ _).mp hentered
  rw [← heads_sites] at hb
  obtain ⟨chain', hc', hhead⟩ := List.mem_filterMap.mp hb
  obtain ⟨q, u, rfl, hq⟩ := hp.nested hc'
  obtain rfl : q.block = b := Option.some.inj hhead
  rcases hq.outside with ⟨-, hnone⟩ | ⟨p', u', sym'', rfl, hu, hsym'', hdeclared'⟩
  · rw [hsym'] at hnone
    cases hnone
  · obtain rfl : sym' = sym'' := Option.some.inj (hsym'.symm.trans hsym'')
    have hdistinct := hp.distinct
    rw [← headIds_chains { natives } [] src, headIds, List.Nodup, List.pairwise_flatMap]
      at hdistinct
    have hids := hdeclared.mem_callIds
    have hids' := hdeclared'.mem_callIds
    obtain ⟨hscope, hchains⟩ := hdistinct
    have hsame : p :: chain.drop (level + 1) = p' :: u' := by
      refine eq_of_pairwise hchains hsite hu (fun hne => ?_) fun hne => ?_
      · exact hne _ hids _ hids' hid.symm
      · exact hne _ hids' _ hids hid
    obtain ⟨rfl, rfl⟩ := List.cons.inj hsame
    obtain rfl := Scope.declaresCall_unique (hscope _ hsite) hdeclared hdeclared' hid.symm
    exact ⟨q, by rwa [hdrop], rfl, hsym'⟩

/-! ## Accepted programs -/

/-- What a subprogram returns is what its declaration says. -/
theorem result_eq (hp : Program natives src) (h : q :: t ∈ src.sites natives) {sym : Symbol}
    (hsym : q.block.header.symbol = some sym) (hvoid : sym.resultType.isVoid = false) :
    q.block.header.kind = .function ∧ q.block.header.result = sym.resultType := by
  obtain ⟨nested, hfits⟩ := (hp.nested_cons h).fits
  refine ⟨hfits.function.mpr ⟨sym, hsym, hvoid⟩, ?_⟩
  rw [hfits.result, hsym]
  cases htype : sym.type with
  | subprogram params result =>
    rw [Symbol.isVoid_resultType htype] at hvoid
    rw [Scope.result_subprogram htype hvoid, Symbol.resultType_eq htype hvoid]
  | _ =>
    simp only [Symbol.resultType, htype] at hvoid
    cases hvoid

/-- The type code that a function of an accepted program returns with. -/
theorem returnCode_eq {im : Image} (h : q :: t ∈ src.sites natives)
    (hholds : im.Holds (Ledger.program natives src.tree)) :
    ∃ code, returnCode? q.block.header = some code := by
  have hblock := hholds.codeAt_block (Ledger.placed_program natives src.tree) (mem_blocks h)
  have hreturn := (codeAt_append.mp hblock).2
  cases hcode : returnCode? q.block.header with
  | some code => exact ⟨code, rfl⟩
  | none =>
    rw [returnItem, hcode] at hreturn
    exact absurd hreturn not_codeAt_refused

/-- What a called function returns has one word. -/
theorem size_result (hp : Program natives src) {im : Image} (h : q :: t ∈ src.sites natives)
    (hholds : im.Holds (Ledger.program natives src.tree)) {sym : Symbol}
    (hsym : q.block.header.symbol = some sym) (hvoid : sym.resultType.isVoid = false) :
    sym.resultType.size = 1 := by
  obtain ⟨hkind, hresult⟩ := hp.result_eq h hsym hvoid
  obtain ⟨code, hcode⟩ := returnCode_eq h hholds
  rw [returnCode?, if_pos hkind, hresult] at hcode
  exact size_of_code? hcode

/-- The code of every block of an accepted program is accepted. -/
theorem accepted (hp : Program natives src) {im : Image} (h : q :: t ∈ src.sites natives)
    (hholds : im.Holds (Ledger.program natives src.tree)) :
    Accepted (Scopes.Calls ((q :: t).map Level.scope)) q.block.code := by
  have hblock := hholds.codeAt_block (Ledger.placed_program natives src.tree) (mem_blocks h)
  refine ⟨fun it hit => ?_, ?_⟩
  · obtain ⟨i, hi⟩ := List.getElem?_of_mem hit
    obtain ⟨w, -, hstands⟩ := hblock i it hi
    cases it with
    | op o x y =>
      obtain ⟨-, hx, hy⟩ := hstands
      exact ⟨by omega, by omega⟩
    | call words sym =>
      intro level hcalls hvoid
      obtain ⟨entry, -, hentered⟩ := hstands
      obtain ⟨p, hp', -, hsym⟩ := hp.callee h hcalls hentered
      exact hp.size_result hp' hholds hsym hvoid
    | refused => exact hstands
    | const code v => trivial
    | jump o d => trivial
    | leave => trivial
  · have hexit := q.block.exit_eq
    have hends := (Ledger.placed_program natives src.tree).ends _ (mem_blocks h)
    have hstart := (Ledger.placed_program natives src.tree).start
    have hsize := hholds.size
    have hbound := hholds.bound
    omega

/-- The scopes around a block were built by declarations, and there are not too many. -/
theorem surroundings (hp : Program natives src) {im : Image} {c : List Level}
    (hc : c ∈ src.sites natives) (hholds : im.Holds (Ledger.program natives src.tree))
    (hnatives : natives.size < 2 ^ 63) : Surroundings natives (c.map Level.scope) where
  built := hp.built hc
  depth := by
    have hlength := length_chains { natives } [] src c hc
    have hsize := hholds.size
    have hbound := hholds.bound
    simp only [Ledger.program, Ledger.add_items, List.length_append, List.length_nil]
      at hsize hlength
    rw [List.length_map]
    omega
  natives := hnatives

/-- The code of every block of an accepted program starts and ends at the empty shape, and so do
its jumps. -/
theorem settles (hp : Program natives src) {im : Image} (h : q :: t ∈ src.sites natives)
    (hholds : im.Holds (Ledger.program natives src.tree)) (hnatives : natives.size < 2 ^ 63) :
    Settles natives (Scopes.Calls ((q :: t).map Level.scope)) q.block.code := by
  obtain ⟨nested, hfits⟩ := (hp.nested_cons h).fits
  exact Block.settles (hp.surroundings h hholds hnatives) hfits.body (hp.accepted h hholds)

end Program

end Scoped

/-- The number of words that a return leaves. -/
def Level.results (q : Level) : Nat :=
  match q.block.header.symbol with
  | some sym => Item.results (!sym.resultType.isVoid)
  | none => 0

/-- A block returns with a type code other than that of no type exactly when it leaves a word. -/
theorem Scoped.Program.results_eq {natives : Registry} {src : Scoped} {q : Level} {t : List Level}
    (hp : Program natives src) (h : q :: t ∈ src.sites natives) {code : UInt8}
    (hcode : returnCode? q.block.header = some code) :
    q.results = if code = TypeCode.void.byte then 0 else 1 := by
  obtain ⟨nested, hfits⟩ := (hp.nested_cons h).fits
  by_cases hkind : q.block.header.kind = .function
  · obtain ⟨sym, hsym, hvoid⟩ := hfits.function.mp hkind
    obtain ⟨-, hresult⟩ := hp.result_eq h hsym hvoid
    rw [returnCode?, if_pos hkind, hresult] at hcode
    have hne : code ≠ TypeCode.void.byte := by
      rintro rfl
      have hsimple : sym.resultType.isSimple .void = true := by simp [Ty.isSimple, hcode]
      cases htype : sym.resultType <;> simp_all [Ty.isVoid, Ty.code?]
    rw [if_neg hne]
    simp [Level.results, hsym, hvoid, Item.results]
  · rw [returnCode?, if_neg hkind] at hcode
    rw [if_pos (Option.some.inj hcode).symm]
    unfold Level.results
    split
    · rename_i sym hsym
      have hvoid : sym.resultType.isVoid = true := by
        by_cases hv : sym.resultType.isVoid = false
        · exact absurd (hfits.function.mpr ⟨sym, hsym, hv⟩) hkind
        · simpa using hv
      simp [hvoid, Item.results]
    · rfl

end PCode
