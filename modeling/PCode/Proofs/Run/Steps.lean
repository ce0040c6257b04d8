import PCode.Proofs.Run.Order

/-!
# The call stack

Which subprograms are active is a matter of the calls and returns that were
executed, whatever the machine remembers of them.  Following them gives a call
stack, in which each call finds the frames around its callee among those of its
caller.  Every instruction of a compiled program keeps the stack of the machine
in order for this call stack.

Main definitions and results:

- `Scoped.follow`: the live activations after an instruction.
- `Inside.executes`: the instructions of a subprogram keep the stack in order.
- `Ordered.executes`: a machine in order has a next instruction, which keeps it so.
-/

namespace PCode

open Machine

/-! ## Following calls and returns -/

namespace Scoped

/-- The chain of the subprogram with an entry. -/
def siteAt? (natives : Registry) (src : Scoped) (entry : Nat) : Option (List Level) :=
  (src.sites natives).find? fun c => c.head?.any fun q => q.block.entry == entry

private theorem siteAt?_eq {natives : Registry} {src : Scoped} {q : Level} {t : List Level}
    (h : q :: t ∈ src.sites natives) : src.siteAt? natives q.block.entry = some (q :: t) := by
  unfold siteAt?
  cases hfind : (src.sites natives).find? fun c => c.head?.any (·.block.entry == q.block.entry) with
  | none =>
    have hnone := List.find?_eq_none.mp hfind _ h
    simp at hnone
  | some c =>
    have hmem := List.mem_of_find?_eq_some hfind
    have hentry := List.find?_some hfind
    cases c with
    | nil => simp at hentry
    | cons q' t' =>
      have hsame : q'.block.entry = q.block.entry := by simpa using hentry
      rw [site_unique hmem h hsame]

/-- The activations that are live after an instruction.  A call adds that of the subprogram at its
target, whose frame starts with the mark below the arguments; the frames around it are those that
the caller can name, from the subprogram around the callee on.  A return takes the newest away. -/
def follow (natives : Registry) (src : Scoped) (m : Machine) (w : Word) (acts : List Activation) :
    List Activation :=
  match Opcode.ofByte? w.opcode with
  | some .cup =>
    match src.siteAt? natives w.operand2 with
    | some (q :: t) =>
      let visible := acts.head?.elim [] Activation.frames
      { frame := ⟨q, m.sp.toNatClampNeg - w.operand1 - markSize⟩
        outer := visible.drop (visible.length - t.length)
        back := m.pc.toNatClampNeg + 1 } :: acts
    | _ => acts
  | some .rtn => acts.tail
  | _ => acts

section

variable {natives : Registry} {src : Scoped} {m : Machine} {w : Word} {acts : List Activation}
  {o : Opcode} {x y : Int}

/-- Other instructions neither call nor return. -/
theorem follow_of_reads (hw : w.Reads o x y) (hcup : o ≠ .cup) (hrtn : o ≠ .rtn) :
    src.follow natives m w acts = acts := by
  unfold follow
  rw [hw.1, Opcode.ofByte?_byte]
  split
  · rename_i h
    exact absurd (Option.some.inj h) hcup
  · rename_i h
    exact absurd (Option.some.inj h) hrtn
  · rfl

private theorem follow_return (hw : w.Reads .rtn x y) :
    src.follow natives m w acts = acts.tail := by
  unfold follow
  rw [hw.1, Opcode.ofByte?_byte]

private theorem follow_call {q : Level} {t : List Level} {base p : Nat} (hw : w.Reads .cup x y)
    (hq : q :: t ∈ src.sites natives) (hentry : w.operand2 = q.block.entry)
    (hsp : m.sp.toInt = (base + markSize + w.operand1 : Nat)) (hpc : m.pc.toInt = p) :
    src.follow natives m w acts =
      ⟨⟨q, base⟩, (acts.head?.elim [] Activation.frames).drop
        ((acts.head?.elim [] Activation.frames).length - t.length), p + 1⟩ :: acts := by
  have hbase : m.sp.toNatClampNeg - w.operand1 - markSize = base := by
    rw [toNatClampNeg_eq]
    omega
  have hback : m.pc.toNatClampNeg = p := by
    rw [toNatClampNeg_eq]
    omega
  unfold follow
  rw [hw.1, Opcode.ofByte?_byte]
  simp only [hentry, siteAt?_eq hq, hbase, hback]

end

end Scoped

/-! ## Every instruction -/

/-- What stands in a body with operands of its own neither calls, nor enters, nor returns. -/
theorem Opcode.ne_of_inner {o : Opcode} (h : o.arity?.isSome ∨ o = .mst ∨ o = .csp) :
    o ≠ .cup ∧ o ≠ .ent ∧ o ≠ .rtn := by
  refine ⟨?_, ?_, ?_⟩ <;> rintro rfl <;> rcases h with h | h | h <;> cases h

section

variable {natives : Registry} {src : Scoped} {im : Image} {m : Machine} {a : Activation}
  {acts rest : List Activation} {p : Nat} {w : Word}

namespace Inside

/-- A word of the block of the newest activation. -/
theorem hasWord {s : Shape} (h : Inside natives src m a rest s p) (hword : im.code[p]? = some w) :
    a.level.block.HasWord im p w :=
  ⟨Nat.le_of_lt h.low, h.high, hword⟩

/-- A call opens the activation of its callee. -/
theorem executes_callItem (hc : Compiled natives src im) {words : Int64} {sym : Symbol}
    (h : Inside natives src m a rest (a.level.block.shapeAt natives p) p) (hactive : m.Active)
    (hlt : p < a.level.block.exit)
    (hl : Located natives src im a.level (a.outer.map Frame.level) p (.call words sym) w) :
    Meets (execute w) (m.fetched w) fun _ =>
      Continues natives src m (src.follow natives m w (a :: rest)) := by
  obtain ⟨t, hreads, hentered⟩ := hl.stands
  obtain ⟨level, s, hshape, hcalls⟩ := hl.admits
  obtain ⟨q, hq, hentry, hsym⟩ := hc.program.callee h.chain_mem hcalls hentered
  rw [← a.chain_eq] at hq hcalls
  have hlevel : level < a.frames.length := by
    obtain ⟨scope, hscope, -⟩ := hcalls
    have := (List.getElem?_eq_some_iff.mp hscope).1
    rwa [List.length_map, a.length_chain] at this
  have hcount : w.operand1 = words.toNatClampNeg := by
    have := hreads.2.1
    rw [toNatClampNeg_eq]
    omega
  have htarget : w.operand2 = q.block.entry := by
    have := hreads.2.2
    omega
  have hnext : a.level.block.shapeAt natives (p + 1) = Shape.words q.results ++ s := by
    rw [hl.next, hshape, Item.after, ← List.drop_drop, Shape.drop_words, Level.results, hsym]
    rfl
  rw [hshape] at h
  have hfollow : src.follow natives m w (a :: rest) =
      a.opening q level s (p + 1) :: a :: rest := by
    obtain ⟨heap, hkeeps⟩ := h.keeps
    have hexit := hc.exit_lt h.chain_mem
    have hsp : m.sp.toInt = (a.top + Shape.height s + markSize + w.operand1 : Nat) := by
      rw [hkeeps.toInt_sp, hcount, Shape.height_append, Shape.height_words, Shape.height_cons,
        Slot.size]
      omega
    have hpc : m.pc.toInt = p := by rw [h.pc, toInt_ofNat (by omega)]
    have hdrop : a.frames.length - (a.chain.drop level).length = level := by
      rw [List.length_drop, a.length_chain]
      omega
    rw [Scoped.follow_call hreads hq htarget hsp hpc]
    simp only [List.head?_cons, Option.elim_some, hdrop, Activation.opening]
  rw [hfollow]
  exact h.executes_call hc.program hactive hlt hlevel hq hreads hcount htarget hnext

/-- A jump leads to where nothing is above the frame. -/
theorem executes_jumpItem (hc : Compiled natives src im) {o : Opcode} {d : Int}
    (h : Inside natives src m a rest (a.level.block.shapeAt natives p) p) (hactive : m.Active)
    (hlt : p < a.level.block.exit)
    (hl : Located natives src im a.level (a.outer.map Frame.level) p (.jump o d) w) :
    Meets (execute w) (m.fetched w) fun _ => Continues natives src m (a :: rest) := by
  have hreads : w.Reads o 0 (p + d) := hl.stands
  have hjump : o ∈ [Opcode.ujp, .fjp, .tjp] := by
    rcases hl.admits with ⟨rfl, -⟩ | ⟨rfl | rfl, -⟩ <;> decide
  obtain ⟨hlow, hhigh⟩ := jump_in_block hc.holds hc.placed (Scoped.mem_blocks h.chain_mem)
    (h.hasWord hl.word) ⟨o, hjump, hreads.1⟩
  have hlands : a.level.block.shapeAt natives w.operand2 = [] := by
    obtain ⟨j, hj, -, hempty⟩ :=
      (hc.program.settles h.chain_mem hc.holds hc.few).lands _ o d hl.item
    have htarget := hreads.2.2
    have hbelow := h.low
    unfold Block.shapeAt
    rw [show w.operand2 - a.level.block.entry = j by omega, hempty]
  have hnext := hl.next
  rcases hl.admits with ⟨rfl, hshape⟩ | ⟨ho, hshape⟩
  · rw [hshape] at h
    exact h.executes_jump hc.program hactive hreads hlow hhigh hlands
  · rw [hshape] at h hnext
    have hpopped : a.level.block.shapeAt natives (p + 1) = [] := by
      rw [hnext]
      rcases ho with rfl | rfl <;> rfl
    exact h.executes_branch hc.program hactive hlt hpopped ho hreads hlow hhigh hlands

/-- An exit leads to the return. -/
theorem executes_leaveItem (hc : Compiled natives src im)
    (h : Inside natives src m a rest (a.level.block.shapeAt natives p) p) (hactive : m.Active)
    (hl : Located natives src im a.level (a.outer.map Frame.level) p .leave w) :
    Meets (execute w) (m.fetched w) fun _ => Continues natives src m (a :: rest) := by
  obtain ⟨t, hreads, hleaves⟩ := hl.stands
  have hblock := Scoped.mem_blocks h.chain_mem
  have hlow := h.low
  have hexit := hc.placed.leaves_eq hblock ⟨Nat.le_of_lt h.low, h.high⟩ hleaves
  have htarget : w.operand2 = a.level.block.exit := by
    have := hreads.2.2
    omega
  have hhigh := h.high
  have hshape : a.level.block.shapeAt natives p = [] := hl.admits
  rw [hshape] at h
  exact h.executes_jump hc.program hactive hreads (by omega) (Nat.le_of_eq htarget)
    (htarget ▸ hc.shapeAt_exit h.chain_mem)

/-- An instruction with operands of its own works on what is above the frame. -/
theorem executes_opItem (hc : Compiled natives src im) (himage : m.image = im) {o : Opcode}
    {x y : Int64} (h : Inside natives src m a rest (a.level.block.shapeAt natives p) p)
    (hactive : m.Active) (hlt : p < a.level.block.exit)
    (hinner : o.arity?.isSome ∨ o = .mst ∨ o = .csp)
    (hl : Located natives src im a.level (a.outer.map Frame.level) p (.op o x y) w)
    (hstores : ∀ q ∈ (m.fetched w).stores w,
      Permitted m.image.typedConstants.size (a :: rest) q.1 q.2) :
    Meets (execute w) (m.fetched w) fun _ => Continues natives src m (a :: rest) := by
  have hreads : w.Reads o x.toInt y.toInt := hl.stands
  have hfirst : w.operand1 = x.toNatClampNeg := by
    have := hreads.2.1
    rw [toNatClampNeg_eq]
    omega
  have hsecond : w.operand2 = y.toNatClampNeg := by
    have := hreads.2.2
    rw [toNatClampNeg_eq]
    omega
  have hnext := hl.next
  rcases hl.admits with rfl | ⟨hlinkage, -⟩ | ⟨rfl, native, s, hnative, hshape⟩ | hoperands
  · rw [Item.after, if_pos rfl, ← hfirst] at hnext
    exact h.executes_mark hc.program hactive hlt hreads hnext
  · obtain ⟨-, hent, hrtn⟩ := Opcode.ne_of_inner hinner
    exact (hlinkage.elim hent hrtn).elim
  · rw [hshape] at h hnext
    have hresults : a.level.block.shapeAt natives (p + 1) =
        Shape.words (Item.results native.isFunction) ++ s := by
      rw [hnext, Item.after, if_neg (by decide), if_pos rfl, hnative, Shape.drop_words]
      rfl
    exact h.executes_native hc himage hactive hlt hreads hfirst (hsecond ▸ hnative) hresults hstores
  · obtain ⟨popped, pushed, s, harity, hshape⟩ := hoperands
    have hmst : o ≠ .mst := by rintro rfl; cases harity
    have hcsp : o ≠ .csp := by rintro rfl; cases harity
    rw [hshape] at h hnext
    have hresults : a.level.block.shapeAt natives (p + 1) = Shape.words pushed ++ s := by
      simp only [hnext, Item.after, if_neg hmst, if_neg hcsp, harity, Shape.drop_words]
    exact h.executes_operands hc.program hactive hlt hreads harity hresults hstores

/-- Every instruction of the newest activation keeps the stack in order. -/
theorem executes (hc : Compiled natives src im) (himage : m.image = im)
    (h : Inside natives src m a rest (a.level.block.shapeAt natives p) p) (hactive : m.Active)
    (hword : im.code[p]? = some w)
    (hstores : ∀ q ∈ (m.fetched w).stores w,
      Permitted m.image.typedConstants.size (a :: rest) q.1 q.2) :
    Meets (execute w) (m.fetched w) fun _ =>
      Continues natives src m (src.follow natives m w (a :: rest)) := by
  obtain ⟨it, w', hl⟩ := hc.located h.chain_mem (Nat.le_of_lt h.low) h.high
  obtain rfl := Option.some.inj (hl.word.symm.trans hword)
  have hlow := h.low
  have hexit := a.level.block.exit_eq_inside
  rcases a.level.block.cases_code hl.item with ⟨hzero, -⟩ | ⟨hreturn, rfl⟩ | ⟨j, hj, hlt, hinside⟩
  · omega
  · -- The return.
    obtain rfl : p = a.level.block.exit := by omega
    obtain ⟨code, hcode⟩ := Scoped.Program.returnCode_eq h.chain_mem hc.holds
    have hstands := hl.stands
    rw [Gen.returnItem, hcode] at hstands
    have hreads : w'.Reads .rtn (operandOfCode code).toInt (0 : Int64).toInt := hstands
    have hoperand : w'.operand1 = code.toNat := by
      have hfirst := hreads.2.1
      have hbyte := code.toNat_lt
      rw [operandOfCode, toInt_ofNat (by omega)] at hfirst
      omega
    rw [hc.shapeAt_exit h.chain_mem] at h
    rw [Scoped.follow_return hreads]
    exact h.executes_return hc hactive hreads hcode hoperand
  · have hbelow : p < a.level.block.exit := by omega
    have hinner := a.level.block.inner_inside it (List.mem_of_getElem? hinside)
    cases it with
    | op o x y =>
      have hreads : w'.Reads o x.toInt y.toInt := hl.stands
      have hkind : o.arity?.isSome ∨ o = .mst ∨ o = .csp := hinner.1
      obtain ⟨hcup, -, hrtn⟩ := Opcode.ne_of_inner hkind
      rw [Scoped.follow_of_reads hreads hcup hrtn]
      exact h.executes_opItem hc himage hactive hbelow hkind hl hstores
    | const code v =>
      obtain ⟨i, -, hreads⟩ := hl.stands
      rw [Scoped.follow_of_reads hreads (by decide) (by decide)]
      have hnone : Opcode.ldc.arity? = some (0, 1) := rfl
      exact h.executes_operands hc.program hactive hbelow hreads hnone hl.next hstores
    | jump o d =>
      have hreads : w'.Reads o 0 (p + d) := hl.stands
      rw [Scoped.follow_of_reads hreads (by rcases hinner with rfl | rfl | rfl <;> decide)
        (by rcases hinner with rfl | rfl | rfl <;> decide)]
      exact h.executes_jumpItem hc hactive hbelow hl
    | leave =>
      obtain ⟨t, hreads, -⟩ := hl.stands
      rw [Scoped.follow_of_reads hreads (by decide) (by decide)]
      exact h.executes_leaveItem hc hactive hl
    | call words sym => exact h.executes_callItem hc hactive hbelow hl
    | refused => exact hl.stands.elim

end Inside

/-- The entry instruction of the newest activation keeps the stack in order. -/
theorem Entering.executes_entry (hc : Compiled natives src im) (h : Entering natives src m a rest)
    (hactive : m.Active) (hword : im.code[a.level.block.entry]? = some w) :
    Meets (execute w) (m.fetched w) fun _ =>
      Continues natives src m (src.follow natives m w (a :: rest)) := by
  have hsite := h.live.chain_mem (.head _)
  rw [a.chain_eq] at hsite
  obtain ⟨it, w', hl⟩ := hc.located hsite (Nat.le_refl _) a.level.block.entry_le_exit
  obtain rfl := Option.some.inj (hl.word.symm.trans hword)
  have hexit := a.level.block.exit_eq_inside
  rcases a.level.block.cases_code hl.item with ⟨-, rfl⟩ | ⟨hreturn, -⟩ | ⟨j, hj, -, -⟩
  · have hreads : w'.Reads .ent (0 : Int64).toInt a.level.block.header.frameSize.toInt := hl.stands
    have hregister : w'.operand1 = 0 := by
      have hfirst := hreads.2.1
      rw [Int64.toInt_zero] at hfirst
      omega
    have hempty : a.level.block.shapeAt natives a.level.block.entry = [] := by
      rw [Block.shapeAt, Nat.sub_self]
      rfl
    have hnext := hl.next
    rw [hempty] at hnext
    rw [Scoped.follow_of_reads hreads (by decide) (by decide)]
    exact h.executes hc hactive hreads hregister hnext
  · omega
  · omega

/-! ## The start of a program -/

/-- The first instruction pushes the mark of the program. -/
theorem executes_launch {heap : Nat} (hmp : m.mp = 0)
    (hpc : m.pc = Int64.ofNat (src.launch natives)) (hactive : m.Active)
    (hkeeps : Keeps m m.image.typedConstants.size heap []) (hw : w.Reads .mst 0 0) :
    Meets (execute w) (m.fetched w) fun _ => Continues natives src m [] := by
  have hlevel : w.operand1 = 0 := by
    have := hw.2.1
    omega
  rw [execute_of_reads hw, perform, hlevel]
  refine (meets_markStack (hkeeps.fetched w) 0).mono fun _ m' hmark => ?_
  obtain ⟨hstill, link, hlink, hmarked⟩ := hmark
  obtain rfl : m.mp = link := (EStateM.Result.ok.inj hlink).1
  have habreast := (abreast_fetched m w).trans (.of_still hstill)
  have hactive' := habreast.active hactive
  rw [(abreast_fetched m w).mp, hmp, ← habreast.image] at hmarked
  exact ⟨habreast.image, .running hactive'.state hactive'.reader
    (.launching (habreast.mp.trans hmp) ((congrArg Machine.pc hstill :).trans (fetched_pc hpc w))
      hmarked)⟩

/-- The second instruction calls the program. -/
theorem executes_start {heap : Nat}
    (hpc : m.pc = Int64.ofNat (src.launch natives + 1)) (hactive : m.Active)
    (hbound : src.launch natives + 1 < 2 ^ 63)
    (hkeeps : Keeps m (m.image.typedConstants.size + markSize) heap
      (linkWords m.image.typedConstants.size 0 0))
    (hw : w.Reads .cup 0 (Ledger.mainEntry natives src.tree)) :
    Meets (execute w) (m.fetched w) fun _ =>
      Continues natives src m (src.follow natives m w []) := by
  have hcount : w.operand1 = 0 := by
    have := hw.2.1
    omega
  have hentry : w.operand2 = (src.root natives).block.entry := by
    have := hw.2.2
    rw [src.root_entry]
    omega
  have hfollow : src.follow natives m w [] =
      [⟨⟨src.root natives, m.image.typedConstants.size⟩, [], src.launch natives + 2⟩] := by
    refine Scoped.follow_call hw (src.root_mem_sites natives) hentry ?_ ?_
    · rw [hkeeps.toInt_sp, hcount, Nat.add_zero]
    · rw [hpc, toInt_ofNat hbound]
  have hlive : Live natives src m.image.typedConstants.size (src.follow natives m w []) := by
    rw [hfollow]
    exact .main rfl rfl rfl
  rw [hfollow] at hlive ⊢
  rw [execute_of_reads hw, perform, hcount, hentry]
  have hfetched : Keeps (m.fetched w) (m.image.typedConstants.size + markSize + 0) heap
      (linkWords m.image.typedConstants.size 0 0) := hkeeps.fetched w
  refine (meets_callUser hfetched (Nat.le_refl _) ?_ _).mono fun _ m' hcall => ?_
  · intro x hx
    simp only [linkWords, markStaticLink, markDynamicLink, List.mem_cons, List.not_mem_nil,
      or_false] at hx
    simp only [markReturnAddress]
    rcases hx with rfl | rfl <;> simp only <;> omega
  obtain ⟨hcalled, hm'⟩ := hcall
  have himage' : m'.image = m.image := by rw [hm']; rfl
  have hactive' : m'.Active := by
    rw [hm']
    exact ⟨hactive.state, hactive.reader⟩
  refine ⟨himage', .running hactive'.state hactive'.reader (.entering ⟨?_, ?_, ?_, 0, heap, ?_⟩)⟩
  · rw [himage']
    exact hlive
  · rw [hm']
    rfl
  · rw [hm']
    rfl
  · rw [fetched_pc hpc w] at hcalled
    exact hcalled

/-! ## The next instruction -/

/-- A machine in order has a next instruction, which keeps the stack in order. -/
theorem Ordered.executes (hc : Compiled natives src im) (himage : m.image = im)
    (h : Ordered natives src m acts) (hactive : m.Active) :
    ∃ w, m.image.fetch? m.pc = some w ∧
      ((∀ q ∈ (m.fetched w).stores w, Permitted m.image.typedConstants.size acts q.1 q.2) →
        Meets (execute w) (m.fetched w) fun _ =>
          Continues natives src m (src.follow natives m w acts)) := by
  have hfetch {p : Nat} {w : Word} (hpc : m.pc = Int64.ofNat p) (hword : im.code[p]? = some w) :
      m.image.fetch? m.pc = some w := by
    have hlt := (Array.getElem?_eq_some_iff.mp hword).1
    have hbound := hc.holds.bound
    rw [himage, hpc, Image.fetch?_ofNat (by omega), hword]
  obtain ⟨⟨w₀, hword₀, hmark⟩, ⟨w₂, hword₂, hstop⟩, w₁, hword₁, hcall⟩ :=
    hc.holds.launch (Eq.refl (src.launch natives))
  cases h with
  | idle hmp hpc hkeeps =>
    rcases hpc with hpc | hpc
    · refine ⟨w₀, hfetch hpc hword₀, fun _ => ?_⟩
      rw [Scoped.follow_of_reads hmark (by decide) (by decide)]
      exact executes_launch hmp hpc hactive hkeeps hmark
    · refine ⟨w₂, hfetch hpc hword₂, fun _ => ?_⟩
      have hstopped : (m.fetched w₂).stop.state = .stopped := by
        unfold Machine.stop
        split
        · assumption
        · rfl
      rw [execute_of_reads hstop]
      exact meets_of_eq (a := ()) rfl ⟨(Beside.stop _).image, .stopped hstopped⟩
  | launching hmp hpc hkeeps =>
    refine ⟨w₁, hfetch hpc hword₁, fun _ => ?_⟩
    have hlt := (Array.getElem?_eq_some_iff.mp hword₁).1
    have hbound := hc.holds.bound
    exact executes_start hpc hactive (by omega) hkeeps hcall
  | @entering a rest h =>
    have hsite := h.live.chain_mem (.head _)
    rw [a.chain_eq] at hsite
    obtain ⟨it, w, hl⟩ := hc.located hsite (Nat.le_refl _) a.level.block.entry_le_exit
    exact ⟨w, hfetch h.pc hl.word, fun _ => h.executes_entry hc hactive hl.word⟩
  | inside h =>
    obtain ⟨it, w, hl⟩ := hc.located h.chain_mem (Nat.le_of_lt h.low) h.high
    exact ⟨w, hfetch h.pc hl.word, h.executes hc himage hactive hl.word⟩

end

end PCode
