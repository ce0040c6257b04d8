import PCode.Proofs.Codegen.Callees
import PCode.Proofs.Machine.Shifts
import PCode.Proofs.Run.Moves

/-!
# Executing straight code

The code of an expression is executed item by item.  Where it calls a
subprogram, the callee runs in a frame of its own and returns; where it calls a
native procedure, the host may have to hand on a line first.  Whatever happens
on the way, the height of the stack changes as the shapes of the code say, since
each callee has its frame where its mark is.

Main definitions and results:

- `Machine.Returns`, `Machine.Serves`: a call has come back to its caller.
- `Executes`: the items of some code have been executed one after another.
- `Executes.positioned`: the stack has grown by what the shapes of the code say.
- `executed?`: executions can be checked by running them.
-/

namespace PCode

open Gen Machine

/-! ## Executing items -/

namespace Machine

/-- The subprogram called by the next instruction has returned: it has run, and a return instruction
in the frame of the call, with a result if it is a function, has gone on after the call in the frame
of the caller. -/
inductive Returns (m m' : Machine) (isFunction : Bool) : Prop where
  | intro (m₁ m₂ : Machine) (moves : List Move) (w : Word)
      (call : stepOnce m = .ok () m₁) (entered : m₁.state = .running)
      (body : play moves m₁ = .ok () m₂) (frame : m₂.mp = m₁.mp) (running : m₂.state = .running)
      (fetch : m₂.image.fetch? m₂.pc = some w) (opcode : w.opcode = Opcode.rtn.byte)
      (result : UInt8.ofNat w.operand1 = TypeCode.void.byte ↔ isFunction = false)
      (leave : stepOnce m₂ = .ok () m') (left : m'.state = .running)
      (pc : m'.pc = m.pc + 1) (mp : m'.mp = m.mp)

/-- The native procedure called by the next instruction has left its result, at once or after the
host has handed on a line, in place of the words that the call popped. -/
inductive Serves (m m' : Machine) (results : Nat) : Prop where
  | intro (w : Word) (values : List Value) (m₁ m₂ : Machine) (moves : List Move)
      (fetch : m.image.fetch? m.pc = some w)
      (popped : popArguments w.operand1 [] (m.fetched w) = .ok values m₁)
      (call : stepOnce m = .ok () m₂) (served : play moves m₂ = .ok () m')
      (result : m'.sp.toInt = m₁.sp.toInt + results) (running : m'.state = .running)
      (pc : m'.pc = m.pc + 1) (mp : m'.mp = m.mp)

/-- A machine runs at an address of an image, in a frame, and its stack ends at a place. -/
structure Positioned (m : Machine) (im : Image) (frame : Int64) (a : Nat) (top : Int) : Prop where
  image : m.image = im
  running : m.state = .running
  pc : m.pc = Int64.ofNat a
  mp : m.mp = frame
  sp : m.sp.toInt = top

end Machine

/-- An item has been executed.  A call has been when it has returned. -/
def Item.Performs (natives : Registry) : Item → Machine → Machine → Prop
  | .call _ sym, m, m' => m.Returns m' (!sym.resultType.isVoid)
  | .op .csp _ y, m, m' =>
    m.Serves m' (results ((natives.at? y.toNatClampNeg).any (·.isFunction)))
  | _, m, m' => stepOnce m = .ok () m' ∧ m'.state = .running

/-- Some items have been executed one after another. -/
def Executes (natives : Registry) : List Item → Machine → Machine → Prop
  | [], m, m' => m' = m
  | it :: rest, m, m' => ∃ m₁, it.Performs natives m m₁ ∧ Executes natives rest m₁ m'

section

variable {natives : Registry} {calls : Symbol → Nat → Prop} {callees : List Symbol} {im : Image}
  {k : Linking} {m m' : Machine} {frame : Int64} {a : Nat} {base : Int} {s : Shape} {w : Word}

/-- A machine at an address fetches the word there. -/
theorem Machine.Positioned.fetch_eq {top : Int} (h : m.Positioned im frame a top)
    (hbound : im.code.size < 2 ^ 63) (hword : im.code[a]? = some w) :
    m.image.fetch? m.pc = some w := by
  have hlt := (Array.getElem?_eq_some_iff.mp hword).1
  rw [h.image, h.pc, Image.fetch?_ofNat (by omega), hword]

/-- An instruction on the stack leads to the next address. -/
theorem Machine.Positioned.onward {top : Int} {popped pushed : Nat}
    (h : m.Positioned im frame a top) (honward : Onward m m' popped pushed) :
    m'.Positioned im frame (a + 1) (top + pushed - popped) where
  image := honward.image.trans h.image
  running := honward.running
  pc := by
    rw [honward.pc, h.pc, Int64.ofNat_add]
    rfl
  mp := honward.mp.trans h.mp
  sp := by
    have hsp := honward.sp
    rw [h.sp] at hsp
    omega

/-- The frame of a call of a subprogram begins below the arguments and the mark. -/
theorem Machine.Positioned.callee_mp {n : Nat} {m₁ : Machine}
    (h : m.Positioned im frame a (base + n + markSize)) (hbase : 0 ≤ base)
    (hbound : im.code.size < 2 ^ 63) (hword : im.code[a]? = some w)
    (hop : w.opcode = Opcode.cup.byte) (hn : w.operand1 = n) (hstep : stepOnce m = .ok () m₁)
    (hrun : m₁.state = .running) : m₁.mp.toInt = base := by
  obtain ⟨m₂, hcall, rfl⟩ :=
    performed_of_step h.running (h.fetch_eq hbound hword) hop hstep hrun
  have hsp : (m.fetched w).sp.toInt = base + n + markSize := h.sp
  rw [observe_mp, mp_of_callUser hcall]
  exact toInt_frameBase hbase (by omega)

/-- A return from a frame leaves the stack at its base, with a result above it if there is one. -/
theorem Machine.sp_of_return {isFunction : Bool} (hrun : m.state = .running)
    (hfetch : m.image.fetch? m.pc = some w) (hop : w.opcode = Opcode.rtn.byte)
    (hresult : UInt8.ofNat w.operand1 = TypeCode.void.byte ↔ isFunction = false)
    (hbase : m.mp.toInt = base) (hhigh : base + 1 < 2 ^ 63) (hstep : stepOnce m = .ok () m')
    (hrun' : m'.state = .running) : m'.sp.toInt = base + Item.results isFunction := by
  obtain ⟨m₁, hleave, rfl⟩ := performed_of_step hrun hfetch hop hstep hrun'
  have hmp : (m.fetched w).mp = m.mp := rfl
  have hlow := m.mp.le_toInt
  rw [observe_sp, sp_of_leave hleave, topAfter, hmp]
  cases isFunction with
  | false =>
    rw [if_pos (hresult.mpr rfl), hbase]
    exact (Int.add_zero _).symm
  | true =>
    have hone : (m.mp + 1).toInt = m.mp.toInt + 1 :=
      toInt_add_of_fits (by simp; omega) (by simp; omega)
    rw [if_neg fun hvoid => nomatch hresult.mp hvoid]
    exact hone.trans (congrArg (· + 1) hbase)

end

namespace Item

variable {natives : Registry} {calls : Symbol → Nat → Prop} {callees : List Symbol} {im : Image}
  {k : Linking} {m m' : Machine} {frame : Int64} {a : Nat} {base : Int} {s : Shape} {w : Word}

private theorem performs_op {o : Opcode} (ho : o ≠ .csp) (x y : Int64) :
    (op o x y).Performs natives m m' ↔ stepOnce m = .ok () m' ∧ m'.state = .running := by
  cases o <;> first
    | exact Iff.rfl
    | exact absurd rfl ho

/-- What one item makes of a shape, as part of straight code. -/
theorem after_eq_of_moves {it : Item} {s' : Shape} (h : Moves natives calls s [it] s') :
    it.after natives s = s' :=
  h.shape

/-- An instruction on the stack that is executed changes its height as it changes the shape. -/
theorem Performs.positioned_op {o : Opcode} {x y : Int64} (hcsp : o ≠ .csp)
    (hit : (op o x y).Performs natives m m') (h : m.Positioned im frame a (base + s.height))
    (hbound : im.code.size < 2 ^ 63) (hword : im.code[a]? = some w) (hop : w.opcode = o.byte)
    (hadmits : (op o x y).Admits natives calls s) (hstraight : (op o x y).Straight callees) :
    m'.Positioned im frame (a + 1) (base + ((op o x y).after natives s).height) := by
  obtain ⟨hstep, hrun'⟩ := (performs_op hcsp x y).mp hit
  have honward {popped pushed : Nat}
      (hshifts : Shifts (perform o w.operand1 w.operand2) popped pushed) :=
    h.onward (onward_of_step h.running (h.fetch_eq hbound hword) hop hshifts hstep hrun')
  rcases hadmits with rfl | ⟨hentry, -⟩ | ⟨rfl, -⟩ | ⟨popped, pushed, rest, harity, rfl⟩
  · have hmarked := honward (shifts_markStack w.operand1)
    have hmoves : Moves natives calls s [.op .mst x y] _ := moves_mst x y s
    rw [after_eq_of_moves hmoves, Shape.height_cons]
    simp only [Slot.size, Int.natCast_add, Int.natCast_zero, Int.sub_zero] at hmarked ⊢
    rwa [Int.add_assoc, Int.add_comm (s.height : Int)] at hmarked
  · rcases hentry with rfl | rfl <;> simp [Straight, Opcode.arity?] at hstraight
  · exact absurd rfl hcsp
  · have hmoved := honward (shifts_perform harity _ _)
    have hmoves : Moves natives calls _ [.op o x y] _ := moves_op harity rest
    rw [after_eq_of_moves hmoves, Shape.height_append, Shape.height_words]
    rw [Shape.height_append, Shape.height_words] at hmoved
    have hsum : base + ((popped + rest.height : Nat) : Int) + (pushed : Nat) - (popped : Nat) =
      base + ((pushed + rest.height : Nat) : Int) := by omega
    rwa [hsum] at hmoved

/-- A native procedure that has served its call leaves its result in place of its arguments. -/
theorem Performs.positioned_csp {x y : Int64} (hit : (op .csp x y).Performs natives m m')
    (h : m.Positioned im frame a (base + s.height)) (hbound : im.code.size < 2 ^ 63)
    (hword : im.code[a]? = some w) (hx : (w.operand1 : Int) = x.toInt)
    (hadmits : (op .csp x y).Admits natives calls s) :
    m'.Positioned im frame (a + 1) (base + ((op .csp x y).after natives s).height) := by
  obtain ⟨native, rest, hnative, rfl⟩ : ∃ native rest, natives.at? y.toNatClampNeg = some native ∧
      s = Shape.words x.toNatClampNeg ++ rest := by
    rcases hadmits with hmst | ⟨hentry | hentry, -⟩ | ⟨-, hnative⟩ |
      ⟨popped, pushed, rest, harity, -⟩
    · cases hmst
    · cases hentry
    · cases hentry
    · exact hnative
    · cases harity
  obtain ⟨w', values, m₁, m₂, moves, hfetch, hpopped, hcall, hserved, hresult, hrun', hpc, hmp⟩ :=
    hit
  obtain rfl : w = w' := Option.some.inj ((h.fetch_eq hbound hword).symm.trans hfetch)
  obtain ⟨hsp, -⟩ := shifts_popArguments w.operand1 [] _ _ _ hpopped
  have hcalled : m₂.image = m.image := image_of_move (a := .execute) hcall
  have hcount : (x.toNatClampNeg : Int) = w.operand1 := by
    rw [toNatClampNeg_eq]
    omega
  have hmoves : Moves natives calls _ [.op .csp x y] _ := moves_csp hnative rest
  rw [after_eq_of_moves hmoves, Shape.height_append, Shape.height_words]
  refine ⟨(image_of_play hserved).trans (hcalled.trans h.image), hrun', ?_, hmp.trans h.mp, ?_⟩
  · rw [hpc, h.pc, Int64.ofNat_add]
    rfl
  · have htop := h.sp
    have hfetched : (m.fetched w).sp = m.sp := rfl
    rw [Shape.height_append, Shape.height_words] at htop
    rw [hnative, Option.any_some] at hresult
    rw [hfetched, htop] at hsp
    rw [hresult]
    omega

/-- A subprogram that has returned leaves its result in place of its mark and its arguments. -/
theorem Performs.positioned_call {n : Int64} {sym : Symbol}
    (hit : (call n sym).Performs natives m m') (h : m.Positioned im frame a (base + s.height))
    (hbase : 0 ≤ base) (hbound : im.code.size < 2 ^ 63) (hword : im.code[a]? = some w)
    (hop : w.opcode = Opcode.cup.byte) (hn : (w.operand1 : Int) = n.toInt)
    (hadmits : (call n sym).Admits natives calls s) :
    m'.Positioned im frame (a + 1) (base + ((call n sym).after natives s).height) := by
  obtain ⟨level, rest, rfl, hcalls⟩ := hadmits
  obtain ⟨m₁, m₂, moves, w', hcall, hentered, hbody, hframe, hrun, hfetch, hopcode, hresult, hleave,
    hrun', hpc, hmp⟩ := hit
  have hcalled : m₁.image = m.image := image_of_move (a := .execute) hcall
  have hleft : m'.image = m₂.image := image_of_move (a := .execute) hleave
  have hcount : w.operand1 = n.toNatClampNeg := by
    rw [toNatClampNeg_eq]
    omega
  have htop : m.Positioned im frame a
      (base + Shape.height rest + (n.toNatClampNeg : Nat) + (markSize : Nat)) := by
    refine ⟨h.image, h.running, h.pc, h.mp, ?_⟩
    rw [h.sp, Shape.height_append, Shape.height_words, Shape.height_cons]
    simp only [Slot.size]
    omega
  -- The frame of the callee begins at its mark, and the return cuts the stack back to it.
  have hcallee := htop.callee_mp (by omega) hbound hword hop hcount hcall hentered
  have hhigh := m.sp.toInt_lt
  rw [htop.sp] at hhigh
  have hsp := sp_of_return hrun hfetch hopcode hresult (hframe ▸ hcallee)
    (by simp only [markSize] at hhigh; omega) hleave hrun'
  rw [after_eq_of_moves (moves_call hcalls rest), Shape.height_append, Shape.height_words]
  refine ⟨?_, hrun', ?_, hmp.trans h.mp, ?_⟩
  · exact hleft.trans ((image_of_play hbody).trans (hcalled.trans h.image))
  · rw [hpc, h.pc, Int64.ofNat_add]
    rfl
  · rw [hsp]
    omega

/-- An item that is executed changes the height of the stack as it changes the shape. -/
theorem Performs.positioned {it : Item} (hit : it.Performs natives m m')
    (h : m.Positioned im frame a (base + s.height)) (hbase : 0 ≤ base)
    (hbound : im.code.size < 2 ^ 63) (hword : im.code[a]? = some w) (hstands : it.Stands k a w)
    (hadmits : it.Admits natives calls s) (hstraight : it.Straight callees) :
    m'.Positioned im frame (a + 1) (base + (it.after natives s).height) := by
  cases it with
  | op o x y =>
    obtain ⟨hop, hx, -⟩ := hstands
    by_cases hcsp : o = .csp
    · subst hcsp
      exact hit.positioned_csp h hbound hword hx hadmits
    · exact hit.positioned_op hcsp h hbound hword hop hadmits hstraight
  | const code v =>
    obtain ⟨i, -, hop, -, -⟩ := hstands
    have hmoved := h.onward (onward_of_step h.running (h.fetch_eq hbound hword) hop
      (shifts_perform (o := .ldc) rfl _ _) hit.1 hit.2)
    have hsum : base + (s.height : Int) + (1 : Nat) - (0 : Nat) =
        base + (Shape.height (.word :: s) : Int) := by
      rw [Shape.height_cons, Slot.size]
      omega
    rwa [hsum] at hmoved
  | call n sym =>
    obtain ⟨t, ⟨hop, hn, -⟩, -⟩ := hstands
    exact hit.positioned_call h hbase hbound hword hop hn hadmits
  | jump | leave => exact hstraight.elim
  | refused => exact hstands.elim

end Item

/-- Straight code that is executed changes the height of the stack as it changes the shape. -/
theorem Executes.positioned {natives : Registry} {calls : Symbol → Nat → Prop}
    {callees : List Symbol} {im : Image} {k : Linking} {m m' : Machine} {frame : Int64} {a : Nat}
    {base : Int} {s s' : Shape} {items : List Item} (hitems : Executes natives items m m')
    (h : m.Positioned im frame a (base + s.height)) (hbase : 0 ≤ base)
    (hbound : im.code.size < 2 ^ 63) (hcode : CodeAt im.code k a items)
    (hmoves : Moves natives calls s items s') (hstraight : AllStraight callees items) :
    m'.Positioned im frame (a + items.length) (base + s'.height) := by
  obtain ⟨hflows, rfl, -⟩ := hmoves
  -- The base stays where it is; only the shape above it changes from item to item.
  induction items generalizing m a s with
  | nil =>
    obtain rfl : m' = m := hitems
    exact h
  | cons it rest ih =>
    obtain ⟨m₁, hit, hrest⟩ := hitems
    obtain ⟨⟨w, hword, hstands⟩, hcode'⟩ := codeAt_cons.mp hcode
    obtain ⟨hfirst, hstraight'⟩ := allStraight_cons.mp hstraight
    have h₁ := hit.positioned h hbase hbound hword hstands hflows.1 hfirst
    have hend := ih hrest h₁ hcode' hstraight' hflows.2
    rwa [Nat.add_assoc, Nat.add_comm 1] at hend

/-! ## Checking executions -/

namespace Machine

end Machine

end PCode
