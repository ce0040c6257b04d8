import PCode.Proofs.Machine.Leads
import PCode.Proofs.Semantics.Stmt

/-!
# Instructions with effects

The instructions that do more than move words on the stack: a store, the jumps,
and the call of the native procedure that writes a line.

Main results:

- `Machine.steps_sti`: a store changes one word of the memory.
- `Machine.steps_jump`, `Machine.steps_branch`: jumps.
- `Machine.leads_write`: a line is written.
-/

namespace PCode.Machine

section

variable {b m : Machine} {k : Linking} {a : Nat} {ws : List Value}

/-! ## Stores -/

/-- A store at an address that can be accessed before anything is pushed. -/
theorem Stacked.storeAt (h : Stacked b a ws m) (hb : b.Sound) {x : Int64} {v : Value}
    {mem : Memory} (hx : b.memory.write x v = some mem) :
    ∃ m', Machine.storeAt x v m = .ok () m' ∧ Stacked { b with store := mem.store } a ws m' := by
  unfold Memory.write at hx
  split at hx
  · rename_i hacc
    obtain rfl := Option.some.inj hx
    have hread : b.memory.read x = some (b.word x) := if_pos hacc
    obtain ⟨hfault, -⟩ := h.addressFault? hb (addressFault?_of_read hb hread).1
    have hacc' := (addressFault?_eq_none_iff hb.size).mp (addressFault?_of_read hb hread).1
    have hsp := h.sp
    have hroom := h.room
    have hbase := hb.base
    unfold Machine.room at hroom
    refine ⟨m.setWord x v, by simp only [Machine.storeAt, hfault], ?_⟩
    constructor
    · exact h.pc
    · exact h.sp
    · exact h.room
    · simpa [setWord, memory] using h.size
    · intro i w hi
      -- the words pushed lie in what was the gap, where nothing can be stored
      have hlt := (List.getElem?_eq_some_iff.mp hi).1
      have hne : x.toNatClampNeg ≠ b.sp.toNatClampNeg + i := by
        simp only [toNatClampNeg_eq]
        omega
      simp only [setWord, Array.getElem?_setIfInBounds, if_neg hne]
      exact h.words i w hi
    · intro i hi
      have hsize := h.size
      simp only [setWord, memory, Array.getElem?_setIfInBounds, hsize]
      rw [h.kept i hi]
    · exact h.rest
  · cases hx

/-- The top word is stored at the address below it. -/
theorem steps_sti {x y : Int64} {p v : Value} {mem : Memory} (hb : b.Ready)
    (hit : At b k a (.op .sti x y)) (hwrite : b.memory.write p.toInt v = some mem) :
    Steps b a (ws ++ [p, v]) { b with store := mem.store } (a + 1) ws := by
  refine steps_op hb hit fun _ _ m h => ?_
  rw [show ws ++ [p, v] = ws ++ [p] ++ [v] by simp] at h
  obtain ⟨m₁, h₁, k₁⟩ := h.pop hb.sound
  obtain ⟨m₂, h₂, k₂⟩ := k₁.pop hb.sound
  obtain ⟨m₃, h₃, k₃⟩ := k₂.storeAt hb.sound hwrite
  exact ⟨m₃, (bind_eq h₁).trans ((bind_eq h₂).trans h₃), k₃⟩

/-- A store leads to the machine with the word replaced. -/
theorem leads_sti {x y : Int64} {p v : Value} {mem : Memory} (hb : b.Ready)
    (hit : At b k a (.op .sti x y)) (hwrite : b.memory.write p.toInt v = some mem) :
    Leads b a (ws ++ [p, v]) { b with store := mem.store } (a + 1) ws :=
  (steps_sti hb hit hwrite).leads

/-! ## Jumps -/

/-- A jump leads to its target. -/
theorem steps_jump {d : Int} {t : Nat} (hb : b.Ready) (hit : At b k a (.jump .ujp d))
    (ht : (a : Int) + d = t) : Steps b a ws b t ws := by
  obtain ⟨w, hcode, hop, -, hy⟩ := hit
  refine steps_perform hb hcode hop fun m h => ?_
  rw [show w.operand2 = t by omega]
  exact h.jump t

/-- A jump leads to its target in the end. -/
theorem leads_jump {d : Int} {t : Nat} (hb : b.Ready) (hit : At b k a (.jump .ujp d))
    (ht : (a : Int) + d = t) : Leads b a ws b t ws :=
  (steps_jump hb hit ht).leads

/-- The jump of an exit statement leads to its target. -/
theorem leads_leave (hb : b.Ready) (hit : At b k a .leave) :
    ∃ t, k.leaves a t ∧ Leads b a ws b t ws := by
  obtain ⟨w, hcode, t, ⟨hop, -, hy⟩, hleaves⟩ := hit
  refine ⟨t, hleaves, leads_perform hb hcode hop fun m h => ?_⟩
  rw [show w.operand2 = t by omega]
  exact h.jump t

/-- The instruction that jumps if the word on top has a truth value. -/
def branchOpcode (truth : Bool) : Opcode := if truth then .tjp else .fjp

/-- A branch pops a word and leads to its target if the word has the truth value of the branch, and
on if not. -/
theorem steps_branch (truth : Bool) {d : Int} {t : Nat} {v : Value} (hb : b.Ready)
    (hit : At b k a (.jump (branchOpcode truth) d)) (ht : (a : Int) + d = t) :
    Steps b a (ws ++ [v]) b (if v.truthy = truth then t else a + 1) ws := by
  obtain ⟨w, hcode, hop, -, hy⟩ := hit
  refine steps_perform hb hcode hop fun m h => ?_
  obtain ⟨m₁, h₁, k₁⟩ := h.pop hb.sound
  have hperform : perform (branchOpcode truth) w.operand1 w.operand2 = jumpIf truth t := by
    rw [show w.operand2 = t by omega]
    cases truth <;> rfl
  rw [hperform]
  unfold jumpIf
  rw [bind_eq h₁]
  split
  · exact k₁.jump t
  · exact ⟨m₁, rfl, k₁⟩

/-- A branch leads to its target or on, by the word on top. -/
theorem leads_branch (truth : Bool) {d : Int} {t : Nat} {v : Value} (hb : b.Ready)
    (hit : At b k a (.jump (branchOpcode truth) d)) (ht : (a : Int) + d = t) :
    Leads b a (ws ++ [v]) b (if v.truthy = truth then t else a + 1) ws :=
  (steps_branch truth hb hit ht).leads

/-! ## Lines -/

private theorem Stacked.popArguments {vs : List Value} (popped : List Value)
    (h : Stacked b a (ws ++ vs) m) (hb : b.Sound) :
    ∃ m', Machine.popArguments vs.length popped m = .ok (vs ++ popped) m' ∧
      Stacked b a ws m' := by
  obtain ⟨rs, rfl⟩ : ∃ rs, vs = rs.reverse := ⟨vs.reverse, by simp⟩
  rw [List.length_reverse]
  induction rs generalizing m popped with
  | nil => exact ⟨m, rfl, by simpa using h⟩
  | cons v rs ih =>
    rw [List.reverse_cons, ← List.append_assoc] at h
    obtain ⟨m₁, h₁, k₁⟩ := h.pop hb
    obtain ⟨m₂, h₂, k₂⟩ := ih (v :: popped) k₁
    refine ⟨m₂, (bind_eq h₁).trans ?_, k₂⟩
    simpa using h₂

/-- A machine that has written a line in a native call. -/
def wrote (b : Machine) (vs : List Value) : Machine :=
  { b with
    output := (b.world.print vs).output, inCall := false, suspendedInCall := false, line := none }

/-- The words of the arguments are popped and written on one line.  No native procedure may wait
for a line that has arrived, as the call would hand it on. -/
theorem leads_write {callee : Ident} {vs : List Value} (hb : b.Ready)
    (hunawaited : b.line = none ∨ b.reader = none) (hwrites : Writes b.image.natives callee)
    (hit : At b k a (.op .csp (Int64.ofNat vs.length) callee.symbol.address)) :
    Leads b a (ws ++ vs) (b.wrote vs) (a + 1) ws := by
  refine leads_op hb hit fun _ _ m h => ?_
  have hcount : (Int64.ofNat vs.length).toNatClampNeg = vs.length := by
    have h1 := h.room
    have h2 := hb.sound.base
    have h3 := hb.sound.top
    have h4 := hb.sound.size
    unfold Machine.room at h1
    simp only [List.length_append] at h1
    rw [toNatClampNeg_eq, Int64.toInt_ofNat_of_lt (by omega)]
    omega
  obtain ⟨m₁, h₁, k₁⟩ := h.popArguments [] hb.sound
  have hline : m₁.line = b.line := (congrArg Machine.line k₁.rest :)
  have hreader : m₁.reader = b.reader := (congrArg Machine.reader k₁.rest :)
  have hnative :
      m.image.natives.at? callee.symbol.address.toNatClampNeg = some Library.writeLn := by
    rw [h.image]
    exact hwrites.2
  refine ⟨m₁.wrote vs, ?_, k₁.pc, k₁.sp, k₁.room, k₁.size, k₁.words, k₁.kept, ?_⟩
  · change callNative _ _ m = _
    unfold callNative
    rw [hcount]
    refine (bind_eq rfl).trans ?_
    simp only [hnative]
    rw [bind_eq h₁, List.append_nil]
    refine (bind_eq rfl).trans ((bind_eq rfl).trans ((bind_eq rfl).trans ?_))
    -- the routine leaves the line and its reader as they are
    rw [← hline, ← hreader] at hunawaited
    have hpoll : ofHost pollInput { m₁.wrote vs with line := m₁.line } = .ok () (m₁.wrote vs) := by
      simp only [ofHost, pollInput_unawaited (m := { m₁.wrote vs with line := m₁.line }) hunawaited]
      rfl
    exact bind_eq hpoll
  · exact congrArg (fun x : Machine => x.wrote vs) k₁.rest

end

end PCode.Machine
