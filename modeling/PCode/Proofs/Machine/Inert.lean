import PCode.Proofs.Machine.Lasting

/-!
# Properties of the host's side

The instructions compute on the store and the registers, and end the run at most.
Only the call of a native procedure reaches what the host sees of the machine: its
lines, its keys, its state.  So a property that does not depend on the store and the
registers survives every other instruction, whatever the program is.

Main definitions and results:

- `Machine.Inert`: a property that depends neither on the store nor on the registers.
- `Machine.Inert.stable`: it survives the instructions on operands.
- `Machine.Inert.execute`: it survives every instruction that calls no native procedure.
- `Machine.Inert.execute_any`: it survives every instruction if native procedures keep it.
- `Machine.Inert.lasting`, `Machine.lasting_image`: when they do.
-/

namespace PCode.Machine

/-- A property depends neither on the store nor on the registers, and survives the end of a run. -/
structure Inert (I : Machine → Prop) : Prop where
  data : ∀ {m : Machine} store pc ipc sp mp np ep profile, I m →
    I { m with store, pc, ipc, sp, mp, np, ep, profile }
  stop : ∀ {m : Machine}, I m → I m.stop

namespace Inert

variable {I : Machine → Prop} {m : Machine}

/-- A part of an instruction keeps a property, however it ends. -/
abbrev Upheld {α : Type} (I : Machine → Prop) (x : Instr α) (m : Machine) : Prop :=
  Upholds I (fun _ => True) x m

/-! ## Words -/

private theorem fill (h : Inert I) (v : Value) (count : Nat) (a : Int64) (hI : I m) :
    Upheld I (Machine.fill v count a) m := by
  induction count generalizing m a with
  | zero => exact hI
  | succ count ih =>
    by_cases hin : m.inStore a
    · have hrest := ih (m := m.setWord a v) (a + 1) (h.data _ _ _ _ _ _ _ _ hI)
      exact hrest.congr (if_pos hin)
    · exact upholds_error (if_neg hin) hI trivial

/-- A push keeps a property of the host's side. -/
theorem push (h : Inert I) (v : Value) (hI : I m) : Upheld I (Machine.push v) m := by
  by_cases hfull : m.np ≤ m.sp
  · exact upholds_error (if_pos hfull) hI trivial
  by_cases hin : m.inStore m.sp
  · exact upholds_ok ((if_neg hfull).trans (if_pos hin)) (h.data (m := m) _ _ _ _ _ _ _ _ hI)
  · exact upholds_error ((if_neg hfull).trans (if_neg hin)) hI trivial

private theorem pop (h : Inert I) (hI : I m) : Upheld I Machine.pop m := by
  by_cases hempty : m.sp ≤ m.stackBase
  · exact upholds_error (if_pos hempty) hI trivial
  have hI' : I { m with sp := m.sp - 1 } := h.data _ _ _ _ _ _ _ _ hI
  by_cases hin : ({ m with sp := m.sp - 1 } : Machine).inStore (m.sp - 1)
  · exact upholds_ok ((if_neg hempty).trans (if_pos hin)) (h.data _ _ _ _ _ _ _ _ hI')
  · exact upholds_error ((if_neg hempty).trans (if_neg hin)) hI' trivial

/-- A store keeps a property of the host's side. -/
theorem storeAt (h : Inert I) (a : Int64) (v : Value) (hI : I m) :
    Upheld I (Machine.storeAt a v) m := by
  cases hfault : m.addressFault? a with
  | some cause => exact upholds_error (storeAt_of_fault hfault v) hI trivial
  | none => exact upholds_ok (storeAt_of_none hfault v) (h.data _ _ _ _ _ _ _ _ hI)

/-- Filling words and then setting registers keeps the property. -/
theorem fill_then {α : Type} (h : Inert I) (v : Value) (count : Nat) (a : Int64) (b : α)
    {f : Machine → Machine} (hf : ∀ m', I m' → I (f m')) (hI : I m) :
    Upheld I (fun m =>
      match Machine.fill v count a m with
      | .ok _ m => .ok b (f m)
      | .error e m => .error e m) m := by
  have hfill := h.fill v count a hI
  cases hrun : Machine.fill v count a m with
  | ok u m' => exact upholds_ok (a := b) (by simp only [hrun]) (hf m' (hfill.of_ok hrun))
  | error e m' => exact upholds_error (e := e) (by simp only [hrun]) (hfill.of_error hrun).1 trivial

/-- An allocation keeps a property of the host's side. -/
theorem malloc (h : Inert I) (size : Int64) (hI : I m) : Upheld I (Machine.malloc size) m := by
  by_cases hneg : size < 0
  · exact upholds_error (if_pos hneg) hI trivial
  by_cases hfull : m.np - size - 1 < m.sp
  · exact upholds_error ((if_neg hneg).trans (if_pos hfull)) hI trivial
  by_cases hin : m.inStore (m.np - size - 1)
  · have hset : I (m.setWord (m.np - size - 1) (.ofInt size)) := h.data _ _ _ _ _ _ _ _ hI
    have hfill := h.fill_then (.ofInt 0)
      (span (m.np - size - 1 + 1) (m.np - size - 1 + size + 1)) (m.np - size - 1 + 1)
      (m.np - size - 1 + 1) (f := fun m' => { m' with np := m.np - size - 1 })
      (fun m' h' => h.data _ _ _ _ _ _ _ _ h') hset
    exact hfill.congr ((if_neg hneg).trans ((if_neg hfull).trans (if_pos hin)))
  · exact upholds_error ((if_neg hneg).trans ((if_neg hfull).trans (if_neg hin))) hI trivial

/-- A release keeps a property of the host's side. -/
theorem free (h : Inert I) (address : Int64) (hI : I m) : Upheld I (Machine.free address) m := by
  by_cases hout : address - 1 < m.np ∨ Int64.ofNat m.store.size < address
  · exact upholds_error (if_pos hout) hI trivial
  by_cases hin : m.inStore (address - 1)
  · by_cases hcorrupt : (!m.isBlockSize address (m.word (address - 1))) = true
    · exact upholds_error ((if_neg hout).trans ((if_pos hin).trans (if_pos hcorrupt))) hI trivial
    by_cases hother : address ≠ m.np + 1
    · exact upholds_ok ((if_neg hout).trans ((if_pos hin).trans
        ((if_neg hcorrupt).trans (if_pos hother)))) hI
    · have hfill := h.fill_then .undefined
        (span m.np (address + (m.word (address - 1)).int)) m.np ()
        (f := fun m' => { m' with np := m'.np + ((m.word (address - 1)).int + 1) })
        (fun m' h' => h.data _ _ _ _ _ _ _ _ h') hI
      exact hfill.congr ((if_neg hout).trans ((if_pos hin).trans
        ((if_neg hcorrupt).trans (if_neg hother))))
  · exact upholds_error ((if_neg hout).trans (if_neg hin)) hI trivial

/-- No condition is needed for a property to survive the instructions on operands. -/
theorem stable (h : Inert I) : Stable I (fun _ => True) where
  fault _ := trivial
  error _ := trivial
  registers _ _ _ hI := h.data _ _ _ _ _ _ _ _ hI
  stop hI := h.stop hI
  push v hI := h.push v hI
  pop hI := h.pop hI
  storeAt a v hI := h.storeAt a v hI

/-! ## Linkage -/

private theorem callUser (h : Inert I) (argumentWords target : Nat) (hI : I m) :
    Upheld I (Machine.callUser argumentWords target) m := by
  by_cases hbase : m.sp - Int64.ofNat argumentWords - Int64.ofNat markSize < m.stackBase
  · exact upholds_error (if_pos hbase) hI trivial
  by_cases hin : ({ m with
      mp := m.sp - Int64.ofNat argumentWords - Int64.ofNat markSize } : Machine).inStore
        (m.sp - Int64.ofNat argumentWords - Int64.ofNat markSize + Int64.ofNat markReturnAddress)
  · exact upholds_ok ((if_neg hbase).trans (if_pos hin)) (h.data (m := m) _ _ _ _ _ _ _ _ hI)
  · exact upholds_error ((if_neg hbase).trans (if_neg hin)) (h.data _ _ _ _ _ _ _ _ hI) trivial

private theorem enter (h : Inert I) (register amount : Nat) (hI : I m) :
    Upheld I (Machine.enter register amount) m := by
  match register with
  | 0 =>
    by_cases hlarge : m.np < m.mp + Int64.ofNat amount
    · exact upholds_error (if_pos hlarge) hI trivial
    · have hfill := h.fill_then (.ofInt 0) (span m.sp (m.mp + Int64.ofNat amount)) m.sp ()
        (f := fun m' => { m' with sp := m.mp + Int64.ofNat amount })
        (fun m' h' => h.data _ _ _ _ _ _ _ _ h') hI
      exact hfill.congr (if_neg hlarge)
  | 1 => exact h.data _ _ _ _ _ _ _ _ hI
  | _ + 2 => exact ⟨hI, trivial⟩

private theorem leave (h : Inert I) (code : UInt8) (hI : I m) :
    Upheld I (Machine.leave code) m := by
  have hload {m : Machine} (a : Int64) (hI : I m) : Upheld I (Machine.load a) m :=
    h.stable.load a hI
  refine upholds_get ((hload _ hI).seq fun _ _ _ hI => (hload _ hI).seq fun _ _ _ hI => ?_)
  refine (hload _ hI).seq fun _ m₃ _ hI => ?_
  refine Upholds.seq (upholds_modify (h.data _ _ _ _ _ _ _ _ hI)) fun _ _ _ hI => upholds_get ?_
  exact (h.fill _ _ _ hI).seq fun _ _ _ hI => upholds_modify (h.data _ _ _ _ _ _ _ _ hI)

/-- An inert property survives every instruction that calls no native procedure. -/
theorem execute (h : Inert I) {w : Word} (hcall : Opcode.ofByte? w.opcode ≠ some .csp) (hI : I m) :
    Upheld I (Machine.execute w) m := by
  unfold Machine.execute
  cases hop : Opcode.ofByte? w.opcode with
  | none => exact h.stable.raise _ hI
  | some op =>
    cases hlinkage : op.isLinkage with
    | false => exact h.stable.perform hlinkage _ _ hI
    | true =>
      cases op <;> cases hlinkage
      · exact h.callUser _ _ hI
      · exact absurd hop hcall
      · exact h.enter _ _ hI
      · exact h.leave _ hI

/-- An inert property that native procedures keep survives every instruction. -/
theorem execute_any (h : Inert I) (hlasting : Lasting I (fun _ => True) fun _ _ => True) (w : Word)
    (hI : I m) : Upheld I (Machine.execute w) m := by
  by_cases hcall : Opcode.ofByte? w.opcode = some .csp
  · unfold Machine.execute
    rw [hcall]
    exact hlasting.callNative _ _ hI fun _ _ _ => trivial
  · exact h.execute hcall hI

/-- An inert property lasts if it does not depend on the state of the run and on what the host sees
either. -/
theorem lasting (h : Inert I)
    (hcalls : ∀ {m : Machine} inCall suspendedInCall, I m → I { m with inCall, suspendedInCall })
    (hworld : ∀ {m : Machine} line reader held keyboard console generator output dumps received,
      I m → I { m with line, reader, held, keyboard, console, generator, output, dumps, received })
    (hsuspend : ∀ {m : Machine}, I m → I m.suspend) (hresume : ∀ {m : Machine}, I m → I m.resume) :
    Lasting I (fun _ => True) (fun _ _ => True) where
  toStable := h.stable
  calls := hcalls
  world := hworld
  suspend := hsuspend
  resume := hresume
  malloc size hI := h.malloc size hI
  free a hI _ := h.free a hI

end Inert

/-! ## The image -/

/-- The image depends neither on the store nor on the registers. -/
theorem inert_image (image : Image) : Inert fun m => m.image = image where
  data _ _ _ _ _ _ _ _ h := h
  stop := by
    intro m h
    unfold Machine.stop
    split <;> exact h

/-- The image survives everything that native procedures are made of. -/
theorem lasting_image (image : Image) :
    Lasting (fun m => m.image = image) (fun _ => True) fun _ _ => True := by
  refine (inert_image image).lasting (fun _ _ h => h) (fun _ _ _ _ _ _ _ _ _ h => h) ?_ ?_
  · intro m h
    unfold Machine.suspend
    split <;> exact h
  · intro m h
    unfold Machine.resume
    split <;> exact h

end PCode.Machine
