import Mathlib.Algebra.Order.Ring.Int
import PCode.Image
import PCode.Proofs.Value

/-!
# Words and images

What the fields of a packed word read as, and what the building operations of an
image do when they succeed.

Main definitions and results:

- `Word.Reads`: the fields of a word.
- `poolIndex?`: where a constant stands in a pool.
- `Image.emit_ok`, `Image.patch_ok`, `Image.addConstant_ok`: what building operations do.
-/

namespace PCode

/-! ## Words -/

/-- The fields of a word are an opcode and two operands. -/
def Word.Reads (w : Word) (op : Opcode) (operand1 operand2 : Int) : Prop :=
  w.opcode = op.byte ∧ (w.operand1 : Int) = operand1 ∧ (w.operand2 : Int) = operand2

/-- The fields of a packed word are what was packed. -/
theorem Word.fields_of_encode {op : UInt8} {a b : Int64} {w : Word}
    (h : Word.encode op a b = .ok w) :
    w.opcode = op ∧ (w.operand1 : Int) = a.toInt ∧ (w.operand2 : Int) = b.toInt := by
  obtain ⟨ha, hb, rfl⟩ := (Word.encode_eq_ok_iff _ _ _ _).mp h
  simp only [Word.fits, decide_eq_true_eq] at ha hb
  have ha' : a.toInt.toNat ≤ maxOperand1 := by omega
  have hb' : b.toInt.toNat ≤ maxOperand2 := by omega
  refine ⟨Word.opcode_pack .., ?_, ?_⟩
  · rw [Word.operand1_pack _ _ ha']
    omega
  · rw [Word.operand2_pack _ ha' hb']
    omega

/-- A packed word reads as what was packed. -/
theorem Word.reads_of_encode {op : Opcode} {a b : Int64} {w : Word}
    (h : Word.encode op.byte a b = .ok w) : w.Reads op a.toInt b.toInt :=
  Word.fields_of_encode h

/-- Replacing the second operand keeps the other fields. -/
theorem Word.fields_of_withOperand2 {w w' : Word} {t : Int64} (h : w.withOperand2 t = .ok w') :
    w'.opcode = w.opcode ∧ w'.operand1 = w.operand1 ∧ (w'.operand2 : Int) = t.toInt := by
  obtain ⟨hop, h1, h2⟩ := Word.fields_of_encode h
  have hlt : w.operand1 < 2 ^ 63 := by
    have := w.operand1_le
    unfold maxOperand1 at this
    omega
  rw [Int64.toInt_ofNat_of_lt hlt] at h1
  exact ⟨hop, by omega, h2⟩

/-- Replacing the second operand keeps the rest of what a word reads as. -/
theorem Word.Reads.withOperand2 {w w' : Word} {op : Opcode} {a b : Int} {t : Int64}
    (h : w.Reads op a b) (ht : w.withOperand2 t = .ok w') : w'.Reads op a t.toInt := by
  obtain ⟨hop, h1, h2⟩ := Word.fields_of_withOperand2 ht
  exact ⟨hop.trans h.1, by rw [h1, h.2.1], h2⟩

/-! ## Pools -/

/-- The index of the constant that stands for a value in a pool. -/
def poolIndex? (constants : Array Value) (v : Value) : Option Nat :=
  constants.findIdx? (·.same v)

/-- The pool after a constant was requested: it grows unless one in it is the same. -/
def intern (constants : Array Value) (v : Value) : Array Value :=
  if (poolIndex? constants v).isSome then constants else constants.push v

/-- A pool keeps its indices when constants are added at its end. -/
theorem poolIndex?_append {constants more : Array Value} {v : Value} {i : Nat}
    (h : poolIndex? constants v = some i) : poolIndex? (constants ++ more) v = some i := by
  unfold poolIndex? at *
  rw [Array.findIdx?_append, h]
  rfl

/-- The constant at the index of a value is the first that is the same. -/
theorem find?_of_poolIndex? {constants : Array Value} {v : Value} {i : Nat}
    (h : poolIndex? constants v = some i) :
    ∃ c, constants[i]? = some c ∧ constants.find? (·.same v) = some c ∧ c.same v := by
  obtain ⟨hi, hsame, hfirst⟩ := Array.findIdx?_eq_some_iff_getElem.mp h
  refine ⟨constants[i], Array.getElem?_eq_getElem hi, ?_, hsame⟩
  refine Array.find?_eq_some_iff_getElem.mpr ⟨hsame, i, hi, rfl, fun j hj => ?_⟩
  simpa using hfirst j hj

/-! ## Operations on images -/

namespace Image

/-- A note leaves the code as it is. -/
@[simp]
theorem noteAt_code (im : Image) (a : Int64) (c : String) : (im.noteAt a c).code = im.code :=
  rfl

/-- A note leaves the constants as they are. -/
@[simp]
theorem noteAt_constants (im : Image) (a : Int64) (c : String) :
    (im.noteAt a c).constants = im.constants :=
  rfl

/-- One image differs from another only in its code and its comments. -/
structure SameData (im im' : Image) : Prop where
  constants : im'.constants = im.constants
  typedConstants : im'.typedConstants = im.typedConstants
  natives : im'.natives = im.natives
  start : im'.start = im.start

/-- What a successful emission does. -/
theorem emit_ok {op : UInt8} {a b : Int64} {c : String} {im im' : Image} {r : Nat}
    (h : emit op a b c im = .ok r im') :
    ∃ w, Word.encode op a b = .ok w ∧ r = im.code.size ∧ im'.code = im.code.push w ∧
      SameData im im' := by
  unfold emit at h
  split at h
  · cases h
  · split at h
    · cases h
    · rename_i w hw
      obtain ⟨rfl, rfl⟩ := EStateM.Result.ok.inj h
      refine ⟨w, hw, rfl, ?_, ?_, ?_, ?_, ?_⟩ <;> split <;> rfl

/-- What a successful patch does. -/
theorem patch_ok {a t : Int64} {im im' : Image} {u : Unit} (h : patch a t im = .ok u im') :
    ∃ old w, im.fetch? a = some old ∧ old.withOperand2 t = .ok w ∧
      im' = { im with code := im.code.setIfInBounds a.toNatClampNeg w } := by
  unfold patch at h
  split at h
  · cases h
  · split at h
    · cases h
    · rename_i old hold
      split at h
      · cases h
      · rename_i w hw
        exact ⟨old, w, hold, hw, (EStateM.Result.ok.inj h).2.symm⟩

/-- What a successful interning does: the pool grows at its end, if at all, and the result is
the index of the value in it. -/
theorem addConstant_ok {v : Value} {im im' : Image} {i : Nat}
    (h : addConstant v im = .ok i im') :
    poolIndex? im'.constants v = some i ∧
      ∃ more, im' = { im with constants := im.constants ++ more } ∧
        i ≤ im.constants.size ∧ more.size ≤ 1 ∧ im.constants ++ more = intern im.constants v := by
  unfold addConstant at h
  split at h
  · rename_i index hindex
    obtain ⟨rfl, rfl⟩ := EStateM.Result.ok.inj h
    have hlt : index < im.constants.size := (Array.findIdx?_eq_some_iff_getElem.mp hindex).1
    exact ⟨hindex, #[], by simp, Nat.le_of_lt hlt, by simp, by simp [intern, poolIndex?, hindex]⟩
  · rename_i hnone
    split at h
    · cases h
    · obtain ⟨rfl, rfl⟩ := EStateM.Result.ok.inj h
      refine ⟨?_, #[v], by simp, Nat.le_refl _, by simp, by simp [intern, poolIndex?, hnone]⟩
      unfold poolIndex?
      simp [Array.findIdx?_push, hnone, Value.same_refl]

/-- What a successful addition of typed constants does. -/
theorem addTypedConstants_ok {words : Array Value} {im im' : Image} {i : Nat}
    (h : addTypedConstants words im = .ok i im') :
    i = im.typedConstants.size ∧
      im' = { im with typedConstants := im.typedConstants ++ words } := by
  unfold addTypedConstants at h
  split at h
  · cases h
  · obtain ⟨rfl, rfl⟩ := EStateM.Result.ok.inj h
    exact ⟨rfl, rfl⟩

/-- A comment changes nothing else. -/
theorem addComment_ok {a : Int64} {c : String} {im im' : Image} {u : Unit}
    (h : addComment a c im = .ok u im') : im' = im.noteAt a c := by
  unfold addComment at h
  split at h
  · cases h
  · exact (EStateM.Result.ok.inj h).2.symm

/-- The start address changes nothing else. -/
theorem setStart_ok {a : Int64} {im im' : Image} {u : Unit} (h : setStart a im = .ok u im') :
    im' = { im with start := a } := by
  unfold setStart at h
  split at h
  · cases h
  · exact (EStateM.Result.ok.inj h).2.symm

/-- An instruction is fetched from the place that its address counts. -/
theorem fetch?_ofNat {im : Image} {a : Nat} (ha : a < 2 ^ 63) :
    im.fetch? (Int64.ofNat a) = im.code[a]? := by
  have hint : (Int64.ofNat a).toInt = a := Int64.toInt_ofNat_of_lt ha
  have hpos : ¬ Int64.ofNat a < 0 := by
    rw [Int64.lt_iff_toInt_lt, hint]
    simp
  rw [fetch?, if_neg hpos, Int64.toNatClampNeg_ofNat_of_lt ha]

end Image

end PCode
