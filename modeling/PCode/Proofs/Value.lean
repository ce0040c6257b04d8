import PCode.Value

/-!
# Laws of values

Identity of constants is reflexive and symmetric, and a constant that is
identical to an integer is that integer to every instruction that reads it.
-/

namespace PCode.Value

open Float.Model (UnpackedFloat)

/-- A real equals itself unless it is not a number. -/
theorem real_beq_self_or_isNaN (x : Float) : (x == x || (x.isNaN && x.isNaN)) = true := by
  change (x.toModel.unpack.beq x.toModel.unpack ||
    (x.toModel.unpack.isNaN && x.toModel.unpack.isNaN)) = true
  cases x.toModel.unpack with
  | notANumber => rfl
  | infinity s => cases s <;> rfl
  | zero s => cases s <;> rfl
  | finite s m e _ =>
    have hself : (Ord.compare e e).then (Ord.compare m m) = .eq := by simp
    cases s with
    | positive => exact congrArg (fun o => some o == some .eq || false) hself
    | negative => exact congrArg (fun o => some (Ordering.swap o) == some .eq || false) hself

/-- Every value is identical to itself. -/
@[simp]
theorem same_refl (v : Value) : v.same v = true := by
  unfold same
  split
  · simpa using real_beq_self_or_isNaN v.real
  · simp

/-- Two reals that compare as equal do so in either order. -/
theorem real_compare_symm {a b : UnpackedFloat} (h : a.compare b = some .eq) :
    b.compare a = some .eq := by
  cases a with
  | notANumber => cases h
  | infinity s =>
    cases b with
    | infinity t => revert h; cases s <;> cases t <;> decide
    | _ => cases s <;> cases h
  | zero s =>
    cases b with
    | zero t => rfl
    | finite t _ _ _ => cases t <;> cases h
    | infinity t => cases t <;> cases h
    | notANumber => cases h
  | finite s m e _ =>
    cases b with
    | finite t n k _ =>
      have hsame (heq : (Ord.compare e k).then (Ord.compare m n) = .eq) : e = k ∧ m = n :=
        (Ordering.then_eq_eq.mp heq).imp Int.compare_eq_eq.mp Nat.compare_eq_eq.mp
      cases s with
      | positive =>
        cases t with
        | positive =>
          obtain ⟨rfl, rfl⟩ := hsame (Option.some.inj h)
          exact h
        | negative => cases h
      | negative =>
        cases t with
        | positive => cases h
        | negative =>
          obtain ⟨rfl, rfl⟩ := hsame (Ordering.swap_eq_eq.mp (Option.some.inj h))
          exact h
    | zero t => cases s <;> cases h
    | infinity t => cases s <;> cases t <;> cases h
    | notANumber => cases s <;> cases h

/-- Equality of reals is symmetric. -/
theorem real_beq_symm {x y : Float} (h : (x == y) = true) : (y == x) = true := by
  change x.toModel.unpack.beq y.toModel.unpack = true at h
  change y.toModel.unpack.beq x.toModel.unpack = true
  exact beq_iff_eq.mpr (real_compare_symm (beq_iff_eq.mp h))

/-- Identity of constants is symmetric. -/
theorem same_symm {v w : Value} (h : v.same w = true) : w.same v = true := by
  unfold same at h ⊢
  simp only [Bool.and_eq_true, beq_iff_eq] at h ⊢
  obtain ⟨hkind, hpayload⟩ := h
  refine ⟨hkind.symm, ?_⟩
  by_cases hreal : v.kind = .real
  · rw [if_pos hreal] at hpayload
    rw [if_pos (hkind ▸ hreal)]
    simp only [Bool.or_eq_true, Bool.and_eq_true] at hpayload ⊢
    exact hpayload.imp real_beq_symm And.symm
  · rw [if_neg hreal] at hpayload
    rw [if_neg (hkind ▸ hreal)]
    simp only [Bool.and_eq_true, beq_iff_eq] at hpayload ⊢
    exact ⟨hpayload.1.symm, hpayload.2.symm⟩

/-- An integer word stands for its integer. -/
@[simp]
theorem toInt_ofInt (i : Int64) : (ofInt i).toInt = i :=
  rfl

/-- An address word stands for its address. -/
@[simp]
theorem toInt_ofAddress (a : Int64) : (ofAddress a).toInt = a :=
  rfl

/-- What is identical to an integer reads as that integer. -/
theorem toInt_of_same {v : Value} {i : Int64} (h : v.same (ofInt i) = true) : v.toInt = i := by
  unfold same ofInt at h
  simp only [Bool.and_eq_true, beq_iff_eq] at h
  obtain ⟨hkind, hrest⟩ := h
  simp only [hkind, reduceCtorEq, if_false, Bool.and_eq_true, beq_iff_eq] at hrest
  simp [toInt, hkind, hrest.1]

end PCode.Value
