import Mathlib.Algebra.Order.Ring.Int
import Mathlib.Data.List.Basic
import PCode.Real.Format

/-!
# Doubles as bits

A double is determined by its sign, its exponent field and its fraction field.  Only
NaN has more than one pattern, of which the canonical one is kept.

Main results:

- `Real.ofBits_toBits`: a double is read back from its bits.
- `Real.ofFields_eq`: a double is what has its fields.
- `Real.beq_zero_iff`: the zeros by their fields.
-/

namespace PCode.Real

open Float.Model Float.Model.UnpackedFloat

/-! ## Packing and unpacking -/

private theorem toBitVec_ofBitVec (s : BitVec 1) : (Sign.ofBitVec s).toBitVec = s := by
  revert s
  decide

/-- A pattern consists of its three fields. -/
theorem packComponents_unpack (b : BitVec 64) :
    packComponents .binary64 (.ofBitVec (@unpackSign .binary64 b)) (@unpackExponent .binary64 b)
      (@unpackMantissa .binary64 b) = b := by
  ext i hi
  have hsign : @unpackSign .binary64 b = b.extractLsb' 63 1 := rfl
  simp only [packComponents, toBitVec_ofBitVec, hsign, unpackExponent, unpackMantissa]
  simp
  grind

/-- A number below the least normal one is packed with its mantissa. -/
theorem pack_subnormal {sign : Sign} {m : Nat} {e : Int} {h : 0 < m} (hm : m < 2 ^ 52)
    (he : e = -1074) :
    UnpackedFloat.pack .binary64 (.finite sign m e h) =
      packComponents .binary64 sign 0 (BitVec.ofNat 52 m) := by
  have hlog : m.log2 < 52 := (Nat.log2_lt (by omega)).mpr hm
  have hbits : Format.mantissaBits .binary64 = 53 := rfl
  subst he
  unfold UnpackedFloat.pack
  rw [if_neg (by decide), if_neg (by rw [hbits]; omega)]
  rfl

/-- A normal number is packed without the first bit of its mantissa. -/
theorem pack_normal {sign : Sign} {m field : Nat} {e : Int} {h : 0 < m}
    (hm : 2 ^ 52 ≤ m ∧ m < 2 ^ 53) (hfield : field < 2047) (he : e = field - 1075) :
    UnpackedFloat.pack .binary64 (.finite sign m e h) =
      packComponents .binary64 sign (BitVec.ofNat 11 field) (BitVec.ofNat 52 m) := by
  have hlog : m.log2 = 52 := (Nat.log2_eq_iff (by omega)).mpr hm
  have hbits : Format.mantissaBits .binary64 = 53 := rfl
  have hbiased : (e + (Format.exponentBias .binary64 : Nat) + (52 : Nat)).toNat = field := by
    simp only [Format.exponentBias]
    omega
  unfold UnpackedFloat.pack
  simp only
  rw [hbiased, if_neg (by omega), if_pos (by rw [hbits]; omega)]

section

variable {b : BitVec 64}

private theorem unpack_infinity (htop : @unpackExponent .binary64 b = -1#11)
    (hfraction : @unpackMantissa .binary64 b = 0#52) :
    unpack .binary64 b = .infinity (.ofBitVec (@unpackSign .binary64 b)) :=
  (if_pos htop).trans (if_pos hfraction)

private theorem unpack_notANumber (htop : @unpackExponent .binary64 b = -1#11)
    (hfraction : @unpackMantissa .binary64 b ≠ 0#52) : unpack .binary64 b = .notANumber :=
  (if_pos htop).trans (if_neg hfraction)

private theorem unpack_zero (htop : @unpackExponent .binary64 b ≠ -1#11)
    (hleast : @unpackExponent .binary64 b = 0#11) (hfraction : @unpackMantissa .binary64 b = 0#52) :
    unpack .binary64 b = .zero (.ofBitVec (@unpackSign .binary64 b)) :=
  (if_neg htop).trans ((if_pos hleast).trans (dif_pos hfraction))

private theorem unpack_subnormal (htop : @unpackExponent .binary64 b ≠ -1#11)
    (hleast : @unpackExponent .binary64 b = 0#11) (hfraction : @unpackMantissa .binary64 b ≠ 0#52) :
    ∃ h, unpack .binary64 b = .finite (.ofBitVec (@unpackSign .binary64 b))
      (@unpackMantissa .binary64 b).toNat ((@unpackExponent .binary64 b).toNat - 1075 + 1) h :=
  ⟨_, (if_neg htop).trans ((if_pos hleast).trans (dif_neg hfraction))⟩

private theorem unpack_normal (htop : @unpackExponent .binary64 b ≠ -1#11)
    (hleast : @unpackExponent .binary64 b ≠ 0#11) :
    ∃ h, unpack .binary64 b = .finite (.ofBitVec (@unpackSign .binary64 b))
      (1#1 ++ @unpackMantissa .binary64 b).toNat ((@unpackExponent .binary64 b).toNat - 1075) h :=
  ⟨_, (if_neg htop).trans (if_neg hleast)⟩

/-- Packing undoes unpacking, except for a NaN that is not the canonical one. -/
theorem pack_unpack (h : Format.binary64.Valid b) :
    UnpackedFloat.pack .binary64 (UnpackedFloat.unpack .binary64 b) = b := by
  have hparts := packComponents_unpack b
  have hm : (@unpackMantissa .binary64 b).toNat < 2 ^ 52 := (@unpackMantissa .binary64 b).isLt
  have he : (@unpackExponent .binary64 b).toNat < 2 ^ 11 := (@unpackExponent .binary64 b).isLt
  by_cases htop : @unpackExponent .binary64 b = -1#11
  · by_cases hfraction : @unpackMantissa .binary64 b = 0#52
    · rw [unpack_infinity htop hfraction]
      rw [htop, hfraction] at hparts
      exact hparts
    · rw [unpack_notANumber htop hfraction]
      exact (h.eq_packedNaN htop hfraction).symm
  by_cases hleast : @unpackExponent .binary64 b = 0#11
  · by_cases hfraction : @unpackMantissa .binary64 b = 0#52
    · rw [unpack_zero htop hleast hfraction]
      rw [hleast, hfraction] at hparts
      exact hparts
    · obtain ⟨hpos, heq⟩ := unpack_subnormal htop hleast hfraction
      rw [hleast] at hparts
      rw [heq, pack_subnormal hm (by rw [hleast]; rfl), BitVec.ofNat_toNat, BitVec.setWidth_eq]
      exact hparts
  · have hfield : (@unpackExponent .binary64 b).toNat < 2047 := by
      have hne : (@unpackExponent .binary64 b).toNat ≠ 2047 := fun heq =>
        htop (BitVec.eq_of_toNat_eq heq)
      omega
    have hvalue : (1#1 ++ @unpackMantissa .binary64 b).toNat =
        2 ^ 52 + (@unpackMantissa .binary64 b).toNat := by
      rw [BitVec.toNat_append, ← Nat.shiftLeft_add_eq_or_of_lt hm]
      rfl
    have hrest : BitVec.ofNat 52 (2 ^ 52 + (@unpackMantissa .binary64 b).toNat) =
        @unpackMantissa .binary64 b := by
      apply BitVec.eq_of_toNat_eq
      rw [BitVec.toNat_ofNat, Nat.add_mod_left, Nat.mod_eq_of_lt hm]
    obtain ⟨hpos, heq⟩ := unpack_normal htop hleast
    rw [heq, pack_normal (by rw [hvalue]; omega) hfield rfl, hvalue, hrest, BitVec.ofNat_toNat,
      BitVec.setWidth_eq]
    exact hparts

end

/-- A real is determined by its bits. -/
theorem eq_of_toBits_eq {x y : Float} (h : x.toBits = y.toBits) : x = y := by
  obtain ⟨⟨a, ha⟩⟩ := x
  obtain ⟨⟨b, hb⟩⟩ := y
  obtain rfl : a = b := h
  rfl

/-- A double is read back from its bits. -/
theorem ofBits_toBits (x : Float) : Float.ofBits x.toBits = x :=
  eq_of_toBits_eq (congrArg UInt64.ofBitVec (pack_unpack x.toModel.valid))

/-! ## Fields -/

private theorem exponentField_eq (x : Float) :
    exponentField x = (@unpackExponent .binary64 x.toBits.toBitVec).toNat := by
  simp [exponentField, unpackExponent, Nat.shiftRight_eq_div_pow]

private theorem fractionField_eq (x : Float) :
    fractionField x = (@unpackMantissa .binary64 x.toBits.toBitVec).toNat := by
  simp [fractionField, unpackMantissa]

/-- The fraction of a real has fifty-two bits. -/
theorem fractionField_lt (x : Float) : fractionField x < 2 ^ 52 :=
  Nat.mod_lt _ (by decide)

/-- The bits of a double by its fields. -/
theorem toNat_toBits (x : Float) : x.toBits.toNat =
    (if signBit x then 2 ^ 63 else 0) + exponentField x * 2 ^ 52 + fractionField x := by
  have hbits : x.toBits.toNat < 2 ^ 64 := x.toBits.toNat_lt
  change _ = (if x.toBits.toNat / 2 ^ 63 == 1 then 2 ^ 63 else 0) +
    x.toBits.toNat / 2 ^ 52 % 2 ^ 11 * 2 ^ 52 + x.toBits.toNat % 2 ^ 52
  by_cases hsign : x.toBits.toNat / 2 ^ 63 = 1
  · rw [if_pos (beq_iff_eq.mpr hsign)]
    omega
  · rw [if_neg fun h => hsign (beq_iff_eq.mp h)]
    omega

/-- A double is what has its fields. -/
theorem ofFields_eq (x : Float) : ofFields (signBit x) (exponentField x) (fractionField x) = x := by
  rw [ofFields, Nat.pow_eq, Nat.pow_eq, ← toNat_toBits, UInt64.ofNat_toNat, ofBits_toBits]

private theorem exponentField_eq_top_iff (x : Float) :
    @unpackExponent .binary64 x.toBits.toBitVec = -1#11 ↔ exponentField x = 2047 := by
  rw [exponentField_eq, ← BitVec.toNat_inj]
  rfl

private theorem exponentField_eq_zero_iff (x : Float) :
    @unpackExponent .binary64 x.toBits.toBitVec = 0#11 ↔ exponentField x = 0 := by
  rw [exponentField_eq, ← BitVec.toNat_inj]
  rfl

private theorem fractionField_eq_zero_iff (x : Float) :
    @unpackMantissa .binary64 x.toBits.toBitVec = 0#52 ↔ fractionField x = 0 := by
  rw [fractionField_eq, ← BitVec.toNat_inj]
  rfl

/-- What a double is, by its fields. -/
theorem unpack_cases (x : Float) :
    (exponentField x = 2047 ∧ fractionField x = 0 ∧ ∃ s, x.toModel.unpack = .infinity s) ∨
    (exponentField x = 2047 ∧ fractionField x ≠ 0 ∧ x.toModel.unpack = .notANumber) ∨
    (exponentField x = 0 ∧ fractionField x = 0 ∧ ∃ s, x.toModel.unpack = .zero s) ∨
    (exponentField x ≠ 2047 ∧ (exponentField x = 0 → fractionField x ≠ 0) ∧
      ∃ s m e h, x.toModel.unpack = .finite s m e h) := by
  have top := exponentField_eq_top_iff x
  have least := exponentField_eq_zero_iff x
  have fraction := fractionField_eq_zero_iff x
  by_cases htop : exponentField x = 2047
  · by_cases hzero : fractionField x = 0
    · exact .inl ⟨htop, hzero, _, unpack_infinity (top.mpr htop) (fraction.mpr hzero)⟩
    · exact .inr (.inl ⟨htop, hzero, unpack_notANumber (top.mpr htop) (mt fraction.mp hzero)⟩)
  by_cases hleast : exponentField x = 0
  · by_cases hzero : fractionField x = 0
    · exact .inr (.inr (.inl ⟨hleast, hzero, _,
        unpack_zero (mt top.mp htop) (least.mpr hleast) (fraction.mpr hzero)⟩))
    · exact .inr (.inr (.inr ⟨htop, fun _ => hzero, _, _, _,
        unpack_subnormal (mt top.mp htop) (least.mpr hleast) (mt fraction.mp hzero)⟩))
  · exact .inr (.inr (.inr ⟨htop, fun h => absurd h hleast, _, _, _,
      unpack_normal (mt top.mp htop) (mt least.mp hleast)⟩))

/-- The two zeros have no exponent field and no fraction. -/
theorem beq_zero_iff (x : Float) :
    (x == 0) = true ↔ exponentField x = 0 ∧ fractionField x = 0 := by
  have hzero : (0 : Float).toModel.unpack = .zero .positive := rfl
  change x.toModel.unpack.beq (0 : Float).toModel.unpack = true ↔ _
  rw [hzero]
  rcases unpack_cases x with ⟨htop, -, s, h⟩ | ⟨htop, -, h⟩ | ⟨hleast, hfraction, s, h⟩ |
    ⟨-, hother, s, m, e, hm, h⟩
  · refine iff_of_false ?_ (by omega)
    rw [h]
    cases s <;> decide
  · refine iff_of_false ?_ (by omega)
    rw [h]
    decide
  · refine iff_of_true ?_ ⟨hleast, hfraction⟩
    rw [h]
    rfl
  · refine iff_of_false ?_ (by omega)
    rw [h]
    cases s <;> exact Bool.false_ne_true

end PCode.Real
