import PCode.Proofs.Real.Bits

/-!
# Narrowing without loss

A double that a narrower format holds is narrowed to a pattern from which widening
gives it back.  Numbers below the least normal double are never narrowed.

Main result: `Real.widen_of_narrow?`.
-/

namespace PCode.Real

/-- A format with room for fewer exponents and fractions than a double has. -/
structure Format.Narrow (f : Format) : Prop where
  exponent : 0 < f.exponentBits ∧ f.exponentBits ≤ 10
  fraction : f.fractionBits ≤ 52

/-- A half is narrower than a real. -/
theorem half_narrow : half.Narrow := ⟨by decide, by decide⟩

/-- A single is narrower than a real. -/
theorem single_narrow : single.Narrow := ⟨by decide, by decide⟩

variable {f : Format}

/-! ## Patterns -/

private theorem Format.maxExponent_eq (f : Format) :
    f.maxExponent = 2 ^ (f.exponentBits - 1) - 1 := by
  rw [Format.maxExponent, Nat.pow_eq, Int.natCast_pow]
  rfl

private theorem Format.two_pow_exponentBits (hf : f.Narrow) :
    (2 : Int) ^ f.exponentBits = 2 * f.maxExponent + 2 := by
  obtain ⟨k, hk⟩ := Nat.exists_eq_add_of_lt hf.exponent.1
  rw [Format.maxExponent_eq, hk, Nat.zero_add, Nat.add_sub_cancel, Int.pow_succ]
  omega

private theorem Format.maxExponent_lt (hf : f.Narrow) : f.maxExponent < 512 := by
  have hpow : 2 ^ (f.exponentBits - 1) ≤ 2 ^ 9 :=
    Nat.pow_le_pow_right (by decide) (by have := hf.exponent.2; omega)
  have hcast : (2 : Int) ^ (f.exponentBits - 1) ≤ 2 ^ 9 := by exact_mod_cast hpow
  rw [Format.maxExponent_eq]
  omega

/-- A pattern is widened by its fields. -/
theorem widen_pattern (negative : Bool) {field fraction : Nat} (hfield : field < 2 ^ f.exponentBits)
    (hfraction : fraction < 2 ^ f.fractionBits) :
    widen f (f.signPattern negative + (field * 2 ^ f.fractionBits + fraction)) =
      if field = f.topField then ofFields negative 2047 (fraction * 2 ^ (52 - f.fractionBits))
      else if field = 0 then ofDyadic ⟨negative, fraction, f.leastExponent⟩
      else ofDyadic ⟨negative, 2 ^ f.fractionBits + fraction, f.leastExponent + field - 1⟩ := by
  have hpattern : f.signPattern negative + (field * 2 ^ f.fractionBits + fraction) =
      2 ^ f.fractionBits * (2 ^ f.exponentBits * negative.toNat + field) + fraction := by
    cases negative <;> simp [Format.signPattern, Nat.pow_add, Nat.mul_add] <;> grind
  have hdiv : (2 ^ f.fractionBits * (2 ^ f.exponentBits * negative.toNat + field) + fraction) /
      2 ^ f.fractionBits = 2 ^ f.exponentBits * negative.toNat + field := by
    rw [Nat.mul_add_div (Nat.two_pow_pos _), Nat.div_eq_of_lt hfraction, Nat.add_zero]
  have hsign : ((2 ^ f.exponentBits * negative.toNat + field) / 2 ^ f.exponentBits % 2 == 1) =
      negative := by
    rw [Nat.mul_add_div (Nat.two_pow_pos _), Nat.div_eq_of_lt hfield]
    cases negative <;> rfl
  rw [hpattern, widen]
  simp only [Nat.pow_eq, Nat.mul_add_mod, Nat.mod_eq_of_lt hfraction, hdiv, Nat.mod_eq_of_lt hfield]
  rw [Nat.add_comm f.exponentBits, Nat.pow_add, ← Nat.div_div_eq_div_mul, hdiv, hsign]

/-! ## Magnitudes -/

private theorem log2_mul_pow {m : Nat} (hm : m ≠ 0) (k : Nat) : (m * 2 ^ k).log2 = m.log2 + k := by
  induction k with
  | zero => simp
  | succ k ih =>
    have hne : m * 2 ^ k ≠ 0 := Nat.mul_ne_zero hm (Nat.pos_iff_ne_zero.mp (Nat.two_pow_pos k))
    rw [Nat.pow_succ, ← Nat.mul_assoc, Nat.mul_comm, Nat.log2_two_mul hne, ih, Nat.add_assoc]

/-- What the magnitude of a number with 53 bits is in a narrower format: either it is below the
least normal number, or it has an exponent field. -/
theorem magnitude?_eq_some (hf : f.Narrow) {m₀ bits : Nat} {e₀ : Int} (hlog : m₀.log2 = 52)
    (h : f.magnitude? m₀ e₀ = some bits) :
    ∃ m k : Nat, m₀ = m * 2 ^ k ∧ m.log2 + k = 52 ∧
      ((bits = m ∧ m < 2 ^ f.fractionBits ∧ e₀ + k = f.leastExponent) ∨
        ∃ field fraction : Nat, 0 < field ∧ field < f.topField ∧ fraction < 2 ^ f.fractionBits ∧
          m = 2 ^ f.fractionBits + fraction ∧ bits = field * 2 ^ f.fractionBits + fraction ∧
          e₀ + k = f.leastExponent + field - 1) := by
  have hm₀ : m₀ ≠ 0 := by
    rintro rfl
    simp at hlog
  have hfraction := hf.fraction
  rw [Format.magnitude?, if_neg hm₀, hlog] at h
  simp only [Nat.pow_eq] at h
  generalize hlast : max f.leastExponent (e₀ + (52 : Nat) - f.fractionBits) = last at h
  -- the last bit of the format is never below that of a double
  obtain ⟨k, hk⟩ : ∃ k : Nat, last = e₀ + k := ⟨(last - e₀).toNat, by omega⟩
  have hshift : last - e₀ = k := by omega
  simp only [hshift, Int.toNat_natCast] at h
  split at h
  · cases h
  rename_i hfits
  simp only [Bool.or_eq_true, decide_eq_true_eq, Bool.not_eq_true', not_or, Bool.not_eq_false,
    beq_iff_eq] at hfits
  obtain ⟨htop, hexact⟩ := hfits
  have hdvd : m₀ % 2 ^ k = 0 := by
    rcases hexact with hnone | hexact
    · obtain rfl : k = 0 := by omega
      simp [Nat.mod_one]
    · exact hexact
  obtain ⟨m, hm⟩ := Nat.dvd_of_mod_eq_zero hdvd
  have hm' : m₀ = m * 2 ^ k := hm.trans (Nat.mul_comm _ _)
  have hne : m ≠ 0 := by
    rintro rfl
    exact hm₀ hm
  have hwidth : m.log2 + k = 52 := by rw [← log2_mul_pow hne, ← hm', hlog]
  have hvalue : (if (k : Int) ≤ 0 then m₀ * 2 ^ (-(k : Int)).toNat else m₀ / 2 ^ k) = m := by
    split
    · obtain rfl : k = 0 := by omega
      simpa using hm'
    · rw [hm', Nat.mul_div_cancel _ (Nat.two_pow_pos k)]
  rw [hvalue] at h
  refine ⟨m, k, hm', hwidth, ?_⟩
  split at h
  · rename_i hsmall
    have hlog' : m.log2 < f.fractionBits := (Nat.log2_lt hne).mpr hsmall
    exact .inl ⟨(Option.some.inj h).symm, hsmall, by omega⟩
  · rename_i hlarge
    have hlow : f.fractionBits ≤ m.log2 := (Nat.le_log2 hne).mpr (by omega)
    have hhigh : m < 2 ^ (f.fractionBits + 1) := by
      have := Nat.lt_log2_self (n := m)
      rwa [show m.log2 = f.fractionBits by omega] at this
    have hbits := Format.two_pow_exponentBits hf
    have hleast : f.leastExponent = 1 - f.maxExponent - f.fractionBits := rfl
    have htopField : (f.topField : Int) = 2 ^ f.exponentBits - 1 := by
      rw [Format.topField, Nat.pow_eq, Int.ofNat_sub (Nat.two_pow_pos _)]
      simp
    rw [Nat.pow_succ] at hhigh
    exact .inr ⟨(last - f.leastExponent + 1).toNat, m - 2 ^ f.fractionBits, by omega, by omega,
      by omega, by omega, (Option.some.inj h).symm, by omega⟩

/-- No narrower format holds a number below the least normal double. -/
theorem magnitude?_subnormal (hf : f.Narrow) {m : Nat} (hm : m ≠ 0) (hlt : m < 2 ^ 52) :
    f.magnitude? m (-1074) = none := by
  have hlog : m.log2 < 52 := (Nat.log2_lt hm).mpr hlt
  have hmax := Format.maxExponent_lt hf
  have hfraction := hf.fraction
  have hleast : f.leastExponent = 1 - f.maxExponent - f.fractionBits := rfl
  rw [Format.magnitude?, if_neg hm]
  simp only [Nat.pow_eq]
  generalize hlast : max f.leastExponent (-1074 + (m.log2 : Int) - f.fractionBits) = last
  have hshift : 52 ≤ (last + 1074).toNat := by omega
  have hpow : m < 2 ^ (last + 1074).toNat :=
    Nat.lt_of_lt_of_le hlt (Nat.pow_le_pow_right (by decide) hshift)
  rw [if_pos]
  have hrest : m % 2 ^ (last - -1074).toNat = m := by
    rw [Int.sub_neg]
    exact Nat.mod_eq_of_lt hpow
  simp only [hrest, Bool.or_eq_true, Bool.not_eq_true', Bool.or_eq_false_iff,
    decide_eq_false_iff_not,
    beq_eq_false_iff_ne]
  exact .inr ⟨by omega, hm⟩

/-! ## Doubles -/

/-- A normal double from a mantissa without some of its last zeros. -/
theorem ofDyadic_eq {x : Float} {m k : Nat} {e : Int}
    (hm : 2 ^ 52 + fractionField x = m * 2 ^ k) (hwidth : m.log2 + k = 52)
    (he : (exponentField x : Int) - 1075 + k = e) : ofDyadic ⟨signBit x, m, e⟩ = x := by
  have hne : m ≠ 0 := by
    rintro rfl
    omega
  have hexponent : (e + m.log2 + 1023).toNat = exponentField x := by omega
  have hfraction : m * 2 ^ (52 - m.log2) - 2 ^ 52 = fractionField x := by
    rw [show 52 - m.log2 = k by omega, ← hm, Nat.add_sub_cancel_left]
  rw [ofDyadic, if_neg hne]
  simp only [Nat.pow_eq]
  rw [hexponent, hfraction, ofFields_eq]

/-- Widening gives back what was narrowed. -/
theorem widen_of_narrow? (hf : f.Narrow) {x : Float} {bits : Nat} (h : narrow? f x = some bits) :
    widen f bits = x := by
  have hfields := ofFields_eq x
  have hpositive : 0 < f.topField := by
    have := Nat.one_lt_two_pow (Nat.pos_iff_ne_zero.mp hf.exponent.1)
    rw [Format.topField, Nat.pow_eq]
    omega
  have htopField : f.topField < 2 ^ f.exponentBits := Nat.sub_lt (Nat.two_pow_pos _) (by decide)
  unfold narrow? dyadic? at h
  by_cases htop : exponentField x = 2047
  · -- infinity
    rw [if_pos htop] at h
    simp only at h
    split at h
    · rename_i hfraction
      obtain rfl := Option.some.inj h
      have hwiden := widen_pattern (signBit x) htopField (Nat.two_pow_pos f.fractionBits)
      rw [Nat.add_zero, if_pos rfl, Nat.zero_mul] at hwiden
      rwa [Nat.pow_eq, hwiden, ← htop, ← hfraction]
    · cases h
  rw [if_neg htop] at h
  by_cases hleast : exponentField x = 0
  · rw [if_pos hleast] at h
    obtain ⟨magnitude, hmagnitude, rfl⟩ := Option.map_eq_some_iff.mp h
    by_cases hfraction : fractionField x = 0
    · -- zero
      obtain rfl : magnitude = 0 := by
        simpa [Format.magnitude?, hfraction, eq_comm] using hmagnitude
      have hwiden := widen_pattern (signBit x) (Nat.two_pow_pos f.exponentBits)
        (Nat.two_pow_pos f.fractionBits)
      rw [if_neg (by omega), if_pos rfl, Nat.zero_mul] at hwiden
      rw [hleast, hfraction] at hfields
      rw [hwiden, ofDyadic, if_pos rfl]
      exact hfields
    · rw [magnitude?_subnormal hf hfraction (fractionField_lt x)] at hmagnitude
      cases hmagnitude
  · rw [if_neg hleast] at h
    obtain ⟨magnitude, hmagnitude, rfl⟩ := Option.map_eq_some_iff.mp h
    have hlt := fractionField_lt x
    have hlog : (2 ^ 52 + fractionField x).log2 = 52 := (Nat.log2_eq_iff (by omega)).mpr (by omega)
    obtain ⟨m, k, hm, hwidth,
        ⟨rfl, hsmall, he⟩ | ⟨field, fraction, hpos, hfield, hfraction, rfl, rfl, he⟩⟩ :=
      magnitude?_eq_some hf hlog hmagnitude
    · have hwiden := widen_pattern (signBit x) (Nat.two_pow_pos f.exponentBits) hsmall
      rw [if_neg (by omega), if_pos rfl, Nat.zero_mul, Nat.zero_add] at hwiden
      rw [hwiden]
      exact ofDyadic_eq hm hwidth he
    · have hwiden := widen_pattern (signBit x) (Nat.lt_trans hfield htopField) hfraction
      rw [if_neg (by omega), if_neg (by omega)] at hwiden
      rw [hwiden]
      exact ofDyadic_eq hm hwidth he

end PCode.Real
