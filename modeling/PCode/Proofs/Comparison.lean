import PCode.Proofs.Semantics.Expr

/-!
# The order of texts

Two strings are compared by the bytes that encode them, two characters by their
codes, and a character next to a string counts as the string of this one
character.  These are one order, since encoding keeps the order of the codes: a
longer encoding has a greater first byte, and encodings of one length are the
digits of their codes.

Main definitions and results:

- `Value.encode_lt_encode`: encoded characters are ordered like their codes.
- `TextValue`: a string, or a character whose code is that of a character.
- `TextValue.compare_eq`: two of them are compared as their texts are.
- `texts_totally_ordered`: comparison is a total order of texts, and the operators follow it.
-/

namespace PCode

namespace Value

/-! ## Sequences of bytes -/

/-- What follows two different sequences of one length does not change their order. -/
theorem append_lt_append {xs ys : List UInt8} (hlength : xs.length = ys.length) (h : xs < ys)
    (s t : List UInt8) : xs ++ s < ys ++ t := by
  induction xs generalizing ys with
  | nil =>
    obtain rfl := List.length_eq_zero_iff.mp hlength.symm
    exact absurd h (List.lt_irrefl [])
  | cons x xs ih =>
    cases ys with
    | nil => cases hlength
    | cons y ys =>
      rw [List.cons_append, List.cons_append, List.cons_lt_cons_iff]
      rcases List.cons_lt_cons_iff.mp h with hlt | ⟨rfl, hrest⟩
      · exact .inl hlt
      · exact .inr ⟨rfl, ih (Nat.succ.inj hlength) hrest⟩

/-- What two sequences begin with in common does not change their order. -/
theorem append_left_lt_append {s t : List UInt8} (xs : List UInt8) (h : s < t) :
    xs ++ s < xs ++ t := by
  induction xs with
  | nil => exact h
  | cons x xs ih => exact List.cons_lt_cons_iff.mpr (.inr ⟨rfl, ih⟩)

/-! ## Encodings of characters -/

/-- A code as bytes: its digits of six bits, of which the first is marked and may have more bits. -/
def digits (mark : Nat) : Nat → Nat → List UInt8
  | 0, n => [UInt8.ofNat (n + mark)]
  | more + 1, n => digits mark more (n / 64) ++ [UInt8.ofNat (n % 64 + 128)]

private theorem length_digits (mark more n : Nat) : (digits mark more n).length = more + 1 := by
  induction more generalizing n with
  | zero => rfl
  | succ more ih => rw [digits, List.length_append, ih]; rfl

/-- The first byte has the leading digit. -/
theorem digits_eq_cons (mark more n : Nat) :
    ∃ rest, digits mark more n = UInt8.ofNat (n / 64 ^ more + mark) :: rest := by
  induction more generalizing n with
  | zero => exact ⟨[], by simp [digits]⟩
  | succ more ih =>
    obtain ⟨rest, hrest⟩ := ih (n / 64)
    refine ⟨rest ++ [UInt8.ofNat (n % 64 + 128)], ?_⟩
    rw [digits, hrest, Nat.div_div_eq_div_mul, Nat.pow_succ, Nat.mul_comm 64]
    rfl

private theorem ofNat_lt_ofNat {m n : Nat} (h : m < n) (hn : n < 256) :
    UInt8.ofNat m < UInt8.ofNat n := by
  rw [UInt8.lt_iff_toNat_lt, UInt8.toNat_ofNat', UInt8.toNat_ofNat']
  omega

/-- Digits are ordered like the codes. -/
theorem digits_lt_digits {mark more m n : Nat} (h : m < n) (hn : n / 64 ^ more + mark < 256) :
    digits mark more m < digits mark more n := by
  induction more generalizing m n with
  | zero =>
    rw [Nat.pow_zero, Nat.div_one] at hn
    exact List.cons_lt_cons_iff.mpr (.inl (ofNat_lt_ofNat (by omega) hn))
  | succ more ih =>
    rw [digits, digits]
    by_cases hdigit : m / 64 < n / 64
    · refine append_lt_append ?_ (ih hdigit ?_) _ _
      · rw [length_digits, length_digits]
      · rwa [Nat.div_div_eq_div_mul, ← Nat.pow_succ']
    · have hsame : m / 64 = n / 64 := by omega
      rw [hsame]
      exact append_left_lt_append _ (List.cons_lt_cons_iff.mpr
        (.inl (ofNat_lt_ofNat (by omega) (by omega))))

/-- What is added to the first digit, by the number of further bytes. -/
def mark : Nat → Nat
  | 0 => 0
  | 1 => 192
  | 2 => 224
  | 3 => 240
  | _ => 248

/-- The least code that needs a number of further bytes. -/
def leastCode : Nat → Nat
  | 0 => 0
  | 1 => 128
  | 2 => 2048
  | 3 => 65536
  | _ => 1114112

/-- A character is encoded by the digits of its code, no more of them than needed. -/
theorem encode_eq_digits (c : Char) :
    ∃ more < 4, leastCode more ≤ c.toNat ∧ c.toNat < leastCode (more + 1) ∧
      String.utf8EncodeChar c = digits (mark more) more c.toNat := by
  have hvalid : c.toNat < 1114112 := by
    have h := c.valid
    change c.toNat < 55296 ∨ 57343 < c.toNat ∧ c.toNat < 1114112 at h
    omega
  have hencode := String.utf8EncodeChar.eq_1 c
  change _ = if c.toNat ≤ 127 then [UInt8.ofNat c.toNat]
    else if c.toNat ≤ 2047 then [UInt8.ofNat (c.toNat / 64 % 32 + 192), _]
    else if c.toNat ≤ 65535 then [UInt8.ofNat (c.toNat / 4096 % 16 + 224), _, _]
    else [UInt8.ofNat (c.toNat / 262144 % 8 + 240), _, _, _] at hencode
  split at hencode
  · exact ⟨0, by decide, Nat.zero_le _, by simp only [leastCode]; omega, hencode⟩
  split at hencode
  · refine ⟨1, by decide, by simp only [leastCode]; omega, by simp only [leastCode]; omega, ?_⟩
    rwa [Nat.mod_eq_of_lt (by omega)] at hencode
  split at hencode
  · refine ⟨2, by decide, by simp only [leastCode]; omega, by simp only [leastCode]; omega, ?_⟩
    rw [Nat.mod_eq_of_lt (by omega)] at hencode
    simp only [digits, Nat.div_div_eq_div_mul]
    exact hencode
  · refine ⟨3, by decide, by simp only [leastCode]; omega, hvalid, ?_⟩
    rw [Nat.mod_eq_of_lt (by omega)] at hencode
    simp only [digits, Nat.div_div_eq_div_mul]
    exact hencode

/-- The first bytes of encodings of one length lie between their mark and the next. -/
theorem first_lt_mark {more n : Nat} (hmore : more < 4) (hn : n < leastCode (more + 1)) :
    n / 64 ^ more + mark more < mark (more + 1) := by
  obtain rfl | rfl | rfl | rfl : more = 0 ∨ more = 1 ∨ more = 2 ∨ more = 3 := by omega
  all_goals
    simp only [leastCode] at hn
    simp only [mark]
    omega

/-- More bytes have greater marks and encode greater codes. -/
theorem mark_leastCode_mono : ∀ i j : Fin 5, i ≤ j →
    mark i ≤ mark j ∧ leastCode i ≤ leastCode j := by
  decide

/-- Encoded characters are ordered like their codes. -/
theorem encode_lt_encode {c d : Char} (h : c.toNat < d.toNat) :
    String.utf8EncodeChar c < String.utf8EncodeChar d := by
  obtain ⟨more, hmore, hlow, hhigh, hc⟩ := encode_eq_digits c
  obtain ⟨more', hmore', hlow', hhigh', hd⟩ := encode_eq_digits d
  have hbyte : d.toNat / 64 ^ more' + mark more' < 256 :=
    calc d.toNat / 64 ^ more' + mark more'
        < mark (more' + 1) := first_lt_mark hmore' hhigh'
      _ ≤ mark 4 := (mark_leastCode_mono ⟨more' + 1, by omega⟩ 4 (by simp [Fin.le_def]; omega)).1
      _ ≤ 256 := by decide
  rw [hc, hd]
  rcases Nat.lt_trichotomy more more' with hlt | rfl | hgt
  · -- the longer encoding has the greater mark
    have hfirst : c.toNat / 64 ^ more + mark more < d.toNat / 64 ^ more' + mark more' :=
      calc c.toNat / 64 ^ more + mark more
          < mark (more + 1) := first_lt_mark hmore hhigh
        _ ≤ mark more' := (mark_leastCode_mono ⟨more + 1, by omega⟩ ⟨more', by omega⟩ hlt).1
        _ ≤ d.toNat / 64 ^ more' + mark more' := Nat.le_add_left ..
    obtain ⟨rest, hrest⟩ := digits_eq_cons (mark more) more c.toNat
    obtain ⟨rest', hrest'⟩ := digits_eq_cons (mark more') more' d.toNat
    rw [hrest, hrest', List.cons_lt_cons_iff]
    exact .inl (ofNat_lt_ofNat hfirst hbyte)
  · exact digits_lt_digits h hbyte
  · have hcode : leastCode (more' + 1) ≤ leastCode more :=
      (mark_leastCode_mono ⟨more' + 1, by omega⟩ ⟨more, by omega⟩ hgt).2
    omega

/-! ## Comparison of texts -/

private theorem encoding_inj {s t : String} : encoding s = encoding t ↔ s = t := by
  constructor
  · intro h
    exact String.toByteArray_inj.mp (ByteArray.ext (Array.toList_inj.mp h))
  · rintro rfl
    rfl

private theorem encoding_singleton (c : Char) :
    encoding (String.singleton c) = String.utf8EncodeChar c := by
  unfold encoding
  rw [String.toUTF8_eq_toByteArray, String.toByteArray_singleton, List.utf8Encode_singleton]
  simp

private theorem compareText_eq_lt_iff {s t : String} :
    compareText s t = .lt ↔ encoding s < encoding t := by
  unfold compareText
  by_cases hst : encoding s < encoding t
  · simp [hst]
  · rw [if_neg hst]
    split <;> simp [hst]

private theorem compareText_swap (s t : String) : compareText s t = (compareText t s).swap := by
  unfold compareText
  by_cases hst : encoding s < encoding t
  · rw [if_pos hst, if_neg (List.lt_asymm hst), if_pos hst]
    rfl
  · rw [if_neg hst, if_neg hst]
    split <;> rfl

private theorem compareText_isLE_iff {s t : String} :
    (compareText s t).isLE = true ↔ encoding s ≤ encoding t := by
  unfold compareText
  by_cases hst : encoding s < encoding t
  · simp [hst, List.le_of_lt hst]
  · rw [if_neg hst, ← List.not_lt]
    split <;> simp_all

private theorem compareText_eq_eq_iff {s t : String} : compareText s t = .eq ↔ s = t := by
  constructor
  · intro h
    have hle : encoding s ≤ encoding t := compareText_isLE_iff.mp (by rw [h]; rfl)
    have hge : encoding t ≤ encoding s :=
      compareText_isLE_iff.mp (by rw [compareText_swap, h]; rfl)
    exact encoding_inj.mp (List.le_antisymm hle hge)
  · rintro rfl
    unfold compareText
    rw [if_neg (List.lt_irrefl _), if_neg (List.lt_irrefl _)]

/-- One-character texts are compared like the codes of their characters. -/
theorem compareText_singleton (c d : Char) :
    compareText (String.singleton c) (String.singleton d) =
      if c.toNat < d.toNat then .lt else if d.toNat < c.toNat then .gt else .eq := by
  rcases Nat.lt_trichotomy c.toNat d.toNat with hlt | heq | hgt
  · have hcd := encode_lt_encode hlt
    rw [if_pos hlt, compareText, encoding_singleton, encoding_singleton, if_pos hcd]
  · obtain rfl : c = d := Char.ext (UInt32.toNat_inj.mp heq)
    rw [if_neg (Nat.lt_irrefl _), if_neg (Nat.lt_irrefl _)]
    exact compareText_eq_eq_iff.mpr rfl
  · have hdc := encode_lt_encode hgt
    rw [if_neg (Nat.lt_asymm hgt), if_pos hgt, compareText, encoding_singleton,
      encoding_singleton, if_neg (List.lt_asymm hdc), if_pos hdc]

/-! ## Values that stand for texts -/

/-- A value is the character with a code. -/
structure IsChar (v : Value) (c : Char) : Prop where
  kind : v.kind = .char
  code : v.int.toInt = c.toNat

/-- A value stands for a text: it is a string, or a character whose code is that of a character. -/
def IsText (v : Value) : Prop := v.kind = .string ∨ ∃ c, v.IsChar c

private theorem charOfCode_of_toInt {code : Int64} {c : Char} (h : code.toInt = c.toNat) :
    charOfCode code = c := by
  have hvalid : c.toNat.isValidChar := c.valid
  have hrange : c.toNat < 1114112 := by
    unfold Nat.isValidChar at hvalid
    omega
  have hlow : code.toInt32.toInt = c.toNat := by
    rw [Int64.toInt_toInt32, h, Int.bmod_eq_of_le (by omega) (by omega)]
  unfold charOfCode
  simp only [hlow, Int.toNat_natCast]
  rw [if_pos ⟨Int.natCast_nonneg _, hvalid⟩, Char.ofNat_toNat]

private theorem IsChar.comparisonText {v : Value} {c : Char} (h : v.IsChar c) :
    v.comparisonText = String.singleton c := by
  rw [Value.comparisonText, h.kind]
  exact congrArg String.singleton (charOfCode_of_toInt h.code)

/-- Characters are compared like the texts of one character that they stand for. -/
theorem IsChar.compareInt {v w : Value} {c d : Char} (hv : v.IsChar c) (hw : w.IsChar d) :
    Value.compareInt v.int w.int = compareText (String.singleton c) (String.singleton d) := by
  rw [compareText_singleton, Value.compareInt]
  simp only [Int64.lt_iff_toInt_lt, hv.code, hw.code, Int.ofNat_lt]

/-- Values that stand for texts are compared as these texts. -/
theorem IsText.compare_eq {v w : Value} (hv : v.IsText) (hw : w.IsText) :
    v.compare w = compareText v.comparisonText w.comparisonText := by
  unfold Value.compare
  rcases hv with hv | ⟨c, hv⟩
  · rw [if_pos (.inl hv)]
  rcases hw with hw | ⟨d, hw⟩
  · rw [if_pos (.inr hw)]
  · simp only [hv.kind, hw.kind, reduceCtorEq, or_self, if_false]
    rw [hv.compareInt hw, hv.comparisonText, hw.comparisonText]

/-- Values that stand for texts are equal when nothing else is said by their comparison. -/
theorem IsText.equal_eq {v w : Value} (hv : v.IsText) (hw : w.IsText) :
    v.equal w = (v.compare w == .eq) := by
  have hcomparable : v.comparable w = true := by
    unfold comparable
    rcases hv with hv | ⟨c, hv⟩ <;> rcases hw with hw | ⟨d, hw⟩
    · simp [hv, hw]
    · simp [hv, hw.kind]
    · simp [hv.kind, hw]
    · simp [hv.kind, hw.kind]
  rw [equal, hcomparable, Bool.and_true]

end Value

/-- A value that stands for a text. -/
abbrev TextValue := { v : Value // v.IsText }

namespace TextValue

variable (u v w : TextValue)

/-- The text that a value stands for. -/
def text : String := v.val.comparisonText

/-- Two values are compared as their texts are. -/
theorem compare_eq : v.val.compare w.val = Value.compareText v.text w.text :=
  v.property.compare_eq w.property

private theorem equal_eq : v.val.equal w.val = (v.val.compare w.val == .eq) :=
  v.property.equal_eq w.property

end TextValue

/-- Comparison of strings and characters is one total order, that of the bytes that encode their
texts, which between characters is that of their codes.  It changes its sign with the order of its
operands, it is transitive and total, and values are equal exactly when their texts are, so that
equal ones compare alike with all others.  A character may be replaced by the string of this one
character, and all six instructions go by one ordering, so that exactly one of less, equal and
greater holds. -/
theorem texts_totally_ordered :
    (∀ v w : TextValue,
      v.val.compare w.val = .lt ↔ Value.encoding v.text < Value.encoding w.text) ∧
    (∀ c d : Char, Value.encoding (String.singleton c) < Value.encoding (String.singleton d) ↔
      c.toNat < d.toNat) ∧
    (∀ v w : TextValue, v.val.compare w.val = (w.val.compare v.val).swap) ∧
    (∀ u v w : TextValue, (u.val.compare v.val).isLE → (v.val.compare w.val).isLE →
      (u.val.compare w.val).isLE) ∧
    (∀ v w : TextValue, (v.val.compare w.val).isLE ∨ (w.val.compare v.val).isLE) ∧
    (∀ v w : TextValue, v.val.equal w.val = true ↔ v.text = w.text) ∧
    (∀ u v w : TextValue, u.val.equal v.val = true →
      u.val.compare w.val = v.val.compare w.val ∧ w.val.compare u.val = w.val.compare v.val) ∧
    (∀ (x : Value) (c : Char), x.IsChar c → ∀ w : TextValue,
      (Value.ofString (String.singleton c)).compare w.val = x.compare w.val ∧
      w.val.compare (Value.ofString (String.singleton c)) = w.val.compare x ∧
      (Value.ofString (String.singleton c)).equal w.val = x.equal w.val ∧
      w.val.equal (Value.ofString (String.singleton c)) = w.val.equal x) ∧
    (∀ v w : TextValue, ∃ o : Ordering,
      Operator.binary? .les v.val w.val = some (.ofBool (o == .lt)) ∧
      Operator.binary? .equ v.val w.val = some (.ofBool (o == .eq)) ∧
      Operator.binary? .grt v.val w.val = some (.ofBool (o == .gt)) ∧
      Operator.binary? .leq v.val w.val = some (.ofBool (o != .gt)) ∧
      Operator.binary? .neq v.val w.val = some (.ofBool (o != .eq)) ∧
      Operator.binary? .geq v.val w.val = some (.ofBool (o != .lt))) := by
  refine ⟨fun v w => ?_, fun c d => ?_, fun v w => ?_, fun u v w huv hvw => ?_, fun v w => ?_,
    fun v w => ?_, fun u v w huv => ?_, fun x c hx w => ?_,
    fun v w => ⟨v.val.compare w.val, rfl, ?_, rfl, rfl, ?_, rfl⟩⟩
  · rw [v.compare_eq, Value.compareText_eq_lt_iff]
  · rw [← Value.compareText_eq_lt_iff, Value.compareText_singleton]
    split
    · simp [*]
    · split <;> simp [*]
  · rw [v.compare_eq, w.compare_eq]
    exact Value.compareText_swap ..
  · rw [u.compare_eq, Value.compareText_isLE_iff] at huv
    rw [v.compare_eq, Value.compareText_isLE_iff] at hvw
    rw [u.compare_eq, Value.compareText_isLE_iff]
    exact List.le_trans huv hvw
  · rw [v.compare_eq, w.compare_eq, Value.compareText_isLE_iff, Value.compareText_isLE_iff]
    exact List.le_total ..
  · rw [v.equal_eq, v.compare_eq, beq_iff_eq, Value.compareText_eq_eq_iff]
  · rw [u.equal_eq, u.compare_eq, beq_iff_eq, Value.compareText_eq_eq_iff] at huv
    rw [u.compare_eq, v.compare_eq, w.compare_eq, w.compare_eq, huv]
    exact ⟨rfl, rfl⟩
  · have hx' : x.IsText := .inr ⟨c, hx⟩
    have hs : (Value.ofString (String.singleton c)).IsText := .inl rfl
    have hleft : (Value.ofString (String.singleton c)).compare w.val = x.compare w.val := by
      rw [hs.compare_eq w.property, hx'.compare_eq w.property, hx.comparisonText]
      rfl
    have hright : w.val.compare (Value.ofString (String.singleton c)) = w.val.compare x := by
      rw [w.property.compare_eq hs, w.property.compare_eq hx', hx.comparisonText]
      rfl
    refine ⟨hleft, hright, ?_, ?_⟩
    · rw [hs.equal_eq w.property, hx'.equal_eq w.property, hleft]
    · rw [w.property.equal_eq hs, w.property.equal_eq hx', hright]
  · exact congrArg (fun b => some (Value.ofBool b)) (v.equal_eq w)
  · exact congrArg (fun b => some (Value.ofBool !b)) (v.equal_eq w)

end PCode
