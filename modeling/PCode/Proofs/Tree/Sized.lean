import PCode.Proofs.Machine.Access
import PCode.Tree.Type

/-!
# Sizes that fit in a word

Sizes are computed in 64 bits and wrap.  A type is sized when no size in it is
negative and none wraps.  Such a type has one type code for each of its words,
so its words can be counted either way.

Main definitions and results:

- `Ty.Sized`: the sizes in a type are what they should be.
- `Ty.length_codes`: a sized type has as many type codes as words.
- `Ty.toInt_paramWords`: the words of a signature are those of its parameters.
-/

namespace PCode.Ty

/-! ## Products of lengths -/

/-- The number of elements times the words of each, in integers. -/
def product (words : Int) (ranges : List IndexRange) : Int :=
  ranges.foldl (fun n r => n * r.length.toInt) words

/-- The words of an array are those of one element times the number of elements. -/
theorem product_eq_mul (words : Int) (ranges : List IndexRange) :
    product words ranges = words * product 1 ranges := by
  induction ranges generalizing words with
  | nil => simp [product]
  | cons r rest ih =>
    have h₁ : product words (r :: rest) = product (words * r.length.toInt) rest := rfl
    have h₂ : product 1 (r :: rest) = product (1 * r.length.toInt) rest := rfl
    rw [h₁, h₂, ih, ih (1 * _), Int.one_mul, Int.mul_assoc]

/-- An array of elements with no negative size has none. -/
theorem product_nonneg {words : Int} (hwords : 0 ≤ words) {ranges : List IndexRange}
    (h : ∀ r ∈ ranges, 0 ≤ r.length.toInt) : 0 ≤ product words ranges := by
  induction ranges generalizing words with
  | nil => exact hwords
  | cons r rest ih =>
    exact ih (Int.mul_nonneg hwords (h r (.head _))) fun s hs => h s (.tail _ hs)

/-- A product of words is the product of their numbers as far as it fits. -/
theorem toInt_foldl_length (n : Int64) (ranges : List IndexRange) :
    (ranges.foldl (fun n r => n * r.length) n).toInt =
      (product n.toInt ranges).bmod (2 ^ 64) := by
  suffices h : ∀ (n : Int64) (k : Int), n.toInt = k.bmod (2 ^ 64) →
      (ranges.foldl (fun n r => n * r.length) n).toInt = (product k ranges).bmod (2 ^ 64) from
    h n n.toInt (by rw [Int.bmod_eq_of_le] <;> have := n.le_toInt <;> have := n.toInt_lt <;> omega)
  induction ranges with
  | nil => exact fun n k h => h
  | cons r rest ih =>
    intro n k h
    refine ih _ _ ?_
    rw [Int64.toInt_mul, h, Int.bmod_mul_bmod]

/-! ## Sized types -/

mutual

/-- No size in a type is negative or wraps. -/
def Sized : Ty → Prop
  | missing | simple .. | subprogram .. => True
  | array ranges elem =>
    elem.Sized ∧ (∀ r ∈ ranges, 0 ≤ r.length.toInt) ∧ product elem.size.toInt ranges < 2 ^ 63
  | record fields => FieldsSized fields

/-- No size in the types of fields is negative or wraps, nor does their sum. -/
def FieldsSized : List (Named Ty) → Prop
  | [] => True
  | ⟨_, t⟩ :: rest =>
    t.Sized ∧ FieldsSized rest ∧ t.size.toInt + (fieldWords rest).toInt < 2 ^ 63

end

mutual

/-- A size that is computed without wrapping is not negative. -/
theorem size_nonneg : ∀ {t : Ty}, t.Sized → 0 ≤ t.size.toInt
  | missing, _ | subprogram .., _ => by simp [size]
  | simple .., _ => by simp [size]
  | array ranges elem, h => by
    obtain ⟨helem, hranges, hfits⟩ := h
    rw [size, toInt_foldl_length]
    have hnonneg := product_nonneg (size_nonneg helem) hranges
    rw [Int.bmod_eq_of_le] <;> omega
  | record fields, h => by
    rw [size]
    exact fieldWords_nonneg h

/-- The words of fields that are computed without wrapping are not negative. -/
theorem fieldWords_nonneg : ∀ {fields : List (Named Ty)}, FieldsSized fields →
    0 ≤ (fieldWords fields).toInt
  | [], _ => by simp [fieldWords]
  | ⟨_, t⟩ :: rest, h => by
    obtain ⟨ht, hrest, hfits⟩ := h
    have h₁ := size_nonneg ht
    have h₂ := fieldWords_nonneg hrest
    rw [fieldWords, toInt_add_of_fits] <;> omega

end

/-- The size of a sized array is the product of its lengths. -/
theorem toInt_size_array {ranges : List IndexRange} {elem : Ty} (h : (array ranges elem).Sized) :
    (array ranges elem).size.toInt = product elem.size.toInt ranges := by
  obtain ⟨helem, hranges, hfits⟩ := h
  have hnonneg := product_nonneg (size_nonneg helem) hranges
  rw [size, toInt_foldl_length, Int.bmod_eq_of_le] <;> omega

private theorem length_repeated {α : Type} (n : Nat) (xs : List α) :
    (repeated n xs).length = n * xs.length := by
  cases xs with
  | nil => rfl
  | cons x xs => simp [repeated]

/-- The number of elements of a sized array is its size divided by that of an element. -/
theorem copies_mul_size {ranges : List IndexRange} {elem : Ty} (h : (array ranges elem).Sized) :
    (((array ranges elem).size / max elem.size 1).toNatClampNeg : Int) * elem.size.toInt =
      (array ranges elem).size.toInt := by
  have hsize := toInt_size_array h
  obtain ⟨helem, hranges, hfits⟩ := h
  have helem := size_nonneg helem
  rw [product_eq_mul] at hsize
  rcases Int.le_iff_lt_or_eq.mp helem with hpos | hzero
  · have hmax : max elem.size 1 = elem.size := by
      change (if elem.size ≤ 1 then 1 else elem.size) = elem.size
      split
      · rename_i hle
        rw [Int64.le_iff_toInt_le, Int64.toInt_one] at hle
        exact Int64.toInt_inj.mp (by simp; omega)
      · rfl
    have hne : elem.size ≠ -1 := by
      intro hminus
      rw [hminus] at hpos
      exact absurd hpos (by decide)
    rw [hmax, toNatClampNeg_eq, Int64.toInt_div_of_ne_right _ _ hne, hsize,
      Int.mul_tdiv_cancel_left _ (by omega), Int.toNat_of_nonneg, Int.mul_comm]
    exact product_nonneg (by decide) hranges
  · rw [hsize, ← hzero, Int.mul_zero, Int.zero_mul]

mutual

/-- A sized type has one type code for each word. -/
theorem length_codes : ∀ {t : Ty} {codes : List UInt8}, t.Sized → t.codes? = some codes →
    (codes.length : Int) = t.size.toInt
  | missing, codes, _, hc | subprogram .., codes, _, hc => by
    obtain rfl := Option.some.inj hc
    simp [size]
  | simple .., codes, _, hc => by
    obtain rfl := Option.some.inj hc
    simp [size]
  | array ranges elem, codes, h, hc => by
    simp only [codes?] at hc
    split at hc
    · cases hc
    · obtain ⟨unit, hunit, rfl⟩ := Option.map_eq_some_iff.mp hc
      have hlen := length_codes h.1 hunit
      rw [length_repeated, Int.natCast_mul, hlen]
      exact copies_mul_size h
  | record fields, codes, h, hc => by
    rw [size]
    exact length_fieldCodes h hc

private theorem length_fieldCodes : ∀ {fields : List (Named Ty)} {codes : List UInt8},
    FieldsSized fields → fieldCodes? fields = some codes →
    (codes.length : Int) = (fieldWords fields).toInt
  | [], codes, _, hc => by
    obtain rfl := Option.some.inj hc
    simp [fieldWords]
  | ⟨_, t⟩ :: rest, codes, h, hc => by
    obtain ⟨ht, hrest, hfits⟩ := h
    simp only [fieldCodes?] at hc
    split at hc
    · rename_i first more hfirst hmore
      obtain rfl := Option.some.inj hc
      have h₁ := length_codes ht hfirst
      have h₂ := length_fieldCodes hrest hmore
      have h₃ := size_nonneg ht
      have h₄ := fieldWords_nonneg hrest
      rw [fieldWords, toInt_add_of_fits (by omega) (by omega), List.length_append,
        Int.natCast_add, h₁, h₂]
    · cases hc

end

/-! ## Signatures -/

/-- The words of parameters, in integers. -/
def parameterWords (params : List (Parameter Ty)) : Int :=
  (params.map fun p => (paramWordsOf p.type p.byRef).toInt).sum

/-- The parameters of a signature have sizes that fit, and so does their sum. -/
structure ParamsSized (params : List (Parameter Ty)) : Prop where
  each : ∀ p ∈ params, p.byRef = false → p.type.Sized
  fits : parameterWords params < 2 ^ 63

/-- The words of a parameter are not negative. -/
theorem paramWordsOf_nonneg {type : Ty} {byRef : Bool} (h : byRef = false → type.Sized) :
    0 ≤ (paramWordsOf type byRef).toInt := by
  unfold paramWordsOf
  split
  · simp
  · rename_i href
    exact size_nonneg (h (by simpa using href))

/-- The words of parameters are not negative. -/
theorem parameterWords_nonneg {params : List (Parameter Ty)}
    (h : ∀ p ∈ params, p.byRef = false → p.type.Sized) : 0 ≤ parameterWords params := by
  induction params with
  | nil => simp [parameterWords]
  | cons p rest ih =>
    have h₁ := paramWordsOf_nonneg (h p (.head _))
    have h₂ := ih fun q hq => h q (.tail _ hq)
    simp only [parameterWords, List.map_cons, List.sum_cons] at h₂ ⊢
    omega

/-- The words of a signature are those of its parameters. -/
theorem toInt_paramWords {params : List (Parameter Ty)} (h : ParamsSized params) (result : Ty) :
    (subprogram params result).paramWords.toInt = parameterWords params := by
  obtain ⟨heach, hfits⟩ := h
  suffices hfold : ∀ n : Int64, 0 ≤ n.toInt → n.toInt + parameterWords params < 2 ^ 63 →
      (params.foldl (fun n p => n + paramWordsOf p.type p.byRef) n).toInt =
        n.toInt + parameterWords params by
    rw [paramWords, hfold 0 (by simp) (by simpa using hfits)]
    simp
  clear hfits
  induction params with
  | nil =>
    intro n _ _
    simp [parameterWords]
  | cons p rest ih =>
    intro n hn hfits
    have h₁ := paramWordsOf_nonneg (heach p (.head _))
    have h₂ := parameterWords_nonneg fun q hq => heach q (.tail _ hq)
    have hcons : parameterWords (p :: rest) =
        (paramWordsOf p.type p.byRef).toInt + parameterWords rest := rfl
    rw [hcons] at hfits ⊢
    have hadd : (n + paramWordsOf p.type p.byRef).toInt =
        n.toInt + (paramWordsOf p.type p.byRef).toInt :=
      toInt_add_of_fits (by omega) (by omega)
    rw [List.foldl_cons, ih (fun q hq => heach q (.tail _ hq)) _ (by omega) (by omega), hadd,
      Int.add_assoc]

end PCode.Ty
