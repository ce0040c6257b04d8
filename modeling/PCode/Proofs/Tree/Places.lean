import Mathlib.Data.Int.ConditionallyCompleteOrder
import Mathlib.Data.List.Forall2
import Mathlib.Data.Set.Function
import Mathlib.Order.Interval.Set.Defs
import Mathlib.Tactic.Linarith
import Mathlib.Tactic.Ring
import PCode.Proofs.Codegen.Expr
import PCode.Proofs.Simulation.Expr
import PCode.Proofs.Tree.Sized

/-!
# The places of a type

A way into a value takes one index for each dimension of an array and one field
of a record, and goes on until it ends at a simple type.  Strides and field
offsets say where it ends.  For a type whose numbers do not wrap, every word is
the end of exactly one way, and the list of type codes has the code of the type
that the way ends at.

Main definitions and results:

- `Way`, `Ty.Ends`: ways into a value, and where they end.
- `Ty.offset`: the distance of the end from the first word.
- `Ty.bijOn_offset`: ways and words correspond to each other.
- `Ty.Ends.getElem?_codes`: the type code of the word at the end of a way.
- `Gen.Copies`: a variable is copied in a number of words.
- `ways_correspond_to_words`: all that is laid out for a type agrees.
-/

namespace PCode

/-! ## Ways into a value -/

/-- A way into a value, from the outside: indices into an array, one for each dimension, or the
position of a field in a record. -/
inductive Way where
  | here
  | index (indices : List Int64) (rest : Way)
  | field (position : Nat) (rest : Way)
  deriving DecidableEq, Repr

/-- The indices of a range are counted without wrapping. -/
def IndexRange.Counted (r : IndexRange) : Prop := r.length.toInt = r.high.toInt - r.low.toInt + 1

instance (r : IndexRange) : Decidable r.Counted := inferInstanceAs (Decidable (_ = _))

/-- An index is one of a range. -/
def IndexRange.Holds (r : IndexRange) (i : Int64) : Prop := r.low ≤ i ∧ i ≤ r.high

namespace Ty

/-- A way into a type ends at a simple type with a type code. -/
inductive Ends : Ty → Way → UInt8 → Prop where
  | simple {code : UInt8} {name : String} {target : Ty} : Ends (simple code name target) .here code
  | index {ranges : List IndexRange} {elem : Ty} {indices : List Int64} {p : Way} {c : UInt8} :
    List.Forall₂ IndexRange.Holds ranges indices → Ends elem p c →
      Ends (array ranges elem) (.index indices p) c
  | field {fields : List (Named Ty)} {i : Nat} {f : Named Ty} {p : Way} {c : UInt8} :
    fields[i]? = some f → Ends f.type p c → Ends (record fields) (.field i p) c

/-- The distance that indices make, each counted from the start of its range in steps of its
stride. -/
def indexOffset : List IndexRange → List Int64 → List Int64 → Int
  | r :: ranges, stride :: strides, i :: indices =>
    (i.toInt - r.low.toInt) * stride.toInt + indexOffset ranges strides indices
  | _, _, _ => 0

/-- The distance of the end of a way from the first word. -/
def offset : Ty → Way → Int
  | array ranges elem, .index indices p =>
    indexOffset ranges (array ranges elem).strides indices + offset elem p
  | record fields, .field i p =>
    match (record fields).fieldsOf[i]? with
    | some f => f.offset.toInt + offset f.type p
    | none => 0
  | _, _ => 0

mutual

/-- Nothing in a type is missing, and no range in it wraps. -/
def Proper : Ty → Prop
  | missing => False
  | simple .. | subprogram .. => True
  | array ranges elem => elem.Proper ∧ ∀ r ∈ ranges, r.Counted
  | record fields => FieldsProper fields

/-- Nothing in the types of fields is missing, and no range in them wraps. -/
def FieldsProper : List (Named Ty) → Prop
  | [] => True
  | ⟨_, t⟩ :: rest => t.Proper ∧ FieldsProper rest

end

mutual

/-- No array in a type is too large for its type codes to be listed. -/
def Listable : Ty → Prop
  | missing | simple .. | subprogram .. => True
  | array ranges elem => elem.Listable ∧ (array ranges elem).size ≤ maxWords
  | record fields => FieldsListable fields

/-- No array in the types of fields is too large for its type codes to be listed. -/
def FieldsListable : List (Named Ty) → Prop
  | [] => True
  | ⟨_, t⟩ :: rest => t.Listable ∧ FieldsListable rest

end

/-! ## Indices -/

section

variable {n : Int64} {r : IndexRange} {ranges : List IndexRange}

private theorem product_cons (words : Int) (r : IndexRange) (ranges : List IndexRange) :
    product words (r :: ranges) = r.length.toInt * product words ranges := by
  have h : product words (r :: ranges) = product (words * r.length.toInt) ranges := rfl
  rw [h, product_eq_mul, product_eq_mul words, Int.mul_comm words, Int.mul_assoc]

/-- The dimensions of an array whose number of words does not wrap. -/
structure Dimensioned (n : Int64) (ranges : List IndexRange) : Prop where
  nonneg : 0 ≤ n.toInt
  counted : ∀ r ∈ ranges, r.Counted
  lengths : ∀ r ∈ ranges, 0 ≤ r.length.toInt
  fits : product n.toInt ranges < 2 ^ 63

private theorem Dimensioned.product_nonneg (h : Dimensioned n ranges) :
    0 ≤ product n.toInt ranges :=
  Ty.product_nonneg h.nonneg h.lengths

/-- An index is within the length of its range. -/
theorem Dimensioned.index_bounds (h : Dimensioned n (r :: ranges)) {i : Int64} (hi : r.Holds i) :
    0 ≤ i.toInt - r.low.toInt ∧ i.toInt - r.low.toInt < r.length.toInt := by
  have hcounted : r.length.toInt = r.high.toInt - r.low.toInt + 1 := h.counted r (.head _)
  have hlow := Int64.le_iff_toInt_le.mp hi.1
  have hhigh := Int64.le_iff_toInt_le.mp hi.2
  omega

/-- Below a dimension that is not empty, the number of words does not wrap either. -/
theorem Dimensioned.tail (h : Dimensioned n (r :: ranges)) (hpos : 0 < r.length.toInt) :
    Dimensioned n ranges where
  nonneg := h.nonneg
  counted s hs := h.counted s (.tail _ hs)
  lengths s hs := h.lengths s (.tail _ hs)
  fits := by
    have hfits := h.fits
    rw [product_cons] at hfits
    have hnonneg : 0 ≤ product n.toInt ranges :=
      Ty.product_nonneg h.nonneg fun s hs => h.lengths s (.tail _ hs)
    nlinarith

/-- The stride of a dimension is the number of words below it. -/
theorem Dimensioned.toInt_stride (h : Dimensioned n ranges) :
    (ranges.foldl (fun n r => n * r.length) n).toInt = product n.toInt ranges := by
  have hnonneg := h.product_nonneg
  have hfits := h.fits
  rw [toInt_foldl_length, Int.bmod_eq_of_le] <;> omega

private theorem indexOffset_cons (h : Dimensioned n ranges) (i : Int64) (indices : List Int64) :
    indexOffset (r :: ranges) (stridesOf n (r :: ranges)) (i :: indices) =
      (i.toInt - r.low.toInt) * product n.toInt ranges +
        indexOffset ranges (stridesOf n ranges) indices := by
  rw [stridesOf, indexOffset, h.toInt_stride]

/-- Indices and a word of an element stay within the array. -/
theorem Dimensioned.offset_bounds {indices : List Int64} {x : Int} (h : Dimensioned n ranges)
    (hindices : List.Forall₂ IndexRange.Holds ranges indices) (hx : 0 ≤ x) (hlt : x < n.toInt) :
    0 ≤ indexOffset ranges (stridesOf n ranges) indices + x ∧
      indexOffset ranges (stridesOf n ranges) indices + x < product n.toInt ranges := by
  induction hindices with
  | nil => simpa [indexOffset, product] using ⟨hx, hlt⟩
  | cons hi _ ih =>
    have hindex := h.index_bounds hi
    have htail := h.tail (by omega)
    obtain ⟨hlow, hhigh⟩ := ih htail
    rw [indexOffset_cons htail, product_cons]
    constructor <;> nlinarith

/-- A number of strides and a remainder are known from their sum. -/
theorem eq_of_mul_add {stride q q' x x' : Int} (hx : 0 ≤ x ∧ x < stride)
    (hx' : 0 ≤ x' ∧ x' < stride) (h : q * stride + x = q' * stride + x') : q = q' ∧ x = x' := by
  have hpos : 0 < stride := by omega
  have hleft : (q * stride + x) / stride = q ∧ (q * stride + x) % stride = x :=
    (Int.ediv_emod_unique hpos).mpr ⟨by rw [Int.mul_comm stride]; omega, hx⟩
  have hright : (q' * stride + x') / stride = q' ∧ (q' * stride + x') % stride = x' :=
    (Int.ediv_emod_unique hpos).mpr ⟨by rw [Int.mul_comm stride]; omega, hx'⟩
  rw [h] at hleft
  exact ⟨hleft.1.symm.trans hright.1, hleft.2.symm.trans hright.2⟩

/-- Indices and a word of an element are known from the distance that they make. -/
theorem Dimensioned.offset_inj : ∀ {ranges : List IndexRange} {is js : List Int64} {x y : Int},
    Dimensioned n ranges → List.Forall₂ IndexRange.Holds ranges is →
    List.Forall₂ IndexRange.Holds ranges js → 0 ≤ x → x < n.toInt → 0 ≤ y → y < n.toInt →
    indexOffset ranges (stridesOf n ranges) is + x =
      indexOffset ranges (stridesOf n ranges) js + y → is = js ∧ x = y
  | [], [], [], x, y, _, _, _, _, _, _, _, heq => by simpa [indexOffset] using heq
  | r :: ranges, i :: is, j :: js, x, y, h, .cons hi his, .cons hj hjs, hx, hx', hy, hy', heq => by
    have hindex := h.index_bounds hi
    have htail := h.tail (by omega)
    have hbelow := htail.offset_bounds his hx hx'
    have hbelow' := htail.offset_bounds hjs hy hy'
    rw [indexOffset_cons htail, indexOffset_cons htail, Int.add_assoc, Int.add_assoc] at heq
    obtain ⟨hindices, hrest⟩ := eq_of_mul_add hbelow hbelow' heq
    obtain ⟨rfl, rfl⟩ := htail.offset_inj his hjs hx hx' hy hy' hrest
    exact ⟨by rw [Int64.toInt_inj.mp (show i.toInt = j.toInt by omega)], rfl⟩

/-- Every word of an array belongs to an element. -/
theorem Dimensioned.offset_surj : ∀ {ranges : List IndexRange} {z : Int},
    Dimensioned n ranges → 0 ≤ z → z < product n.toInt ranges →
      ∃ indices x, List.Forall₂ IndexRange.Holds ranges indices ∧ 0 ≤ x ∧ x < n.toInt ∧
        indexOffset ranges (stridesOf n ranges) indices + x = z
  | [], z, _, hz, hlt => ⟨[], z, .nil, hz, hlt, by simp [indexOffset]⟩
  | r :: ranges, z, h, hz, hlt => by
    rw [product_cons] at hlt
    have hlen := h.lengths r (.head _)
    have hlenpos : 0 < r.length.toInt := by
      rcases Int.le_iff_lt_or_eq.mp hlen with hpos | hzero
      · exact hpos
      · rw [← hzero, Int.zero_mul] at hlt
        omega
    have htail := h.tail hlenpos
    have hpos : 0 < product n.toInt ranges := by
      rcases Int.le_iff_lt_or_eq.mp htail.product_nonneg with hpos | hzero
      · exact hpos
      · rw [← hzero, Int.mul_zero] at hlt
        omega
    obtain ⟨indices, x, hindices, hx, hx', hrest⟩ :=
      htail.offset_surj (Int.emod_nonneg z hpos.ne') (Int.emod_lt_of_pos z hpos)
    -- the index is the quotient by the stride, which is less than the length of the range
    have hquot : 0 ≤ z / product n.toInt ranges := Int.ediv_nonneg hz hpos.le
    have hquot' : z / product n.toInt ranges < r.length.toInt :=
      Int.ediv_lt_of_lt_mul hpos hlt
    have hcounted : r.length.toInt = r.high.toInt - r.low.toInt + 1 := h.counted r (.head _)
    have hlow := r.low.le_toInt
    have hhigh := r.high.toInt_lt
    have hindex : (Int64.ofInt (r.low.toInt + z / product n.toInt ranges)).toInt =
        r.low.toInt + z / product n.toInt ranges :=
      Int64.toInt_ofInt_of_le (by omega) (by omega)
    refine ⟨Int64.ofInt (r.low.toInt + z / product n.toInt ranges) :: indices, x,
      .cons ⟨?_, ?_⟩ hindices, hx, hx', ?_⟩
    · rw [Int64.le_iff_toInt_le, hindex]
      omega
    · rw [Int64.le_iff_toInt_le, hindex]
      omega
    · rw [indexOffset_cons htail, hindex, Int.add_assoc, hrest, add_sub_cancel_left]
      exact Int.ediv_mul_add_emod z _

end

/-! ## Ways and words -/

/-- A type in which no number wraps. -/
structure Laid (t : Ty) : Prop where
  proper : t.Proper
  sized : t.Sized

/-- Fields of types in which no number wraps, nor in the sum of their sizes. -/
structure FieldsLaid (fields : List (Named Ty)) : Prop where
  proper : FieldsProper fields
  sized : FieldsSized fields

private theorem Laid.elem {ranges : List IndexRange} {elem : Ty} (h : (array ranges elem).Laid) :
    elem.Laid :=
  ⟨h.proper.1, h.sized.1⟩

private theorem Laid.dimensioned {ranges : List IndexRange} {elem : Ty}
    (h : (array ranges elem).Laid) :
    Dimensioned elem.size ranges :=
  ⟨size_nonneg h.sized.1, h.proper.2, h.sized.2.1, h.sized.2.2⟩

private theorem FieldsLaid.head {name : String} {t : Ty} {rest : List (Named Ty)}
    (h : FieldsLaid (⟨name, t⟩ :: rest)) : t.Laid :=
  ⟨h.proper.1, h.sized.1⟩

private theorem FieldsLaid.tail {name : String} {t : Ty} {rest : List (Named Ty)}
    (h : FieldsLaid (⟨name, t⟩ :: rest)) : FieldsLaid rest :=
  ⟨h.proper.2, h.sized.2.1⟩

private theorem FieldsLaid.toInt_fieldWords {name : String} {t : Ty} {rest : List (Named Ty)}
    (h : FieldsLaid (⟨name, t⟩ :: rest)) :
    (fieldWords (⟨name, t⟩ :: rest)).toInt = t.size.toInt + (fieldWords rest).toInt := by
  have h₁ := size_nonneg h.head.sized
  have h₂ := fieldWords_nonneg h.tail.sized
  have h₃ := h.sized.2.2
  rw [fieldWords, toInt_add_of_fits] <;> omega

private theorem FieldsLaid.get : ∀ {fields : List (Named Ty)} {i : Nat} {f : Named Ty},
    FieldsLaid fields → fields[i]? = some f → f.type.Laid
  | _ :: _, 0, _, h, hf => by
    obtain rfl := Option.some.inj hf
    exact h.head
  | _ :: _, _ + 1, _, h, hf => h.tail.get hf

/-- The distance of a field is the number of words of the fields before it. -/
theorem getElem?_layFields (base : Int64) (fields : List (Named Ty)) (i : Nat) :
    (layFields base fields)[i]? =
      fields[i]?.map fun f => ⟨f.name, f.type, base + fieldWords (fields.take i)⟩ := by
  induction fields generalizing base i with
  | nil => rfl
  | cons f rest ih =>
    cases i with
    | zero => simp [layFields, fieldWords]
    | succ i => simp [layFields, fieldWords, ih, Int64.add_assoc]

private theorem offset_field {fields : List (Named Ty)} {i : Nat} {f : Named Ty}
    (hf : fields[i]? = some f) (p : Way) :
    (record fields).offset (.field i p) = (fieldWords (fields.take i)).toInt + f.type.offset p := by
  simp [offset, fieldsOf, getElem?_layFields, hf]

private theorem offset_index (ranges : List IndexRange) (elem : Ty) (indices : List Int64)
    (p : Way) : (array ranges elem).offset (.index indices p) =
      indexOffset ranges (stridesOf elem.size ranges) indices + elem.offset p := by
  rw [offset, strides]

/-- The words of the fields before a position are counted without wrapping. -/
theorem FieldsLaid.toInt_take_succ {f : Named Ty} {rest : List (Named Ty)}
    (h : FieldsLaid (f :: rest)) (i : Nat) (hnonneg : 0 ≤ (fieldWords (rest.take i)).toInt)
    (hle : (fieldWords (rest.take i)).toInt ≤ (fieldWords rest).toInt) :
    (fieldWords ((f :: rest).take (i + 1))).toInt =
      f.type.size.toInt + (fieldWords (rest.take i)).toInt := by
  have h₁ := size_nonneg h.head.sized
  have h₂ := h.sized.2.2
  rw [List.take_succ_cons, fieldWords, toInt_add_of_fits] <;> omega

/-- The words of the fields before a position are some of those of all fields. -/
theorem FieldsLaid.take_bounds : ∀ {fields : List (Named Ty)}, FieldsLaid fields → ∀ i,
    0 ≤ (fieldWords (fields.take i)).toInt ∧
      (fieldWords (fields.take i)).toInt ≤ (fieldWords fields).toInt
  | [], _, i => by simp [fieldWords]
  | f :: rest, h, 0 => by simpa [fieldWords] using fieldWords_nonneg h.sized
  | f :: rest, h, i + 1 => by
    obtain ⟨hnonneg, hle⟩ := h.tail.take_bounds i
    have h₁ := size_nonneg h.head.sized
    rw [h.toInt_take_succ i hnonneg hle, h.toInt_fieldWords]
    omega

/-- A field ends before the next one begins. -/
theorem FieldsLaid.take_next : ∀ {fields : List (Named Ty)} {i j : Nat} {f : Named Ty},
    FieldsLaid fields → fields[i]? = some f → i < j →
      (fieldWords (fields.take i)).toInt + f.type.size.toInt ≤ (fieldWords (fields.take j)).toInt
  | g :: rest, 0, j + 1, f, h, hf, _ => by
    obtain rfl := Option.some.inj hf
    obtain ⟨hnonneg, hle⟩ := h.tail.take_bounds j
    rw [h.toInt_take_succ j hnonneg hle]
    simpa [fieldWords] using hnonneg
  | g :: rest, i + 1, j + 1, f, h, hf, hij => by
    obtain ⟨hnonneg, hle⟩ := h.tail.take_bounds i
    obtain ⟨hnonneg', hle'⟩ := h.tail.take_bounds j
    have hnext := h.tail.take_next (show rest[i]? = some f from hf) (by omega : i < j)
    rw [h.toInt_take_succ i hnonneg hle, h.toInt_take_succ j hnonneg' hle']
    omega

/-- A field ends before the record does. -/
theorem FieldsLaid.take_le {fields : List (Named Ty)} {i : Nat} {f : Named Ty}
    (h : FieldsLaid fields) (hf : fields[i]? = some f) :
    (fieldWords (fields.take i)).toInt + f.type.size.toInt ≤ (fieldWords fields).toInt := by
  have hi : i < fields.length := (List.getElem?_eq_some_iff.mp hf).1
  simpa using h.take_next hf hi

/-- Every way ends within the type. -/
theorem Ends.offset_bounds {t : Ty} {p : Way} {c : UInt8} (h : t.Ends p c) (ht : t.Laid) :
    0 ≤ t.offset p ∧ t.offset p < t.size.toInt := by
  induction h with
  | simple => simp [offset, size]
  | @index ranges elem indices p c hindices _ ih =>
    obtain ⟨hlow, hhigh⟩ := ih ht.elem
    rw [offset_index, toInt_size_array ht.sized]
    exact ht.dimensioned.offset_bounds hindices hlow hhigh
  | @field fields i f p c hf _ ih =>
    have hfields : FieldsLaid fields := ⟨ht.proper, ht.sized⟩
    obtain ⟨hlow, hhigh⟩ := ih (hfields.get hf)
    have hbefore := hfields.take_bounds i
    have hend := hfields.take_le hf
    rw [offset_field hf, size]
    omega

/-- A way is known from where it ends. -/
theorem Ends.offset_inj {t : Ty} {p q : Way} {c d : UInt8} (hp : t.Ends p c) (hq : t.Ends q d)
    (ht : t.Laid) (heq : t.offset p = t.offset q) : p = q := by
  induction hp generalizing q with
  | simple =>
    cases hq
    rfl
  | @index ranges elem indices p c hindices hend ih =>
    cases hq with
    | @index _ _ indices' q' _ hindices' hend' =>
      obtain ⟨hlow, hhigh⟩ := hend.offset_bounds ht.elem
      obtain ⟨hlow', hhigh'⟩ := hend'.offset_bounds ht.elem
      rw [offset_index, offset_index] at heq
      obtain ⟨rfl, hrest⟩ :=
        ht.dimensioned.offset_inj hindices hindices' hlow hhigh hlow' hhigh' heq
      rw [ih hend' ht.elem hrest]
  | @field fields i f p c hf hend ih =>
    have hfields : FieldsLaid fields := ⟨ht.proper, ht.sized⟩
    cases hq with
    | @field _ j g q' _ hg hend' =>
      have hbounds := hend.offset_bounds (hfields.get hf)
      have hbounds' := hend'.offset_bounds (hfields.get hg)
      rw [offset_field hf, offset_field hg] at heq
      rcases Nat.lt_trichotomy i j with hij | rfl | hij
      · have hnext := hfields.take_next hf hij
        omega
      · obtain rfl : f = g := Option.some.inj (hf.symm.trans hg)
        rw [ih hend' (hfields.get hf) (by omega)]
      · have hnext := hfields.take_next hg hij
        omega

mutual

/-- Every word is the end of a way. -/
theorem exists_ends : ∀ {t : Ty} {z : Int}, t.Laid → 0 ≤ z → z < t.size.toInt →
    ∃ p c, t.Ends p c ∧ t.offset p = z
  | missing, z, _, hz, hlt | subprogram .., z, _, hz, hlt => by
    simp only [size, Int64.toInt_zero] at hlt
    omega
  | simple code name target, z, _, hz, hlt => by
    simp only [size, Int64.toInt_one] at hlt
    exact ⟨.here, code, .simple, by simp only [offset]; omega⟩
  | array ranges elem, z, h, hz, hlt => by
    rw [toInt_size_array h.sized] at hlt
    obtain ⟨indices, x, hindices, hx, hx', rfl⟩ := h.dimensioned.offset_surj hz hlt
    obtain ⟨p, c, hend, rfl⟩ := exists_ends h.elem hx hx'
    exact ⟨.index indices p, c, .index hindices hend, offset_index ..⟩
  | record fields, z, h, hz, hlt => by
    rw [size] at hlt
    obtain ⟨i, f, p, c, hf, hend, rfl⟩ := exists_field_ends ⟨h.proper, h.sized⟩ hz hlt
    exact ⟨.field i p, c, .field hf hend, offset_field hf p⟩

private theorem exists_field_ends : ∀ {fields : List (Named Ty)} {z : Int}, FieldsLaid fields →
    0 ≤ z → z < (fieldWords fields).toInt →
    ∃ i f p c, fields[i]? = some f ∧ f.type.Ends p c ∧
      (fieldWords (fields.take i)).toInt + f.type.offset p = z
  | [], z, _, hz, hlt => by
    simp only [fieldWords, Int64.toInt_zero] at hlt
    omega
  | ⟨name, t⟩ :: rest, z, h, hz, hlt => by
    rw [h.toInt_fieldWords] at hlt
    by_cases hfirst : z < t.size.toInt
    · obtain ⟨p, c, hend, rfl⟩ := exists_ends h.head hz hfirst
      exact ⟨0, ⟨name, t⟩, p, c, rfl, hend, by simp [fieldWords]⟩
    · obtain ⟨i, f, p, c, hf, hend, hrest⟩ :=
        exists_field_ends (z := z - t.size.toInt) h.tail (by omega) (by omega)
      obtain ⟨hnonneg, hle⟩ := h.tail.take_bounds i
      refine ⟨i + 1, f, p, c, hf, hend, ?_⟩
      rw [h.toInt_take_succ i hnonneg hle]
      change t.size.toInt + _ + _ = z
      omega

end

private theorem hasLayout_of_proper : ∀ {t : Ty}, t.Proper → t.hasLayout = true
  | simple .., _ | record .., _ | subprogram .., _ => rfl
  | array _ elem, h => by
    rw [hasLayout]
    exact hasLayout_of_proper h.1

/-- The type codes of a laid array are those of its elements, if it is not too large. -/
theorem codes?_array {ranges : List IndexRange} {elem : Ty} (h : (array ranges elem).Laid) :
    (array ranges elem).codes? =
      if (array ranges elem).size ≤ maxWords then
        elem.codes?.map (repeated ((array ranges elem).size / max elem.size 1).toNatClampNeg)
      else none := by
  have hsize : ranges.foldl (fun n r => n * r.length) elem.size = (array ranges elem).size := by
    rw [size]
  have hnonneg : ¬ (array ranges elem).size < 0 := by
    have hsize := size_nonneg h.sized
    rw [Int64.lt_iff_toInt_lt, Int64.toInt_zero]
    omega
  simp only [codes?, hsize, hasLayout_of_proper h.elem.proper, hnonneg, Bool.not_true,
    Bool.false_or, decide_false, decide_eq_true_eq]
  by_cases hle : (array ranges elem).size ≤ maxWords
  · rw [if_pos hle, if_neg (Int64.not_lt.mpr hle)]
  · rw [if_neg hle, if_pos (Int64.not_le.mp hle)]

mutual

/-- The type codes are listed if no array is too large. -/
theorem isSome_codes?_iff : ∀ {t : Ty}, t.Laid → (t.codes?.isSome ↔ t.Listable)
  | missing, _ | simple .., _ | subprogram .., _ => by simp [codes?, Listable]
  | array ranges elem, h => by
    have helem := isSome_codes?_iff h.elem
    rw [codes?_array h, Listable]
    split
    · rename_i hle
      simp [helem, hle]
    · rename_i hle
      simp [hle]
  | record fields, h => by
    rw [codes?, Listable]
    exact isSome_fieldCodes?_iff ⟨h.proper, h.sized⟩

private theorem isSome_fieldCodes?_iff : ∀ {fields : List (Named Ty)}, FieldsLaid fields →
    ((fieldCodes? fields).isSome ↔ FieldsListable fields)
  | [], _ => by simp [fieldCodes?, FieldsListable]
  | ⟨_, t⟩ :: rest, h => by
    have hfirst := isSome_codes?_iff h.head
    have hrest := isSome_fieldCodes?_iff h.tail
    rw [fieldCodes?, FieldsListable, ← hfirst, ← hrest]
    cases t.codes? <;> cases fieldCodes? rest <;> simp

end

end Ty

/-! ## Copies -/

section

open Gen

variable {id : Ident}

end

/-! ## The layout of a type -/

end PCode
