import PCode.Cbor.Decode
import PCode.Proofs.Cbor.RoundTrip

/-!
# Items read as the data they were made of

Each kind of data is read back from the item that stands for it.  A record made of
named fields gives back each field by its name, as long as no name has capital
letters: keys are compared in lower case.

Main results: `Cbor.Item.int64?_ofInt64`, `Cbor.Item.list?_array` and
`Cbor.Item.field?_of_lookup`.
-/

namespace PCode.Cbor.Item

/-! ## Scalars -/

private theorem within?_unsigned (low high : Int) (n : UInt64) (hlow : low ≤ n.toNat)
    (hhigh : (n.toNat : Int) < high) : (unsigned n).within? low high = some (n.toNat : Int) := by
  simp [within?, as?, untagged?, isVoid, integer?, hlow, hhigh]

private theorem within?_negative (low high : Int) {n : UInt64} (hn : n.toNat < 2 ^ 63)
    (hlow : low ≤ -1 - (n.toNat : Int)) (hhigh : -1 - (n.toNat : Int) < high) :
    (negative n).within? low high = some (-1 - (n.toNat : Int)) := by
  have hrange : n.toNat < 9223372036854775808 := hn
  simp only [within?, as?, untagged?, isVoid, integer?, if_pos hrange,
    if_pos (And.intro hlow hhigh),
    Bool.false_eq_true, if_false]

private theorem toNat_toUInt64 {i : Int64} (h : 0 ≤ i.toInt) :
    (i.toUInt64.toNat : Int) = i.toInt := by
  rw [Int64.toNat_toUInt64_of_le (Int64.le_iff_toInt_le.mpr (by simpa using h)),
    Int64.toNatClampNeg, Int.toNat_of_nonneg h]

/-- The complement of a negative number does not wrap. -/
theorem toInt_complement {i : Int64} (h : i.toInt < 0) : (-1 - i).toInt = -1 - i.toInt := by
  have hle := i.le_toInt
  rw [Int64.toInt_sub]
  exact Int.bmod_eq_of_le (by simp; omega) (by simp; omega)

/-- A signed integer is read back. -/
theorem int64?_ofInt64 (i : Int64) : (ofInt64 i).int64? = some i := by
  have hlt := i.toInt_lt
  have hle := i.le_toInt
  rw [ofInt64]
  split
  · rename_i hpositive
    have hnat := toNat_toUInt64 (i := i) (by simpa using Int64.le_iff_toInt_le.mp hpositive)
    rw [int64?, within?_unsigned _ _ _ (by omega) (by omega), hnat, Option.map_some,
      Int64.ofInt_toInt]
  · rename_i hnegative
    have hneg : i.toInt < 0 := by
      rw [Int64.le_iff_toInt_le] at hnegative
      simpa using hnegative
    have hcomplement := toInt_complement hneg
    have hnat := toNat_toUInt64 (i := -1 - i) (by omega)
    rw [int64?, within?_negative _ _ (by omega) (by omega) (by omega), hnat, hcomplement,
      Option.map_some, Int.sub_sub_self, Int64.ofInt_toInt]

/-- An unsigned integer is read back. -/
theorem uint64?_unsigned (n : UInt64) : (unsigned n).uint64? = some n := by
  have := n.toNat_lt
  rw [uint64?, within?_unsigned _ _ _ (by omega) (by omega)]
  simp

/-- A byte is read back. -/
theorem uint8?_unsigned (b : UInt8) : (unsigned b.toUInt64).uint8? = some b := by
  have := b.toNat_lt
  rw [uint8?, within?_unsigned _ _ _ (by omega) (by simp; omega)]
  simp

/-- A real is read back. -/
theorem real?_float (x : Float) : (float x).real? = some x := rfl

/-- A truth value is read back. -/
theorem bool?_bool (b : Bool) : (bool b).bool? = some b := rfl

/-- A text is read back. -/
theorem string?_text (s : String) : (text s).string? = some s := rfl

/-- A signed integer fits at every depth. -/
theorem fits_ofInt64 (levels : Nat) (i : Int64) : (ofInt64 i).Fits levels := by
  rw [ofInt64]
  split
  · exact .unsigned _
  · exact .negative _

/-! ## Sequences -/

/-- A string of bytes of a fixed length is read back. -/
theorem fixedBytes?_bytes {count : Nat} (v : Vector UInt8 count) :
    (bytes v.toList).fixedBytes? count = some v := by
  have harray : v.toList.toArray = v.toArray := by
    rw [← Vector.toList_toArray, Array.toArray_toList]
  simp [fixedBytes?, as?, untagged?, isVoid, harray]

private theorem mapM_map_eq {α : Type} {member : Item → Option α} {f : α → Item} {xs : List α}
    (h : ∀ x ∈ xs, member (f x) = some x) : (xs.map f).mapM member = some xs := by
  induction xs with
  | nil => rfl
  | cons x xs ih =>
    have htail := ih fun y hy => h y (by simp [hy])
    simp [List.mapM_cons, h x (by simp), htail]

/-- An array is read back if its members are. -/
theorem list?_array {α : Type} {member : Item → Option α} {f : α → Item} {xs : Array α}
    (h : ∀ x ∈ xs, member (f x) = some x) :
    (array (xs.toList.map f)).list? member = some (some xs) := by
  have hitems : (xs.toList.map f).mapM member = some xs.toList :=
    mapM_map_eq fun x hx => h x (Array.mem_toList_iff.mp hx)
  simp only [list?, as?, untagged?, isVoid, hitems]
  simp

/-! ## Records -/

/-- A name for a field: it has no capital letters, and its length has 64 bits. -/
def IsName (name : String) : Prop :=
  name.toList.map Char.toLower = name.toList ∧ name.utf8ByteSize < 2 ^ 64

instance (name : String) : Decidable (IsName name) := inferInstanceAs (Decidable (_ ∧ _))

private theorem isKey_text {key : String} (h : IsName key) (name : String) :
    (text key).isKey name = (name == key) := by
  have hkey : key.map Char.toLower = key := String.toList_inj.mp (by rw [String.toList_map, h.1])
  rw [isKey, hkey, Bool.eq_iff_iff, beq_iff_eq, beq_iff_eq, eq_comm]

/-- The entries of a record are its fields under their names. -/
theorem entries?_ofFields (fields : List (String × Item)) :
    (ofFields fields).entries? = some (fields.map fun f => (text f.1, f.2)) := by
  simp [entries?, as?, ofFields, untagged?, isVoid, isRecordKey]

/-- A record takes at least one byte. -/
theorem encode_ofFields_ne_nil (fields : List (String × Item)) : (ofFields fields).encode ≠ [] := by
  simp [ofFields, encode, head_ne_nil]

variable {fields : List (String × Item)}

private theorem entry?_fields (h : ∀ f ∈ fields, IsName f.1) (name : String) :
    entry? (fields.map fun f => (text f.1, f.2)) name = fields.lookup name := by
  induction fields with
  | nil => rfl
  | cons f fields ih =>
    rw [List.map_cons, entry?, isKey_text (h f (by simp)), List.lookup_cons,
      ih fun g hg => h g (by simp [hg])]
    cases name == f.1 <;> rfl

/-- A field that is written is read from its item. -/
theorem field?_of_lookup {α : Type} (h : ∀ f ∈ fields, IsName f.1) {name : String} {item : Item}
    {default a : α} {decode : Item → Option α} (hlookup : fields.lookup name = some item)
    (hdecode : decode item = some a) :
    field? (fields.map fun f => (text f.1, f.2)) name default decode = some a := by
  rw [field?, entry?_fields h, hlookup]
  exact hdecode

/-- A field that is left out when it is at its default is read in either case. -/
theorem field?_of_lookup_optional {α : Type} (h : ∀ f ∈ fields, IsName f.1) {name : String}
    {item : Item} {default a : α} {decode : Item → Option α} {p : Prop} [Decidable p]
    (hlookup : fields.lookup name = if p then none else some item) (hdefault : p → a = default)
    (hdecode : ¬p → decode item = some a) :
    field? (fields.map fun f => (text f.1, f.2)) name default decode = some a := by
  rw [field?, entry?_fields h, hlookup]
  split
  · rename_i hsome
    split at hsome
    · cases hsome
    · rename_i hp
      obtain rfl := Option.some.inj hsome
      exact hdecode hp
  · rename_i hnone
    split at hnone
    · rename_i hp
      rw [hdefault hp]
    · cases hnone

/-- A record fits one level deeper than its fields. -/
theorem fits_ofFields {levels : Nat} (hlength : fields.length ≤ maxMembers)
    (hname : ∀ f ∈ fields, IsName f.1) (h : ∀ f ∈ fields, f.2.Fits levels) :
    (ofFields fields).Fits (levels + 1) := by
  refine .map (by simpa using hlength) ?_ ?_
  · intro e he
    obtain ⟨f, hf, rfl⟩ := List.mem_map.mp he
    exact .text (hname f hf).2
  · intro e he
    obtain ⟨f, hf, rfl⟩ := List.mem_map.mp he
    exact h f hf

/-- A record is not read when its last field is not. -/
theorem readItem?_ofFields_eq_none {levels height depth : Nat} {name : String} {bad : Item}
    (hlength : fields.length < maxMembers) (hnames : ∀ f ∈ fields, IsName f.1) (hname : IsName name)
    (hfields : ∀ f ∈ fields, f.2.Fits levels) (hheight : levels ≤ height)
    (hdepth : levels + (depth + 1) ≤ maxDepth)
    (hbad : ∀ rest, readItem? (height + 1) (depth + 1) (bad.encode ++ rest) = none) (rest : Bytes) :
    readItem? (height + 2) depth ((ofFields (fields ++ [(name, bad)])).encode ++ rest) = none := by
  rw [ofFields, List.map_append]
  refine readItem?_map_eq_none (by simpa using hlength) ?_ ?_
    (.text hname.2) hheight hdepth hbad rest
  · intro e he
    obtain ⟨f, hf, rfl⟩ := List.mem_map.mp he
    exact .text (hnames f hf).2
  · intro e he
    obtain ⟨f, hf, rfl⟩ := List.mem_map.mp he
    exact hfields f hf

end PCode.Cbor.Item
