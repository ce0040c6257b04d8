import PCode.Cbor.Read
import PCode.Proofs.Real.Narrow

/-!
# Items read back

What `Item.encode` writes, `read?` reads: the same item, with the bytes after it
left over.  This holds of the items that fit: their strings have lengths of 64 bits,
their arrays and maps have no more members than the reader takes and are nested no
deeper than it goes, and their floats are numbers.

Main results: `Cbor.readHead?_head` and `Cbor.read?_encode`.
-/

namespace PCode.Cbor

/-! ## Numbers as bytes -/

private theorem foldl_bigEndian (width n start : Nat) :
    (bigEndian width n).foldl (fun n b => 256 * n + b.toNat) start =
      start * 256 ^ width + n % 256 ^ width := by
  induction width generalizing start with
  | zero => simp [bigEndian, Nat.mod_one]
  | succ width ih =>
    have hmod :
        n % 256 ^ (width + 1) = n % 256 ^ width + 256 ^ width * (n / 256 ^ width % 256) := by
      rw [Nat.pow_succ, Nat.mod_mul]
    simp only [bigEndian, List.foldl_cons, ih, UInt8.toNat_ofNat', Nat.pow_eq, hmod]
    grind

private theorem ofBigEndian_bigEndian (width n : Nat) :
    ofBigEndian (bigEndian width n) = n % 256 ^ width := by
  simpa [ofBigEndian] using foldl_bigEndian width n 0

/-! ## Heads -/

private theorem split?_append (taken rest : Bytes) :
    split? taken.length (taken ++ rest) = some (taken, rest) := by
  simp [split?]

private theorem toNat_firstByte {major info : Nat} (hmajor : major < 8) (hinfo : info < 32) :
    (firstByte major info).toNat = 32 * major + info := by
  rw [firstByte, UInt8.toNat_ofNat', Nat.mod_eq_of_lt (by omega)]

private theorem readHead?_narrow {major argument : Nat} (hmajor : major < 8)
    (hargument : argument < 24) (rest : Bytes) :
    readHead? (firstByte major argument :: rest) = some (⟨major, argument, argument⟩, rest) := by
  have hfirst := toNat_firstByte hmajor (Nat.lt_trans hargument (by decide) : argument < 32)
  have hdiv : (32 * major + argument) / 32 = major := by omega
  have hmod : (32 * major + argument) % 32 = argument := by omega
  simp only [readHead?, hfirst, hdiv, hmod, if_pos hargument]

/-- A head with its argument in the bytes after the first; only its low bytes count. -/
theorem readHead?_wide {major info n : Nat} (hmajor : major < 8) (hinfo : 24 ≤ info)
    (hwide : info < 28) (hfloat : major = 7 → info ≠ 24) (rest : Bytes) :
    readHead? (firstByte major info :: (bigEndian (argumentWidth info) n ++ rest)) =
      some (⟨major, info, n % 256 ^ argumentWidth info⟩, rest) := by
  have hfirst := toNat_firstByte hmajor (Nat.lt_trans hwide (by decide) : info < 32)
  have hdiv : (32 * major + info) / 32 = major := by omega
  have hmod : (32 * major + info) % 32 = info := by omega
  have hsplit := split?_append (bigEndian (argumentWidth info) n) rest
  rw [length_bigEndian] at hsplit
  simp only [readHead?, hfirst, hdiv, hmod, if_neg (Nat.not_lt.mpr hinfo), if_pos hwide, hsplit,
    ofBigEndian_bigEndian]
  rw [if_neg (by rintro ⟨h, h', -⟩; exact hfloat h h')]

/-- The shortest head is read as the type and the argument that it was written for. -/
theorem readHead?_head {major argument : Nat} (hmajor : major < 7) (hargument : argument < 2 ^ 64)
    (rest : Bytes) :
    ∃ info, info ≠ 31 ∧
      readHead? (head major argument ++ rest) = some (⟨major, info, argument⟩, rest) := by
  -- each wide form, for an argument below its bound
  have hwide : ∀ info, 24 ≤ info → info < 28 → argument < 256 ^ argumentWidth info →
      readHead? (firstByte major info :: bigEndian (argumentWidth info) argument ++ rest) =
        some (⟨major, info, argument⟩, rest) := by
    intro info hinfo hwide hbound
    have h := readHead?_wide (n := argument) (by omega : major < 8) hinfo hwide (by omega) rest
    rwa [Nat.mod_eq_of_lt hbound] at h
  unfold head
  split
  · rename_i hnarrow
    exact ⟨argument, by omega, readHead?_narrow (by omega) hnarrow rest⟩
  split
  · exact ⟨24, by decide, hwide 24 (by decide) (by decide) (by simpa [argumentWidth])⟩
  split
  · exact ⟨25, by decide, hwide 25 (by decide) (by decide) (by simpa [argumentWidth])⟩
  split
  · exact ⟨26, by decide, hwide 26 (by decide) (by decide) (by simpa [argumentWidth])⟩
  · exact ⟨27, by decide, hwide 27 (by decide) (by decide) (by simpa [argumentWidth])⟩

/-- A head takes at least one byte. -/
theorem head_ne_nil (major argument : Nat) : head major argument ≠ [] := by
  unfold head
  repeat' split
  all_goals simp

/-! ## Floats -/

/-- Bits above the sign do not count. -/
theorem widen_mod (f : Real.Format) (bits : Nat) :
    Real.widen f (bits % 2 ^ (f.exponentBits + f.fractionBits + 1)) = Real.widen f bits := by
  have hfraction : bits % 2 ^ (f.exponentBits + f.fractionBits + 1) % 2 ^ f.fractionBits =
      bits % 2 ^ f.fractionBits :=
    Nat.mod_mod_of_dvd _ (Nat.pow_dvd_pow 2 (by omega))
  have hfield : bits % 2 ^ (f.exponentBits + f.fractionBits + 1) / 2 ^ f.fractionBits %
      2 ^ f.exponentBits = bits / 2 ^ f.fractionBits % 2 ^ f.exponentBits := by
    have hsplit : f.exponentBits + f.fractionBits + 1 = f.fractionBits + (f.exponentBits + 1) := by
      omega
    rw [hsplit, Nat.pow_add, Nat.mod_mul_right_div_self,
      Nat.mod_mod_of_dvd _ (Nat.pow_dvd_pow 2 (by omega))]
  have hsign : bits % 2 ^ (f.exponentBits + f.fractionBits + 1) /
      2 ^ (f.exponentBits + f.fractionBits) % 2 =
        bits / 2 ^ (f.exponentBits + f.fractionBits) % 2 := by
    rw [Nat.pow_succ, Nat.mod_mul_right_div_self, Nat.mod_mod]
  simp only [Real.widen, Nat.pow_eq, hfraction, hfield, hsign]

/-- A number is read back as it was, whatever the width it was written in. -/
theorem readHead?_encodeFloat {x : Float} (hx : x.isNaN = false) (rest : Bytes) :
    ∃ h, h.major = 7 ∧ simpleItem h = .float x ∧
      readHead? (encodeFloat x ++ rest) = some (h, rest) := by
  have hwide : ∀ info n, 25 ≤ info → info < 28 →
      readHead? (firstByte 7 info :: bigEndian (argumentWidth info) n ++ rest) =
        some (⟨7, info, n % 256 ^ argumentWidth info⟩, rest) := fun info n hinfo hwide =>
    readHead?_wide (by decide) (by omega) hwide (by omega) rest
  rw [encodeFloat, hx, if_neg (by decide)]
  split
  · rename_i bits hnarrow
    refine ⟨_, rfl, ?_, hwide 25 bits (by decide) (by decide)⟩
    exact congrArg Item.float ((widen_mod Real.half bits).trans
      (Real.widen_of_narrow? Real.half_narrow hnarrow))
  · rename_i bits _ hnarrow
    refine ⟨_, rfl, ?_, hwide 26 bits (by decide) (by decide)⟩
    exact congrArg Item.float ((widen_mod Real.single bits).trans
      (Real.widen_of_narrow? Real.single_narrow hnarrow))
  · refine ⟨_, rfl, ?_, hwide 27 x.toBits.toNat (by decide) (by decide)⟩
    have hbits : x.toBits.toNat % 256 ^ argumentWidth 27 = x.toBits.toNat :=
      Nat.mod_eq_of_lt x.toBits.toNat_lt
    simp only [simpleItem, hbits, UInt64.ofNat_toNat, Real.ofBits_toBits]

/-! ## Texts -/

private theorem toList_loop_eq (bs : ByteArray) (i : Nat) (sofar : List UInt8) :
    ByteArray.toList.loop bs i sofar = sofar.reverse ++ bs.data.toList.drop i := by
  fun_induction ByteArray.toList.loop bs i sofar with
  | case1 i sofar hlt ih =>
    have hlt' : i < bs.data.toList.length := by simpa using hlt
    have hget : bs.get! i = bs.data.toList[i] := by
      simp [ByteArray.get!, getElem!_pos bs.data i (by simpa using hlt)]
    rw [ih, List.drop_eq_getElem_cons hlt', hget, List.reverse_cons, List.append_assoc]
    rfl
  | case2 i sofar hge =>
    rw [List.drop_eq_nil_of_le (by simpa using hge), List.append_nil]

private theorem utf8_eq (s : String) : utf8 s = s.toUTF8.data.toList := by
  rw [utf8, ByteArray.toList, toList_loop_eq]
  rfl

private theorem length_utf8 (s : String) : (utf8 s).length = s.utf8ByteSize := by
  rw [utf8_eq, Array.length_toList]
  rfl

private theorem textOfChunks_utf8 (s : String) : textOfChunks [utf8 s] = .text s := by
  have hbytes : (⟨(utf8 s).toArray⟩ : ByteArray) = s.toUTF8 := by rw [utf8_eq]
  have hread : String.fromUTF8? s.toUTF8 = some s := by
    rw [String.fromUTF8?, dif_pos (show s.toUTF8.IsValidUTF8 from s.isValidUTF8)]
    rfl
  simp only [textOfChunks, List.mapM_cons, List.mapM_nil, hbytes, hread]
  simp [String.join]

/-! ## Members -/

/-- Items one after another are read one by one. -/
theorem readMany?_encodeAll {member : Bytes → Option (Item × Bytes)} {items : List Item}
    (hmember : ∀ item ∈ items, ∀ rest, member (item.encode ++ rest) = some (item, rest))
    (sofar : List Item) (rest : Bytes) :
    readMany? member items.length sofar (encodeAll items ++ rest) =
      some (sofar.reverse ++ items, rest) := by
  induction items generalizing sofar with
  | nil => simp [readMany?, encodeAll]
  | cons item items ih =>
    have hfirst := hmember item (by simp) (encodeAll items ++ rest)
    have hlater := ih (fun i hi => hmember i (by simp [hi])) (item :: sofar)
    simp only [readMany?, encodeAll, List.length_cons, List.append_assoc, hfirst, hlater,
      List.reverse_cons, List.singleton_append]

/-- Items one after another are not read when one of them is not. -/
theorem readMany?_eq_none {member : Bytes → Option (Item × Bytes)} {before : List Item} {bad : Item}
    (hbefore : ∀ item ∈ before, ∀ rest, member (item.encode ++ rest) = some (item, rest))
    (hbad : ∀ rest, member (bad.encode ++ rest) = none) (after sofar : List Item) (rest : Bytes) :
    readMany? member (before ++ bad :: after).length sofar
      (encodeAll (before ++ bad :: after) ++ rest) = none := by
  induction before generalizing sofar with
  | nil =>
      simp only [List.nil_append, List.length_cons, readMany?, encodeAll, List.append_assoc, hbad]
  | cons item before ih =>
    have hfirst := hbefore item (by simp) (encodeAll (before ++ bad :: after) ++ rest)
    have hlater := ih (fun i hi => hbefore i (by simp [hi])) (item :: sofar)
    simp only [List.cons_append, List.length_cons, readMany?, encodeAll, List.append_assoc, hfirst,
      hlater]

/-- Entries as one list of keys and values. -/
def alternated (entries : List (Item × Item)) : List Item := entries.flatMap fun e => [e.1, e.2]

private theorem length_alternated (entries : List (Item × Item)) :
    (alternated entries).length = 2 * entries.length := by
  induction entries with
  | nil => rfl
  | cons e entries ih =>
    rw [alternated, List.flatMap_cons, List.length_append, ← alternated, ih, List.length_cons]
    simp only [List.length_cons, List.length_nil]
    omega

private theorem encodeEntries_eq (entries : List (Item × Item)) :
    encodeEntries entries = encodeAll (alternated entries) := by
  induction entries with
  | nil => rfl
  | cons e entries ih => simp [encodeEntries, alternated, encodeAll, ih]

private theorem pairs_alternated (entries : List (Item × Item)) :
    pairs (alternated entries) = entries := by
  induction entries with
  | nil => rfl
  | cons e entries ih => simpa [alternated, pairs] using ih

/-! ## Items -/

/-- An item that is read back: it is nested within a number of levels, and each part of it is within
the reader's bounds.  Traces are made of these kinds of items. -/
inductive Item.Fits : Nat → Item → Prop
  | unsigned {levels : Nat} (n : UInt64) : Fits levels (.unsigned n)
  | negative {levels : Nat} (n : UInt64) : Fits levels (.negative n)
  | bytes {levels : Nat} {content : Bytes} (h : content.length < 2 ^ 64) :
      Fits levels (.bytes content)
  | text {levels : Nat} {content : String} (h : content.utf8ByteSize < 2 ^ 64) :
      Fits levels (.text content)
  | array {levels : Nat} {items : List Item} (h : items.length ≤ maxMembers)
      (members : ∀ item ∈ items, Fits levels item) : Fits (levels + 1) (.array items)
  | map {levels : Nat} {entries : List (Item × Item)} (h : entries.length ≤ maxMembers)
      (keys : ∀ e ∈ entries, Fits levels e.1) (values : ∀ e ∈ entries, Fits levels e.2) :
      Fits (levels + 1) (.map entries)
  | bool {levels : Nat} (b : Bool) : Fits levels (.bool b)
  | null {levels : Nat} : Fits levels .null
  | float {levels : Nat} {x : Float} (h : x.isNaN = false) : Fits levels (.float x)

/-- An item that is no tag is read by its head and then its body. -/
theorem readItem?_eq {height depth : Nat} {bytes rest : Bytes} {h : Head}
    (hhead : readHead? bytes = some (h, rest)) (hmajor : h.major ≠ 6) :
    readItem? (height + 1) depth bytes =
      readBody? (readItem? height (depth + 1)) depth h rest := by
  simp only [readItem?, hhead, if_neg hmajor]

private theorem readString?_definite {major info : Nat} (hinfo : info ≠ 31) (content rest : Bytes) :
    readString? ⟨major, info, content.length⟩ (content ++ rest) = some ([content], rest) := by
  simp [readString?, Head.isIndefinite, hinfo, split?_append]

private theorem readMembers?_definite {member : Bytes → Option (Item × Bytes)} (major group : Nat)
    {info count : Nat} (hinfo : info ≠ 31) (hcount : count ≤ maxMembers) {items : List Item}
    (hlength : items.length = group * count)
    (hmember : ∀ item ∈ items, ∀ rest, member (item.encode ++ rest) = some (item, rest))
    (rest : Bytes) :
    readMembers? member group ⟨major, info, count⟩ (encodeAll items ++ rest) =
      some (items, rest) := by
  have hmany := readMany?_encodeAll hmember [] rest
  rw [hlength, List.reverse_nil, List.nil_append] at hmany
  simp [readMembers?, Head.isIndefinite, hinfo, hcount, hmany]

/-- An item that fits is read back at any depth that leaves room for its levels. -/
theorem readItem?_encode {levels : Nat} {item : Item} (hfits : item.Fits levels)
    {height depth : Nat}
    (hheight : levels ≤ height) (hdepth : levels + depth ≤ maxDepth) (rest : Bytes) :
    readItem? (height + 1) depth (item.encode ++ rest) = some (item, rest) := by
  induction hfits generalizing height depth rest with
  | unsigned n =>
    obtain ⟨info, -, hhead⟩ := readHead?_head (by decide : 0 < 7) n.toNat_lt rest
    rw [Item.encode, readItem?_eq hhead (by simp)]
    simp [readBody?]
  | negative n =>
    obtain ⟨info, -, hhead⟩ := readHead?_head (by decide : 1 < 7) n.toNat_lt rest
    rw [Item.encode, readItem?_eq hhead (by simp)]
    simp [readBody?]
  | @bytes levels content hlength =>
    obtain ⟨info, hinfo, hhead⟩ := readHead?_head (by decide : 2 < 7) hlength (content ++ rest)
    rw [Item.encode, List.append_assoc, readItem?_eq hhead (by simp)]
    simp [readBody?, readString?_definite hinfo]
  | @text levels content hlength =>
    rw [← length_utf8] at hlength
    obtain ⟨info, hinfo, hhead⟩ := readHead?_head (by decide : 3 < 7) hlength (utf8 content ++ rest)
    rw [Item.encode, List.append_assoc, readItem?_eq hhead (by simp)]
    simp [readBody?, readString?_definite hinfo, textOfChunks_utf8]
  | @array levels items hlength _ ih =>
    obtain ⟨height, rfl⟩ := Nat.exists_eq_add_of_lt hheight
    obtain ⟨info, hinfo, hhead⟩ := readHead?_head (by decide : 4 < 7)
      (Nat.lt_of_le_of_lt hlength (by decide)) (encodeAll items ++ rest)
    have hmember : ∀ item ∈ items, ∀ rest, readItem? (levels + height + 1) (depth + 1)
        (item.encode ++ rest) = some (item, rest) := fun item hitem rest =>
      ih item hitem (by omega) (by omega) rest
    have hmembers := readMembers?_definite 4 1 hinfo hlength (Nat.one_mul _).symm hmember rest
    rw [Item.encode, List.append_assoc, readItem?_eq hhead (by simp)]
    simp [readBody?, hmembers, show depth < maxDepth by omega]
  | @map levels entries hlength _ _ hkeys hvalues =>
    obtain ⟨height, rfl⟩ := Nat.exists_eq_add_of_lt hheight
    obtain ⟨info, hinfo, hhead⟩ := readHead?_head (by decide : 5 < 7)
      (Nat.lt_of_le_of_lt hlength (by decide)) (encodeAll (alternated entries) ++ rest)
    have hmember : ∀ item ∈ alternated entries, ∀ rest, readItem? (levels + height + 1) (depth + 1)
        (item.encode ++ rest) = some (item, rest) := by
      intro item hitem rest
      obtain ⟨e, he, hitem⟩ := List.mem_flatMap.mp hitem
      obtain rfl | rfl : item = e.1 ∨ item = e.2 := by simpa using hitem
      · exact hkeys e he (by omega) (by omega) rest
      · exact hvalues e he (by omega) (by omega) rest
    have hmembers :=
      readMembers?_definite 5 2 hinfo hlength (length_alternated entries) hmember rest
    rw [Item.encode, encodeEntries_eq, List.append_assoc, readItem?_eq hhead (by simp)]
    simp [readBody?, hmembers, pairs_alternated, show depth < maxDepth by omega]
  | bool b =>
    cases b with
    | true =>
      exact readItem?_eq (readHead?_narrow (by decide : 7 < 8) (by decide : 21 < 24) rest)
        (by decide)
    | false =>
      exact readItem?_eq (readHead?_narrow (by decide : 7 < 8) (by decide : 20 < 24) rest)
        (by decide)
  | null =>
    exact readItem?_eq (readHead?_narrow (by decide : 7 < 8) (by decide : 22 < 24) rest) (by decide)
  | @float levels x hx =>
    obtain ⟨h, hmajor, hitem, hhead⟩ := readHead?_encodeFloat hx rest
    rw [Item.encode, readItem?_eq hhead (by simp [hmajor])]
    simp [readBody?, hmajor, hitem]

/-- An item that fits is read back, and the bytes after it are left over. -/
theorem read?_encode {item : Item} (h : item.Fits maxDepth) (rest : Bytes) :
    read? (item.encode ++ rest) = some (item, rest) :=
  readItem?_encode h (Nat.le_refl _) (Nat.le_refl _) rest

/-! ## Items that are not read -/

/-- An array with too many members is not read. -/
theorem readItem?_oversized {items : List Item} (hlarge : maxMembers < items.length)
    (hlength : items.length < 2 ^ 64) (height depth : Nat) (rest : Bytes) :
    readItem? (height + 1) depth ((Item.array items).encode ++ rest) = none := by
  obtain ⟨info, hinfo, hhead⟩ :=
    readHead?_head (by decide : 4 < 7) hlength (encodeAll items ++ rest)
  rw [Item.encode, List.append_assoc, readItem?_eq hhead (by simp)]
  simp [readBody?, readMembers?, Head.isIndefinite, hinfo, Nat.not_le.mpr hlarge]

/-- A map is not read when the value of its last entry is not. -/
theorem readItem?_map_eq_none {levels height depth : Nat} {first : List (Item × Item)}
    {key bad : Item} (hlength : first.length < maxMembers)
    (hkeys : ∀ e ∈ first, e.1.Fits levels) (hvalues : ∀ e ∈ first, e.2.Fits levels)
    (hkey : key.Fits levels) (hheight : levels ≤ height) (hdepth : levels + (depth + 1) ≤ maxDepth)
    (hbad : ∀ rest, readItem? (height + 1) (depth + 1) (bad.encode ++ rest) = none) (rest : Bytes) :
    readItem? (height + 2) depth ((Item.map (first ++ [(key, bad)])).encode ++ rest) = none := by
  have hmembers :
      alternated (first ++ [(key, bad)]) = (alternated first ++ [key]) ++ bad :: [] := by
    simp [alternated]
  have hbefore : ∀ item ∈ alternated first ++ [key], ∀ rest,
      readItem? (height + 1) (depth + 1) (item.encode ++ rest) = some (item, rest) := by
    intro item hitem rest
    have hfits : item.Fits levels := by
      obtain hfirst | hlast := List.mem_append.mp hitem
      · obtain ⟨e, he, hitem⟩ := List.mem_flatMap.mp hfirst
        obtain rfl | rfl : item = e.1 ∨ item = e.2 := by simpa using hitem
        · exact hkeys e he
        · exact hvalues e he
      · rw [List.mem_singleton.mp hlast]
        exact hkey
    exact readItem?_encode hfits hheight hdepth rest
  have hcount : (first ++ [(key, bad)]).length ≤ maxMembers := by
    rw [List.length_append]
    exact hlength
  obtain ⟨info, hinfo, hhead⟩ := readHead?_head (by decide : 5 < 7)
    (Nat.lt_of_le_of_lt hcount (by decide))
    (encodeAll (alternated (first ++ [(key, bad)])) ++ rest)
  have hnone := readMany?_eq_none hbefore hbad [] [] rest
  rw [← hmembers, length_alternated] at hnone
  rw [Item.encode, encodeEntries_eq, List.append_assoc, readItem?_eq hhead (by simp)]
  simp only [readBody?, readMembers?, Head.isIndefinite, hcount, hnone]
  simp [hinfo]

end PCode.Cbor
