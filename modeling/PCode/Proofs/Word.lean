import Mathlib.Logic.Function.Basic
import PCode.Proofs.Image

/-!
# Words, their fields and their texts

An instruction word, the three numbers that it packs and the line that a listing
shows for it stand for each other.  Packing refuses exactly the operands that do
not fit, and it reports the first of them.  The text of a word is its name and
two decimal numbers with blanks between; a name has no blank, and no two opcode
bytes have the same name, whether they stand for an opcode or not.

Main results:

- `Opcode.nameOfByte_injective`: a name belongs to one opcode byte.
- `Word.encode_eq_error_iff`: when packing fails, and what it reports.
- `Word.text_injective`: a text belongs to one word.
- `words_fields_texts_correspond`: words, fields and texts stand for each other.
-/

namespace PCode

/-! ## Names of opcode bytes -/

namespace Opcode

private theorem mem_all (op : Opcode) : op ∈ all := Array.mem_of_getElem? (ofByte?_byte op)

private theorem ofMnemonic?_mnemonic (op : Opcode) : ofMnemonic? op.mnemonic = some op := by
  have table : ∀ op ∈ all, ofMnemonic? op.mnemonic = some op := by decide +kernel
  exact table op (mem_all op)

private theorem length_mnemonic (op : Opcode) : op.mnemonic.toList.length = 3 := by
  cases op <;> rfl

private theorem blank_notMem_mnemonic (op : Opcode) : ' ' ∉ op.mnemonic.toList := by
  cases op <;> decide

/-- A byte is shown as two digits. -/
theorem toList_hexByte (b : UInt8) :
    (Text.hexByte 'A' b).toList =
      [Text.hexDigit 'A' (b.toNat / 16 % 16), Text.hexDigit 'A' (b.toNat % 16)] :=
  String.toList_ofList

/-- Digits of different numbers differ. -/
theorem hexDigit_inj {m n : Nat} (hm : m < 16) (hn : n < 16)
    (h : Text.hexDigit 'A' m = Text.hexDigit 'A' n) : m = n := by
  have key : ∀ m n : Fin 16, Text.hexDigit 'A' m = Text.hexDigit 'A' n → m = n := by decide
  exact congrArg Fin.val (key ⟨m, hm⟩ ⟨n, hn⟩ h)

/-- No digit is a blank. -/
theorem hexDigit_ne_blank {n : Nat} (hn : n < 16) : Text.hexDigit 'A' n ≠ ' ' := by
  have key : ∀ n : Fin 16, Text.hexDigit 'A' n ≠ ' ' := by decide
  exact key ⟨n, hn⟩

/-- Different bytes are shown by different digits. -/
theorem hexByte_injective : Function.Injective (Text.hexByte 'A') := by
  intro b c h
  have hb := b.toNat_lt
  have hc := c.toNat_lt
  have hdigits := congrArg String.toList h
  simp only [toList_hexByte, List.cons.injEq, and_true] at hdigits
  have hhigh := hexDigit_inj (by omega) (by omega) hdigits.1
  have hlow := hexDigit_inj (by omega) (by omega) hdigits.2
  exact UInt8.toNat_inj.mp (by omega)

private theorem toList_nameOfByte_none {b : UInt8} (h : ofByte? b = none) :
    (nameOfByte b).toList = "OP_".toList ++ (Text.hexByte 'A' b).toList := by
  simp only [nameOfByte, h, String.toList_append]

/-- Names have no blank. -/
theorem blank_notMem_nameOfByte (b : UInt8) : ' ' ∉ (nameOfByte b).toList := by
  have hb := b.toNat_lt
  cases h : ofByte? b with
  | some op =>
    simp only [nameOfByte, h]
    exact blank_notMem_mnemonic op
  | none =>
    rw [toList_nameOfByte_none h, toList_hexByte]
    have hhigh := hexDigit_ne_blank (n := b.toNat / 16 % 16) (by omega)
    have hlow := hexDigit_ne_blank (n := b.toNat % 16) (by omega)
    simp [hhigh.symm, hlow.symm]

/-- A name of three characters belongs to an opcode, and any other to a byte without one. -/
theorem length_nameOfByte (b : UInt8) :
    (nameOfByte b).toList.length = if (ofByte? b).isSome then 3 else 5 := by
  cases h : ofByte? b with
  | some op =>
    simp only [nameOfByte, h]
    exact length_mnemonic op
  | none =>
    rw [toList_nameOfByte_none h, toList_hexByte]
    rfl

/-- A name belongs to one opcode byte. -/
theorem nameOfByte_injective : Function.Injective nameOfByte := by
  intro b c h
  have hlength := length_nameOfByte c
  rw [← h, length_nameOfByte] at hlength
  cases hb : ofByte? b with
  | some op =>
    cases hc : ofByte? c with
    | some op' =>
      simp only [nameOfByte, hb, hc] at h
      have hop : some op = some op' := by
        rw [← ofMnemonic?_mnemonic op, ← ofMnemonic?_mnemonic op', h]
      rw [← byte_of_ofByte? hb, ← byte_of_ofByte? hc, Option.some.inj hop]
    | none => simp [hb, hc] at hlength
  | none =>
    cases hc : ofByte? c with
    | some op' => simp [hb, hc] at hlength
    | none =>
      have hdigits := congrArg String.toList h
      rw [toList_nameOfByte_none hb, toList_nameOfByte_none hc] at hdigits
      exact hexByte_injective (String.toList_inj.mp (List.append_cancel_left hdigits))

end Opcode

namespace Word

/-! ## Packing -/

/-- An operand fits if it is not negative and not above the limit. -/
theorem fits_iff {x : Int64} {limit : Nat} :
    fits x limit = true ↔ 0 ≤ x.toInt ∧ x.toInt ≤ limit := by
  simp [fits]

/-- There is a word for exactly the operands that fit. -/
theorem exists_encode_iff (op : UInt8) (a b : Int64) :
    (∃ w, encode op a b = .ok w) ↔ fits a maxOperand1 ∧ fits b maxOperand2 := by
  simp only [encode_eq_ok_iff, exists_and_left, exists_eq, and_true]

/-- Packing reports the first operand that does not fit, and fails only then. -/
theorem encode_eq_error_iff (op : UInt8) (a b : Int64) (e : EncodingError) :
    encode op a b = .error e ↔
      (¬ fits a maxOperand1 ∧ e = ⟨op, .first, a⟩) ∨
        (fits a maxOperand1 ∧ ¬ fits b maxOperand2 ∧ e = ⟨op, .second, b⟩) := by
  unfold encode
  cases ha : fits a maxOperand1 <;> cases hb : fits b maxOperand2 <;> simp [eq_comm]

private theorem toInt_operand1 (w : Word) : (Int64.ofNat w.operand1).toInt = w.operand1 := by
  have hle := w.operand1_le
  unfold maxOperand1 at hle
  exact Int64.toInt_ofNat_of_lt (by omega)

private theorem toInt_operand2 (w : Word) : (Int64.ofNat w.operand2).toInt = w.operand2 := by
  have hle := w.operand2_le
  unfold maxOperand2 at hle
  exact Int64.toInt_ofNat_of_lt (by omega)

private theorem fits_operand1 (w : Word) : fits (Int64.ofNat w.operand1) maxOperand1 := by
  have hle := w.operand1_le
  rw [fits_iff, toInt_operand1]
  omega

private theorem fits_operand2 (w : Word) : fits (Int64.ofNat w.operand2) maxOperand2 := by
  have hle := w.operand2_le
  rw [fits_iff, toInt_operand2]
  omega

/-- The fields of a word pack into that word. -/
theorem encode_fields (w : Word) :
    encode w.opcode (Int64.ofNat w.operand1) (Int64.ofNat w.operand2) = .ok w := by
  refine (encode_eq_ok_iff ..).mpr ⟨w.fits_operand1, w.fits_operand2, ?_⟩
  rw [toInt_operand1, toInt_operand2]
  exact w.pack_fields.symm

/-- The second operand is replaced exactly by what fits. -/
theorem exists_withOperand2_iff (w : Word) (b : Int64) :
    (∃ w', w.withOperand2 b = .ok w') ↔ fits b maxOperand2 := by
  rw [withOperand2, exists_encode_iff]
  exact ⟨And.right, fun h => ⟨w.fits_operand1, h⟩⟩

/-- An operand moved up by some bits, where nothing is lost. -/
theorem toNat_ofNat_shiftLeft {n : Nat} {k : UInt32} (hk : k.toNat < 32)
    (h : n * 2 ^ k.toNat < 2 ^ 32) : (UInt32.ofNat n <<< k).toNat = n <<< k.toNat := by
  have hn : n < 2 ^ 32 :=
    Nat.lt_of_le_of_lt (Nat.le_mul_of_pos_right n (Nat.two_pow_pos k.toNat)) h
  rw [UInt32.toNat_shiftLeft, UInt32.toNat_ofNat', Nat.mod_eq_of_lt hn, Nat.mod_eq_of_lt hk,
    Nat.shiftLeft_eq, Nat.mod_eq_of_lt h]

/-- The fields stand side by side in the bits of a word. -/
theorem bits_eq_fields (w : Word) :
    w.bits = w.opcode.toUInt32 ||| UInt32.ofNat w.operand1 <<< 8 |||
      UInt32.ofNat w.operand2 <<< 17 := by
  have h1 := w.operand1_le
  have h2 := w.operand2_le
  have hop := w.opcode.toNat_lt
  simp only [maxOperand1, maxOperand2] at h1 h2
  have hshift1 : (UInt32.ofNat w.operand1 <<< 8).toNat = w.operand1 <<< 8 :=
    toNat_ofNat_shiftLeft (by decide) (by simp only [UInt32.reduceToNat]; omega)
  have hshift2 : (UInt32.ofNat w.operand2 <<< 17).toNat = w.operand2 <<< 17 :=
    toNat_ofNat_shiftLeft (by decide) (by simp only [UInt32.reduceToNat]; omega)
  have hbelow : w.operand1 <<< 8 + w.opcode.toNat < 2 ^ 17 := by
    rw [Nat.shiftLeft_eq]
    omega
  apply UInt32.toNat_inj.mp
  calc w.bits.toNat
      = w.operand2 <<< 17 + (w.operand1 <<< 8 + w.opcode.toNat) := by
        simp only [Nat.shiftLeft_eq, opcode, operand1, operand2, UInt32.toNat_toUInt8]
        omega
    _ = w.operand2 <<< 17 ||| (w.operand1 <<< 8 ||| w.opcode.toNat) := by
        rw [Nat.shiftLeft_add_eq_or_of_lt hbelow, Nat.shiftLeft_add_eq_or_of_lt hop]
    _ = (w.opcode.toUInt32 ||| UInt32.ofNat w.operand1 <<< 8 |||
          UInt32.ofNat w.operand2 <<< 17).toNat := by
        rw [UInt32.toNat_or, UInt32.toNat_or, UInt8.toNat_toUInt32, hshift1, hshift2,
          Nat.or_comm, Nat.or_comm w.opcode.toNat]

/-- A word is known by its fields. -/
theorem ext_fields {w w' : Word} (hop : w.opcode = w'.opcode) (h1 : w.operand1 = w'.operand1)
    (h2 : w.operand2 = w'.operand2) : w = w' := by
  rw [← w.pack_fields, ← w'.pack_fields, hop, h1, h2]

/-! ## Texts -/

/-- The text before the first blank and the text after it are known by the whole. -/
theorem append_blank_inj {l l' r r' : List Char} (hl : ' ' ∉ l) (hl' : ' ' ∉ l')
    (h : l ++ ' ' :: r = l' ++ ' ' :: r') : l = l' ∧ r = r' := by
  induction l generalizing l' with
  | nil =>
    cases l' with
    | nil => exact ⟨rfl, (List.cons.inj h).2⟩
    | cons c l' => exact absurd (by rw [(List.cons.inj h).1]; exact List.mem_cons_self) hl'
  | cons c l ih =>
    cases l' with
    | nil => exact absurd (by rw [← (List.cons.inj h).1]; exact List.mem_cons_self) hl
    | cons c' l' =>
      obtain ⟨rfl, htail⟩ := List.cons.inj h
      have hrest := ih (List.not_mem_of_not_mem_cons hl) (List.not_mem_of_not_mem_cons hl') htail
      exact ⟨by rw [hrest.1], hrest.2⟩

private theorem blank_notMem_digits (n : Nat) : ' ' ∉ Nat.toDigits 10 n := by
  intro h
  have hdigit := Nat.isDigit_of_mem_toDigits (by decide) (by decide) h
  exact absurd hdigit (by decide)

private theorem digits_injective : Function.Injective (Nat.toDigits 10) := by
  intro m n h
  have hread := congrArg (Nat.ofDigitChars 10 · 0) h
  simpa only [Nat.ofDigitChars_ten_toDigits] using hread

private theorem toList_text (w : Word) :
    w.text.toList = (Opcode.nameOfByte w.opcode).toList ++
      ' ' :: (Nat.toDigits 10 w.operand1 ++ ' ' :: Nat.toDigits 10 w.operand2) := by
  simp [text, toString]

/-- A text belongs to one word. -/
theorem text_injective : Function.Injective text := by
  intro w w' h
  have hlist := congrArg String.toList h
  rw [toList_text, toList_text] at hlist
  obtain ⟨hname, hoperands⟩ := append_blank_inj (Opcode.blank_notMem_nameOfByte _)
    (Opcode.blank_notMem_nameOfByte _) hlist
  obtain ⟨h1, h2⟩ := append_blank_inj (blank_notMem_digits _) (blank_notMem_digits _) hoperands
  exact ext_fields (Opcode.nameOfByte_injective (String.toList_inj.mp hname)) (digits_injective h1)
    (digits_injective h2)

end Word

/-- The report of an operand that does not fit says which one it is, and its value. -/
theorem EncodingError.message_names (e : EncodingError) :
    ∃ before after : String,
      e.message = before ++ s!"operand{e.field.number}: {e.value.toInt}" ++ after := by
  unfold message
  simp only
  split
  · exact ⟨Opcode.nameOfByte e.opcode ++ ": negative ", "",
      by simp [toString, String.append_assoc]⟩
  · exact ⟨Opcode.nameOfByte e.opcode ++ ": too large ", s!" (max {e.field.limit})",
      by simp [toString, String.append_assoc]⟩

/-- Words, their fields and their texts stand for each other.  Packing succeeds exactly on operands
that fit, reports the first that does not, and puts the fields side by side; unpacking undoes
packing, and packing undoes unpacking.  Another second operand can be set exactly if it fits, and
nothing else changes.  No two words have the same text. -/
theorem words_fields_texts_correspond :
    (∀ (op : UInt8) (a b : Int64),
      ((∃ w, Word.encode op a b = .ok w) ↔
        (0 ≤ a.toInt ∧ a.toInt ≤ 511) ∧ (0 ≤ b.toInt ∧ b.toInt ≤ 32767)) ∧
      (∀ e, Word.encode op a b = .error e ↔
        (¬ (0 ≤ a.toInt ∧ a.toInt ≤ 511) ∧ e = ⟨op, .first, a⟩) ∨
          ((0 ≤ a.toInt ∧ a.toInt ≤ 511) ∧ ¬ (0 ≤ b.toInt ∧ b.toInt ≤ 32767) ∧
            e = ⟨op, .second, b⟩)) ∧
      ∀ w, Word.encode op a b = .ok w →
        w.opcode = op ∧ (w.operand1 : Int) = a.toInt ∧ (w.operand2 : Int) = b.toInt) ∧
    (∀ e : EncodingError, ∃ before after : String,
      e.message = before ++ s!"operand{e.field.number}: {e.value.toInt}" ++ after) ∧
    (∀ w : Word,
      Word.encode w.opcode (Int64.ofNat w.operand1) (Int64.ofNat w.operand2) = .ok w ∧
      w.bits = w.opcode.toUInt32 ||| UInt32.ofNat w.operand1 <<< 8 |||
        UInt32.ofNat w.operand2 <<< 17) ∧
    (∀ (w : Word) (b : Int64),
      ((∃ w', w.withOperand2 b = .ok w') ↔ 0 ≤ b.toInt ∧ b.toInt ≤ 32767) ∧
      ∀ w', w.withOperand2 b = .ok w' →
        w'.opcode = w.opcode ∧ w'.operand1 = w.operand1 ∧ (w'.operand2 : Int) = b.toInt) ∧
    Function.Injective Word.text := by
  have hfits1 : ∀ a : Int64, Word.fits a maxOperand1 = true ↔ 0 ≤ a.toInt ∧ a.toInt ≤ 511 :=
    fun _ => Word.fits_iff
  have hfits2 : ∀ b : Int64, Word.fits b maxOperand2 = true ↔ 0 ≤ b.toInt ∧ b.toInt ≤ 32767 :=
    fun _ => Word.fits_iff
  refine ⟨fun op a b => ⟨?_, fun e => ?_, fun w => Word.fields_of_encode⟩,
    EncodingError.message_names, fun w => ⟨w.encode_fields, w.bits_eq_fields⟩,
    fun w b => ⟨?_, fun w' => Word.fields_of_withOperand2⟩, Word.text_injective⟩
  · rw [Word.exists_encode_iff, hfits1, hfits2]
  · rw [Word.encode_eq_error_iff, hfits1, hfits2]
  · rw [Word.exists_withOperand2_iff, hfits2]

end PCode
