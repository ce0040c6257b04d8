import PCode.Proofs.Cbor.Decode
import PCode.Trace.Basic

/-!
# Traced data reads back

A value, a snapshot, a record and a header are read back from the items that they are
written as.  Fields that are left out are read as their defaults, which is what they
were, except for a real that is the negative zero: it compares as zero, so it is left
out and comes back as the positive one.

Main results: `Snapshot.ofItem?_toItem`, `Trace.Record.ofItem?_toItem` and
`Trace.Header.ofItem?_toItem`.
-/

namespace PCode

open Cbor (Item maxMembers)
open Cbor.Item (IsName)

/-! ## Values -/

/-- A value that a trace gives back: its real is neither NaN nor the negative zero, and the length
of its text has 64 bits. -/
structure Value.Recordable (v : Value) : Prop where
  real_number : v.real.isNaN = false
  real_sign : v.real.toBits ≠ 0x8000000000000000
  string_length : v.string.utf8ByteSize < 2 ^ 64

/-- The fields that a value is written with. -/
def Value.fields (v : Value) : List (String × Item) :=
  (if v.real == 0 then [] else [("f", .float v.real)])
    ++ (if v.int = 0 then [] else [("i", .ofInt64 v.int)])
    ++ [("k", .unsigned v.kind.byte.toUInt64)]
    ++ (if v.string = "" then [] else [("s", .text v.string)])

private theorem Value.toItem_eq (v : Value) : v.toItem = .ofFields v.fields := rfl

private theorem Value.names_fields (v : Value) :
    (v.fields.map (·.1)).Sublist ["f", "i", "k", "s"] := by
  unfold Value.fields
  split <;> split <;> split <;> simp

private theorem isName_of_sublist {fields : List (String × Item)} {names : List String}
    (h : (fields.map (·.1)).Sublist names) (hnames : ∀ n ∈ names, IsName n) :
    ∀ f ∈ fields, IsName f.1 := fun _ hf => hnames _ (h.subset (List.mem_map_of_mem hf))

private theorem Value.isName_fields (v : Value) : ∀ f ∈ v.fields, IsName f.1 :=
  isName_of_sublist v.names_fields (by decide)

/-- A real that compares as zero and has no sign is zero. -/
theorem real_eq_zero {x : Float} (hzero : (x == 0) = true) (hsign : x.toBits ≠ 0x8000000000000000) :
    x = 0 := by
  obtain ⟨hexponent, hfraction⟩ := (Real.beq_zero_iff x).mp hzero
  have hbits := Real.toNat_toBits x
  rw [hexponent, hfraction] at hbits
  refine Real.eq_of_toBits_eq (UInt64.toNat_inj.mp ?_)
  split at hbits
  · exact absurd (UInt64.toNat_inj.mp hbits) hsign
  · exact hbits

private theorem Value.ofItem?_toItem {v : Value} (hv : v.Recordable) :
    Value.ofItem? v.toItem = some v := by
  have hkind : Item.field? (v.fields.map fun f => (.text f.1, f.2)) "k" 0 Item.uint8? =
      some v.kind.byte := by
    refine Item.field?_of_lookup v.isName_fields ?_ (Item.uint8?_unsigned _)
    simp [Value.fields, List.lookup_append, List.lookup_cons, apply_ite (List.lookup "k")]
  have hint : Item.field? (v.fields.map fun f => (.text f.1, f.2)) "i" 0 Item.int64? =
      some v.int := by
    refine Item.field?_of_lookup_optional v.isName_fields ?_ id fun _ => Item.int64?_ofInt64 _
    simp [Value.fields, List.lookup_append, List.lookup_cons, apply_ite (List.lookup "i")]
  have hreal : Item.field? (v.fields.map fun f => (.text f.1, f.2)) "f" 0 Item.real? =
      some v.real := by
    refine Item.field?_of_lookup_optional v.isName_fields ?_
      (fun hzero => real_eq_zero hzero hv.real_sign) fun _ => Item.real?_float _
    simp [Value.fields, List.lookup_append, List.lookup_cons, apply_ite (List.lookup "f")]
  have hstring : Item.field? (v.fields.map fun f => (.text f.1, f.2)) "s" "" Item.string? =
      some v.string := by
    refine Item.field?_of_lookup_optional v.isName_fields ?_ id fun _ => Item.string?_text _
    simp [Value.fields, List.lookup_append, List.lookup_cons, apply_ite (List.lookup "s")]
  rw [Value.ofItem?, Value.toItem_eq, Item.entries?_ofFields]
  simp [hkind, hint, hreal, hstring]

private theorem Value.fits_toItem {v : Value} (hv : v.Recordable) (levels : Nat) :
    v.toItem.Fits (levels + 1) := by
  have hlength := v.names_fields.length_le
  rw [List.length_map] at hlength
  refine Item.fits_ofFields (Nat.le_trans hlength (by decide)) v.isName_fields ?_
  intro f hf
  simp only [List.mem_append, List.mem_ite_nil_left, List.mem_singleton] at hf
  obtain ((⟨-, rfl⟩ | ⟨-, rfl⟩) | rfl) | ⟨-, rfl⟩ := hf
  · exact .float hv.real_number
  · exact Item.fits_ofInt64 _ _
  · exact .unsigned _
  · exact .text hv.string_length

/-! ## Snapshots -/

/-- Words that a trace gives back: no more than its reader takes, each of them recordable. -/
def RecordableWords (words : Option (Array Value)) : Prop :=
  ∀ vs ∈ words, vs.size ≤ maxMembers ∧ ∀ v ∈ vs, v.Recordable

private theorem list?_wordsItem {words : Option (Array Value)} (h : RecordableWords words) :
    (wordsItem words).list? Value.ofItem? = some words := by
  cases words with
  | none => rfl
  | some vs => exact Item.list?_array fun v hv => Value.ofItem?_toItem ((h vs rfl).2 v hv)

private theorem fits_wordsItem {words : Option (Array Value)} (h : RecordableWords words)
    (levels : Nat) : (wordsItem words).Fits (levels + 2) := by
  cases words with
  | none => exact .null
  | some vs =>
    refine .array (by simpa using (h vs rfl).1) fun item hitem => ?_
    obtain ⟨v, hv, rfl⟩ := List.mem_map.mp hitem
    exact Value.fits_toItem ((h vs rfl).2 v (Array.mem_toList_iff.mp hv)) levels

/-- A snapshot that a trace gives back. -/
structure Snapshot.Recordable (s : Snapshot) : Prop where
  instruction_length : s.instruction.utf8ByteSize < 2 ^ 64
  stack : RecordableWords s.stack
  heap : RecordableWords s.heap

/-- The fields that a snapshot is written with, before that of the stack. -/
def Snapshot.leadingFields (s : Snapshot) : List (String × Item) :=
  (if s.heapClipped then [("hc", .bool true)] else [])
    ++ [ ("hp", wordsItem s.heap)
       , ("in", .text s.instruction)
       , ("mp", .ofInt64 s.mp)
       , ("np", .ofInt64 s.np)
       , ("pc", .ofInt64 s.pc) ]
    ++ (if s.stackClipped then [("sc", .bool true)] else [])
    ++ [("sp", .ofInt64 s.sp)]

/-- The fields that a snapshot is written with. -/
def Snapshot.fields (s : Snapshot) : List (String × Item) :=
  s.leadingFields ++ [("st", wordsItem s.stack)]

private theorem Snapshot.toItem_eq (s : Snapshot) : s.toItem = .ofFields s.fields := by
  simp [Snapshot.toItem, Snapshot.fields, Snapshot.leadingFields]

private theorem Snapshot.names_fields (s : Snapshot) :
    (s.fields.map (·.1)).Sublist ["hc", "hp", "in", "mp", "np", "pc", "sc", "sp", "st"] := by
  unfold Snapshot.fields Snapshot.leadingFields
  split <;> split <;> simp

private theorem Snapshot.isName_fields (s : Snapshot) : ∀ f ∈ s.fields, IsName f.1 :=
  isName_of_sublist s.names_fields (by decide)

/-- A snapshot is read back. -/
theorem Snapshot.ofItem?_toItem {s : Snapshot} (hs : s.Recordable) :
    Snapshot.ofItem? s.toItem = some s := by
  have hregister {name : String} {i : Int64} (hlookup : s.fields.lookup name = some (.ofInt64 i)) :
      Item.field? (s.fields.map fun f => (.text f.1, f.2)) name 0 Item.int64? = some i :=
    Item.field?_of_lookup s.isName_fields hlookup (Item.int64?_ofInt64 i)
  have hflag {name : String} {b : Bool}
      (hlookup : s.fields.lookup name = if b = false then none else some (.bool true)) :
      Item.field? (s.fields.map fun f => (.text f.1, f.2)) name false Item.bool? = some b := by
    refine Item.field?_of_lookup_optional s.isName_fields hlookup id fun hset => ?_
    rw [Item.bool?_bool, (Bool.not_eq_false b).mp hset]
  have hwords {name : String} {words : Option (Array Value)} (h : RecordableWords words)
      (hlookup : s.fields.lookup name = some (wordsItem words)) :
      Item.field? (s.fields.map fun f => (.text f.1, f.2)) name none (Item.list? Value.ofItem?) =
        some words :=
    Item.field?_of_lookup s.isName_fields hlookup (list?_wordsItem h)
  have hinstruction : Item.field? (s.fields.map fun f => (.text f.1, f.2)) "in" "" Item.string? =
      some s.instruction := by
    refine Item.field?_of_lookup s.isName_fields ?_ (Item.string?_text _)
    simp [Snapshot.fields, Snapshot.leadingFields, List.lookup_append, List.lookup_cons,
      apply_ite (List.lookup "in")]
  have hpc : s.fields.lookup "pc" = some (.ofInt64 s.pc) := by
    simp [Snapshot.fields, Snapshot.leadingFields, List.lookup_append, List.lookup_cons,
      apply_ite (List.lookup "pc")]
  have hmp : s.fields.lookup "mp" = some (.ofInt64 s.mp) := by
    simp [Snapshot.fields, Snapshot.leadingFields, List.lookup_append, List.lookup_cons,
      apply_ite (List.lookup "mp")]
  have hsp : s.fields.lookup "sp" = some (.ofInt64 s.sp) := by
    simp [Snapshot.fields, Snapshot.leadingFields, List.lookup_append, List.lookup_cons,
      apply_ite (List.lookup "sp")]
  have hnp : s.fields.lookup "np" = some (.ofInt64 s.np) := by
    simp [Snapshot.fields, Snapshot.leadingFields, List.lookup_append, List.lookup_cons,
      apply_ite (List.lookup "np")]
  have hst : s.fields.lookup "st" = some (wordsItem s.stack) := by
    simp [Snapshot.fields, Snapshot.leadingFields, List.lookup_append, List.lookup_cons,
      apply_ite (List.lookup "st")]
  have hsc : s.fields.lookup "sc" = if s.stackClipped = false then none else some (.bool true) := by
    cases hclipped : s.stackClipped <;>
      simp [Snapshot.fields, Snapshot.leadingFields, List.lookup_append, List.lookup_cons,
      apply_ite (List.lookup "sc"),
        hclipped]
  have hhp : s.fields.lookup "hp" = some (wordsItem s.heap) := by
    simp [Snapshot.fields, Snapshot.leadingFields, List.lookup_append, List.lookup_cons,
      apply_ite (List.lookup "hp")]
  have hhc : s.fields.lookup "hc" = if s.heapClipped = false then none else some (.bool true) := by
    cases hclipped : s.heapClipped <;>
      simp [Snapshot.fields, Snapshot.leadingFields, List.lookup_append, List.lookup_cons,
      apply_ite (List.lookup "hc"),
        hclipped]
  rw [Snapshot.ofItem?, Snapshot.toItem_eq, Item.entries?_ofFields]
  simp [hregister hpc, hinstruction, hregister hmp, hregister hsp, hregister hnp,
    hwords hs.stack hst, hflag hsc, hwords hs.heap hhp, hflag hhc]

private theorem Snapshot.length_fields_le (s : Snapshot) : s.fields.length ≤ 9 := by
  simpa using s.names_fields.length_le

private theorem Snapshot.fits_leadingFields {s : Snapshot}
    (hinstruction : s.instruction.utf8ByteSize < 2 ^ 64)
    (hheap : RecordableWords s.heap) (levels : Nat) :
    ∀ f ∈ s.leadingFields, f.2.Fits (levels + 2) := by
  intro f hf
  simp only [Snapshot.leadingFields, List.mem_append, List.mem_ite_nil_right, List.mem_cons,
    List.not_mem_nil, or_false] at hf
  obtain ((⟨-, rfl⟩ | rfl | rfl | rfl | rfl | rfl) | ⟨-, rfl⟩) | rfl := hf
  · exact .bool _
  · exact fits_wordsItem hheap levels
  · exact .text hinstruction
  · exact Item.fits_ofInt64 _ _
  · exact Item.fits_ofInt64 _ _
  · exact Item.fits_ofInt64 _ _
  · exact .bool _
  · exact Item.fits_ofInt64 _ _

private theorem Snapshot.fits_toItem {s : Snapshot} (hs : s.Recordable) (levels : Nat) :
    s.toItem.Fits (levels + 3) := by
  rw [s.toItem_eq]
  refine Item.fits_ofFields (Nat.le_trans s.length_fields_le (by decide)) s.isName_fields ?_
  intro f hf
  obtain hleading | hlast := List.mem_append.mp hf
  · exact Snapshot.fits_leadingFields hs.instruction_length hs.heap levels f hleading
  · rw [List.mem_singleton.mp hlast]
    exact fits_wordsItem hs.stack levels

/-- A snapshot with more words on its stack than the reader takes is not read. -/
theorem Snapshot.readItem?_oversized {s : Snapshot} {vs : Array Value} (hstack : s.stack = some vs)
    (hlarge : maxMembers < vs.size) (hsize : vs.size < 2 ^ 64)
    (hinstruction : s.instruction.utf8ByteSize < 2 ^ 64) (hheap : RecordableWords s.heap)
    {height depth : Nat} (hheight : 2 ≤ height) (hdepth : depth + 3 ≤ Cbor.maxDepth)
    (rest : Cbor.Bytes) :
    Cbor.readItem? (height + 2) depth (s.toItem.encode ++ rest) = none := by
  have hlength := s.length_fields_le
  rw [Snapshot.fields, List.length_append] at hlength
  rw [s.toItem_eq, Snapshot.fields, hstack]
  refine Item.readItem?_ofFields_eq_none (Nat.lt_of_lt_of_le hlength (by decide))
    (fun f hf => s.isName_fields f (List.mem_append_left _ hf)) (by decide)
    (Snapshot.fits_leadingFields hinstruction hheap 0) hheight (by omega) (fun rest => ?_) rest
  exact Cbor.readItem?_oversized (by simpa using hlarge) (by simpa using hsize) height
    (depth + 1) rest

namespace Trace

/-! ## Records and headers -/

/-- The fields that a record is written with. -/
def Record.fields (r : Record) : List (String × Item) :=
  [("q", .unsigned r.number), ("s", r.snapshot.toItem)]

private theorem Record.isName_fields (r : Record) : ∀ f ∈ r.fields, IsName f.1 :=
  isName_of_sublist (.refl ["q", "s"]) (by decide)

private theorem Record.ofItem?_of_entries {item : Item} {entries : List (Item × Item)} {r : Record}
    (hentries : item.entries? = some entries)
    (hnumber : Item.field? entries "q" 0 Item.uint64? = some r.number)
    (hsnapshot : Item.field? entries "s" default Snapshot.ofItem? = some r.snapshot) :
    Record.ofItem? item = some r := by
  simp [Record.ofItem?, hentries, hnumber, hsnapshot]

/-- A record is read back. -/
theorem Record.ofItem?_toItem {r : Record} (hr : r.snapshot.Recordable) :
    Record.ofItem? r.toItem = some r := by
  have hnumber : Item.field? (r.fields.map fun f => (.text f.1, f.2)) "q" 0 Item.uint64? =
      some r.number := by
    refine Item.field?_of_lookup r.isName_fields ?_ (Item.uint64?_unsigned _)
    simp [Record.fields]
  have hsnapshot : Item.field? (r.fields.map fun f => (.text f.1, f.2)) "s" default
      Snapshot.ofItem? = some r.snapshot := by
    refine Item.field?_of_lookup r.isName_fields ?_ (Snapshot.ofItem?_toItem hr)
    simp [Record.fields, List.lookup_cons]
  exact Record.ofItem?_of_entries (Item.entries?_ofFields r.fields) hnumber hsnapshot

/-- A record fits four levels deep. -/
theorem Record.fits_toItem {r : Record} (hr : r.snapshot.Recordable) (levels : Nat) :
    r.toItem.Fits (levels + 4) := by
  change (Item.ofFields r.fields).Fits _
  refine Item.fits_ofFields (show 2 ≤ maxMembers by decide) r.isName_fields ?_
  intro f hf
  obtain rfl | rfl : f = ("q", .unsigned r.number) ∨ f = ("s", r.snapshot.toItem) := by
    simpa [Record.fields] using hf
  · exact .unsigned _
  · exact Snapshot.fits_toItem hr levels

/-- The fields that a header is written with. -/
def Header.fields (h : Header) : List (String × Item) :=
  [ ("n", .ofInt64 h.instructions)
  , ("p", .text h.program)
  , ("t", .ofInt64 h.started)
  , ("v", .ofInt64 h.version)
  , ("id", .bytes h.id.toList) ]

private theorem Header.isName_fields (h : Header) : ∀ f ∈ h.fields, IsName f.1 :=
  isName_of_sublist (.refl ["n", "p", "t", "v", "id"]) (by decide)

/-- A header is read back. -/
theorem Header.ofItem?_toItem (h : Header) : Header.ofItem? h.toItem = some h := by
  have hint {name : String} {i : Int64} (hlookup : h.fields.lookup name = some (.ofInt64 i)) :
      Item.field? (h.fields.map fun f => (.text f.1, f.2)) name 0 Item.int64? = some i :=
    Item.field?_of_lookup h.isName_fields hlookup (Item.int64?_ofInt64 i)
  have hv : h.fields.lookup "v" = some (.ofInt64 h.version) := by
    simp [Header.fields, List.lookup_cons]
  have ht : h.fields.lookup "t" = some (.ofInt64 h.started) := by
    simp [Header.fields, List.lookup_cons]
  have hn : h.fields.lookup "n" = some (.ofInt64 h.instructions) := by
    simp [Header.fields]
  have hprogram : Item.field? (h.fields.map fun f => (.text f.1, f.2)) "p" "" Item.string? =
      some h.program := by
    refine Item.field?_of_lookup h.isName_fields ?_ (Item.string?_text _)
    simp [Header.fields, List.lookup_cons]
  have hid : Item.field? (h.fields.map fun f => (.text f.1, f.2)) "id" (Vector.replicate 16 0)
      (Item.fixedBytes? 16) = some h.id := by
    refine Item.field?_of_lookup h.isName_fields ?_ (Item.fixedBytes?_bytes _)
    simp [Header.fields, List.lookup_cons]
  rw [Header.ofItem?, show h.toItem = .ofFields h.fields from rfl, Item.entries?_ofFields]
  simp [hint hv, hid, hint ht, hprogram, hint hn]

/-- A header fits one level deep. -/
theorem Header.fits_toItem {h : Header} (hprogram : h.program.utf8ByteSize < 2 ^ 64)
    (levels : Nat) :
    h.toItem.Fits (levels + 1) := by
  change (Item.ofFields h.fields).Fits _
  refine Item.fits_ofFields (show 5 ≤ maxMembers by decide) h.isName_fields ?_
  intro f hf
  simp only [Header.fields, List.mem_cons, List.not_mem_nil, or_false] at hf
  obtain rfl | rfl | rfl | rfl | rfl := hf
  · exact Item.fits_ofInt64 _ _
  · exact .text hprogram
  · exact Item.fits_ofInt64 _ _
  · exact Item.fits_ofInt64 _ _
  · exact .bytes (by simp)

end Trace

end PCode
