import PCode.Proofs.Cbor.Truncation
import PCode.Proofs.Trace.RoundTrip
import PCode.Trace.Stream

/-!
# Prefixes of a trace

A trace that was written is read back, and so is each prefix of it: the header, then
the records that lie wholly within the prefix, and after them the end of the trace if
the prefix ends with an item, or an error if it ends within one.

The writer is described by the items it has written.  The reader is followed one record
at a time (`Yields`), and the prefix is cut off one item at a time along with it.

Main results: `Trace.reads_prefix` and `Trace.next_oversized`.
-/

namespace PCode.Trace

open Cbor (Bytes Item maxMembers)

/-! ## Writing -/

/-- The records of snapshots, numbered on from a number. -/
def numbered (start : Nat) (snapshots : List Snapshot) : List Record :=
  snapshots.mapIdx fun i s => { number := UInt64.ofNat (start + i + 1), snapshot := s }

private theorem numbered_cons (start : Nat) (s : Snapshot) (snapshots : List Snapshot) :
    numbered start (s :: snapshots) =
      { number := UInt64.ofNat (start + 1), snapshot := s } :: numbered (start + 1) snapshots := by
  have hnumber : ∀ i, start + (i + 1) + 1 = start + 1 + i + 1 := by omega
  simp only [numbered, List.mapIdx_cons, hnumber, Nat.add_zero]

private theorem numbered_take (start k : Nat) (snapshots : List Snapshot) :
    numbered start (snapshots.take k) = (numbered start snapshots).take k := by
  induction snapshots generalizing start k with
  | nil => simp [numbered]
  | cons s snapshots ih =>
    cases k with
    | zero => rfl
    | succ k => simp only [List.take_succ_cons, numbered_cons, ih]

/-- A writer to a sink without a limit that has not failed. -/
structure Writer.Open (w : Writer) : Prop where
  limit : w.sink.limit = none
  error : w.error = none

private theorem Writer.record_open {w : Writer} (hw : w.Open) (s : Snapshot) :
    (w.record s).Open ∧ (w.record s).count = w.count + 1 ∧
      (w.record s).sink.items.toList = w.sink.items.toList ++
        [(Record.toItem { number := UInt64.ofNat (w.count + 1), snapshot := s }).encode] := by
  obtain ⟨hlimit, herror⟩ := hw
  refine ⟨⟨?_, ?_⟩, ?_, ?_⟩ <;>
    simp [Writer.record, Sink.write?, hlimit, herror]

/-- The items of records are written one after another. -/
theorem Writer.foldl_record {w : Writer} (hw : w.Open) (snapshots : List Snapshot) :
    (snapshots.foldl Writer.record w).Open ∧
      (snapshots.foldl Writer.record w).sink.items.toList = w.sink.items.toList ++
        (numbered w.count snapshots).map fun r => r.toItem.encode := by
  induction snapshots generalizing w with
  | nil => exact ⟨hw, by simp [numbered]⟩
  | cons s snapshots ih =>
    obtain ⟨hopen, hcount, hitems⟩ := Writer.record_open hw s
    obtain ⟨hopen', hitems'⟩ := ih hopen
    refine ⟨hopen', ?_⟩
    rw [List.foldl_cons, hitems', hitems, hcount, numbered_cons, List.map_cons, List.append_assoc,
      List.singleton_append]

/-- A fresh sink takes the header and every record. -/
theorem Writer.start_fresh (h : Header) :
    ∃ w, Writer.start {} h = .ok w ∧ w.Open ∧ w.count = 0 ∧
      w.sink.items.toList = [h.toItem.encode] := by
  refine ⟨_, rfl, ⟨rfl, rfl⟩, rfl, rfl⟩

/-! ## Cutting -/

/-- How many of the items lie wholly within a number of bytes. -/
def itemsWithin : List Bytes → Nat → Nat
  | [], _ => 0
  | item :: items, cut =>
    if item.length ≤ cut then itemsWithin items (cut - item.length) + 1 else 0

private theorem Record.encode_ne_nil (r : Record) : r.toItem.encode ≠ [] :=
  Item.encode_ofFields_ne_nil r.fields

private theorem Header.encode_ne_nil (h : Header) : h.toItem.encode ≠ [] :=
  Item.encode_ofFields_ne_nil h.fields

private theorem itemsWithin_records_le (rs : List Record) (cut : Nat) :
    itemsWithin (rs.map fun r => r.toItem.encode) cut ≤ cut := by
  induction rs generalizing cut with
  | nil => exact Nat.zero_le _
  | cons r rs ih =>
    have hpos := List.length_pos_iff.mpr r.encode_ne_nil
    have hrest := ih (cut - r.toItem.encode.length)
    rw [List.map_cons, itemsWithin]
    split <;> omega

/-! ## Reading -/

/-- The records that a reader yields one after another, up to bytes that are left. -/
inductive Yields : Bytes → List Record → Bytes → Prop
  | done (bytes : Bytes) : Yields bytes [] bytes
  | step {bytes rest last : Bytes} {r : Record} {rs : List Record}
      (hnext : next bytes = .ok (some (r, rest))) (hrest : Yields rest rs last) :
      Yields bytes (r :: rs) last

private theorem readRecords_of_yields {bytes last : Bytes} {rs : List Record}
    (h : Yields bytes rs last) {fuel : Nat} (hfuel : rs.length < fuel) (sofar : List Record) :
    (next last = .ok none → readRecords fuel sofar bytes = (sofar.reverse ++ rs, none)) ∧
    (∀ e, next last = .error e → readRecords fuel sofar bytes = (sofar.reverse ++ rs, some e)) := by
  induction h generalizing fuel sofar with
  | done bytes =>
    obtain ⟨fuel, rfl⟩ := Nat.exists_eq_add_of_lt hfuel
    refine ⟨fun hnext => ?_, fun e hnext => ?_⟩ <;> simp [readRecords, hnext]
  | @step bytes rest last r rs hnext _ ih =>
    obtain ⟨fuel, rfl⟩ : ∃ k, fuel = k + 1 := ⟨fuel - 1, by omega⟩
    have hlater := ih (by simpa using hfuel) (r :: sofar)
    simpa [readRecords, hnext] using hlater

private theorem next_of_read? {bytes rest : Bytes} {item : Item} {r : Record} (hne : bytes ≠ [])
    (hread : Cbor.read? bytes = some (item, rest)) (hitem : Record.ofItem? item = some r) :
    next bytes = .ok (some (r, rest)) := by
  simp [next, hne, hread, hitem]

private theorem next_item {r : Record} (hr : r.snapshot.Recordable) (rest : Bytes) :
    next (r.toItem.encode ++ rest) = .ok (some (r, rest)) := by
  have hfits : r.toItem.Fits Cbor.maxDepth := Record.fits_toItem hr 28
  exact next_of_read? (by simp [r.encode_ne_nil]) (Cbor.read?_encode hfits rest)
    (Record.ofItem?_toItem hr)

private theorem next_truncated {r : Record} (hr : r.snapshot.Recordable) {cut : Nat}
    (hpos : cut ≠ 0) (hcut : cut < r.toItem.encode.length) :
    next (r.toItem.encode.take cut) = .error .badRecord := by
  have hread : Cbor.read? (r.toItem.encode.take cut) = none :=
    Cbor.read?_truncated (Record.fits_toItem hr 28) (List.take_append_drop cut _)
      (by simpa using hcut)
  have hne : (r.toItem.encode.take cut).isEmpty = false := by
    simp [hpos, r.encode_ne_nil]
  rw [next, hne, hread]
  rfl

/-- A record whose snapshot has more words on its stack than the reader takes is not read. -/
theorem next_oversized {r : Record} {vs : Array Value} (hstack : r.snapshot.stack = some vs)
    (hlarge : maxMembers < vs.size) (hsize : vs.size < 2 ^ 64)
    (hinstruction : r.snapshot.instruction.utf8ByteSize < 2 ^ 64)
    (hheap : RecordableWords r.snapshot.heap) (rest : Bytes) :
    next (r.toItem.encode ++ rest) = .error .badRecord := by
  have hlength : [("q", Item.unsigned r.number)].length < maxMembers :=
    show 1 < maxMembers by decide
  have hnumber : ∀ f ∈ [("q", Item.unsigned r.number)], Item.IsName f.1 ∧ f.2.Fits 0 := by
    intro f hf
    rw [List.mem_singleton.mp hf]
    exact ⟨show Item.IsName "q" by decide, .unsigned _⟩
  have hread : Cbor.read? (r.toItem.encode ++ rest) = none :=
    Item.readItem?_ofFields_eq_none hlength (fun f hf => (hnumber f hf).1) (by decide)
      (fun f hf => (hnumber f hf).2) (Nat.zero_le 31) (by decide)
      (Snapshot.readItem?_oversized hstack hlarge hsize hinstruction hheap (by decide)
        (by decide)) rest
  simp [next, hread, r.encode_ne_nil]

/-- A prefix of the items of records yields those within it. -/
theorem yields_prefix {rs : List Record} (hrs : ∀ r ∈ rs, r.snapshot.Recordable) {cut : Nat}
    (hcut : cut ≤ (rs.map fun r => r.toItem.encode).flatten.length) :
    ∃ last, Yields ((rs.map fun r => r.toItem.encode).flatten.take cut)
        (rs.take (itemsWithin (rs.map fun r => r.toItem.encode) cut)) last ∧
      next last = if cut = ((rs.map fun r => r.toItem.encode).take
          (itemsWithin (rs.map fun r => r.toItem.encode) cut)).flatten.length
        then .ok none else .error .badRecord := by
  induction rs generalizing cut with
  | nil =>
    obtain rfl : cut = 0 := by simpa using hcut
    exact ⟨[], .done [], rfl⟩
  | cons r rs ih =>
    have hr := hrs r (by simp)
    simp only [List.map_cons, List.flatten_cons, List.length_append] at hcut ⊢
    generalize hitem : r.toItem.encode = item at hcut ⊢
    rw [itemsWithin]
    split
    · rename_i hwithin
      obtain ⟨last, hyields, hlast⟩ := ih (fun r' hr' => hrs r' (by simp [hr']))
        (show cut - item.length ≤ _ by omega)
      refine ⟨last, .step ?_ hyields, ?_⟩
      · rw [List.take_append, List.take_of_length_le hwithin, ← hitem]
        exact next_item hr _
      · rw [hlast, List.take_succ_cons, List.flatten_cons, List.length_append]
        congr 1
        exact propext (by omega)
    · rename_i hwithin
      have htake : (item ++ (rs.map fun r => r.toItem.encode).flatten).take cut = item.take cut :=
        List.take_append_of_le_length (by omega)
      refine ⟨_, .done _, ?_⟩
      rw [htake]
      by_cases hzero : cut = 0
      · simp [hzero, next]
      · subst hitem
        rw [next_truncated hr hzero (by omega)]
        simp [hzero]

/-! ## Whole traces -/

private theorem readHeader_item {h : Header} (hversion : h.version = version)
    (hprogram : h.program.utf8ByteSize < 2 ^ 64) (rest : Bytes) :
    readHeader (h.toItem.encode ++ rest) = .ok (h, rest) := by
  have hfits : h.toItem.Fits Cbor.maxDepth := Header.fits_toItem hprogram 31
  simp [readHeader, Cbor.read?_encode hfits, Header.ofItem?_toItem, h.encode_ne_nil, hversion]

private theorem readHeader_truncated {h : Header} (hprogram : h.program.utf8ByteSize < 2 ^ 64)
    {cut : Nat} (hcut : cut < h.toItem.encode.length) :
    readHeader (h.toItem.encode.take cut) = .error (if cut = 0 then .empty else .badHeader) := by
  have hfits : h.toItem.Fits Cbor.maxDepth := Header.fits_toItem hprogram 31
  have hread : Cbor.read? (h.toItem.encode.take cut) = none :=
    Cbor.read?_truncated hfits (List.take_append_drop cut _) (by simpa using hcut)
  by_cases hzero : cut = 0
  · simp [hzero, readHeader]
  · simp [hzero, readHeader, hread, h.encode_ne_nil]

private theorem readAll_of_yields {bytes rest last : Bytes} {h : Header} {rs : List Record}
    {e : ReadError}
    {p : Prop} [Decidable p] (hread : readHeader bytes = .ok (h, rest))
    (hyields : Yields rest rs last)
    (hlength : rs.length ≤ rest.length) (hlast : next last = if p then .ok none else .error e) :
    readAll bytes =
      .ok { header := h, records := rs, error := if p then none else some e } := by
  have hrecords := readRecords_of_yields hyields (Nat.lt_succ_of_le hlength) []
  rw [List.reverse_nil, List.nil_append] at hrecords
  by_cases hp : p
  · simp [readAll, hread, hrecords.1 (by simpa [hp] using hlast), hp]
  · simp [readAll, hread, hrecords.2 e (by simpa [hp] using hlast), hp]

/-- The items of the trace of a run: its header, and a record for each snapshot. -/
def itemsOf (h : Header) (snapshots : List Snapshot) : List Bytes :=
  h.toItem.encode :: (numbered 0 snapshots).map fun r => r.toItem.encode

private theorem Writer.recordAll_fresh (h : Header) (snapshots : Array Snapshot) :
    ∃ w, Writer.start {} h = .ok w ∧ (w.recordAll snapshots).error = none ∧
      (w.recordAll snapshots).sink.items.toList = itemsOf h snapshots.toList := by
  obtain ⟨w, hstart, hopen, hcount, hitems⟩ := Writer.start_fresh h
  obtain ⟨hopen', hitems'⟩ := Writer.foldl_record hopen snapshots.toList
  rw [hitems, hcount] at hitems'
  refine ⟨w, hstart, ?_, ?_⟩
  · rw [Writer.recordAll, ← Array.foldl_toList]
    exact hopen'.error
  · rw [Writer.recordAll, ← Array.foldl_toList]
    exact hitems'

/-- **Any prefix of a trace reads back, and a truncation is reported.**  A fresh sink takes the
header and the record of each snapshot as one item each.  The first `cut` bytes are read as an
error about the header when not even its item is whole, and otherwise as the header and the records
whose items are whole, numbered from one.  After those the reader finds the end of the trace if the
cut is at the end of an item, and an error about a record if it is not. -/
theorem reads_prefix {h : Header} (hversion : h.version = 1)
    (hprogram : h.program.utf8ByteSize < 2 ^ 64) {snapshots : Array Snapshot}
    (hsnapshots : ∀ s ∈ snapshots, s.Recordable) :
    ∃ w, Writer.start {} h = .ok w ∧ (w.recordAll snapshots).error = none ∧
      (w.recordAll snapshots).sink.items.toList = itemsOf h snapshots.toList ∧
      ∀ cut, cut ≤ (w.recordAll snapshots).sink.bytes.length →
        (itemsWithin (itemsOf h snapshots.toList) cut = 0 →
          (readHeader ((w.recordAll snapshots).sink.bytes.take cut)).mapError ReadError.message =
            .error (if cut = 0 then "trace: empty stream" else "trace: read header")) ∧
        ∀ k, itemsWithin (itemsOf h snapshots.toList) cut = k + 1 → ∃ rest last,
          readHeader ((w.recordAll snapshots).sink.bytes.take cut) = .ok (h, rest) ∧
          Yields rest (numbered 0 (snapshots.toList.take k)) last ∧
          (next last).mapError ReadError.message =
            (if cut = ((itemsOf h snapshots.toList).take (k + 1)).flatten.length then .ok none
              else .error "trace: read record") ∧
          readAll ((w.recordAll snapshots).sink.bytes.take cut) = .ok
            { header := h
              records := numbered 0 (snapshots.toList.take k)
              error := if cut = ((itemsOf h snapshots.toList).take (k + 1)).flatten.length then none
                else some .badRecord } := by
  obtain ⟨w, hstart, herror, hitems⟩ := Writer.recordAll_fresh h snapshots
  have hbytes : (w.recordAll snapshots).sink.bytes = (itemsOf h snapshots.toList).flatten := by
    rw [Sink.bytes, hitems]
  have hrecords : ∀ r ∈ numbered 0 snapshots.toList, r.snapshot.Recordable := by
    intro r hr
    obtain ⟨i, hi, rfl⟩ := List.mem_mapIdx.mp hr
    exact hsnapshots _ (by simp)
  refine ⟨w, hstart, herror, hitems, fun cut hcut => ?_⟩
  rw [hbytes, itemsOf, List.flatten_cons] at hcut ⊢
  rw [List.length_append] at hcut
  rw [itemsWithin]
  refine ⟨fun hwithin => ?_, fun k hwithin => ?_⟩
  · split at hwithin
    · cases hwithin
    rename_i hheader
    rw [List.take_append_of_le_length (by omega), readHeader_truncated hprogram (by omega)]
    split <;> rfl
  · split at hwithin
    · rename_i hheader
      obtain rfl := Nat.succ.inj hwithin
      obtain ⟨last, hyields, hlast⟩ := yields_prefix hrecords
        (show cut - h.toItem.encode.length ≤ _ by omega)
      have hread := readHeader_item hversion hprogram
        (((numbered 0 snapshots.toList).map fun r => r.toItem.encode).flatten.take
          (cut - h.toItem.encode.length))
      -- the cut ends an item of the trace when what is left of it ends one of the records
      have hboundary (n : Nat) : cut - h.toItem.encode.length = n ↔
          cut = h.toItem.encode.length + n := by omega
      simp only [hboundary] at hlast
      rw [List.take_append, List.take_of_length_le hheader, numbered_take, List.take_succ_cons,
        List.flatten_cons, List.length_append]
      refine ⟨_, last, hread, hyields, ?_, readAll_of_yields hread hyields ?_ hlast⟩
      · rw [hlast]
        split <;> rfl
      · have hwithin := itemsWithin_records_le (numbered 0 snapshots.toList)
          (cut - h.toItem.encode.length)
        simp only [List.length_take]
        omega
    · cases hwithin

/-- All items lie within all bytes. -/
theorem itemsWithin_flatten (items : List Bytes) :
    itemsWithin items items.flatten.length = items.length := by
  induction items with
  | nil => rfl
  | cons item items ih =>
    rw [itemsWithin, List.flatten_cons, List.length_append, if_pos (Nat.le_add_right _ _),
      Nat.add_sub_cancel_left, ih, List.length_cons]

/-- The header of a trace in which little is known of the run. -/
def plainHeader : Header where
  version := 1
  id := Vector.replicate 16 0
  started := 0
  program := "p"
  instructions := 0

/-- A snapshot that shows a stack. -/
def shownStack (stack : Array Value) : Snapshot where
  pc := 0
  instruction := ""
  mp := 0
  sp := 0
  np := 0
  stack := some stack
  stackClipped := false
  heap := none
  heapClipped := false

/-- The trace of one instruction reads back. -/
theorem reads_prefix_whole : ∃ w, Writer.start {} plainHeader = .ok w ∧
    readAll (w.recordAll #[shownStack #[.ofInt 7]]).sink.bytes = .ok
      { header := plainHeader
        records := [{ number := 1, snapshot := shownStack #[.ofInt 7] }]
        error := none } := by
  have hvalue : (Value.ofInt 7).Recordable := ⟨rfl, by decide, by decide⟩
  have hsnapshot : ∀ s ∈ #[shownStack #[.ofInt 7]], s.Recordable := by
    intro s hs
    rw [Array.mem_singleton.mp hs]
    refine ⟨show "".utf8ByteSize < 2 ^ 64 by decide, ?_, nofun⟩
    rintro _ ⟨⟩
    exact ⟨show 1 ≤ maxMembers by decide, fun v hv =>
      by rw [Array.mem_singleton.mp hv]; exact hvalue⟩
  obtain ⟨w, hstart, -, hitems, hcut⟩ := reads_prefix (h := plainHeader) rfl
    (show "p".utf8ByteSize < 2 ^ 64 by decide) hsnapshot
  obtain ⟨-, -, -, -, -, hread⟩ := (hcut _ (Nat.le_refl _)).2 1
    (by rw [Sink.bytes, hitems, itemsWithin_flatten]; rfl)
  refine ⟨w, hstart, ?_⟩
  rw [List.take_length, if_pos (by rw [Sink.bytes, hitems]; rfl)] at hread
  exact hread

/-- A record is lost when its snapshot shows more words than the reader takes of an array, although
the writer reports no error. -/
theorem oversized_record_lost : ∃ w s, s = shownStack (Array.replicate 131073 Value.undefined) ∧
    Writer.start {} plainHeader = .ok w ∧ (w.recordAll #[s]).error = none ∧
    readAll (w.recordAll #[s]).sink.bytes =
      .ok { header := plainHeader, records := [], error := some .badRecord } := by
  obtain ⟨s, hs⟩ : ∃ s, s = shownStack (Array.replicate 131073 Value.undefined) := ⟨_, rfl⟩
  obtain ⟨w, hstart, herror, hitems⟩ := Writer.recordAll_fresh plainHeader #[s]
  have hbytes : (w.recordAll #[s]).sink.bytes = plainHeader.toItem.encode ++
      (Record.toItem { number := 1, snapshot := s }).encode := by
    rw [Sink.bytes, hitems]
    simp [itemsOf, numbered]
  have hnext : next (Record.toItem { number := 1, snapshot := s }).encode = .error .badRecord := by
    have hnext := next_oversized (r := { number := 1, snapshot := s }) (congrArg Snapshot.stack hs)
      (by rw [Array.size_replicate]; decide) (by rw [Array.size_replicate]; decide)
      (by rw [hs]; decide) (by rw [hs]; nofun) []
    rwa [List.append_nil] at hnext
  have hread := readHeader_item (h := plainHeader) rfl (show "p".utf8ByteSize < 2 ^ 64 by decide)
    (Record.toItem { number := 1, snapshot := s }).encode
  refine ⟨w, s, hs, hstart, herror, ?_⟩
  rw [hbytes]
  exact readAll_of_yields (p := False) hread (.done _) (Nat.zero_le _) hnext

end PCode.Trace
