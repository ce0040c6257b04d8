import Mathlib.Algebra.BigOperators.Group.Finset.Basic
import Mathlib.Algebra.Order.Ring.Int
import PCode.Profile

/-!
# Exact profiles

A profile is told of instructions, calls and clearings, one after another.  It
keeps counts of opcodes, counts and flags of call targets, and a count of the
hot targets, each updated on its own.  They agree with each other and with the
history: what counts are the events since the last clearing, as long as no
counter wraps.

Main definitions and results:

- `ProfileEvent`, `Profile.after`: histories, and the profile after one.
- `Profile.Agrees`: the invariant that ties the counters to the events that count.
- `Profile.Agrees.recordInstruction`, `Profile.Agrees.recordCall`: one event keeps it.
- `Profile.Ranks.unique`: there is one listing by decreasing count, ties by increasing number.
- `profile_counts_history`: a profile is exact after any history.
-/

namespace PCode

/-- What a profile is told. -/
inductive ProfileEvent where
  | instruction (opcode : UInt8)
  | call (target : Int64)
  | clear
  deriving DecidableEq

namespace ProfileEvent

/-- The opcode of an instruction. -/
def opcode? : ProfileEvent → Option UInt8
  | instruction opcode => some opcode
  | call _ | clear => none

/-- The target of a call. -/
def target? : ProfileEvent → Option Int64
  | call target => some target
  | instruction _ | clear => none

/-- The events after the last clearing. -/
def sinceClear (es : List ProfileEvent) : List ProfileEvent :=
  (es.reverse.takeWhile (· ≠ clear)).reverse

private theorem sinceClear_append_clear (es : List ProfileEvent) :
    sinceClear (es ++ [clear]) = [] := by
  simp [sinceClear]

private theorem sinceClear_append {e : ProfileEvent} (h : e ≠ clear) (es : List ProfileEvent) :
    sinceClear (es ++ [e]) = sinceClear es ++ [e] := by
  simp [sinceClear, h]

private theorem length_sinceClear_le (es : List ProfileEvent) :
    (sinceClear es).length ≤ es.length := by
  have hle := (List.takeWhile_sublist (fun e => decide (e ≠ clear)) (l := es.reverse)).length_le
  rw [List.length_reverse] at hle
  rwa [sinceClear, List.length_reverse]

end ProfileEvent

open ProfileEvent

namespace Profile

/-! ## Histories -/

/-- A profile after one event. -/
def tell (p : Profile) : ProfileEvent → Profile
  | .instruction opcode => p.recordInstruction opcode
  | .call target => (p.recordCall target).2
  | .clear => p.clear

/-- The profile after a history. -/
def after (threshold : Nat) (es : List ProfileEvent) : Profile := es.foldl tell (empty threshold)

private theorem after_append (t : Nat) (es : List ProfileEvent) (e : ProfileEvent) :
    after t (es ++ [e]) = (after t es).tell e := by
  simp [after]

/-- The executed opcodes that count, in order. -/
def executed (es : List ProfileEvent) : List UInt8 := (sinceClear es).filterMap opcode?

/-- The called targets that count, in order. -/
def called (es : List ProfileEvent) : List Int64 := (sinceClear es).filterMap target?

section

variable (es : List ProfileEvent) (opcode : UInt8) (target : Int64)

/-- An instruction is executed last. -/
@[simp] theorem executed_instruction :
    executed (es ++ [.instruction opcode]) = executed es ++ [opcode] := by
  simp [executed, sinceClear_append, opcode?]

/-- A call is no instruction. -/
@[simp] theorem executed_call : executed (es ++ [.call target]) = executed es := by
  simp [executed, sinceClear_append, opcode?]

/-- Nothing counts as executed that came before a clearing. -/
@[simp] theorem executed_clear : executed (es ++ [.clear]) = [] := by
  simp [executed, sinceClear_append_clear]

/-- An instruction is no call. -/
@[simp] theorem called_instruction : called (es ++ [.instruction opcode]) = called es := by
  simp [called, sinceClear_append, target?]

/-- A target is called last. -/
@[simp] theorem called_call : called (es ++ [.call target]) = called es ++ [target] := by
  simp [called, sinceClear_append, target?]

/-- Nothing counts as called that came before a clearing. -/
@[simp] theorem called_clear : called (es ++ [.clear]) = [] := by
  simp [called, sinceClear_append_clear]

end

/-- No counter wraps at any time.  The numbers of instructions and calls that count bound all
others. -/
def NeverWraps (es : List ProfileEvent) : Prop :=
  ∀ before, before <+: es →
    (executed before).length < counterSize ∧ (called before).length < counterSize

private theorem NeverWraps.of_earlier {es before : List ProfileEvent} (h : NeverWraps es)
    (hbefore : before <+: es) : NeverWraps before :=
  fun earlier hearlier => h earlier (hearlier.trans hbefore)

/-- No counter wraps in a short history. -/
theorem neverWraps_of_length {es : List ProfileEvent} (h : es.length < counterSize) :
    NeverWraps es := by
  intro before hearlier
  have hbefore := hearlier.length_le
  have hsince := length_sinceClear_le before
  have hexecuted := List.length_filterMap_le opcode? (sinceClear before)
  have hcalled := List.length_filterMap_le target? (sinceClear before)
  unfold executed called
  omega

/-- The entry of a target, from the called targets. -/
def entry (t : Nat) (targets : List Int64) (a : Int64) : CallCount where
  target := a
  count := targets.count a
  hot := max t 1 ≤ targets.count a

/-- The targets that events make hot, in order, after the events before them. -/
def madeHot (t : Nat) (before : List ProfileEvent) : List ProfileEvent → List Int64
  | [] => []
  | .call a :: rest =>
    if (called before).count a + 1 = max t 1 then a :: madeHot t (before ++ [.call a]) rest
    else madeHot t (before ++ [.call a]) rest
  | e :: rest => madeHot t (before ++ [e]) rest

/-! ## One event -/

/-- A profile agrees with the opcodes and targets that count. -/
structure Agrees (p : Profile) (t : Nat) (ops : List UInt8) (targets : List Int64) : Prop where
  threshold : p.threshold = t
  size : p.opcodes.size = 256
  opcodeCount : ∀ op, p.opcodeCount op = ops.count op
  entries : ∃ listing : List Int64, listing.Nodup ∧ (∀ a, a ∈ listing ↔ a ∈ targets) ∧
    p.calls = (listing.map (entry t targets)).toArray
  hotCount : p.hotCount = p.calls.toList.countP (·.hot)

private theorem agrees_empty (t : Nat) : (empty t).Agrees t [] [] where
  threshold := rfl
  size := by simp [empty]
  opcodeCount op := by simp [empty, Profile.opcodeCount, Array.getD, op.toNat_lt]
  entries := ⟨[], by simp [empty]⟩
  hotCount := rfl

private theorem countOn_eq {n events : Nat} (h : n + events < counterSize) :
    countOn n events = n + events :=
  Nat.mod_eq_of_lt h

section

variable {t : Nat} {targets listing l₁ l₂ : List Int64} {a b : Int64}

private theorem entry_of_ne (h : b ≠ a) : entry t (targets ++ [a]) b = entry t targets b := by
  have hcount : (targets ++ [a]).count b = targets.count b := by
    simp [Ne.symm h]
  simp only [entry, hcount]

private theorem map_entry_append (h : a ∉ listing) :
    listing.map (entry t (targets ++ [a])) = listing.map (entry t targets) :=
  List.map_congr_left fun _ hb => entry_of_ne fun hab => h (hab ▸ hb)

/-- One more call takes an entry to the entry of the longer list. -/
theorem again_entry (hfits : targets.length + 1 < counterSize) :
    CallCount.again t (entry t targets a) = entry t (targets ++ [a]) a := by
  have hle := List.count_le_length (a := a) (l := targets)
  have hcount : countOn (targets.count a) 1 = targets.count a + 1 := countOn_eq (by omega)
  have happend : (targets ++ [a]).count a = targets.count a + 1 := by simp
  simp only [CallCount.again, entry, hcount, happend]
  congr 1
  rw [← Bool.decide_or, decide_eq_decide]
  omega

private theorem find?_listing (a : Int64) :
    (listing.map (entry t targets)).find? (·.target == a) =
      if a ∈ listing then some (entry t targets a) else none := by
  induction listing with
  | nil => rfl
  | cons b listing ih =>
    rw [List.map_cons, List.find?_cons, ih]
    by_cases hb : b = a
    · simp [hb, entry]
    · have hfalse : ((entry t targets b).target == a) = false := beq_false_of_ne hb
      simp only [hfalse, List.mem_cons, Ne.symm hb, false_or]

private theorem findIdx?_listing (h : a ∉ listing) :
    (listing.map (entry t targets)).findIdx? (·.target == a) = none := by
  rw [List.findIdx?_eq_none_iff]
  intro c hc
  obtain ⟨b, hb, rfl⟩ := List.mem_map.mp hc
  exact beq_false_of_ne fun heq => h (heq ▸ hb)

private theorem countP_hot_middle (c : CallCount) (cs₁ cs₂ : List CallCount) :
    (cs₁ ++ c :: cs₂).countP (·.hot) =
      cs₁.countP (·.hot) + cs₂.countP (·.hot) + if c.hot then 1 else 0 := by
  rw [List.countP_append, List.countP_cons, ← Nat.add_assoc]

private theorem hot_entry_of_notMem (h : a ∉ targets) : (entry t targets a).hot = false := by
  simp [entry, List.count_eq_zero.mpr h]

end

namespace Agrees

variable {p : Profile} {t : Nat} {ops : List UInt8} {targets : List Int64}

private theorem clear (h : p.Agrees t ops targets) : p.clear.Agrees t [] [] := by
  have hempty := agrees_empty t
  exact ⟨h.threshold, hempty.size, hempty.opcodeCount, hempty.entries, hempty.hotCount⟩

/-- An instruction is counted. -/
theorem recordInstruction (h : p.Agrees t ops targets) (hfits : ops.length + 1 < counterSize)
    (op : UInt8) : (p.recordInstruction op).Agrees t (ops ++ [op]) targets where
  threshold := h.threshold
  size := by simp [Profile.recordInstruction, h.size]
  opcodeCount x := by
    have hcount := h.opcodeCount x
    have hle := List.count_le_length (a := x) (l := ops)
    have hlt : x.toNat < p.opcodes.size := by
      rw [h.size]
      exact x.toNat_lt
    simp only [Profile.opcodeCount, Array.getD_eq_getD_getElem?, Profile.recordInstruction,
      Array.getElem?_modify, Array.getElem?_eq_getElem hlt] at hcount ⊢
    by_cases hx : op = x
    · subst hx
      simp at hcount
      simp [hcount, countOn_eq (show ops.count op + 1 < counterSize by omega)]
    · have hne : op.toNat ≠ x.toNat := fun heq => hx (UInt8.toNat_inj.mp heq)
      simp at hcount
      simp [hne, hx, hcount]
  entries := h.entries
  hotCount := h.hotCount

private theorem call?_eq (h : p.Agrees t ops targets) (a : Int64) :
    p.call? a = if a ∈ targets then some (entry t targets a) else none := by
  obtain ⟨listing, -, hmem, hcalls⟩ := h.entries
  rw [call?, hcalls, List.find?_toArray, find?_listing]
  simp only [hmem]

private theorem entryOf_eq (h : p.Agrees t ops targets) (a : Int64) :
    entryOf p.calls a = entry t targets a := by
  have hcall := h.call?_eq a
  unfold call? at hcall
  rw [entryOf, hcall]
  by_cases ha : a ∈ targets
  · simp [ha]
  · simp [ha, entry, List.count_eq_zero.mpr ha]

private theorem isHot_eq (h : p.Agrees t ops targets) (a : Int64) :
    p.isHot a = decide (max t 1 ≤ targets.count a) := by
  rw [isHot, h.call?_eq]
  by_cases ha : a ∈ targets
  · simp [ha, entry]
  · simp [ha]

/-- There are no more entries than calls. -/
theorem size_calls_le (h : p.Agrees t ops targets) : p.calls.size ≤ targets.length := by
  obtain ⟨listing, hnodup, hmem, hcalls⟩ := h.entries
  rw [hcalls, List.size_toArray, List.length_map]
  exact (List.subperm_of_subset hnodup fun a ha => (hmem a).mp ha).length_le

private theorem hotCount_le (h : p.Agrees t ops targets) : p.hotCount ≤ targets.length := by
  rw [h.hotCount]
  exact List.countP_le_length.trans h.size_calls_le

/-- A call makes its target hot exactly if it takes the count to the threshold. -/
theorem recordCall_fst (h : p.Agrees t ops targets) (hfits : targets.length + 1 < counterSize)
    (a : Int64) : (p.recordCall a).1 = decide (targets.count a + 1 = max t 1) := by
  have happend : (targets ++ [a]).count a = targets.count a + 1 := by simp
  simp only [Profile.recordCall, h.entryOf_eq, h.threshold, again_entry hfits]
  simp only [entry, happend]
  rw [← decide_not, ← Bool.decide_and, decide_eq_decide]
  omega

/-- The entries after one more call: the entry of its target is replaced, or added at the end. -/
theorem entries_recordCall (h : p.Agrees t ops targets) (hfits : targets.length + 1 < counterSize)
    (a : Int64) :
    ∃ l₁ l₂ : List Int64, (l₁ ++ a :: l₂).Nodup ∧
      (∀ b, b ∈ l₁ ++ a :: l₂ ↔ b ∈ targets ++ [a]) ∧
      (p.recordCall a).2.calls = ((l₁ ++ a :: l₂).map (entry t (targets ++ [a]))).toArray ∧
      (p.calls = ((l₁ ++ a :: l₂).map (entry t targets)).toArray ∨
        a ∉ targets ∧ p.calls = ((l₁ ++ l₂).map (entry t targets)).toArray) := by
  obtain ⟨listing, hnodup, hmem, hcalls⟩ := h.entries
  by_cases ha : a ∈ listing
  · obtain ⟨l₁, l₂, rfl⟩ := List.append_of_mem ha
    have hmid := List.nodup_middle.mp hnodup
    obtain ⟨hnot₁, hnot₂⟩ : a ∉ l₁ ∧ a ∉ l₂ := by simpa using (List.nodup_cons.mp hmid).1
    have hindex : p.calls.findIdx? (·.target == a) = some l₁.length := by
      rw [hcalls, List.findIdx?_toArray, List.map_append, List.findIdx?_append,
        findIdx?_listing hnot₁, List.map_cons, List.findIdx?_cons]
      simp [entry]
    refine ⟨l₁, l₂, hnodup, fun b => ?_, ?_, .inl hcalls⟩
    · rw [hmem, List.mem_append, List.mem_singleton]
      exact ⟨.inl, fun hb => hb.elim id fun heq => heq ▸ (hmem a).mp ha⟩
    · simp only [Profile.recordCall, hindex, h.entryOf_eq, h.threshold, again_entry hfits]
      rw [hcalls, List.map_append, List.map_cons, List.map_append, List.map_cons,
        map_entry_append hnot₁, map_entry_append hnot₂]
      simp
  · have hindex : p.calls.findIdx? (·.target == a) = none := by
      rw [hcalls, List.findIdx?_toArray]
      exact findIdx?_listing ha
    have hnot : a ∉ targets := fun hin => ha ((hmem a).mpr hin)
    refine ⟨listing, [], ?_, fun b => ?_, ?_, .inr ⟨hnot, by rw [List.append_nil]; exact hcalls⟩⟩
    · exact List.nodup_middle.mpr (by simp [ha, hnodup])
    · simp [hmem]
    · simp only [Profile.recordCall, hindex, h.entryOf_eq, h.threshold, again_entry hfits]
      rw [hcalls, List.map_append, map_entry_append ha]
      simp

/-- A call is counted. -/
theorem recordCall (h : p.Agrees t ops targets) (hfits : targets.length + 1 < counterSize)
    (a : Int64) : (p.recordCall a).2.Agrees t ops (targets ++ [a]) where
  threshold := h.threshold
  size := h.size
  opcodeCount := h.opcodeCount
  entries := by
    obtain ⟨l₁, l₂, hnodup, hmem, hcalls, -⟩ := h.entries_recordCall hfits a
    exact ⟨_, hnodup, hmem, hcalls⟩
  hotCount := by
    obtain ⟨l₁, l₂, hnodup, -, hcalls, hbefore⟩ := h.entries_recordCall hfits a
    obtain ⟨hnot₁, hnot₂⟩ : a ∉ l₁ ∧ a ∉ l₂ := by
      simpa using (List.nodup_cons.mp (List.nodup_middle.mp hnodup)).1
    let others := (l₁.map (entry t targets)).countP (·.hot) +
      (l₂.map (entry t targets)).countP (·.hot)
    have hold : p.hotCount = others + if (entry t targets a).hot then 1 else 0 := by
      rw [h.hotCount]
      rcases hbefore with hcalls | ⟨hnot, hcalls⟩
      · rw [hcalls, List.map_append, List.map_cons, countP_hot_middle]
      · rw [hcalls, List.map_append, List.countP_append, hot_entry_of_notMem hnot]
        rfl
    have hnew : (p.recordCall a).2.calls.toList.countP (·.hot) =
        others + if (entry t (targets ++ [a]) a).hot then 1 else 0 := by
      rw [hcalls, List.map_append, List.map_cons, map_entry_append hnot₁, map_entry_append hnot₂,
        countP_hot_middle]
    have hle := h.hotCount_le
    have hstep : (p.recordCall a).2.hotCount =
        if (p.recordCall a).1 then countOn p.hotCount 1 else p.hotCount := rfl
    have happend : (targets ++ [a]).count a = targets.count a + 1 := by simp
    rw [hstep, h.recordCall_fst hfits, hnew, countOn_eq (by omega), hold]
    simp only [entry, happend, decide_eq_true_eq]
    split_ifs <;> omega

end Agrees

/-! ## Whole histories -/

variable {t : Nat} {es : List ProfileEvent}

/-- The counters agree with any history. -/
theorem agrees_after (t : Nat) (h : NeverWraps es) :
    (after t es).Agrees t (executed es) (called es) := by
  induction es using List.reverseRecOn with
  | nil => exact agrees_empty t
  | append_singleton es e ih =>
    have hbefore := ih (h.of_earlier (List.prefix_append ..))
    obtain ⟨hexecuted, hcalled⟩ := h _ (List.prefix_refl _)
    rw [after_append]
    cases e with
    | instruction op =>
      rw [executed_instruction, List.length_append] at hexecuted
      rw [executed_instruction, called_instruction]
      exact hbefore.recordInstruction hexecuted op
    | call a =>
      rw [called_call, List.length_append] at hcalled
      rw [executed_call, called_call]
      exact hbefore.recordCall hcalled a
    | clear =>
      rw [executed_clear, called_clear]
      exact hbefore.clear

/-- A call in a history makes its target hot exactly if it takes the count to the threshold. -/
theorem recordCall_after (t : Nat) (h : NeverWraps es) {before : List ProfileEvent} {a : Int64}
    (hcall : before ++ [.call a] <+: es) :
    ((after t before).recordCall a).1 = decide ((called before).count a + 1 = max t 1) := by
  have hcalled := (h _ hcall).2
  rw [called_call, List.length_append] at hcalled
  have hbefore := h.of_earlier ((List.prefix_append before _).trans hcall)
  exact (agrees_after t hbefore).recordCall_fst hcalled a

private theorem madeHot_append (t : Nat) (before es : List ProfileEvent) (e : ProfileEvent) :
    madeHot t before (es ++ [e]) = madeHot t before es ++ madeHot t (before ++ es) [e] := by
  fun_induction madeHot t before es with
  | case1 before => simp
  | case2 before a rest hhot ih => simp [madeHot, hhot, ih]
  | case3 before a rest hhot ih => simp [madeHot, hhot, ih]
  | case4 before e rest hcall ih => simp [madeHot, ih]

/-- The log lists the calls that made their targets hot. -/
theorem hotLog_after (t : Nat) (h : NeverWraps es) :
    (after t es).hotLog.toList = madeHot t [] es := by
  induction es using List.reverseRecOn with
  | nil => rfl
  | append_singleton es e ih =>
    have hbefore := ih (h.of_earlier (List.prefix_append ..))
    rw [after_append, madeHot_append, ← hbefore]
    cases e with
    | instruction op => simp [madeHot, tell, recordInstruction]
    | call a =>
      have hlog : ((after t es).recordCall a).2.hotLog =
          if ((after t es).recordCall a).1 then (after t es).hotLog.push a
          else (after t es).hotLog := rfl
      rw [tell, hlog, recordCall_after t h (List.prefix_refl _)]
      by_cases hhot : (called es).count a + 1 = max t 1 <;> simp [madeHot, hhot]
    | clear => simp [madeHot, tell, clear]

/-! ## Totals -/

private theorem foldl_countOn {l : List Nat} {n : Nat} (h : n + l.sum < counterSize) :
    l.foldl countOn n = n + l.sum := by
  induction l generalizing n with
  | nil => rfl
  | cons k l ih =>
    rw [List.sum_cons] at h ⊢
    rw [List.foldl_cons, countOn_eq (by omega), ih (by omega)]
    omega

/-- Counts of elements that are listed once add up to the number of all. -/
theorem sum_counts {α : Type} [DecidableEq α] {listing : List α} (hnodup : listing.Nodup)
    (l : List α) (hmem : ∀ a ∈ l, a ∈ listing) : (listing.map (l.count ·)).sum = l.length := by
  have hsubset : ∀ a ∈ (l : Multiset α), a ∈ listing.toFinset := by simpa using hmem
  have hsum := Multiset.sum_count_eq_card hsubset
  rw [List.sum_toFinset _ hnodup] at hsum
  simpa only [Multiset.coe_count, Multiset.coe_card] using hsum

private theorem card_of_listing {α : Type} [DecidableEq α] {listing : List α} {s : Finset α}
    (hnodup : listing.Nodup) (hmem : ∀ a, a ∈ listing ↔ a ∈ s) : listing.length = s.card := by
  rw [← List.toFinset_card_of_nodup hnodup]
  congr 1
  ext a
  rw [List.mem_toFinset, hmem]

/-- All opcode bytes. -/
def opcodeBytes : List UInt8 := (List.range 256).map UInt8.ofNat

private theorem pairwise_opcodeBytes :
    opcodeBytes.Pairwise fun a b => (a.toNat : Int) < b.toNat := by
  rw [opcodeBytes, List.pairwise_map]
  refine List.pairwise_lt_range.imp_of_mem fun {i j} hi hj hlt => ?_
  rw [List.mem_range] at hi hj
  rw [UInt8.toNat_ofNat_of_lt' hi, UInt8.toNat_ofNat_of_lt' hj]
  omega

private theorem nodup_opcodeBytes : opcodeBytes.Nodup :=
  pairwise_opcodeBytes.imp fun hlt heq => by
    rw [heq] at hlt
    exact Int.lt_irrefl _ hlt

private theorem mem_opcodeBytes (op : UInt8) : op ∈ opcodeBytes :=
  List.mem_map.mpr ⟨op.toNat, List.mem_range.mpr op.toNat_lt, UInt8.ofNat_toNat⟩

namespace Agrees

variable {p : Profile} {ops : List UInt8} {targets : List Int64}

private theorem toList_opcodes (h : p.Agrees t ops targets) :
    p.opcodes.toList = opcodeBytes.map (ops.count ·) := by
  refine List.ext_getElem (by simp [h.size, opcodeBytes]) fun i hi hi' => ?_
  have hlt : i < 256 := by simpa [h.size] using hi
  have hcount := h.opcodeCount (UInt8.ofNat i)
  rw [Profile.opcodeCount, UInt8.toNat_ofNat_of_lt' hlt] at hcount
  simp [opcodeBytes, ← hcount, Array.getD, h.size, hlt]

/-- The totals are those of the events that count. -/
theorem totals_eq (h : p.Agrees t ops targets) (hops : ops.length < counterSize)
    (htargets : targets.length < counterSize) :
    p.totals =
      { instructions := ops.length
        distinctOpcodes := ops.toFinset.card
        calls := targets.length
        targets := targets.toFinset.card
        hotTargets := (targets.toFinset.filter fun a => max t 1 ≤ targets.count a).card } := by
  obtain ⟨listing, hnodup, hmem, hcalls⟩ := h.entries
  have hinstructions : p.opcodes.foldl countOn 0 = ops.length := by
    have hsum := sum_counts nodup_opcodeBytes ops fun op _ => mem_opcodeBytes op
    rw [← Array.foldl_toList, h.toList_opcodes, foldl_countOn (by omega), hsum, Nat.zero_add]
  have hdistinct : p.opcodes.countP (0 < ·) = ops.toFinset.card := by
    rw [← Array.countP_toList, h.toList_opcodes, List.countP_map, List.countP_eq_length_filter]
    refine card_of_listing (nodup_opcodeBytes.filter _) fun op => ?_
    simp [mem_opcodeBytes]
  have hsum : p.calls.foldl (fun sum c => countOn sum c.count) 0 = targets.length := by
    have hsum := sum_counts hnodup targets fun a ha => (hmem a).mpr ha
    have hmap : (listing.map (entry t targets)).map (·.count) = listing.map (targets.count ·) := by
      simp [entry]
    rw [hcalls, ← Array.foldl_toList, ← List.foldl_map (f := CallCount.count) (g := countOn), hmap,
      foldl_countOn (by omega), hsum, Nat.zero_add]
  have hsize : p.calls.size = targets.toFinset.card := by
    rw [hcalls, List.size_toArray, List.length_map]
    exact card_of_listing hnodup fun a => by rw [hmem, List.mem_toFinset]
  have hhot : p.hotCount = (targets.toFinset.filter fun a => max t 1 ≤ targets.count a).card := by
    rw [h.hotCount, hcalls, List.countP_map, List.countP_eq_length_filter]
    refine card_of_listing (hnodup.filter _) fun a => ?_
    simp [hmem, entry]
  rw [totals, hinstructions, hdistinct, hsum, hsize, hhot]

end Agrees

/-! ## Rankings -/

section

variable {α β : Type}

/-- One element comes before another: by decreasing count, ties by increasing number. -/
def Leads (index : α → Int) (count : α → Nat) (a b : α) : Prop :=
  count b < count a ∨ count a = count b ∧ index a < index b

/-- A list ranks all elements that were counted. -/
structure Ranks (index : α → Int) (count : α → Nat) (ranking : List α) : Prop where
  mem : ∀ a, a ∈ ranking ↔ count a ≠ 0
  order : ranking.Pairwise (Leads index count)

/-- The first entries of a list are those of the only ranking. -/
def ListsRanking (index : α → Int) (count : α → Nat) (item : α → β) (listed : List β) : Prop :=
  ∃ ranking, Ranks index count ranking ∧ (∀ other, Ranks index count other → other = ranking) ∧
    ∀ n : Int64, 0 ≤ n → top? n listed = some ((ranking.take n.toNatClampNeg).map item)

variable {index : α → Int} {count : α → Nat} {ranking other listing : List α}

private theorem Ranks.nodup (h : Ranks index count ranking) : ranking.Nodup :=
  h.order.imp fun hleads heq => by
    subst heq
    rcases hleads with hlt | ⟨-, hlt⟩ <;> omega

/-- There is only one ranking. -/
theorem Ranks.unique (h : Ranks index count ranking) (h' : Ranks index count other) :
    other = ranking := by
  have hperm : other.Perm ranking :=
    (List.perm_ext_iff_of_nodup h'.nodup h.nodup).mpr fun a => (h'.mem a).trans (h.mem a).symm
  refine List.Perm.eq_of_pairwise (fun a b _ _ hab hba => ?_) h'.order h.order hperm
  rcases hab with hab | ⟨_, hab⟩ <;> rcases hba with hba | ⟨_, hba⟩ <;> omega

private theorem Ranks.listsRanking (h : Ranks index count ranking) (item : α → β) :
    ListsRanking index count item (ranking.map item) := by
  refine ⟨ranking, h, fun _ h' => h.unique h', fun n hn => ?_⟩
  rw [top?, if_neg (by simpa using hn), List.map_take]

/-- Sorting is stable: of two elements that compare equal, the one that came first stays first. -/
theorem pairwise_mergeSort_stable {le : α → α → Bool} {R : α → α → Prop}
    (htrans : ∀ a b c, le a b → le b c → le a c) (htotal : ∀ a b, le a b || le b a)
    (h : listing.Pairwise R) :
    (listing.mergeSort le).Pairwise fun a b => le a b ∧ (le b a → R a b) := by
  rw [List.pairwise_iff_forall_sublist]
  intro a b hsub
  have hle :=
    List.pairwise_iff_forall_sublist.mp (List.pairwise_mergeSort htrans htotal listing) hsub
  refine ⟨hle, fun hge => ?_⟩
  -- the elements that compare equal to `a` are the same list before and after
  let equal : α → Bool := fun x => le a x && le x a
  have hequal : (listing.filter equal).Pairwise (le · ·) := by
    refine List.pairwise_of_forall_mem_list fun x hx y hy => ?_
    have hx := (List.mem_filter.mp hx).2
    have hy := (List.mem_filter.mp hy).2
    simp only [equal, Bool.and_eq_true] at hx hy
    exact htrans x a y hx.2 hy.1
  have hkept : listing.filter equal = (listing.mergeSort le).filter equal := by
    have hsublist := (List.sublist_mergeSort htrans htotal hequal List.filter_sublist).filter equal
    rw [List.filter_filter] at hsublist
    simp only [Bool.and_self] at hsublist
    exact hsublist.eq_of_length ((List.mergeSort_perm listing le).filter equal).length_eq.symm
  have hself : le a a := by simpa using htotal a a
  have hpair : [a, b].filter equal = [a, b] := by simp [equal, hself, hle, hge]
  have hfiltered := hsub.filter equal
  rw [hpair, ← hkept] at hfiltered
  exact List.pairwise_iff_forall_sublist.mp h (hfiltered.trans List.filter_sublist)

/-- Sorting by count alone ranks elements that come in increasing order. -/
theorem ranks_of_increasing (hmem : ∀ a, a ∈ listing ↔ count a ≠ 0)
    (h : listing.Pairwise (index · < index ·)) :
    Ranks index count (listing.mergeSort fun a b => count b ≤ count a) where
  mem a := (List.mergeSort_perm listing _).mem_iff.trans (hmem a)
  order := by
    refine (pairwise_mergeSort_stable ?_ ?_ h).imp ?_
    · intro a b c hab hbc
      rw [decide_eq_true_eq] at *
      omega
    · intro a b
      rw [Bool.or_eq_true, decide_eq_true_eq, decide_eq_true_eq]
      omega
    · intro a b ⟨hab, hba⟩
      rw [decide_eq_true_eq] at *
      rcases Nat.lt_or_eq_of_le hab with hlt | heq
      · exact .inl hlt
      · exact .inr ⟨heq.symm, hba (Nat.le_of_eq heq.symm)⟩

/-- Sorting by count, ties by number, ranks elements in any order. -/
theorem ranks_of_nodup (hindex : Function.Injective index) (hmem : ∀ a, a ∈ listing ↔ count a ≠ 0)
    (h : listing.Nodup) :
    Ranks index count (listing.mergeSort fun a b =>
      count b < count a || (count a == count b && index a ≤ index b)) where
  mem a := (List.mergeSort_perm listing _).mem_iff.trans (hmem a)
  order := by
    refine (pairwise_mergeSort_stable ?_ ?_ h).imp ?_
    · intro a b c hab hbc
      simp only [Bool.or_eq_true, Bool.and_eq_true, decide_eq_true_eq, beq_iff_eq] at *
      omega
    · intro a b
      simp only [Bool.or_eq_true, Bool.and_eq_true, decide_eq_true_eq, beq_iff_eq]
      omega
    · intro a b ⟨hab, hba⟩
      simp only [Bool.or_eq_true, Bool.and_eq_true, decide_eq_true_eq, beq_iff_eq] at *
      refine hab.imp id fun ⟨hcount, hle⟩ => ⟨hcount, lt_of_le_of_ne hle fun heq => ?_⟩
      exact hba (.inr ⟨hcount.symm, le_of_eq heq.symm⟩) (hindex heq)

end

namespace Agrees

variable {p : Profile} {ops : List UInt8} {targets : List Int64}

private theorem rankedOpcodes_eq (h : p.Agrees t ops targets) :
    p.rankedOpcodes =
      ((opcodeBytes.filter (0 < ops.count ·)).mergeSort fun a b => ops.count b ≤ ops.count a).map
        fun op => (op, ops.count op) := by
  have hcounted : (p.opcodes.toList.mapIdx fun index count => (UInt8.ofNat index, count)) =
      opcodeBytes.map fun op => (op, ops.count op) := by
    rw [h.toList_opcodes]
    exact List.ext_getElem (by simp) fun i _ _ => by simp [opcodeBytes]
  rw [rankedOpcodes, hcounted, List.filter_map]
  refine (List.map_mergeSort ?_).symm
  intro a _ b _
  rfl

/-- Opcodes are ranked by decreasing count, ties by increasing opcode. -/
theorem listsRanking_opcodes (h : p.Agrees t ops targets) :
    ListsRanking (fun op : UInt8 => (op.toNat : Int)) (ops.count ·) (fun op => (op, ops.count op))
      p.rankedOpcodes := by
  rw [h.rankedOpcodes_eq]
  refine (ranks_of_increasing (fun op => ?_) (pairwise_opcodeBytes.filter _)).listsRanking _
  rw [List.mem_filter, decide_eq_true_eq]
  exact ⟨fun hop => Nat.pos_iff_ne_zero.mp hop.2,
    fun hop => ⟨mem_opcodeBytes op, Nat.pos_iff_ne_zero.mpr hop⟩⟩

/-- Targets are ranked by decreasing count, ties by increasing target. -/
theorem listsRanking_calls (h : p.Agrees t ops targets) :
    ListsRanking Int64.toInt (targets.count ·) (entry t targets) p.rankedCalls := by
  obtain ⟨listing, hnodup, hmem, hcalls⟩ := h.entries
  have hranked : p.rankedCalls =
      (listing.mergeSort fun a b => targets.count b < targets.count a ||
        (targets.count a == targets.count b && a.toInt ≤ b.toInt)).map (entry t targets) := by
    rw [rankedCalls, hcalls]
    refine (List.map_mergeSort ?_).symm
    intro a _ b _
    have hle : decide (a ≤ b) = decide (a.toInt ≤ b.toInt) :=
      decide_eq_decide.mpr Int64.le_iff_toInt_le
    rw [← hle]
    rfl
  rw [hranked]
  refine (ranks_of_nodup (fun _ _ => Int64.toInt_inj.mp) (fun a => ?_) hnodup).listsRanking _
  rw [hmem, ← List.count_pos_iff, Nat.pos_iff_ne_zero]

end Agrees

/-! ## Exactness -/

/-- A profile is exact: all that can be read from it is what the events since the last clearing
amount to, and its log lists every call of the history that made its target hot. -/
structure Exact (p : Profile) (t : Nat) (es : List ProfileEvent) : Prop where
  opcodeCount : ∀ op, p.opcodeCount op = (executed es).count op
  call : ∀ a, p.call? a = if a ∈ called es then some (entry t (called es) a) else none
  isHot : ∀ a, p.isHot a = decide (max t 1 ≤ (called es).count a)
  hotLog : p.hotLog.toList = madeHot t [] es
  totals : p.totals =
    { instructions := (executed es).length
      distinctOpcodes := (executed es).toFinset.card
      calls := (called es).length
      targets := (called es).toFinset.card
      hotTargets := ((called es).toFinset.filter fun a => max t 1 ≤ (called es).count a).card }
  topOpcodes : ListsRanking (fun op : UInt8 => (op.toNat : Int)) ((executed es).count ·)
    (fun op => (op, (executed es).count op)) p.rankedOpcodes
  topCalls : ListsRanking Int64.toInt ((called es).count ·) (entry t (called es)) p.rankedCalls

end Profile

open Profile

/-- A profile is exact after any history, as long as no counter wraps, and a call is reported to
make its target hot exactly if it is the call that takes its count to the threshold, or to one. -/
theorem profile_counts_history (t : Nat) {es : List ProfileEvent} (h : NeverWraps es) :
    (after t es).Exact t es ∧
    ∀ (before : List ProfileEvent) (a : Int64), before ++ [.call a] <+: es →
      ((after t before).recordCall a).1 = decide ((called before).count a + 1 = max t 1) := by
  have hagrees := agrees_after t h
  obtain ⟨hexecuted, hcalled⟩ := h es (List.prefix_refl es)
  refine ⟨?_, fun before a hcall => recordCall_after t h hcall⟩
  exact
    { opcodeCount := hagrees.opcodeCount
      call := hagrees.call?_eq
      isHot := hagrees.isHot_eq
      hotLog := hotLog_after t h
      totals := hagrees.totals_eq hexecuted hcalled
      topOpcodes := hagrees.listsRanking_opcodes
      topCalls := hagrees.listsRanking_calls }

/-- Calls of three targets, with a clearing after one of them has become hot. -/
def interleavedEvents : List ProfileEvent :=
  [ .call 7, .instruction 3, .call 7, .clear, .call 9, .instruction 5, .call 7, .instruction 3
  , .call 9, .call 7, .call 2, .instruction 5 ]

/-- A target that is cleared between its calls becomes hot again. -/
theorem profile_counts_history_interleaved :
    NeverWraps interleavedEvents ∧ (after 2 interleavedEvents).Exact 2 interleavedEvents ∧
    (after 2 interleavedEvents).hotLog.toList = [7, 9, 7] ∧
    ((after 2 (interleavedEvents.take 9)).recordCall 7).1 = true := by
  have hnever : NeverWraps interleavedEvents := neverWraps_of_length (by decide)
  obtain ⟨hexact, hreports⟩ := profile_counts_history 2 hnever
  refine ⟨hnever, hexact, hexact.hotLog.trans (by decide), ?_⟩
  exact (hreports (interleavedEvents.take 9) 7 ⟨interleavedEvents.drop 10, rfl⟩).trans (by decide)

end PCode
