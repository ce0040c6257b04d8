import PCode.Proofs.Cbor.RoundTrip

/-!
# Truncated items

A reader that finds an item does not look at the bytes after it: from longer bytes
it reads the same item and leaves the additional bytes over.  So no item that is cut
short can be read, since it would then be read in the same way when it is whole.

Main results: `Cbor.read?_incremental` and `Cbor.read?_truncated`.
-/

namespace PCode.Cbor

/-- Reads the same from longer bytes, and leaves over what was added. -/
def Incremental {α : Type} (read : Bytes → Option (α × Bytes)) : Prop :=
  ∀ ⦃bytes rest : Bytes⦄ ⦃a : α⦄, read bytes = some (a, rest) →
    ∀ more, read (bytes ++ more) = some (a, rest ++ more)

private theorem Incremental.map {α β : Type} {read : Bytes → Option (α × Bytes)}
    (hread : Incremental read)
    (f : α → β) : Incremental fun bytes => (read bytes).map fun (a, rest) => (f a, rest) := by
  intro bytes rest b h more
  obtain ⟨⟨a, left⟩, ha, hb⟩ := Option.map_eq_some_iff.mp h
  obtain ⟨rfl, rfl⟩ := Prod.mk.inj hb
  simp only [hread ha more, Option.map_some]

/-! ## Heads and strings -/

private theorem split?_incremental (count : Nat) : Incremental (split? count) := by
  intro bytes rest taken h more
  simp only [split?, List.length_take, Option.ite_none_right_eq_some, Option.some.injEq,
    Prod.mk.injEq] at h
  obtain ⟨hcount, rfl, rfl⟩ := h
  have hle : count ≤ bytes.length := by omega
  simp [split?, List.take_append_of_le_length hle, List.drop_append_of_le_length hle, hle]

private theorem readHead?_incremental : Incremental readHead? := by
  intro bytes rest h hread more
  cases bytes with
  | nil => cases hread
  | cons first bytes =>
    simp only [readHead?, List.cons_append] at hread ⊢
    split at hread
    · -- the argument is in the first byte
      rename_i hnarrow
      obtain ⟨rfl, rfl⟩ := Prod.mk.inj (Option.some.inj hread)
      rw [if_pos hnarrow]
    rename_i hnarrow
    rw [if_neg hnarrow]
    split at hread
    · -- the argument is in the bytes after it
      rename_i hwide
      rw [if_pos hwide]
      split at hread
      · cases hread
      rename_i argument left hsplit
      rw [split?_incremental _ hsplit more]
      simp only
      split at hread
      · cases hread
      · rename_i hsimple
        obtain ⟨rfl, rfl⟩ := Prod.mk.inj (Option.some.inj hread)
        rw [if_neg hsimple]
    rename_i hwide
    rw [if_neg hwide]
    split at hread
    · rename_i hindefinite
      obtain ⟨rfl, rfl⟩ := Prod.mk.inj (Option.some.inj hread)
      rw [if_pos hindefinite]
    · cases hread

private theorem head?_append_of_readHead? {bytes rest : Bytes} {h : Head}
    (hread : readHead? bytes = some (h, rest)) (more : Bytes) :
    (bytes ++ more).head? = bytes.head? := by
  cases bytes with
  | nil => cases hread
  | cons first bytes => rfl

/-- More bytes give more steps, of which no more are needed. -/
theorem readChunks?_append {major fuel fuel' : Nat} (hfuel : fuel ≤ fuel') {bytes rest : Bytes}
    {chunks : List Bytes} (h : readChunks? major fuel bytes = some (chunks, rest)) (more : Bytes) :
    readChunks? major fuel' (bytes ++ more) = some (chunks, rest ++ more) := by
  induction fuel generalizing fuel' bytes rest chunks with
  | zero => cases h
  | succ fuel ih =>
    obtain ⟨fuel', rfl⟩ : ∃ k, fuel' = k + 1 := ⟨fuel' - 1, by omega⟩
    rw [readChunks?] at h ⊢
    split at h
    · rename_i hbreak
      obtain ⟨bytes, rfl⟩ := List.head?_eq_some_iff.mp hbreak
      obtain ⟨rfl, rfl⟩ := Prod.mk.inj (Option.some.inj h)
      simp
    rename_i hbreak
    split at h
    · cases h
    rename_i head left hhead
    rw [head?_append_of_readHead? hhead, if_neg hbreak, readHead?_incremental hhead more]
    simp only
    split at h
    · rename_i hmajor
      rw [if_pos hmajor]
      split at h
      · cases h
      rename_i chunk left' hsplit
      rw [split?_incremental _ hsplit more]
      simp only
      split at h
      · cases h
      rename_i chunks' left'' hchunks
      rw [ih (by omega) hchunks]
      obtain ⟨rfl, rfl⟩ := Prod.mk.inj (Option.some.inj h)
      rfl
    · cases h

private theorem readString?_incremental (h : Head) : Incremental (readString? h) := by
  intro bytes rest chunks hread more
  rw [readString?] at hread ⊢
  split at hread
  · rename_i hindefinite
    rw [if_pos hindefinite]
    exact readChunks?_append (by simp) hread more
  · rename_i hindefinite
    rw [if_neg hindefinite]
    exact (split?_incremental h.argument).map (fun content => [content]) hread more

/-! ## Members -/

variable {member : Bytes → Option (Item × Bytes)}

private theorem readMany?_incremental (hmember : Incremental member) (count : Nat)
    (sofar : List Item) :
    Incremental (readMany? member count sofar) := by
  induction count generalizing sofar with
  | zero =>
    intro bytes rest items h more
    obtain ⟨rfl, rfl⟩ := Prod.mk.inj (Option.some.inj h)
    rfl
  | succ count ih =>
    intro bytes rest items h more
    rw [readMany?] at h ⊢
    split at h
    · cases h
    rename_i item left hitem
    rw [hmember hitem more]
    exact ih (item :: sofar) h more

private theorem readToBreak?_append (hmember : Incremental member) (hnil : member [] = none)
    {fuel fuel' : Nat} (hfuel : fuel ≤ fuel') {sofar items : List Item} {bytes rest : Bytes}
    (h : readToBreak? member fuel sofar bytes = some (items, rest)) (more : Bytes) :
    readToBreak? member fuel' sofar (bytes ++ more) = some (items, rest ++ more) := by
  induction fuel generalizing fuel' sofar bytes with
  | zero => cases h
  | succ fuel ih =>
    obtain ⟨fuel', rfl⟩ : ∃ k, fuel' = k + 1 := ⟨fuel' - 1, by omega⟩
    rw [readToBreak?] at h ⊢
    split at h
    · rename_i hbreak
      obtain ⟨bytes, rfl⟩ := List.head?_eq_some_iff.mp hbreak
      obtain ⟨rfl, rfl⟩ := Prod.mk.inj (Option.some.inj h)
      simp
    rename_i hbreak
    split at h
    · cases h
    rename_i item left hitem
    have hhead : (bytes ++ more).head? = bytes.head? := by
      cases bytes with
      | nil => rw [hnil] at hitem; cases hitem
      | cons first bytes => rfl
    rw [hhead, if_neg hbreak, hmember hitem more]
    exact ih (by omega) h

private theorem readMembers?_incremental (hmember : Incremental member) (hnil : member [] = none)
    (group : Nat) (h : Head) : Incremental (readMembers? member group h) := by
  intro bytes rest items hread more
  rw [readMembers?] at hread ⊢
  split at hread
  · rename_i hindefinite
    rw [if_pos hindefinite]
    split at hread
    · cases hread
    rename_i items' left hitems
    rw [readToBreak?_append hmember hnil (by simp) hitems more]
    simp only
    split at hread
    · rename_i hcount
      obtain ⟨rfl, rfl⟩ := Prod.mk.inj (Option.some.inj hread)
      rw [if_pos hcount]
    · cases hread
  · rename_i hindefinite
    rw [if_neg hindefinite]
    split at hread
    · rename_i hcount
      rw [if_pos hcount]
      exact readMany?_incremental hmember _ _ hread more
    · cases hread

/-! ## Items -/

private theorem readTags?_append {fuel depth depth' : Nat} {bytes rest : Bytes} {tags : List UInt64}
    (h : readTags? fuel depth bytes = some (tags, depth', rest)) (more : Bytes) :
    readTags? fuel depth (bytes ++ more) = some (tags, depth', rest ++ more) := by
  induction fuel generalizing depth bytes tags with
  | zero => cases h
  | succ fuel ih =>
    rw [readTags?] at h ⊢
    split at h
    · cases h
    rename_i head left hhead
    rw [readHead?_incremental hhead more]
    simp only
    split at h
    · rename_i htag
      rw [if_pos htag]
      split at h
      · rename_i hdepth
        rw [if_pos hdepth]
        obtain ⟨⟨tags', found⟩, htags, hfound⟩ := Option.map_eq_some_iff.mp h
        obtain ⟨rfl, rfl⟩ := Prod.mk.inj hfound
        rw [ih htags, Option.map_some]
      · cases h
    · rename_i htag
      rw [if_neg htag]
      obtain ⟨rfl, hfound⟩ := Prod.mk.inj (Option.some.inj h)
      obtain ⟨rfl, rfl⟩ := Prod.mk.inj hfound
      rfl

private theorem readBody?_incremental (hmember : Incremental member) (hnil : member [] = none)
    (depth : Nat) (h : Head) : Incremental (readBody? member depth h) := by
  intro bytes rest item hread more
  rw [readBody?] at hread ⊢
  split at hread
  · obtain ⟨rfl, rfl⟩ := Prod.mk.inj (Option.some.inj hread)
    rfl
  · obtain ⟨rfl, rfl⟩ := Prod.mk.inj (Option.some.inj hread)
    rfl
  · exact (readString?_incremental h).map (fun chunks => Item.bytes chunks.flatten) hread more
  · exact (readString?_incremental h).map textOfChunks hread more
  · split at hread
    · rename_i hdepth
      rw [if_pos hdepth]
      exact (readMembers?_incremental hmember hnil 1 h).map Item.array hread more
    · cases hread
  · split at hread
    · rename_i hdepth
      rw [if_pos hdepth]
      exact (readMembers?_incremental hmember hnil 2 h).map (fun items => Item.map (pairs items))
        hread more
    · cases hread
  · obtain ⟨rfl, rfl⟩ := Prod.mk.inj (Option.some.inj hread)
    rfl
  · cases hread

private theorem readItem?_nil (height depth : Nat) : readItem? height depth [] = none := by
  cases height <;> rfl

private theorem readItem?_incremental (height depth : Nat) :
    Incremental (readItem? height depth) := by
  induction height generalizing depth with
  | zero =>
    intro bytes rest item h
    cases h
  | succ height ih =>
    intro bytes rest item hread more
    rw [readItem?] at hread ⊢
    split at hread
    · cases hread
    rename_i h left hhead
    rw [readHead?_incremental hhead more]
    simp only
    split at hread
    · rename_i htag
      rw [if_pos htag]
      split at hread
      · cases hread
      rename_i tags depth' left' htags
      rw [readTags?_append htags more]
      simp only
      split at hread
      · cases hread
      rename_i inner left'' hinner
      rw [readHead?_incremental hinner more]
      exact (readBody?_incremental (ih (depth' + 1)) (readItem?_nil _ _) depth' inner).map
        (withTags (UInt64.ofNat h.argument :: tags)) hread more
    · rename_i htag
      rw [if_neg htag]
      exact readBody?_incremental (ih (depth + 1)) (readItem?_nil _ _) depth h hread more

/-- From longer bytes the same item is read. -/
theorem read?_incremental : Incremental read? := readItem?_incremental _ _

/-- An item that is cut short is not read. -/
theorem read?_truncated {item : Item} (hfits : item.Fits maxDepth) {bytes missing : Bytes}
    (hwhole : bytes ++ missing = item.encode) (hmissing : missing ≠ []) : read? bytes = none := by
  rcases hread : read? bytes with _ | ⟨found, rest⟩
  · rfl
  · have hlonger := read?_incremental hread missing
    have hback := read?_encode hfits []
    rw [List.append_nil, ← hwhole, hlonger] at hback
    have hrest : rest ++ missing = [] := congrArg Prod.snd (Option.some.inj hback)
    exact absurd (List.append_eq_nil_iff.mp hrest).2 hmissing

end PCode.Cbor
