import PCode.Proofs.Codegen.Linking

/-!
# What has been generated

A ledger is the account of a generation: the items emitted so far, one for each
instruction, the typed constants, the entry addresses given to symbols and the
blocks of the subprograms that are finished.  A generation realizes a ledger
when each item stands in its image.  Until a subprogram is finished its exit
jumps are open, and until a subprogram is entered so are the calls that wait for
it; the generation then remembers their addresses.

Main definitions:

- `Block`: the code of a finished subprogram.
- `Ledger.Realizes`: the image of a generation holds what the ledger lists.
-/

namespace PCode

/-! ## Blocks -/

/-- The code of a finished subprogram: where it starts, and where its typed constants lie. -/
structure Block where
  header : SubprogramHeader
  entry : Nat
  typed : Nat
  deriving Inhabited

namespace Block

/-- The items of a block. -/
def code (b : Block) : List Item := b.header.code b.typed

/-- The address of the body of a block. -/
def body (b : Block) : Nat := b.entry + (b.header.prologue b.typed).length

/-- The address of the return instruction of a block. -/
def exit (b : Block) : Nat := b.body + (Gen.stmtsCode b.header.body).length

/-- The last item of a block is its return. -/
theorem exit_eq (b : Block) : b.exit + 1 = b.entry + b.code.length := by
  simp only [exit, body, code, SubprogramHeader.code, List.length_append, List.length_cons,
    List.length_nil]
  omega

/-- A block ends behind its entry. -/
theorem entry_le_exit (b : Block) : b.entry ≤ b.exit := by
  unfold exit body
  omega

end Block

/-! ## Ledgers -/

/-- The account of a generation. -/
structure Ledger where
  natives : Registry
  items : List Item := []
  typed : List Value := []
  /-- the numbers of entered symbols, with their entry addresses -/
  entered : List (Nat × Nat) := []
  blocks : List Block := []
  /-- the end of the finished blocks -/
  start : Nat := 0

namespace Ledger

/-- Add items. -/
def add (l : Ledger) (items : List Item) : Ledger := { l with items := l.items ++ items }

/-- Adding no items changes nothing. -/
@[simp]
theorem add_nil (l : Ledger) : l.add [] = l := by
  simp [add]

/-- Items can be added in parts. -/
@[simp]
theorem add_add (l : Ledger) (is js : List Item) : (l.add is).add js = l.add (is ++ js) := by
  simp [add]

/-- Items are added at the end. -/
@[simp]
theorem add_items (l : Ledger) (is : List Item) : (l.add is).items = l.items ++ is :=
  rfl

/-- Adding items adds no block. -/
@[simp]
theorem add_blocks (l : Ledger) (is : List Item) : (l.add is).blocks = l.blocks :=
  rfl

/-- Adding items enters no subprogram. -/
@[simp]
theorem add_entered (l : Ledger) (is : List Item) : (l.add is).entered = l.entered :=
  rfl

/-- Adding items adds no words of typed constants. -/
@[simp]
theorem add_typed (l : Ledger) (is : List Item) : (l.add is).typed = l.typed :=
  rfl

/-- The targets that a generation allows: those of a finished block or an entered symbol, and any
as long as the address is still remembered. -/
def linking (l : Ledger) (g : Generation) : Linking where
  constants := g.image.constants
  leaves a t := a ∈ g.exits.flatten ∨ ∃ b ∈ l.blocks, b.entry ≤ a ∧ a ≤ b.exit ∧ t = b.exit
  calls id a t := (∃ p ∈ g.pending, p.symbol.id = id ∧ a ∈ p.addresses) ∨ (id, t) ∈ l.entered

/-- The image of a generation holds what the ledger lists. -/
structure Realizes (l : Ledger) (g : Generation) : Prop where
  natives : g.image.natives = l.natives
  size : g.image.code.size = l.items.length
  stands : ∀ a (it : Item), l.items[a]? = some it →
    ∃ w, g.image.code[a]? = some w ∧ it.Stands (l.linking g) a w
  start : l.start ≤ l.items.length
  exits : ∀ a ∈ g.exits.flatten, l.items[a]? = some .leave ∧ l.start ≤ a
  pending : ∀ p ∈ g.pending, ∀ a ∈ p.addresses, ∃ words sym,
    l.items[a]? = some (.call words sym) ∧ sym.id = p.symbol.id
  entries : ∀ id t, g.entries.lookup id = some t → (id, t) ∈ l.entered
  entered : ∀ id t, (id, t) ∈ l.entered → t ≤ l.items.length
  typed : g.image.typedConstants.toList = l.typed
  pool : g.image.constants.size ≤ g.image.code.size
  requested : g.image.constants = poolOf l.items

/-- Added items leave the earlier ones at their addresses. -/
theorem getElem?_add {l : Ledger} {items : List Item} {a : Nat} {it : Item}
    (h : l.items[a]? = some it) : (l.add items).items[a]? = some it := by
  have ha : a < l.items.length := (List.getElem?_eq_some_iff.mp h).1
  rw [add_items, List.getElem?_append_left ha, h]

/-- Added items leave the open jumps at their addresses. -/
theorem Realizes.exits_add {l : Ledger} {g : Generation} (h : l.Realizes g) (items : List Item)
    {a : Nat} (ha : a ∈ g.exits.flatten) :
    (l.add items).items[a]? = some .leave ∧ l.start ≤ a :=
  ⟨getElem?_add (h.exits a ha).1, (h.exits a ha).2⟩

/-- Added items leave the calls that wait at their addresses. -/
theorem Realizes.pending_add {l : Ledger} {g : Generation} (h : l.Realizes g) (items : List Item)
    {p : PendingCalls} (hp : p ∈ g.pending) {a : Nat} (ha : a ∈ p.addresses) :
    ∃ words sym, (l.add items).items[a]? = some (.call words sym) ∧ sym.id = p.symbol.id := by
  obtain ⟨words, sym, hit, hid⟩ := h.pending p hp a ha
  exact ⟨words, sym, getElem?_add hit, hid⟩

/-- A ledger stays realized when one instruction is appended together with its item.  What the
generation remembers may grow by the new address. -/
theorem Realizes.push {l : Ledger} {g g' : Generation} {it : Item} {w : Word}
    (h : l.Realizes g) (hcode : g'.image.code = g.image.code.push w)
    (hnatives : g'.image.natives = g.image.natives)
    (htyped : g'.image.typedConstants = g.image.typedConstants)
    (hpool : g'.image.constants.size ≤ g.image.code.size + 1)
    (hrequested : g'.image.constants = it.pool g.image.constants)
    (hentries : g'.entries = g.entries)
    (hle : (l.linking g).Le ((l.add [it]).linking g'))
    (hit : it.Stands ((l.add [it]).linking g') l.items.length w)
    (hexits : ∀ a ∈ g'.exits.flatten, (l.add [it]).items[a]? = some .leave ∧ l.start ≤ a)
    (hpending : ∀ p ∈ g'.pending, ∀ a ∈ p.addresses, ∃ words sym,
      (l.add [it]).items[a]? = some (.call words sym) ∧ sym.id = p.symbol.id) :
    (l.add [it]).Realizes g' where
  natives := by rw [hnatives, h.natives]; rfl
  size := by simp [hcode, h.size]
  stands := by
    intro a it' ha
    by_cases hlt : a < l.items.length
    · rw [add_items, List.getElem?_append_left hlt] at ha
      obtain ⟨w', hw', hst⟩ := h.stands a it' ha
      refine ⟨w', ?_, hst.mono hle⟩
      rw [hcode, Array.getElem?_push_lt (by rw [h.size]; exact hlt), ← hw',
        Array.getElem?_eq_getElem (by rw [h.size]; exact hlt)]
    · have hlen := (List.getElem?_eq_some_iff.mp ha).1
      simp only [add_items, List.length_append, List.length_cons, List.length_nil] at hlen
      obtain rfl : a = l.items.length := by omega
      simp only [add_items, List.getElem?_concat_length, Option.some.injEq] at ha
      subst ha
      exact ⟨w, by rw [hcode, ← h.size, Array.getElem?_push_size], hit⟩
  start := Nat.le_trans h.start (by simp)
  exits := hexits
  pending := hpending
  entries := by
    intro id t ht
    rw [hentries] at ht
    exact h.entries id t ht
  entered := by
    intro id t ht
    have := h.entered id t ht
    simp only [add_items, List.length_append]
    omega
  typed := by rw [htyped, h.typed]; rfl
  pool := by simpa [hcode] using hpool
  requested := by rw [hrequested, h.requested, add_items, poolOf_concat]

/-- The same for an instruction that requests no constant. -/
theorem Realizes.push_sameData {l : Ledger} {g g' : Generation} {it : Item} {w : Word}
    (h : l.Realizes g) (hcode : g'.image.code = g.image.code.push w)
    (hdata : Image.SameData g.image g'.image) (hpool : ∀ constants, it.pool constants = constants)
    (hentries : g'.entries = g.entries)
    (hopen : ∀ a ∈ g.exits.flatten, a ∈ g'.exits.flatten)
    (hwaiting : ∀ p ∈ g.pending, ∀ a ∈ p.addresses,
      ∃ q ∈ g'.pending, q.symbol.id = p.symbol.id ∧ a ∈ q.addresses)
    (hit : it.Stands ((l.add [it]).linking g') l.items.length w)
    (hexits : ∀ a ∈ g'.exits.flatten, (l.add [it]).items[a]? = some .leave ∧ l.start ≤ a)
    (hpending : ∀ p ∈ g'.pending, ∀ a ∈ p.addresses, ∃ words sym,
      (l.add [it]).items[a]? = some (.call words sym) ∧ sym.id = p.symbol.id) :
    (l.add [it]).Realizes g' := by
  refine h.push hcode hdata.natives hdata.typedConstants ?_ (hdata.constants.trans (hpool _).symm)
    hentries ⟨?_, ?_, ?_⟩ hit hexits hpending
  · rw [hdata.constants]
    exact Nat.le_succ_of_le h.pool
  · intro v i hv
    change poolIndex? g'.image.constants v = some i
    rw [hdata.constants]
    exact hv
  · rintro a t (ha | hblock)
    · exact .inl (hopen a ha)
    · exact .inr hblock
  · rintro id a t (⟨p, hp, hid, ha⟩ | hentered)
    · obtain ⟨q, hq, hqid, hqa⟩ := hwaiting p hp a ha
      exact .inl ⟨q, hq, hqid.trans hid, hqa⟩
    · exact .inr hentered

/-- Replace an item. -/
def set (l : Ledger) (a : Nat) (it : Item) : Ledger := { l with items := l.items.set a it }

/-- A ledger stays realized when one instruction is replaced together with its item.  Only an
item that the generation does not remember may change. -/
theorem Realizes.set {l : Ledger} {g : Generation} {a : Nat} {it it' : Item} {w : Word}
    (h : l.Realizes g) (hold : l.items[a]? = some it) (hnew : it'.Stands (l.linking g) a w)
    (hkeep : it = it' ∨ it ≠ .leave ∧ ∀ words sym, it ≠ .call words sym)
    (hpool : ∀ constants, it.pool constants = constants)
    (hpool' : ∀ constants, it'.pool constants = constants) :
    (l.set a it').Realizes
      { g with image := { g.image with code := g.image.code.setIfInBounds a w } } := by
  have hother : ∀ b it₁, l.items[b]? = some it₁ → b ≠ a → (l.set a it').items[b]? = some it₁ := by
    intro b it₁ hb hne
    rw [Ledger.set, List.getElem?_set_ne (Ne.symm hne), hb]
  have hlt : a < l.items.length := (List.getElem?_eq_some_iff.mp hold).1
  -- An item that is remembered is not replaced by another.
  have hsame : ∀ (b : Nat) (it₁ : Item), l.items[b]? = some it₁ →
      (it₁ = .leave ∨ ∃ words sym, it₁ = .call words sym) →
      (l.set a it').items[b]? = some it₁ := by
    intro b it₁ hb hkind
    by_cases hba : b = a
    · subst hba
      obtain rfl : it = it₁ := Option.some.inj (hold.symm.trans hb)
      rcases hkeep with rfl | ⟨hleave, hcall⟩
      · rw [Ledger.set, List.getElem?_set_self hlt]
      · rcases hkind with rfl | ⟨words, sym, rfl⟩
        · exact absurd rfl hleave
        · exact absurd rfl (hcall words sym)
    · exact hother b it₁ hb hba
  constructor
  · exact h.natives
  · simpa [Ledger.set] using h.size
  · intro b it₁ hb
    by_cases hba : b = a
    · subst hba
      rw [Ledger.set, List.getElem?_set_self hlt] at hb
      obtain rfl := Option.some.inj hb
      exact ⟨w, Array.getElem?_setIfInBounds_self_of_lt (by rw [h.size]; exact hlt), hnew⟩
    · rw [Ledger.set, List.getElem?_set_ne (Ne.symm hba)] at hb
      obtain ⟨w₁, hw₁, hst⟩ := h.stands b it₁ hb
      exact ⟨w₁, by rw [← hw₁]; exact Array.getElem?_setIfInBounds_ne (Ne.symm hba), hst⟩
  · simpa [Ledger.set] using h.start
  · intro b hb
    obtain ⟨hit, hstart⟩ := h.exits b hb
    exact ⟨hsame b _ hit (.inl rfl), hstart⟩
  · intro p hp b hb
    obtain ⟨words, sym, hit, hid⟩ := h.pending p hp b hb
    exact ⟨words, sym, hsame b _ hit (.inr ⟨words, sym, rfl⟩), hid⟩
  · exact h.entries
  · intro id t ht
    simpa [Ledger.set] using h.entered id t ht
  · exact h.typed
  · simpa using h.pool
  · exact h.requested.trans (poolOf_set hold hpool hpool').symm

end Ledger

end PCode
