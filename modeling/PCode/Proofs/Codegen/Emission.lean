import PCode.Proofs.Codegen.Ledger

/-!
# Emission

What the steps of a walk add to the ledger.  A walk that ends without errors had
none before, so every part of it kept the image in step with the ledger; the
statements here are about such walks.

Main definitions and results:

- `Gen.Emits`: a part of a walk adds a list of items.
- `Gen.Emits.bind`: parts one after another add their items one after another.
- `Gen.emits_put`, `Gen.emits_putConstant`: the instructions that are emitted.
- `Gen.patch_spec`: a patched jump becomes an item of its own.
-/

namespace PCode

/-! ## Walks without errors -/

/-- No error has been recorded, and every address fits in a word. -/
def Generation.Clean (g : Generation) : Prop := g.errors = #[] ∧ g.image.code.size < 2 ^ 63

namespace Gen

/-- Two parts of a walk succeed one after the other. -/
theorem bind_ok {α β : Type} {x : Gen α} {f : α → Gen β} {g g' : Generation} {b : β}
    (h : (x >>= f) g = .ok b g') : ∃ a g₁, x g = .ok a g₁ ∧ f a g₁ = .ok b g' := by
  simp only [bind, EStateM.bind] at h
  cases hx : x g with
  | ok a g₁ => exact ⟨a, g₁, rfl, by simpa [hx] using h⟩
  | error e g₁ => simp [hx] at h

/-- Returning a value changes nothing. -/
theorem pure_ok {α : Type} {a b : α} {g g' : Generation}
    (h : (pure a : Gen α) g = .ok b g') : b = a ∧ g' = g := by
  obtain ⟨rfl, rfl⟩ := EStateM.Result.ok.inj h
  exact ⟨rfl, rfl⟩

/-- After a report the walk has errors. -/
theorem report_not_clean {pos : Pos} {fault : CompileFault} {g g' : Generation} {u : Unit}
    (h : report pos fault g = .ok u g') : ¬ g'.Clean := by
  intro hc
  unfold report at h
  obtain ⟨-, rfl⟩ := EStateM.Result.ok.inj h
  simpa using hc.1

/-- A walk that breaks off does not succeed. -/
theorem throw_ne_ok {α : Type} {g g' : Generation} {a : α} :
    (throw ⟨⟩ : Gen α) g ≠ .ok a g' := by
  intro h
  cases h

/-- What is done to the image without an error succeeds. -/
theorem onImage_ok {α : Type} {pos : Pos} {x : Image.Build α} {g g' : Generation} {r : Option α}
    (h : onImage pos x g = .ok r g') (hc : g'.Clean) :
    g.errors = #[] ∧ ∃ a im, r = some a ∧ x g.image = .ok a im ∧ g' = { g with image := im } := by
  unfold onImage at h
  cases hx : x g.image with
  | ok a im =>
    simp only [hx] at h
    obtain ⟨rfl, rfl⟩ := EStateM.Result.ok.inj h
    exact ⟨hc.1, a, im, rfl, rfl, rfl⟩
  | error e im =>
    simp only [hx] at h
    obtain ⟨-, rfl⟩ := EStateM.Result.ok.inj h
    have := hc.1
    simp at this

/-- The type of an expression is known where it is needed. -/
theorem typeOf_ok {e : Expr} {g g' : Generation} {t : Ty} (h : typeOf e g = .ok t g') :
    e.type? = some t ∧ g' = g := by
  unfold typeOf at h
  cases ht : e.type? with
  | some t' =>
    simp only [ht] at h
    obtain ⟨rfl, rfl⟩ := pure_ok h
    exact ⟨rfl, rfl⟩
  | none =>
    simp only [ht] at h
    exact absurd h throw_ne_ok

/-- Inside a subprogram, a generation grows by a list of items.  The exit jumps of the subprograms
around stay as they are. -/
structure Grows (g : Generation) (items : List Item) (g' : Generation) : Prop where
  clean : g.Clean
  size : g'.image.code.size = g.image.code.size + items.length
  exits : ∀ own outer, g.exits = own :: outer → ∃ own', g'.exits = own' :: outer
  realizes : ∀ l : Ledger, g.exits ≠ [] → l.Realizes g → (l.add items).Realizes g'

private theorem Grows.refl {g : Generation} (hc : g.Clean) : Grows g [] g where
  clean := hc
  size := rfl
  exits own _ hg := ⟨own, hg⟩
  realizes l _ hl := by simpa using hl

/-- What two parts of a walk add is added one after the other. -/
theorem Grows.trans {g₀ g₁ g₂ : Generation} {is js : List Item} (h₁ : Grows g₀ is g₁)
    (h₂ : Grows g₁ js g₂) : Grows g₀ (is ++ js) g₂ where
  clean := h₁.clean
  size := by rw [h₂.size, h₁.size, List.length_append, Nat.add_assoc]
  exits own outer hg := by
    obtain ⟨own₁, hg₁⟩ := h₁.exits own outer hg
    exact h₂.exits own₁ outer hg₁
  realizes l hne hl := by
    have hne₁ : g₁.exits ≠ [] := by
      obtain ⟨own, outer, hg⟩ := List.exists_cons_of_ne_nil hne
      obtain ⟨own₁, hg₁⟩ := h₁.exits own outer hg
      simp [hg₁]
    rw [← Ledger.add_add]
    exact h₂.realizes _ hne₁ (h₁.realizes l hne hl)

/-- An item is added before others. -/
theorem Grows.cons {g₀ g₁ g₂ : Generation} {it : Item} {items : List Item}
    (h₁ : Grows g₀ [it] g₁) (h₂ : Grows g₁ items g₂) : Grows g₀ (it :: items) g₂ :=
  h₁.trans h₂

/-- A part of a walk adds a list of items. -/
def Emits {α : Type} (x : Gen α) (items : List Item) : Prop :=
  ∀ g a g', x g = .ok a g' → g'.Clean → Grows g items g'

/-- Two parts of a walk emit their items one after the other. -/
theorem Emits.bind {α β : Type} {x : Gen α} {f : α → Gen β} {is js : List Item}
    (hx : Emits x is) (hf : ∀ a, Emits (f a) js) : Emits (x >>= f) (is ++ js) := by
  intro g b g' h hc
  obtain ⟨a, g₁, h₁, h₂⟩ := bind_ok h
  have k₂ := hf a g₁ b g' h₂ hc
  exact (hx g a g₁ h₁ k₂.clean).trans k₂

/-- Returning a value emits nothing. -/
theorem emits_pure {α : Type} (a : α) : Emits (pure a : Gen α) [] := by
  intro g b g' h hc
  obtain ⟨-, rfl⟩ := pure_ok h
  exact .refl hc

/-- A report may be said to emit anything, as no clean walk makes one. -/
theorem emits_report (pos : Pos) (fault : CompileFault) (items : List Item) :
    Emits (report pos fault) items := fun _ _ _ h hc => absurd hc (report_not_clean h)

/-- Breaking off may be said to emit anything. -/
theorem emits_throw {α : Type} (items : List Item) : Emits (throw ⟨⟩ : Gen α) items :=
  fun _ _ _ h _ => absurd h throw_ne_ok

/-- Two parts of a walk in which the second needs the type of an expression. -/
theorem emits_typeOf_bind {β : Type} {e : Expr} {f : Ty → Gen β} {items : List Item}
    (hf : ∀ t, e.type? = some t → Emits (f t) items) : Emits (typeOf e >>= f) items := by
  intro g b g' h hc
  obtain ⟨t, g₁, h₁, h₂⟩ := bind_ok h
  obtain ⟨ht, rfl⟩ := typeOf_ok h₁
  exact hf t ht _ _ _ h₂ hc

/-! ## Instructions -/

/-- A clean emission appends a word with the given fields. -/
theorem emit_spec {pos : Pos} {op : Opcode} {a b : Int64} {c : String} {g g' : Generation}
    {r : Option Nat} (h : emit pos op a b c g = .ok r g') (hc : g'.Clean) :
    g.Clean ∧ r = some g.image.code.size ∧ ∃ w im, w.Reads op a.toInt b.toInt ∧
      g' = { g with image := im } ∧ im.code = g.image.code.push w ∧
      Image.SameData g.image im := by
  obtain ⟨herr, r', im, rfl, hx, rfl⟩ := onImage_ok h hc
  obtain ⟨w, hw, rfl, hcode, hdata⟩ := Image.emit_ok hx
  refine ⟨⟨herr, ?_⟩, rfl, w, im, Word.reads_of_encode hw, rfl, hcode, hdata⟩
  have hlt := hc.2
  simp only [hcode, Array.size_push] at hlt
  omega

/-- A ledger stays realized when an instruction is appended that needs nothing to be
remembered. -/
theorem realizes_emitted {l : Ledger} {g : Generation} {im : Image} {w : Word} {it : Item}
    (hl : l.Realizes g) (hit : it.Stands ((l.add [it]).linking { g with image := im })
      l.items.length w)
    (hpool : ∀ constants, it.pool constants = constants)
    (hcode : im.code = g.image.code.push w) (hdata : Image.SameData g.image im) :
    (l.add [it]).Realizes { g with image := im } :=
  hl.push_sameData hcode hdata hpool rfl (fun _ ha => ha) (fun p hp _ ha => ⟨p, hp, rfl, ha⟩) hit
    (fun _ ha => hl.exits_add _ ha) (fun _ hp _ ha => hl.pending_add _ hp ha)

/-- Emitting an instruction emits its item. -/
theorem emits_emit (pos : Pos) (op : Opcode) (a b : Int64) (c : String) :
    Emits (emit pos op a b c) [.op op a b] := by
  intro g r g' h hc
  obtain ⟨hc₀, -, w, im, hw, rfl, hcode, hdata⟩ := emit_spec h hc
  exact ⟨hc₀, by simp [hcode], fun own _ hg => ⟨own, hg⟩,
    fun l _ hl => realizes_emitted hl hw (fun _ => rfl) hcode hdata⟩

/-- An instruction whose address is not needed emits its item. -/
theorem emits_put (pos : Pos) (op : Opcode) (a b : Int64) (c : String) :
    Emits (put pos op a b c) [.op op a b] :=
  (emits_emit pos op a b c).bind fun _ => emits_pure ()

/-- A type code as an operand reads as its number. -/
theorem toInt_codeOperand (code : TypeCode) :
    code.byte.toUInt64.toInt64.toInt = code.byte.toNat := by
  cases code <;> rfl

/-- Interning succeeds in a clean walk, and changes only the pool. -/
theorem constant_spec {pos : Pos} {v : Value} {g g' : Generation} {n : Int64}
    (h : constant pos v g = .ok n g') (hc : g'.Clean) :
    g.Clean ∧ ∃ i more, n = Int64.ofNat i ∧
      poolIndex? (g.image.constants ++ more) v = some i ∧
      g' = { g with image := { g.image with constants := g.image.constants ++ more } } ∧
      i ≤ g.image.constants.size ∧ more.size ≤ 1 ∧
      g.image.constants ++ more = intern g.image.constants v := by
  obtain ⟨r, g₁, h₁, h₂⟩ := bind_ok h
  obtain ⟨rfl, rfl⟩ := pure_ok h₂
  obtain ⟨herr, i, im, rfl, hx, rfl⟩ := onImage_ok h₁ hc
  obtain ⟨hpool, hfirst⟩ := Image.addConstant_ok hx
  obtain ⟨more, rfl, hi, hmore, hintern⟩ := hfirst
  exact ⟨⟨herr, hc.2⟩, i, more, rfl, hpool, rfl, hi, hmore, hintern⟩

/-- The load of a constant emits its item. -/
theorem emits_putConstant (pos : Pos) (code : TypeCode) (v : Value) (c : String) :
    Emits (putConstant pos code v c) [.const code v] := by
  intro g u g' h hc
  obtain ⟨n, g₁, h₁, h₂⟩ := bind_ok h
  obtain ⟨r, g₂, h₃, h₄⟩ := bind_ok h₂
  obtain ⟨rfl, rfl⟩ := pure_ok h₄
  obtain ⟨hc₁, -, w, im, hw, rfl, hcode, hdata⟩ := emit_spec h₃ hc
  obtain ⟨hc₀, i, more, rfl, hpool, rfl, hi, hmore, hintern⟩ := constant_spec h₁ hc₁
  refine ⟨hc₀, by simp [hcode], fun own _ hg => ⟨own, hg⟩, fun l _ hl => ?_⟩
  have hconstants : im.constants = g.image.constants ++ more := hdata.constants
  have hlt : i < 2 ^ 63 := by
    have h1 := hl.pool
    have h2 := hc₀.2
    omega
  refine hl.push hcode hdata.natives hdata.typedConstants ?_ (hconstants.trans hintern) rfl
    ⟨?_, ?_, ?_⟩ ?_ ?_ ?_
  · have h1 := hl.pool
    rw [show _ = im.constants from rfl, hconstants, Array.size_append]
    omega
  · intro v' i' hi'
    change poolIndex? im.constants v' = some i'
    rw [hconstants]
    exact poolIndex?_append hi'
  · exact fun _ _ h => h
  · exact fun _ _ _ h => h
  · refine ⟨i, ?_, ?_⟩
    · change poolIndex? im.constants v = some i
      rw [hconstants, hpool]
    · rwa [toInt_codeOperand, Int64.toInt_ofNat_of_lt hlt] at hw
  · exact fun _ ha => hl.exits_add _ ha
  · exact fun _ hp _ ha => hl.pending_add _ hp ha

/-! ## Patches -/

/-- A clean patch changes one word, whose other fields stay. -/
theorem patch_spec {pos : Pos} {a t : Nat} {g g' : Generation} {u : Unit}
    (h : patch pos (some a) t g = .ok u g') (hc : g'.Clean) :
    g.Clean ∧ (a < g.image.code.size → t ≤ g.image.code.size →
      ∃ w w', g.image.code[a]? = some w ∧ (∀ op x y, w.Reads op x y → w'.Reads op x t) ∧
        g' = { g with image := { g.image with code := g.image.code.setIfInBounds a w' } }) := by
  obtain ⟨r, g₁, h₁, h₂⟩ := bind_ok h
  obtain ⟨-, rfl⟩ := pure_ok h₂
  obtain ⟨herr, r', im, rfl, hx, rfl⟩ := onImage_ok h₁ hc
  obtain ⟨w, w', hfetch, hw, rfl⟩ := Image.patch_ok hx
  have hsize : g.image.code.size < 2 ^ 63 := by simpa using hc.2
  refine ⟨⟨herr, hsize⟩, fun ha ht => ?_⟩
  have ha' : a < 2 ^ 63 := by omega
  have ht' : t < 2 ^ 63 := by omega
  rw [Image.fetch?_ofNat ha'] at hfetch
  rw [Int64.toNatClampNeg_ofNat_of_lt ha']
  refine ⟨w, w', hfetch, fun op x y hr => ?_, rfl⟩
  have hreads := hr.withOperand2 hw
  rwa [Int64.toInt_ofNat_of_lt ht'] at hreads

/-- Filling in a jump removes no errors. -/
theorem patch_clean {pos : Pos} {r : Option Nat} {t : Nat} {g g' : Generation} {u : Unit}
    (h : patch pos r t g = .ok u g') (hc : g'.Clean) : g.Clean := by
  cases r with
  | none =>
    obtain ⟨-, rfl⟩ := pure_ok h
    exact hc
  | some a => exact (patch_spec h hc).1

/-- An instruction that was emitted without a target becomes a jump when it is patched. -/
theorem Grows.patch {pos : Pos} {g g₁ g₂ : Generation} {is js : List Item} {op : Opcode}
    {a t d : Nat} {u : Unit} (h : Grows g (is ++ .op op 0 0 :: js) g₁)
    (hp : Gen.patch pos (some a) t g₁ = .ok u g₂) (hc : g₂.Clean)
    (ha : a = g.image.code.size + is.length) (ht : t = a + d) (hd : d ≤ js.length + 1) :
    Grows g (is ++ .jump op d :: js) g₂ := by
  obtain ⟨hc₁, hchange⟩ := patch_spec hp hc
  have hsize := h.size
  simp only [List.length_append, List.length_cons] at hsize
  obtain ⟨w, w', hw, hreads, rfl⟩ := hchange (by omega) (by omega)
  refine ⟨h.clean, ?_, h.exits, fun l hne hl => ?_⟩
  · simp only [Array.size_setIfInBounds, List.length_append, List.length_cons]
    omega
  · have hl₁ := h.realizes l hne hl
    have ha' : a = (l.items ++ is).length := by rw [ha, hl.size, List.length_append]
    have hset : l.add (is ++ .jump op d :: js)
        = (l.add (is ++ .op op 0 0 :: js)).set a (.jump op d) := by
      simp only [Ledger.add, Ledger.set, ← List.append_assoc, ha', List.set_append_right,
        Nat.le_refl, Nat.sub_self, List.set_cons_zero]
    have hitem : (l.add (is ++ .op op 0 0 :: js)).items[a]? = some (.op op 0 0) := by
      simp [Ledger.add_items, ← List.append_assoc, ha']
    rw [hset]
    refine hl₁.set hitem ?_ (.inr ⟨by simp, by simp⟩) (fun _ => rfl) (fun _ => rfl)
    obtain ⟨w₀, hw₀, hst⟩ := hl₁.stands _ _ hitem
    obtain rfl := Option.some.inj (hw₀.symm.trans hw)
    have := hreads _ _ _ hst
    simpa [Item.Stands, ht] using this

/-- An instruction that is emitted with an earlier target is a jump back. -/
theorem Grows.jumpBack {pos : Pos} {g₀ g g' : Generation} {is : List Item} {op : Opcode}
    {c : String} {u : Unit} (h : Grows g₀ is g)
    (hp : put pos op 0 (Int64.ofNat g₀.image.code.size) c g = .ok u g') (hc : g'.Clean) :
    Grows g₀ (is ++ [.jump op (-(is.length : Nat))]) g' := by
  obtain ⟨r, g₁, h₁, h₂⟩ := bind_ok hp
  obtain ⟨-, rfl⟩ := pure_ok h₂
  obtain ⟨hc₁, -, w, im, hw, rfl, hcode, hdata⟩ := emit_spec h₁ hc
  rw [Int64.toInt_ofNat_of_lt h.clean.2] at hw
  refine ⟨h.clean, ?_, h.exits, fun l hne hl => ?_⟩
  · simp only [hcode, Array.size_push, h.size, List.length_append, List.length_cons,
      List.length_nil, Nat.add_assoc]
  · rw [← Ledger.add_add]
    refine realizes_emitted (h.realizes l hne hl) ?_ (fun _ => rfl) hcode hdata
    have hback : ((l.add is).items.length : Int) + -(is.length : Nat) = g₀.image.code.size := by
      simp only [Ledger.add_items, List.length_append, hl.size]
      omega
    change w.Reads op 0 _
    rw [hback]
    exact hw

end Gen

end PCode
