import PCode.Proofs.Codegen.Emission

/-!
# The code of expressions is what is emitted

Main result: `Gen.emits_lower`, that the walk over an expression adds the code
of the expression.
-/

namespace PCode.Gen

/-! ## Identifiers -/

private theorem emits_wordsByRef (pos : Pos) (id : Ident) (i : Nat) (codes : List UInt8) :
    Emits (wordsByRef pos id i codes) (wordsByRefCode id i codes) := by
  induction codes generalizing i with
  | nil => exact emits_pure ()
  | cons code rest ih =>
    have hload := (emits_put pos .ldi (operandOfCode code) 0
      s!"value of {id.symbol.name} at index {i}").bind fun _ => ih (i + 1)
    simp only [wordsByRef, wordsByRefCode, wordByRefCode]
    split
    · exact (emits_put pos .lva id.level id.symbol.address _).bind fun _ =>
        (emits_putConstant pos .integer _ _).bind fun _ =>
        (emits_put pos .adi 0 0 "").bind fun _ => hload
    · exact (emits_put pos .lva id.level id.symbol.address _).bind fun _ => hload

private theorem emits_wordsDirect (pos : Pos) (id : Ident) (i count : Nat) :
    Emits (wordsDirect pos id i count) (wordsDirectCode id i count) := by
  induction count generalizing i with
  | zero => exact emits_pure ()
  | succ count ih => exact (emits_put pos .lvi id.level _ _).bind fun _ => ih (i + 1)

/-- The value of an identifier emits its code. -/
theorem emits_identValue (pos : Pos) (id : Ident) :
    Emits (identValue pos id) (identValueCode id) := by
  unfold identValue identValueCode
  by_cases hkind : id.symbol.kind = .subprogram ∨ id.symbol.kind = .native
  · simpa only [hkind, if_true] using emits_report pos _ _
  · simp only [hkind, if_false]
    cases href : id.symbol.byRef with
    | true =>
      cases hcode : id.symbol.type.code? with
      | some code =>
        simp only [if_true]
        exact (emits_put pos .lva _ _ _).bind fun _ => emits_put pos .ldi _ _ _
      | none =>
        cases hcodes : id.symbol.type.codes? with
        | some codes => simpa using emits_wordsByRef pos id 0 codes
        | none => simpa using emits_throw _
    | false =>
      cases hcode : id.symbol.type.code? with
      | some code =>
        cases hop : loadOpcode? code with
        | some op => simpa [hop] using emits_put pos op id.level id.symbol.address _
        | none => simpa [hop] using emits_report pos _ _
      | none =>
        by_cases hlay : id.symbol.type.hasLayout = true
        · simpa [hlay] using emits_wordsDirect pos id 0 _
        · simpa [hlay] using emits_throw _

/-- The address of an identifier emits its code. -/
theorem emits_identAddress (pos : Pos) (id : Ident) :
    Emits (identAddress pos id) (identAddressCode id) :=
  emits_put pos _ _ _ _

/-! ## Operators -/

private theorem emits_applyBinary (pos : Pos) (op : BinaryOp) (left : Expr) (type : Ty) :
    Emits (applyBinary pos op left type) (binaryCode op left type) := by
  unfold applyBinary binaryCode
  cases arithmetic? op with
  | some a =>
    cases hop : a.opcode? type with
    | some p => simpa [hop] using emits_put pos p.1 0 0 p.2
    | none => simpa [hop] using emits_report pos _ _
  | none =>
    cases logical? op with
    | none => exact emits_report pos _ _
    | some opcode =>
      refine emits_typeOf_bind fun t ht => ?_
      cases hcode : t.code? with
      | some code => simpa [ht, hcode] using emits_put pos opcode _ 0 _
      | none => exact emits_report pos _ _

private theorem emits_applyUnary (pos : Pos) (op : UnaryOp) (operand : Expr) :
    Emits (applyUnary pos op operand) (unaryCode op operand) := by
  unfold applyUnary unaryCode
  cases op with
  | not => exact emits_put pos .not 0 0 _
  | neg =>
    refine emits_typeOf_bind fun t ht => ?_
    by_cases hreal : t.isSimple .real = true
    · simpa [ht, hreal] using emits_put pos .ngr 0 0 _
    · simpa [ht, hreal] using emits_put pos .ngi 0 0 _
  | unknown n => exact emits_report pos _ _

private theorem emits_applyCast (pos : Pos) (operand : Expr) (target : Ty) :
    Emits (applyCast pos operand target) (castCode operand target) := by
  unfold applyCast castCode
  refine emits_typeOf_bind fun t ht => ?_
  simp only [ht, Option.getD_some]
  split
  · exact emits_put pos .flt 0 0 _
  · split
    · exact emits_pure ()
    · exact emits_report pos _ _

private theorem emits_loadIndirect (e : Expr) (c : String) :
    Emits (loadIndirect e c) (loadCode e) := by
  unfold loadIndirect loadCode
  refine emits_typeOf_bind fun t ht => ?_
  cases hcode : t.code? with
  | some code => simpa [ht, hcode] using emits_put e.pos .ldi _ 0 _
  | none => exact emits_report e.pos _ _

/-! ## Literals and indices -/

private theorem emits_numberValue (pos : Pos) (x : Float) :
    Emits (numberValue pos x) (numberCode x) := by
  unfold numberValue numberCode
  cases integerLiteral? x with
  | some i => exact emits_putConstant pos .integer _ _
  | none => exact emits_putConstant pos .real _ _

private theorem emits_boolValue (pos : Pos) (b : Bool) : Emits (boolValue pos b) (boolCode b) :=
  emits_put pos _ _ _ _

private theorem emits_charValue (pos : Pos) (code : Int64) :
    Emits (charValue pos code) (charCode code) :=
  emits_put pos _ _ _ _

private theorem emits_scaleIndex (pos : Pos) (d : Dimension) :
    Emits (scaleIndex pos d) (scaleCode d) :=
  (emits_putConstant pos .integer _ _).bind fun _ =>
    (emits_put pos .sbi 0 0 _).bind fun _ => emits_put pos .ixa 0 d.stride _

/-- Where indexing is possible, its dimensions are those of the base, and nothing is emitted.
What follows a failure does not matter, as long as it does not remove errors. -/
theorem emits_indexedDimensions_bind {β : Type} {pos : Pos} {base : Expr} {count : Nat}
    {f : Option (List Dimension) → Gen β} {items rest : List Item}
    (hsome : ∀ dimensions, dimensions? base count = some dimensions →
      Emits (f (some dimensions)) items)
    (hnone : Emits (f none) rest) :
    Emits (indexedDimensions pos base count >>= f) items := by
  -- After a report the rest of the walk cannot be clean.
  have hfail : ∀ fault,
      Emits ((report pos fault >>= fun _ => pure none : Gen (Option (List Dimension))) >>= f)
        items := by
    intro fault g b g' h hc
    obtain ⟨r, g₁, h₁, h₂⟩ := bind_ok h
    obtain ⟨u, g₂, h₃, h₄⟩ := bind_ok h₁
    obtain ⟨rfl, rfl⟩ := pure_ok h₄
    exact absurd (hnone _ _ _ h₂ hc).1 (report_not_clean h₃)
  unfold indexedDimensions
  rw [bind_assoc]
  refine emits_typeOf_bind fun t ht => ?_
  cases t with
  | array ranges elem =>
    simp only
    split
    · exact hfail _
    · rename_i hcount
      split
      · rename_i hlay
        rw [pure_bind]
        exact hsome _ (by simp [dimensions?, ht, hcount, hlay])
      · intro g b g' h _
        obtain ⟨_, _, h₁, _⟩ := bind_ok h
        exact absurd h₁ throw_ne_ok
  | _ => exact hfail _

/-! ## Calls -/

/-- The calls that wait, after one more of a symbol. -/
def waiting (pending : List PendingCalls) (sym : Symbol) (a : Nat) (pos : Pos) :
    List PendingCalls :=
  if pending.any (·.symbol.id == sym.id) then
    pending.map fun p =>
      if p.symbol.id == sym.id then { p with addresses := a :: p.addresses } else p
  else ⟨sym, [a], pos⟩ :: pending

/-- The new call waits for its symbol. -/
theorem mem_waiting_self (pending : List PendingCalls) (sym : Symbol) (a : Nat) (pos : Pos) :
    ∃ p ∈ waiting pending sym a pos, p.symbol.id = sym.id ∧ a ∈ p.addresses := by
  unfold waiting
  split
  · rename_i hany
    obtain ⟨p, hp, hid⟩ := List.any_eq_true.mp hany
    have hid' : p.symbol.id = sym.id := by simpa using hid
    exact ⟨_, List.mem_map_of_mem hp, by simp [hid'], by simp [hid']⟩
  · exact ⟨⟨sym, [a], pos⟩, by simp, rfl, by simp⟩

/-- A call that waits goes on waiting. -/
theorem mem_waiting_of_mem {pending : List PendingCalls} {p : PendingCalls} (sym : Symbol)
    (a : Nat) (pos : Pos) (hp : p ∈ pending) :
    ∃ q ∈ waiting pending sym a pos, q.symbol.id = p.symbol.id ∧
      ∀ b ∈ p.addresses, b ∈ q.addresses := by
  unfold waiting
  split
  · refine ⟨_, List.mem_map_of_mem hp, ?_⟩
    split
    · exact ⟨rfl, fun b hb => List.mem_cons_of_mem a hb⟩
    · exact ⟨rfl, fun b hb => hb⟩
  · exact ⟨p, List.mem_cons_of_mem _ hp, rfl, fun b hb => hb⟩

/-- Only the new call is added to those that wait. -/
theorem of_mem_waiting {pending : List PendingCalls} {sym : Symbol} {a b : Nat} {pos : Pos}
    {q : PendingCalls} (hq : q ∈ waiting pending sym a pos) (hb : b ∈ q.addresses) :
    (q.symbol.id = sym.id ∧ b = a) ∨
      ∃ p ∈ pending, p.symbol.id = q.symbol.id ∧ b ∈ p.addresses := by
  unfold waiting at hq
  split at hq
  · obtain ⟨p, hp, rfl⟩ := List.mem_map.mp hq
    by_cases hid : p.symbol.id = sym.id
    · simp only [hid, beq_self_eq_true, if_true, List.mem_cons] at hb ⊢
      rcases hb with rfl | hb
      · exact .inl ⟨trivial, rfl⟩
      · exact .inr ⟨p, hp, hid, hb⟩
    · simp only [beq_iff_eq, hid, if_false] at hb ⊢
      exact .inr ⟨p, hp, rfl, hb⟩
  · rcases List.mem_cons.mp hq with rfl | hq
    · exact .inl ⟨rfl, by simpa using hb⟩
    · exact .inr ⟨q, hq, rfl, hb⟩

/-- A call of a symbol without an entry is remembered, and one of an entered symbol has its
target at once. -/
theorem putUserCall_spec {pos : Pos} {sym : Symbol} {words : Int64} {g g' : Generation} {u : Unit}
    (h : putUserCall pos sym words g = .ok u g') (hc : g'.Clean) :
    g.Clean ∧ ∃ w im,
      w.Reads .cup words.toInt (Int64.ofNat ((g.entries.lookup sym.id).getD 0)).toInt ∧
      im.code = g.image.code.push w ∧ Image.SameData g.image im ∧
      g' = { g with
        image := im
        pending := if (g.entries.lookup sym.id).isSome then g.pending
          else waiting g.pending sym g.image.code.size pos } := by
  unfold putUserCall at h
  obtain ⟨_, _, h₀, h₁⟩ := bind_ok h
  obtain ⟨rfl, rfl⟩ := EStateM.Result.ok.inj h₀
  obtain ⟨r, g₁, h₂, h₃⟩ := bind_ok h₁
  cases hentry : g.entries.lookup sym.id with
  | some entry =>
    simp only [hentry] at h₂ h₃
    obtain ⟨-, rfl⟩ := pure_ok h₃
    obtain ⟨hc₀, rfl, w, im, hw, rfl, hcode, hdata⟩ := emit_spec h₂ hc
    exact ⟨hc₀, w, im, hw, hcode, hdata, rfl⟩
  | none =>
    cases r with
    | none =>
      simp only [hentry] at h₂ h₃
      obtain ⟨-, rfl⟩ := pure_ok h₃
      obtain ⟨-, hnone, -⟩ := emit_spec h₂ hc
      cases hnone
    | some a =>
      simp only [hentry] at h₂ h₃
      obtain ⟨-, rfl⟩ := EStateM.Result.ok.inj h₃
      obtain ⟨hc₀, ha, w, im, hw, rfl, hcode, hdata⟩ := emit_spec h₂ hc
      obtain rfl := Option.some.inj ha
      exact ⟨hc₀, w, im, hw, hcode, hdata, rfl⟩

private theorem emits_putUserCall (pos : Pos) (sym : Symbol) (words : Int64) :
    Emits (putUserCall pos sym words) [.call words sym] := by
  intro g u g' h hc
  obtain ⟨hc₀, w, im, hw, hcode, hdata, rfl⟩ := putUserCall_spec h hc
  refine ⟨hc₀, by simp [hcode], fun own _ hg => ⟨own, hg⟩, fun l _ hl => ?_⟩
  have hsize := hl.size
  refine hl.push_sameData hcode hdata (fun _ => rfl) rfl (fun _ ha => ha) ?_ ?_
    (fun _ ha => hl.exits_add _ ha) ?_
  · intro p hp a ha
    change ∃ q ∈ ite _ _ _, _
    split
    · exact ⟨p, hp, rfl, ha⟩
    · obtain ⟨q, hq, hqid, hqa⟩ := mem_waiting_of_mem sym g.image.code.size pos hp
      exact ⟨q, hq, hqid, hqa a ha⟩
  · cases hentry : g.entries.lookup sym.id with
    | some entry =>
      have hin := hl.entries _ _ hentry
      have hlt : entry < 2 ^ 63 := by
        have h1 := hl.entered _ _ hin
        have h2 := hc₀.2
        omega
      rw [hentry, Option.getD_some, Int64.toInt_ofNat_of_lt hlt] at hw
      exact ⟨entry, hw, .inr hin⟩
    | none =>
      rw [hentry, Option.getD_none] at hw
      refine ⟨0, by simpa using hw, .inl ?_⟩
      rw [← hsize]
      exact mem_waiting_self g.pending sym g.image.code.size pos
  · intro q hq b hb
    change q ∈ ite _ _ _ at hq
    split at hq
    · exact hl.pending_add _ hq hb
    · rcases of_mem_waiting hq hb with ⟨hid, rfl⟩ | ⟨p, hp, hid, hbp⟩
      · exact ⟨words, sym, by simp [hsize], hid.symm⟩
      · exact hid ▸ hl.pending_add _ hp hbp

/-- The code of a call is that of its arguments with what is before and after them. -/
theorem emits_invoke (pos : Pos) (callee : Ident) (args : List Arg) {arguments : Gen Unit}
    {items : List Item} (h : Emits arguments items) :
    Emits (invoke pos callee args arguments) (invokeCode callee args items) := by
  simp only [invoke, invokeCode]
  cases htype : callee.symbol.type with
  | subprogram params result =>
    cases hkind : callee.symbol.kind with
    | native => exact h.bind fun _ => emits_put pos .csp _ _ _
    | subprogram =>
      refine (emits_put pos .mst _ _ _).bind fun _ => h.bind fun _ => ?_
      split
      · exact emits_putUserCall pos _ _
      · exact emits_throw _
    | _ => exact emits_report pos _ _
  | _ => exact emits_report pos _ _

/-! ## The walk -/

mutual

/-- The walk over an expression adds the code of the expression. -/
theorem emits_lower (mode : Mode) : ∀ e : Expr, Emits (lower mode e) (exprCode mode e)
  | .missing => by
    cases mode <;> simpa only [lower] using emits_report _ _ _
  | .ident pos id => by
    cases mode with
    | value => simpa only [lower, exprCode] using emits_identValue pos id
    | address => simpa only [lower, exprCode] using emits_identAddress pos id
  | .index pos base indices => by
    cases mode with
    | value =>
      simp only [lower, exprCode, accessCode]
      refine emits_indexedDimensions_bind (fun dimensions hd => ?_)
        ((emits_pure ()).bind fun _ => emits_loadIndirect _ _)
      rw [hd, List.append_assoc]
      exact (emits_lower .address base).bind fun _ =>
        (emits_lowerIndices pos dimensions indices).bind fun _ => emits_loadIndirect _ _
    | address =>
      simp only [lower, exprCode, accessCode]
      refine emits_indexedDimensions_bind (fun dimensions hd => ?_)
        ((emits_pure ()).bind fun _ => emits_pure ())
      rw [hd, List.append_assoc]
      exact (emits_lower .address base).bind fun _ =>
        (emits_lowerIndices pos dimensions indices).bind fun _ => emits_pure ()
  | .field pos base f => by
    cases mode with
    | value =>
      simp only [lower, exprCode, accessCode, List.append_assoc]
      exact (emits_lower .address base).bind fun _ =>
        (emits_putConstant pos .integer _ _).bind fun _ =>
        (emits_put pos .adi 0 0 _).bind fun _ => emits_loadIndirect _ _
    | address =>
      simp only [lower, exprCode, accessCode, List.append_assoc]
      exact (emits_lower .address base).bind fun _ =>
        (emits_putConstant pos .integer _ _).bind fun _ =>
        (emits_put pos .adi 0 0 _).bind fun _ => emits_pure ()
  | .deref pos base => by
    cases mode with
    | value =>
      simp only [lower, exprCode, accessCode]
      exact (emits_lower .value base).bind fun _ => emits_loadIndirect _ _
    | address =>
      simp only [lower, exprCode, accessCode]
      exact (emits_lower .value base).bind fun _ => emits_pure ()
  | .number pos x => by
    cases mode with
    | value => simpa only [lower, exprCode] using emits_numberValue pos x
    | address => simpa only [lower] using emits_report _ _ _
  | .string pos s => by
    cases mode with
    | value => simpa only [lower, exprCode] using emits_putConstant pos .string _ _
    | address => simpa only [lower] using emits_report _ _ _
  | .char pos code => by
    cases mode with
    | value => simpa only [lower, exprCode] using emits_charValue pos code
    | address => simpa only [lower] using emits_report _ _ _
  | .bool pos b => by
    cases mode with
    | value => simpa only [lower, exprCode] using emits_boolValue pos b
    | address => simpa only [lower] using emits_report _ _ _
  | .nil pos => by
    cases mode with
    | value => simpa only [lower, exprCode] using emits_putConstant pos .pointer _ _
    | address => simpa only [lower] using emits_report _ _ _
  | .addressOf pos base => by
    cases mode with
    | value => simpa only [lower, exprCode] using emits_lower .address base
    | address => simpa only [lower] using emits_report _ _ _
  | .unary pos op operand => by
    cases mode with
    | value =>
      simpa only [lower, exprCode] using
        (emits_lower .value operand).bind fun _ => emits_applyUnary pos op operand
    | address => simpa only [lower] using emits_report _ _ _
  | .binary pos op left right type => by
    cases mode with
    | value =>
      simpa only [lower, exprCode, List.append_assoc] using
        (emits_lower .value left).bind fun _ =>
          (emits_lower .value right).bind fun _ => emits_applyBinary pos op left type
    | address => simpa only [lower] using emits_report _ _ _
  | .cast pos operand target => by
    cases mode with
    | value =>
      simpa only [lower, exprCode] using
        (emits_lower .value operand).bind fun _ => emits_applyCast pos operand target
    | address => simpa only [lower] using emits_report _ _ _
  | .call pos callee args => by
    cases mode with
    | value =>
      simpa only [lower, exprCode] using emits_invoke pos callee args (emits_lowerArgs args)
    | address => simpa only [lower] using emits_report _ _ _

private theorem emits_lowerIndices (pos : Pos) :
    ∀ (dimensions : List Dimension) (indices : List Expr),
    Emits (lowerIndices pos dimensions indices) (indicesCode dimensions indices)
  | d :: dimensions, index :: indices => by
    simpa only [lowerIndices, indicesCode, List.append_assoc] using
      (emits_lower .value index).bind fun _ =>
        (emits_scaleIndex pos d).bind fun _ => emits_lowerIndices pos dimensions indices
  | [], _ => by simpa only [lowerIndices, indicesCode] using emits_pure ()
  | _ :: _, [] => by simpa only [lowerIndices, indicesCode] using emits_pure ()

private theorem emits_lowerArgs : ∀ args : List Arg, Emits (lowerArgs args) (argsCode args)
  | [] => by simpa only [lowerArgs, argsCode] using emits_pure ()
  | .mk e byRef :: rest => by
    simpa only [lowerArgs, argsCode] using
      (emits_lower (if byRef then .address else .value) e).bind fun _ => emits_lowerArgs rest

end

/-- A call emits its code. -/
theorem emits_lowerCall (pos : Pos) (callee : Ident) (args : List Arg) :
    Emits (lowerCall pos callee args) (callCode callee args) :=
  emits_invoke pos callee args (emits_lowerArgs args)

end PCode.Gen
