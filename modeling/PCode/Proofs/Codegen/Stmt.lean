import PCode.Proofs.Codegen.Expr

/-!
# The code of statements is what is emitted

The jumps of a statement are emitted before their targets are known, and have
them when the statement is finished, except for exit jumps, which stay open
until the subprogram is.

Main result: `Gen.emits_lowerStmt`, that the walk over a statement adds the code
of the statement.
-/

namespace PCode.Gen

/-- The next address is the number of instructions so far. -/
theorem nextAddress_ok {g g' : Generation} {n : Nat} (h : nextAddress g = .ok n g') :
    n = g.image.code.size ∧ g' = g := by
  obtain ⟨rfl, rfl⟩ := EStateM.Result.ok.inj h
  exact ⟨rfl, rfl⟩

/-- A comment in the listing does not change the code. -/
theorem emits_noteTop (a : Nat) (c : String) : Emits (noteTop a c) [] := by
  intro g u g' h hc
  obtain ⟨r, g₁, h₁, h₂⟩ := bind_ok h
  obtain ⟨-, rfl⟩ := pure_ok h₂
  obtain ⟨herr, r', im, rfl, hx, rfl⟩ := onImage_ok h₁ hc
  obtain rfl := Image.addComment_ok hx
  refine ⟨⟨herr, hc.2⟩, rfl, fun own _ hg => ⟨own, hg⟩, fun l _ hl => ?_⟩
  rw [Ledger.add_nil]
  exact ⟨hl.natives, hl.size, hl.stands, hl.start, hl.exits, hl.pending, hl.entries, hl.entered,
    hl.typed, hl.pool, hl.requested⟩

/-- The jump of an exit statement is remembered for the subprogram being generated. -/
theorem emits_exit (pos : Pos) (c : String) :
    Emits (emit pos .ujp 0 0 c >>= noteExit) [.leave] := by
  intro g u g' h hc
  obtain ⟨r, g₁, h₁, h₂⟩ := bind_ok h
  unfold noteExit at h₂
  obtain ⟨-, hg'⟩ := EStateM.Result.ok.inj h₂
  have hc₁ : g₁.Clean := by
    rw [← hg'] at hc
    simp only at hc
    split at hc <;> exact hc
  obtain ⟨hc₀, rfl, w, im, hw, rfl, hcode, hdata⟩ := emit_spec h₁ hc₁
  cases hexits : g.exits with
  | nil =>
    simp only [hexits] at hg'
    subst hg'
    exact ⟨hc₀, by simp [hcode], fun own outer hg => by simp [hexits] at hg,
      fun l hne => absurd hexits hne⟩
  | cons own outer =>
    simp only [hexits] at hg'
    subst hg'
    refine ⟨hc₀, by simp [hcode], fun own' outer' hg => ?_, fun l _ hl => ?_⟩
    · obtain ⟨-, rfl⟩ := List.cons.inj (hexits.symm.trans hg)
      exact ⟨_, rfl⟩
    · have hopen : ∀ a ∈ g.exits.flatten, a ∈ ((g.image.code.size :: own) :: outer).flatten := by
        intro a ha
        rw [hexits] at ha
        simp only [List.flatten_cons, List.cons_append] at ha ⊢
        exact List.mem_cons_of_mem _ ha
      refine hl.push_sameData hcode hdata (fun _ => rfl) rfl hopen
        (fun p hp _ ha => ⟨p, hp, rfl, ha⟩) ?_ ?_ (fun _ hp _ ha => hl.pending_add _ hp ha)
      · refine ⟨0, by simpa using hw, .inl ?_⟩
        rw [← hl.size]
        simp
      · intro a ha
        have ha' : a = g.image.code.size ∨ a ∈ g.exits.flatten := by
          rw [hexits]
          simpa using ha
        rcases ha' with rfl | ha'
        · refine ⟨by rw [Ledger.add_items, hl.size, List.getElem?_concat_length], ?_⟩
          rw [hl.size]
          exact hl.start
        · exact hl.exits_add _ ha'

/-! ## Control -/

/-- The code of a conditional without an alternative. -/
theorem emits_condThen (pos : Pos) (c : String) {test yes : Gen Unit} {ts ys : List Item}
    (ht : Emits test ts) (hy : Emits yes ys) :
    Emits (do
        test
        let skip ← emit pos .fjp 0 0 c
        yes
        patch pos skip (← nextAddress)) (condCode ts ys none) := by
  intro g u g' h hc
  obtain ⟨_, g₁, h₁, h⟩ := bind_ok h
  obtain ⟨r, g₂, h₂, h⟩ := bind_ok h
  obtain ⟨_, g₃, h₃, h⟩ := bind_ok h
  obtain ⟨_, _, h₄, h₅⟩ := bind_ok h
  obtain ⟨rfl, rfl⟩ := nextAddress_ok h₄
  have k₃ := hy _ _ _ h₃ (patch_clean h₅ hc)
  have k₂ := emits_emit _ _ _ _ _ _ _ _ h₂ k₃.clean
  have k₁ := ht _ _ _ h₁ k₂.clean
  obtain ⟨-, rfl, -⟩ := emit_spec h₂ k₃.clean
  have hsize := k₃.size
  rw [k₂.size, List.length_singleton] at hsize
  exact (k₁.trans (k₂.cons k₃)).patch (d := ys.length + 1) h₅ hc k₁.size (by omega)
    (Nat.le_refl _)

/-- The code of a conditional with an alternative. -/
theorem emits_condElse (pos : Pos) (c d : String) {test yes no : Gen Unit}
    {ts ys ns : List Item} (ht : Emits test ts) (hy : Emits yes ys) (hn : Emits no ns) :
    Emits (do
        test
        let skipThen ← emit pos .fjp 0 0 c
        yes
        let skipElse ← emit pos .ujp 0 0 d
        patch pos skipThen (← nextAddress)
        no
        patch pos skipElse (← nextAddress)) (condCode ts ys (some ns)) := by
  intro g u g' h hc
  obtain ⟨_, g₁, h₁, h⟩ := bind_ok h
  obtain ⟨r, g₂, h₂, h⟩ := bind_ok h
  obtain ⟨_, g₃, h₃, h⟩ := bind_ok h
  obtain ⟨s, g₄, h₄, h⟩ := bind_ok h
  obtain ⟨_, _, h₅, h⟩ := bind_ok h
  obtain ⟨rfl, rfl⟩ := nextAddress_ok h₅
  obtain ⟨_, g₅, h₆, h⟩ := bind_ok h
  obtain ⟨_, g₆, h₇, h⟩ := bind_ok h
  obtain ⟨_, _, h₈, h₉⟩ := bind_ok h
  obtain ⟨rfl, rfl⟩ := nextAddress_ok h₈
  have k₇ := hn _ _ _ h₇ (patch_clean h₉ hc)
  have hc₄ := patch_clean h₆ k₇.clean
  have k₄ := emits_emit _ _ _ _ _ _ _ _ h₄ hc₄
  have k₃ := hy _ _ _ h₃ k₄.clean
  have k₂ := emits_emit _ _ _ _ _ _ _ _ h₂ k₃.clean
  have k₁ := ht _ _ _ h₁ k₂.clean
  obtain ⟨-, rfl, -⟩ := emit_spec h₂ k₃.clean
  obtain ⟨-, rfl, -⟩ := emit_spec h₄ hc₄
  have s₃ := k₃.size
  rw [k₂.size, List.length_singleton] at s₃
  have s₄ := k₄.size
  rw [List.length_singleton] at s₄
  -- The first jump gets its target behind the second, and the second its own at the end.
  have kthen := (k₁.trans (k₂.cons (k₃.trans k₄))).patch (d := ys.length + 2) h₆ k₇.clean
    k₁.size (by omega) (by simp)
  have s₇ := k₇.size
  rw [kthen.size] at s₇
  simp only [List.length_append, List.length_cons, List.length_nil] at s₇
  have kelse := kthen.trans k₇
  rw [show ts ++ Item.jump .fjp (ys.length + 2 : Nat) :: (ys ++ [.op .ujp 0 0]) ++ ns
      = (ts ++ Item.jump .fjp (ys.length + 2 : Nat) :: ys) ++ .op .ujp 0 0 :: ns by simp] at kelse
  have s₁ := k₁.size
  have kall := kelse.patch (d := ns.length + 1) h₉ hc (by simp; omega) (by omega) (Nat.le_refl _)
  simpa [condCode] using kall

/-- The code of a loop with its test at the top. -/
theorem emits_loop (pos : Pos) (out : Opcode) (c d : String) {test : Nat → Gen Unit}
    {body : Gen Unit} {ts bs : List Item} (ht : ∀ top, Emits (test top) ts)
    (hb : Emits body bs) :
    Emits (do
        let top ← nextAddress
        test top
        let leave ← emit pos out 0 0 c
        body
        put pos .ujp 0 (Int64.ofNat top) d
        patch pos leave (← nextAddress)) (loopCode ts out bs) := by
  intro g u g' h hc
  obtain ⟨_, _, h₀, h⟩ := bind_ok h
  obtain ⟨rfl, rfl⟩ := nextAddress_ok h₀
  obtain ⟨_, g₁, h₁, h⟩ := bind_ok h
  obtain ⟨r, g₂, h₂, h⟩ := bind_ok h
  obtain ⟨_, g₃, h₃, h⟩ := bind_ok h
  obtain ⟨_, g₄, h₄, h⟩ := bind_ok h
  obtain ⟨_, _, h₅, h₆⟩ := bind_ok h
  obtain ⟨rfl, rfl⟩ := nextAddress_ok h₅
  have hc₄ := patch_clean h₆ hc
  have k₃ := hb _ _ _ h₃ (emits_put _ _ _ _ _ _ _ _ h₄ hc₄).clean
  have k₂ := emits_emit _ _ _ _ _ _ _ _ h₂ k₃.clean
  have k₁ := ht _ _ _ _ h₁ k₂.clean
  obtain ⟨-, rfl, -⟩ := emit_spec h₂ k₃.clean
  have kback := (k₁.trans (k₂.cons k₃)).jumpBack h₄ hc₄
  have hsize := kback.size
  simp only [List.length_append, List.length_cons, List.length_nil] at hsize
  rw [List.append_assoc] at kback
  have s₁ := k₁.size
  have kall := kback.patch (d := bs.length + 2) h₆ hc s₁ (by omega) (by simp)
  simpa [loopCode] using kall

/-- The code of a loop with its test at the bottom. -/
theorem emits_repeat (pos : Pos) (c : String) {body : Nat → Gen Unit} {bs : List Item}
    (hb : ∀ top, Emits (body top) bs) :
    Emits (do
        let top ← nextAddress
        body top
        put pos .fjp 0 (Int64.ofNat top) c) (bs ++ [.jump .fjp (-(bs.length : Nat))]) := by
  intro g u g' h hc
  obtain ⟨_, _, h₀, h⟩ := bind_ok h
  obtain ⟨rfl, rfl⟩ := nextAddress_ok h₀
  obtain ⟨_, g₁, h₁, h₂⟩ := bind_ok h
  exact (hb _ _ _ _ h₁ (emits_put _ _ _ _ _ _ _ _ h₂ hc).clean).jumpBack h₂ hc

/-! ## The walk -/

mutual

/-- The walk over a statement adds the code of the statement. -/
theorem emits_lowerStmt : ∀ s : Stmt, Emits (lowerStmt s) (stmtCode s)
  | .missing => by simpa only [lowerStmt, stmtCode] using emits_pure ()
  | .block _ body => by simpa only [lowerStmt, stmtCode] using emits_lowerStmts body
  | .assign pos target value => by
    simp only [lowerStmt, stmtCode, List.append_assoc]
    refine (emits_lower .address target).bind fun _ => (emits_lower .value value).bind fun _ =>
      emits_typeOf_bind fun t ht => ?_
    cases hcode : t.code? with
    | some code => simpa [ht, hcode] using emits_put pos .sti _ 0 _
    | none => exact emits_report pos _ _
  | .call pos callee args => by
    simp only [lowerStmt, stmtCode]
    cases callee.symbol.type with
    | subprogram params result =>
      simp only
      split
      · exact emits_lowerCall pos callee args
      · exact emits_report pos _ _
    | _ => exact emits_lowerCall pos callee args
  | .cond pos test yes no => by
    simp only [lowerStmt, stmtCode]
    cases no.isMissing with
    | true => exact emits_condThen pos _ (emits_lower .value test) (emits_lowerStmt yes)
    | false =>
      exact emits_condElse pos _ _ (emits_lower .value test) (emits_lowerStmt yes)
        (emits_lowerStmt no)
  | .whileDo pos test body => by
    simp only [lowerStmt, stmtCode]
    have htest : ∀ top, Emits (do lower .value test; noteTop top "top of while loop")
        (exprCode .value test) := fun top => by
      simpa using (emits_lower .value test).bind fun _ => emits_noteTop top _
    simpa only [bind_assoc] using emits_loop pos .fjp _ _ htest (emits_lowerStmt body)
  | .repeatUntil pos body test => by
    simp only [lowerStmt, stmtCode]
    have hbody : ∀ top, Emits (do
        lowerStmts body
        noteTop top "top of repeat loop"
        lower .value test) (stmtsCode body ++ exprCode .value test) := fun top =>
      (emits_lowerStmts body).bind fun _ =>
        (emits_noteTop top _).bind fun _ => emits_lower .value test
    simpa only [bind_assoc, List.length_append] using emits_repeat pos _ hbody
  | .forTo pos counter first last down body => by
    simp only [lowerStmt, stmtCode]
    cases counter.symbol.type.code? with
    | none => exact emits_report pos _ _
    | some code =>
      have hset : ∀ (value : Gen Unit) (items : List Item), Emits value items →
          Emits (do
            identAddress {} counter
            value
            put pos .sti (operandOfCode code) 0 ("store into " ++ counter.symbol.name))
          (setCounterCode counter code items) := by
        intro value items hv
        simpa only [setCounterCode, List.append_assoc] using
          (emits_identAddress {} counter).bind fun _ => hv.bind fun _ => emits_put pos .sti _ 0 _
      have htest : ∀ _ : Nat, Emits (do
          identValue {} counter
          lower .value last
          put pos (if down then .les else .grt) (operandOfCode code) 0
            "see if we're done with the loop")
          (testCounterCode counter code (exprCode .value last) down) := fun _ => by
        simpa only [testCounterCode, List.append_assoc] using
          (emits_identValue {} counter).bind fun _ =>
            (emits_lower .value last).bind fun _ => emits_put pos _ _ 0 _
      cases down with
      | true =>
        have hstep := (emits_lowerStmt body).bind fun _ => hset _ _
          ((emits_identValue {} counter).bind fun _ =>
            emits_put pos .dec (operandOfCode code) 0 "decrement loop variable")
        simpa [stepCounterCode] using (hset _ _ (emits_lower .value first)).bind fun _ =>
          emits_loop pos .tjp _ _ htest hstep
      | false =>
        have hstep := (emits_lowerStmt body).bind fun _ => hset _ _
          ((emits_identValue {} counter).bind fun _ =>
            emits_put pos .inc (operandOfCode code) 0 "increment loop variable")
        simpa [stepCounterCode] using (hset _ _ (emits_lower .value first)).bind fun _ =>
          emits_loop pos .tjp _ _ htest hstep
  | .exit pos => by simpa only [lowerStmt, stmtCode] using emits_exit pos _

/-- The walk over statements adds their code. -/
theorem emits_lowerStmts : ∀ body : List Stmt, Emits (lowerStmts body) (stmtsCode body)
  | [] => by simpa only [lowerStmts, stmtsCode] using emits_pure ()
  | s :: rest => by
    simpa only [lowerStmts, stmtsCode] using
      (emits_lowerStmt s).bind fun _ => emits_lowerStmts rest

end

end PCode.Gen
