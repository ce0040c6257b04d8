import PCode.Proofs.Codegen.ExprShape
import PCode.Proofs.Codegen.Pieces

/-!
# The shape between statements

Between statements there is nothing on the stack above the frame.  So every
jump of a statement, which leaves and lands between parts of it, leads from the
empty shape to itself, and the code of a whole subprogram can be gone through
from left to right.

Main definitions and results:

- `Gen.settles_stmtCode`: the code of a typed statement starts and ends at the empty shape.
- `Block.height`: the number of words above the frame at an address of a block.
- `Block.flows`: the items of a block can stand at the shapes that are given to them.
-/

namespace PCode

namespace Gen

open Shape

section

variable {natives : Registry} {calls : Symbol → Nat → Prop} {test yes no body : List Item}

/-! ## Jumps around parts -/

private theorem settles_condCode (htest : Moves natives calls [] test [.word])
    (hyes : Settles natives calls yes) : Settles natives calls (condCode test yes none) := by
  have hfjp : Goes natives calls [.word] [.jump .fjp (yes.length + 1)] [] :=
    goes_branch (.inl rfl) _
  have hpassed := htest.goes.append hfjp
  have hgoes := hpassed.append hyes.goes
  have hcode : condCode test yes none = test ++ [.jump .fjp (yes.length + 1)] ++ yes := by
    simp [condCode]
  rw [hcode]
  refine ⟨hgoes, lands_append.mpr ⟨lands_append.mpr ⟨?_, ?_⟩, ?_⟩⟩
  · exact lands_of_straight htest.straight _ _
  · exact lands_jump hgoes.shape (List.append_nil _).symm
      (by simp only [List.length_append, List.length_cons, List.length_nil]; omega)
  · exact hyes.lands_within hpassed.shape (List.append_nil _).symm (Nat.zero_add _)

private theorem settles_condCode_else (htest : Moves natives calls [] test [.word])
    (hyes : Settles natives calls yes) (hno : Settles natives calls no) :
    Settles natives calls (condCode test yes (some no)) := by
  have hfjp : Goes natives calls [.word] [.jump .fjp (yes.length + 2)] [] :=
    goes_branch (.inl rfl) _
  have hpassed := htest.goes.append hfjp
  have hover := (hpassed.append hyes.goes).append (goes_ujp (no.length + 1))
  have hgoes := hover.append hno.goes
  have hcode : condCode test yes (some no) =
      test ++ [.jump .fjp (yes.length + 2)] ++ yes ++ [.jump .ujp (no.length + 1)] ++ no := by
    simp [condCode]
  rw [hcode]
  refine ⟨hgoes, lands_append.mpr ⟨lands_append.mpr ⟨lands_append.mpr
    ⟨lands_append.mpr ⟨?_, ?_⟩, ?_⟩, ?_⟩, ?_⟩⟩
  · exact lands_of_straight htest.straight _ _
  · exact lands_jump hover.shape rfl
      (by simp only [List.length_append, List.length_cons, List.length_nil]; omega)
  · exact hyes.lands_within hpassed.shape (List.append_assoc _ _ _) (Nat.zero_add _)
  · exact lands_jump hgoes.shape (List.append_nil _).symm
      (by simp only [List.length_append, List.length_cons, List.length_nil]; omega)
  · exact hno.lands_within hover.shape (List.append_nil _).symm (Nat.zero_add _)

private theorem settles_loopCode {out : Opcode} (hout : out = .fjp ∨ out = .tjp)
    (htest : Moves natives calls [] test [.word]) (hbody : Settles natives calls body) :
    Settles natives calls (loopCode test out body) := by
  have hfjp : Goes natives calls [.word] [.jump out (body.length + 2)] [] := goes_branch hout _
  have hpassed := htest.goes.append hfjp
  have hback : Goes natives calls [] [.jump .ujp (-(test.length + (body.length + 1) : Nat))] [] :=
    goes_ujp _
  have hgoes := (hpassed.append hbody.goes).append hback
  have hcode : loopCode test out body = test ++ [.jump out (body.length + 2)] ++ body ++
      [.jump .ujp (-(test.length + (body.length + 1) : Nat))] := by
    simp [loopCode]
  rw [hcode]
  refine ⟨hgoes, lands_append.mpr ⟨lands_append.mpr ⟨lands_append.mpr ⟨?_, ?_⟩, ?_⟩, ?_⟩⟩
  · exact lands_of_straight htest.straight _ _
  · exact lands_jump hgoes.shape (List.append_nil _).symm
      (by simp only [List.length_append, List.length_cons, List.length_nil]; omega)
  · exact hbody.lands_within hpassed.shape rfl (Nat.zero_add _)
  · exact lands_jump (shapeAfter_nil []) (List.nil_append _).symm
      (by simp only [List.length_append, List.length_cons, List.length_nil]; omega)

/-- The parts of an accepted loop are accepted. -/
theorem accepted_loopCode {out : Opcode} (h : Accepted calls (loopCode test out body)) :
    Accepted calls test ∧ Accepted calls body := by
  obtain ⟨ht, hrest⟩ := h.split
  exact ⟨ht, (Accepted.split (a := [.jump out (body.length + 2)]) hrest).2.split.1⟩

/-- A loop whose test comes last jumps back to its start. -/
theorem settles_repeat (htest : Moves natives calls [] test [.word])
    (hbody : Settles natives calls body) :
    Settles natives calls
      (body ++ test ++ [.jump .fjp (-(body.length + test.length : Nat))]) := by
  have hfjp : Goes natives calls [.word] [.jump .fjp (-(body.length + test.length : Nat))] [] :=
    goes_branch (.inl rfl) _
  refine ⟨(hbody.goes.append htest.goes).append hfjp,
    lands_append.mpr ⟨lands_append.mpr ⟨?_, ?_⟩, ?_⟩⟩
  · exact hbody.lands_within (shapeAfter_nil []) (List.append_assoc _ _ _) rfl
  · exact lands_of_straight htest.straight _ _
  · exact lands_jump (shapeAfter_nil []) (List.nil_append _).symm
      (by simp only [List.length_append, List.length_nil]; omega)

end

/-! ## Statements -/

section

variable {natives : Registry} {scopes : Scopes}

/-- What replaces no operands by none settles. -/
theorem Turns.settles {calls : Symbol → Nat → Prop} {items : List Item}
    (h : Turns natives calls 0 items 0) (hitems : Accepted calls items) :
    Settles natives calls items :=
  Moves.settles (h hitems [])

private theorem turns_setCounterCode {calls : Symbol → Nat → Prop} {value : List Item}
    (counter : Ident) (code : UInt8) (hvalue : Turns natives calls 0 value 1) :
    Turns natives calls 0 (setCounterCode counter code value) 0 := by
  have haddress : Turns natives calls 0 (identAddressCode counter) 1 :=
    fun _ s => moves_identAddressCode counter s
  exact (haddress.append (hvalue.over 1)).append (turns_op (o := .sti) rfl _ _)

/-- The value of a counter has one word. -/
theorem turns_counter {calls : Symbol → Nat → Prop} {counter : Ident} {code : UInt8}
    (hcode : counter.symbol.type.code? = some code) :
    Turns natives calls 0 (identValueCode counter) 1 := by
  have hsized : counter.symbol.type.Sized := by
    cases htype : counter.symbol.type <;> simp_all [Ty.code?, Ty.Sized]
  intro h s
  have hmoves : Moves natives calls s (identValueCode counter) _ :=
    moves_identValueCode hsized h.sensible s
  rwa [size_of_code? hcode] at hmoves

private theorem turns_testCounterCode {calls : Symbol → Nat → Prop} {counter : Ident} {code : UInt8}
    {last : List Item} (hcode : counter.symbol.type.code? = some code)
    (hlast : Turns natives calls 0 last 1) (down : Bool) :
    Turns natives calls 0 (testCounterCode counter code last down) 1 := by
  refine ((turns_counter hcode).append (hlast.over 1)).append ?_
  cases down <;> exact turns_op rfl _ _

private theorem turns_stepCounterCode {calls : Symbol → Nat → Prop} {counter : Ident} {code : UInt8}
    (hcode : counter.symbol.type.code? = some code) (down : Bool) :
    Turns natives calls 0 (stepCounterCode counter code down) 0 := by
  refine turns_setCounterCode counter code ((turns_counter hcode).append ?_)
  cases down <;> exact turns_op rfl _ _

/-- The code of a call statement leaves nothing. -/
theorem turns_callStmt (hs : Surroundings natives scopes) (pos : Pos) {callee : Ident}
    {args : List Arg} (hcall : CallTyped natives scopes callee args)
    (hargs : ArgsTyped natives scopes args) :
    Turns natives scopes.Calls 0 (stmtCode (.call pos callee args)) 0 := by
  have hinvoke := turns_invokeCode hs hcall (passes_argsCode hs args hargs)
  simp only [stmtCode, callCode]
  cases htype : callee.symbol.type with
  | subprogram params result =>
    cases hvoid : result.isVoid with
    | true =>
      rw [Symbol.isVoid_resultType htype, hvoid] at hinvoke
      simp only [hvoid, if_true]
      exact hinvoke
    | false =>
      simp only [hvoid, Bool.false_eq_true, if_false]
      exact turns_refused 0 0
  | _ =>
    simp only [invokeCode, htype]
    exact turns_refused 0 0

mutual

/-- The code of a typed statement starts and ends at the empty shape, and so do its jumps. -/
theorem settles_stmtCode (hs : Surroundings natives scopes) :
    ∀ st : Stmt, st.Typed natives scopes → Accepted scopes.Calls (stmtCode st) →
      Settles natives scopes.Calls (stmtCode st)
  | .missing, _, _ => by
    simp only [stmtCode]
    exact (moves_nil []).settles
  | .exit pos, _, _ => by
    simp only [stmtCode]
    exact settles_leave
  | .block pos body, h, hitems => by
    simp only [Stmt.Typed, stmtCode] at h hitems ⊢
    exact settles_stmtsCode hs body h hitems
  | .assign pos target value, h, hitems => by
    simp only [Stmt.Typed] at h
    have htarget := (moves_exprCode hs target h.1).address
    have hvalue := (moves_exprCode hs value h.2.2).oneWord h.2.1
    refine Turns.settles ?_ hitems
    simp only [stmtCode]
    refine (htarget.append (hvalue.over 1)).append ?_
    split
    · exact turns_op (o := .sti) rfl _ _
    · exact turns_refused 2 0
  | .call pos callee args, h, hitems => by
    simp only [Stmt.Typed] at h
    exact (turns_callStmt hs pos h.1 h.2).settles hitems
  | .cond pos test yes no, h, hitems => by
    simp only [Stmt.Typed] at h
    simp only [stmtCode] at hitems ⊢
    have htest := (moves_exprCode hs test h.1.2).oneWord h.1.1
    split at hitems
    · rename_i hmissing
      rw [if_pos hmissing]
      obtain ⟨ht, hy⟩ := hitems.split
      have hyes := settles_stmtCode hs yes h.2.1
        (Accepted.split (a := [.jump .fjp ((stmtCode yes).length + 1)]) hy).2
      exact settles_condCode (htest ht []) hyes
    · rename_i hmissing
      rw [if_neg hmissing]
      obtain ⟨ht, hrest⟩ := hitems.split
      obtain ⟨hy, hn⟩ :=
        (Accepted.split (a := [.jump .fjp ((stmtCode yes).length + 2)]) hrest).2.split
      have hyes := settles_stmtCode hs yes h.2.1 hy
      have hno := settles_stmtCode hs no h.2.2
        (Accepted.split (a := [.jump .ujp ((stmtCode no).length + 1)]) hn).2
      exact settles_condCode_else (htest ht []) hyes hno
  | .whileDo pos test body, h, hitems => by
    simp only [Stmt.Typed] at h
    simp only [stmtCode] at hitems ⊢
    have htest := (moves_exprCode hs test h.1.2).oneWord h.1.1
    obtain ⟨ht, hb⟩ := accepted_loopCode hitems
    exact settles_loopCode (.inl rfl) (htest ht []) (settles_stmtCode hs body h.2 hb)
  | .repeatUntil pos body test, h, hitems => by
    simp only [Stmt.Typed] at h
    simp only [stmtCode] at hitems ⊢
    have htest := (moves_exprCode hs test h.2.2).oneWord h.2.1
    obtain ⟨hb, ht⟩ := hitems.split.1.split
    exact settles_repeat (htest ht []) (settles_stmtsCode hs body h.1 hb)
  | .forTo pos counter first last down body, h, hitems => by
    simp only [Stmt.Typed] at h
    simp only [stmtCode] at hitems ⊢
    have hfirst := (moves_exprCode hs first h.1.2).oneWord h.1.1
    have hlast := (moves_exprCode hs last h.2.1.2).oneWord h.2.1.1
    cases hcode : counter.symbol.type.code? with
    | some code =>
      simp only [hcode] at hitems ⊢
      obtain ⟨hset, hloop⟩ := hitems.split
      obtain ⟨ht, hb⟩ := accepted_loopCode hloop
      obtain ⟨hbody, hstep⟩ := hb.split
      have hsettled := (settles_stmtCode hs body h.2.2 hbody).append
        ((turns_stepCounterCode hcode down).settles hstep)
      exact ((turns_setCounterCode counter code hfirst).settles hset).append
        (settles_loopCode (.inr rfl) (turns_testCounterCode hcode hlast down ht []) hsettled)
    | none =>
      simp only [hcode] at hitems
      exact (not_sensible_refused hitems.sensible (by simp)).elim

/-- The code of typed statements starts and ends at the empty shape, and so do its jumps. -/
theorem settles_stmtsCode (hs : Surroundings natives scopes) :
    ∀ sts : List Stmt, StmtsTyped natives scopes sts →
      Accepted scopes.Calls (stmtsCode sts) → Settles natives scopes.Calls (stmtsCode sts)
  | [], _, _ => by
    simp only [stmtsCode]
    exact (moves_nil []).settles
  | st :: rest, h, hitems => by
    simp only [StmtsTyped, stmtsCode] at h hitems ⊢
    obtain ⟨hfirst, hrest⟩ := hitems.split
    exact (settles_stmtCode hs st h.1 hfirst).append (settles_stmtsCode hs rest h.2 hrest)

end

/-! ## Statements in statements -/

/-- Code is a part of other code that starts and ends at the empty shape. -/
def Rests (natives : Registry) (a : Nat) (items : List Item) (a' : Nat) (items' : List Item) :
    Prop :=
  ∃ before after, items = before ++ items' ++ after ∧ a' = a + before.length ∧
    shapeAfter natives [] before = [] ∧ shapeAfter natives [] items' = []

private theorem Rests.refl {items : List Item} (h : shapeAfter natives [] items = []) (a : Nat) :
    Rests natives a items a items :=
  ⟨[], [], by simp, by simp, rfl, h⟩

/-- A part of a part that starts at the empty shape. -/
theorem Rests.within {whole before items after items' : List Item} {a place a' : Nat}
    (h : Rests natives place items a' items') (hwhole : whole = before ++ items ++ after)
    (hshape : shapeAfter natives [] before = []) (hplace : place = a + before.length) :
    Rests natives a whole a' items' := by
  subst hplace
  obtain ⟨before', after', rfl, rfl, hbefore, hitems⟩ := h
  refine ⟨before ++ before', after' ++ after, by simp [hwhole], by simp [Nat.add_assoc], ?_, hitems⟩
  rw [shapeAfter_append, hshape, hbefore]

mutual

/-- Every statement in a typed statement starts and ends at the empty shape. -/
theorem rests_stmtPieces (hs : Surroundings natives scopes) :
    ∀ (st : Stmt) {a : Nat} {p : Nat × Stmt}, st.Typed natives scopes →
      Accepted scopes.Calls (stmtCode st) → p ∈ stmtPieces a st →
      Rests natives a (stmtCode st) p.1 (stmtCode p.2)
  | .block pos body, a, p, h, hitems, hp => by
    simp only [stmtPieces, List.mem_cons] at hp
    rcases hp with rfl | hp
    · exact .refl (settles_stmtCode hs _ h hitems).goes.shape a
    · simp only [Stmt.Typed, stmtCode] at h hitems ⊢
      exact rests_stmtsPieces hs body h hitems hp
  | .cond pos test yes no, a, p, h, hitems, hp => by
    simp only [stmtPieces, List.mem_cons, List.mem_append] at hp
    rcases hp with rfl | hp
    · exact .refl (settles_stmtCode hs _ h hitems).goes.shape a
    · simp only [Stmt.Typed] at h
      simp only [stmtCode] at hitems ⊢
      have htest := (moves_exprCode hs test h.1.2).oneWord h.1.1
      split at hitems
      · rename_i hmissing
        rw [if_pos hmissing] at hp ⊢
        rcases hp with hp | hp
        · obtain ⟨ht, hrest⟩ := hitems.split
          have hpassed := (htest ht []).goes.append
            (goes_branch (.inl rfl) ((stmtCode yes).length + 1))
          have hy := (Accepted.split (a := [.jump .fjp ((stmtCode yes).length + 1)]) hrest).2
          exact (rests_stmtPieces hs yes h.2.1 hy hp).within
            (by simp [condCode]; rfl) hpassed.shape
            (by simp only [List.length_append, List.length_cons, List.length_nil]; omega)
        · simp at hp
      · rename_i hmissing
        rw [if_neg hmissing] at hp ⊢
        obtain ⟨ht, hrest⟩ := hitems.split
        obtain ⟨hy, hn⟩ :=
          (Accepted.split (a := [.jump .fjp ((stmtCode yes).length + 2)]) hrest).2.split
        have hpassed := (htest ht []).goes.append
          (goes_branch (.inl rfl) ((stmtCode yes).length + 2))
        rcases hp with hp | hp
        · exact (rests_stmtPieces hs yes h.2.1 hy hp).within
            (by simp [condCode]; rfl) hpassed.shape
            (by simp only [List.length_append, List.length_cons, List.length_nil]; omega)
        · have hover := (hpassed.append (settles_stmtCode hs yes h.2.1 hy).goes).append
            (goes_ujp ((stmtCode no).length + 1))
          have hno := (Accepted.split (a := [.jump .ujp ((stmtCode no).length + 1)]) hn).2
          exact (rests_stmtPieces hs no h.2.2 hno hp).within
            (by simp [condCode]; rfl) hover.shape
            (by simp only [List.length_append, List.length_cons, List.length_nil]; omega)
  | .whileDo pos test body, a, p, h, hitems, hp => by
    simp only [stmtPieces, List.mem_cons] at hp
    rcases hp with rfl | hp
    · exact .refl (settles_stmtCode hs _ h hitems).goes.shape a
    · simp only [Stmt.Typed] at h
      simp only [stmtCode] at hitems ⊢
      obtain ⟨ht, hb⟩ := accepted_loopCode hitems
      have hpassed := ((moves_exprCode hs test h.1.2).oneWord h.1.1 ht []).goes.append
        (goes_branch (.inl rfl) ((stmtCode body).length + 2))
      exact (rests_stmtPieces hs body h.2 hb hp).within
        (by simp [loopCode]; rfl) hpassed.shape
        (by simp only [List.length_append, List.length_cons, List.length_nil]; omega)
  | .repeatUntil pos body test, a, p, h, hitems, hp => by
    simp only [stmtPieces, List.mem_cons] at hp
    rcases hp with rfl | hp
    · exact .refl (settles_stmtCode hs _ h hitems).goes.shape a
    · simp only [Stmt.Typed] at h
      simp only [stmtCode] at hitems ⊢
      exact (rests_stmtsPieces hs body h.1 hitems.split.1.split.1 hp).within
        (List.append_assoc _ _ _) (shapeAfter_nil []) rfl
  | .forTo pos counter first last down body, a, p, h, hitems, hp => by
    simp only [stmtPieces, List.mem_cons] at hp
    rcases hp with rfl | hp
    · exact .refl (settles_stmtCode hs _ h hitems).goes.shape a
    · simp only [Stmt.Typed] at h
      simp only [stmtCode] at hitems ⊢
      cases hcode : counter.symbol.type.code? with
      | none => simp [hcode] at hp
      | some code =>
        simp only [hcode] at hitems hp ⊢
        obtain ⟨hset, hloop⟩ := hitems.split
        obtain ⟨ht, hb⟩ := accepted_loopCode hloop
        have hfirst := (moves_exprCode hs first h.1.2).oneWord h.1.1
        have hlast := (moves_exprCode hs last h.2.1.2).oneWord h.2.1.1
        have hstart := ((turns_setCounterCode counter code hfirst).settles hset).goes
        have hpassed := (hstart.append
          (turns_testCounterCode hcode hlast down ht []).goes).append
          (goes_branch (.inr rfl) ((stmtCode body ++ stepCounterCode counter code down).length + 2))
        exact (rests_stmtPieces hs body h.2.2 hb.split.1 hp).within
          (by simp [loopCode]; rfl) hpassed.shape
          (by simp only [List.length_append, List.length_cons, List.length_nil]; omega)
  | .missing, a, p, h, hitems, hp | .assign .., a, p, h, hitems, hp
  | .call .., a, p, h, hitems, hp | .exit _, a, p, h, hitems, hp => by
    simp only [stmtPieces, List.mem_singleton] at hp
    subst hp
    exact .refl (settles_stmtCode hs _ h hitems).goes.shape a

/-- Every statement among typed statements starts and ends at the empty shape. -/
theorem rests_stmtsPieces (hs : Surroundings natives scopes) :
    ∀ (sts : List Stmt) {a : Nat} {p : Nat × Stmt}, StmtsTyped natives scopes sts →
      Accepted scopes.Calls (stmtsCode sts) → p ∈ stmtsPieces a sts →
      Rests natives a (stmtsCode sts) p.1 (stmtCode p.2)
  | [], a, p, h, hitems, hp => by simp [stmtsPieces] at hp
  | st :: rest, a, p, h, hitems, hp => by
    simp only [stmtsPieces, List.mem_append] at hp
    simp only [StmtsTyped, stmtsCode] at h hitems ⊢
    obtain ⟨hfirst, hrest⟩ := hitems.split
    rcases hp with hp | hp
    · exact (rests_stmtPieces hs st h.1 hfirst hp).within (List.nil_append _).symm
        (shapeAfter_nil []) rfl
    · exact (rests_stmtsPieces hs rest h.2 hrest hp).within (List.append_nil _).symm
        (settles_stmtCode hs st h.1 hfirst).goes.shape rfl

end

/-! ## Subprograms -/

private theorem turns_initialiseWordsCode {calls : Symbol → Nat → Prop} (tc : TypedConst)
    (base i : Nat)
    (codes : List UInt8) : Turns natives calls 0 (initialiseWordsCode tc base i codes) 0 := by
  induction codes generalizing i with
  | nil => exact fun _ s => moves_nil _
  | cons code rest ih =>
    have hword : Turns natives calls 0
        [.op .lda 0 (tc.symbol.address + Int64.ofNat i),
          .const .pointer (.ofAddress (Int64.ofNat (base + i))), .op .ldi (operandOfCode code) 0,
          .op .sti (operandOfCode code) 0] 0 :=
      (turns_op (o := .lda) rfl _ _).append (((turns_const _ _).over 1).append
        (((turns_op (o := .ldi) rfl _ _).over 1).append (turns_op (o := .sti) rfl _ _)))
    exact hword.append (ih (i + 1))

private theorem turns_initialiseAllCode {calls : Symbol → Nat → Prop} (base : Nat)
    (tcs : List TypedConst) : Turns natives calls 0 (initialiseAllCode base tcs) 0 := by
  induction tcs generalizing base with
  | nil => exact fun _ s => moves_nil _
  | cons tc rest ih =>
    refine Turns.append ?_ (ih _)
    unfold initialiseCode
    split
    · split
      · exact turns_initialiseWordsCode _ _ _ _
      · exact turns_refused 0 0
    · exact turns_refused 0 0

private theorem settles_prologue {calls : Symbol → Nat → Prop} {h : SubprogramHeader} {typed : Nat}
    (hitems : Accepted calls (h.prologue typed)) : Settles natives calls (h.prologue typed) := by
  have hent : Moves natives calls [] [.op .ent 0 h.frameSize] [] :=
    moves_single (.inr (.inl ⟨.inl rfl, rfl⟩)) rfl
  exact hent.settles.append ((turns_initialiseAllCode typed h.typedConsts).settles
    (Accepted.split (a := [.op .ent 0 h.frameSize]) hitems).2)

private theorem settles_returnItem {calls : Symbol → Nat → Prop} {h : SubprogramHeader}
    (hitems : Accepted calls [returnItem h]) : Settles natives calls [returnItem h] := by
  unfold returnItem at hitems ⊢
  split
  · exact Moves.settles (moves_single (.inr (.inl ⟨.inr rfl, rfl⟩)) rfl)
  · rename_i hnone
    simp only [hnone] at hitems
    exact (not_sensible_refused hitems.sensible (by simp)).elim

end

end Gen

/-! ## Blocks -/

namespace Block

open Gen

/-- What is on the stack above the frame at an address of a block. -/
def shapeAt (natives : Registry) (b : Block) (a : Nat) : Shape :=
  shapeAfter natives [] (b.code.take (a - b.entry))

/-- The number of words on the stack above the frame at an address of a block. -/
def height (natives : Registry) (b : Block) (a : Nat) : Nat := (b.shapeAt natives a).height

variable {natives : Registry} {scopes : Scopes} {b : Block}

/-- The code of a typed subprogram starts and ends at the empty shape, and so do its jumps. -/
theorem settles (hs : Surroundings natives scopes)
    (htyped : StmtsTyped natives scopes b.header.body) (hitems : Accepted scopes.Calls b.code) :
    Settles natives scopes.Calls b.code := by
  obtain ⟨hboth, hreturn⟩ := hitems.split
  obtain ⟨hprologue, hbody⟩ := hboth.split
  exact ((settles_prologue hprologue).append (settles_stmtsCode hs _ htyped hbody)).append
    (settles_returnItem hreturn)

/-- Nothing is above the frame at the start of a statement, nor at its end. -/
theorem height_statement (hs : Surroundings natives scopes)
    (htyped : StmtsTyped natives scopes b.header.body) (hitems : Accepted scopes.Calls b.code)
    {p : Nat × Stmt} (hp : p ∈ b.statements) :
    b.height natives p.1 = 0 ∧ b.height natives (p.1 + (stmtCode p.2).length) = 0 := by
  obtain ⟨hboth, -⟩ := hitems.split
  obtain ⟨hprologue, hbody⟩ := hboth.split
  have hfirst : shapeAfter natives [] (b.header.prologue b.typed) = [] :=
    (settles_prologue hprologue).goes.shape
  obtain ⟨before, after, hcode, haddress, hbefore, hown⟩ := rests_stmtsPieces hs _ htyped hbody hp
  have hblock : b.code = b.header.prologue b.typed ++ before ++ stmtCode p.2 ++
      (after ++ [returnItem b.header]) := by
    simp only [Block.code, SubprogramHeader.code, hcode, List.append_assoc]
  have hstart : p.1 - b.entry = (b.header.prologue b.typed ++ before).length := by
    simp only [haddress, Block.body, List.length_append]
    omega
  have hend : p.1 + (stmtCode p.2).length - b.entry =
      (b.header.prologue b.typed ++ before ++ stmtCode p.2).length := by
    simp only [haddress, Block.body, List.length_append]
    omega
  have hshape : shapeAfter natives [] (b.header.prologue b.typed ++ before) = [] := by
    rw [shapeAfter_append, hfirst, hbefore]
  constructor
  · unfold height shapeAt
    rw [hstart, hblock, List.append_assoc, List.take_left, hshape, Shape.height_nil]
  · unfold height shapeAt
    rw [hend, hblock, List.take_left, shapeAfter_append, hshape, hown, Shape.height_nil]

/-- Nothing is above the frame at the return of a block. -/
theorem shapeAt_exit (hs : Surroundings natives scopes)
    (htyped : StmtsTyped natives scopes b.header.body) (hitems : Accepted scopes.Calls b.code) :
    b.shapeAt natives b.exit = [] := by
  obtain ⟨hboth, -⟩ := hitems.split
  obtain ⟨hprologue, hbody⟩ := hboth.split
  have hgoes := ((settles_prologue hprologue).append
    (settles_stmtsCode hs _ htyped hbody)).goes.shape
  have hexit : b.exit - b.entry =
      (b.header.prologue b.typed ++ stmtsCode b.header.body).length := by
    simp only [Block.exit, Block.body, List.length_append]
    omega
  unfold shapeAt
  rw [hexit, Block.code, SubprogramHeader.code, List.take_left, hgoes]

end Block

end PCode
