import PCode.Proofs.Codegen.Stages
import PCode.Proofs.Codegen.Transfers

/-!
# Missing expressions

A tree may lack expressions.  Where one is to be lowered, an error is recorded and
the walk goes on; but some places ask the type of an expression, and there the
walk breaks off if the expression has none.  A type is missing for a missing
expression, and for what takes its type from one: an element or slice, a pointed-to
word, an address or a negated operand.

What a place asks depends on the tree alone, not on what was generated before it, so
whether a program can be compiled at all is decided by the tree.

Main definitions and results:

- `Expr.hasHole`, `Stmt.hasHole`, `Subprogram.hasHole`: whether an expression is missing.
- `Need`, `Subprogram.needs`: what is asked of the types in a tree.
- `Gen.Asks`: a part of the walk breaks off exactly if something that it asks is not there, and
  otherwise records an error if there is something to report.
- `missing_expression_reported_or_fatal`: what compilation of a program with missing expressions
  ends with.
-/

namespace PCode

/-! ## Holes -/

mutual

/-- Whether an expression is missing somewhere in an expression. -/
def Expr.hasHole : Expr → Bool
  | .missing => true
  | .number .. | .string .. | .char .. | .bool .. | .nil _ | .ident .. => false
  | .index _ base indices => base.hasHole || Expr.anyHole indices
  | .field _ base _ | .deref _ base | .addressOf _ base => base.hasHole
  | .unary _ _ operand | .cast _ operand _ => operand.hasHole
  | .binary _ _ left right _ => left.hasHole || right.hasHole
  | .call _ _ args => Arg.anyHole args

/-- Whether one of several expressions has a hole. -/
def Expr.anyHole : List Expr → Bool
  | [] => false
  | e :: rest => e.hasHole || Expr.anyHole rest

/-- Whether one of several arguments has a hole. -/
def Arg.anyHole : List Arg → Bool
  | [] => false
  | .mk e _ :: rest => e.hasHole || Arg.anyHole rest

end

mutual

/-- Whether an expression is missing somewhere in a statement. -/
def Stmt.hasHole : Stmt → Bool
  | .missing | .exit _ => false
  | .assign _ target value => target.hasHole || value.hasHole
  | .call _ _ args => Arg.anyHole args
  | .block _ body => Stmt.anyHole body
  | .cond _ test yes no => test.hasHole || (yes.hasHole || no.hasHole)
  | .whileDo _ test body => test.hasHole || body.hasHole
  | .repeatUntil _ body test => Stmt.anyHole body || test.hasHole
  | .forTo _ _ first last _ body => first.hasHole || (last.hasHole || body.hasHole)

/-- Whether one of several statements has a hole. -/
def Stmt.anyHole : List Stmt → Bool
  | [] => false
  | s :: rest => s.hasHole || Stmt.anyHole rest

end

/-- Whether an expression is missing somewhere in a program. -/
def Subprogram.hasHole (s : Subprogram) : Bool := s.postorder.any fun h => Stmt.anyHole h.body

/-! ## Needs -/

/-- Something that the walk asks of a tree. -/
inductive Need where
  /-- the type of an expression -/
  | type (e : Expr)
  /-- the type codes of the words of a type -/
  | codes (t : Ty)
  /-- the size of a type -/
  | layout (t : Ty)
  /-- the sizes of the parameters of a signature -/
  | params (t : Ty)

/-- Whether what is asked is there. -/
def Need.met : Need → Bool
  | type e => e.type?.isSome
  | codes t => t.codes?.isSome
  | layout t => t.hasLayout
  | params t => t.paramsHaveLayout

/-- The value of a variable of a composite type takes all its words. -/
def Ident.needs (id : Ident) : List Need :=
  if id.symbol.kind = .subprogram ∨ id.symbol.kind = .native then []
  else if id.symbol.type.code?.isSome then []
  else if id.symbol.byRef then [.codes id.symbol.type]
  else [.layout id.symbol.type]

/-- A comparison or logical operator asks the type of its left operand. -/
def BinaryOp.needs (op : BinaryOp) (left : Expr) : List Need :=
  if (Gen.arithmetic? op).isNone ∧ (Gen.logical? op).isSome then [.type left] else []

/-- A sign asks the type of its operand. -/
def UnaryOp.needs (op : UnaryOp) (operand : Expr) : List Need :=
  if op = .neg then [.type operand] else []

/-- The element type of an array that can be indexed by a number of indices. -/
def Expr.indexed? (base : Expr) (count : Nat) : Option Ty :=
  match base.type? with
  | some (.array ranges elem) => if count = 0 ∨ ranges.length < count then none else some elem
  | _ => none

/-- A call asks what its arguments ask, and the words of the parameters of a subprogram. -/
def Ident.callNeeds (callee : Ident) (arguments : List Need) : List Need :=
  match callee.symbol.type, callee.symbol.kind with
  | .subprogram .., .native => arguments
  | .subprogram .., .subprogram => arguments ++ [.params callee.symbol.type]
  | _, _ => []

mutual

/-- What is asked to lower an expression. -/
def Expr.needs (mode : Gen.Mode) : Expr → List Need
  | .missing | .number .. | .string .. | .char .. | .bool .. | .nil _ => []
  | .ident _ id =>
    match mode with
    | .value => id.needs
    | .address => []
  | .index _ base indices =>
    .type base ::
      match base.indexed? indices.length with
      | some elem => .layout elem :: (base.needs .address ++ Expr.valueNeeds indices)
      | none => []
  | .field _ base _ => base.needs .address
  | .deref pos base =>
    match mode with
    | .value => base.needs .value ++ [.type (.deref pos base)]
    | .address => base.needs .value
  | .addressOf _ base =>
    match mode with
    | .value => base.needs .address
    | .address => []
  | .unary _ op operand =>
    match mode with
    | .value => operand.needs .value ++ op.needs operand
    | .address => []
  | .binary _ op left right _ =>
    match mode with
    | .value => left.needs .value ++ (right.needs .value ++ op.needs left)
    | .address => []
  | .cast _ operand _ =>
    match mode with
    | .value => operand.needs .value ++ [.type operand]
    | .address => []
  | .call _ callee args =>
    match mode with
    | .value => callee.callNeeds (Arg.needs args)
    | .address => []

/-- What is asked to lower the values of expressions. -/
def Expr.valueNeeds : List Expr → List Need
  | [] => []
  | e :: rest => e.needs .value ++ Expr.valueNeeds rest

/-- What is asked to lower arguments. -/
def Arg.needs : List Arg → List Need
  | [] => []
  | .mk e byRef :: rest => e.needs (if byRef then .address else .value) ++ Arg.needs rest

end

mutual

/-- What is asked to lower a statement. -/
def Stmt.needs : Stmt → List Need
  | .missing | .exit _ => []
  | .assign _ target value => target.needs .address ++ (value.needs .value ++ [.type value])
  | .call _ callee args =>
    match callee.symbol.type with
    | .subprogram _ result => if result.isVoid then callee.callNeeds (Arg.needs args) else []
    | _ => callee.callNeeds (Arg.needs args)
  | .block _ body => Stmt.allNeeds body
  | .cond _ test yes no => test.needs .value ++ (yes.needs ++ no.needs)
  | .whileDo _ test body => test.needs .value ++ body.needs
  | .repeatUntil _ body test => Stmt.allNeeds body ++ test.needs .value
  | .forTo _ counter first last _ body =>
    if counter.symbol.type.code?.isSome then
      first.needs .value ++ (last.needs .value ++ body.needs)
    else []

/-- What is asked to lower statements. -/
def Stmt.allNeeds : List Stmt → List Need
  | [] => []
  | s :: rest => s.needs ++ Stmt.allNeeds rest

end

/-- What is asked to lower a subprogram without those in it. -/
def SubprogramHeader.needs (h : SubprogramHeader) : List Need :=
  h.typedConsts.map (fun tc => .codes tc.symbol.type) ++ Stmt.allNeeds h.body

/-- What is asked to compile a program. -/
def Subprogram.needs (s : Subprogram) : List Need := s.postorder.flatMap SubprogramHeader.needs

namespace Gen

/-! ## Parts of the walk -/

/-- What a part of the walk that started from a generation ends with: all that it asks is there, no
error was lost, and one was recorded if something was faulty; or something that it asks is not
there. -/
inductive Outcome {α : Type} (ns : List Need) (faulty : Bool) (g : Generation) :
    EStateM.Result Untyped Generation α → Prop where
  | passed {a : α} {g' : Generation} : (∀ n ∈ ns, n.met = true) → g.errors.size ≤ g'.errors.size →
      (faulty = true → g.errors.size < g'.errors.size) → Outcome ns faulty g (.ok a g')
  | broke {e : Untyped} {g' : Generation} {n : Need} : n ∈ ns → n.met = false →
      Outcome ns faulty g (.error e g')

/-- What a part of the walk asks, and whether it finds something faulty, wherever it starts. -/
def Asks {α : Type} (ns : List Need) (faulty : Bool) (x : Gen α) : Prop :=
  ∀ g : Generation, Outcome ns faulty g (x g)

section

variable {α β : Type} {x : Gen α} {k : α → Gen β} {ns ms : List Need} {b c : Bool}

private theorem Asks.bind (hx : Asks ns b x) (hk : ∀ a, Asks ms c (k a)) :
    Asks (ns ++ ms) (b || c) (x >>= k) := by
  intro g
  have hxg := hx g
  change Outcome _ _ g (EStateM.bind x k g)
  unfold EStateM.bind
  generalize x g = r at hxg
  cases hxg with
  | broke hn hunmet => exact .broke (List.mem_append_left _ hn) hunmet
  | @passed a g₁ hmet hle hlt =>
    have hka := hk a g₁
    simp only
    generalize k a g₁ = r at hka
    cases hka with
    | broke hn hunmet => exact .broke (List.mem_append_right _ hn) hunmet
    | passed hmet' hle' hlt' =>
      refine .passed ?_ (Nat.le_trans hle hle') ?_
      · intro n hn
        exact (List.mem_append.mp hn).elim (hmet n) (hmet' n)
      · intro hbc
        rcases (Bool.or_eq_true b c).mp hbc with hb | hc
        · exact Nat.lt_of_lt_of_le (hlt hb) hle'
        · exact Nat.lt_of_le_of_lt hle (hlt' hc)

/-- A part of the walk that asks nothing and finds nothing. -/
abbrev Quiet (x : Gen α) : Prop := Asks [] false x

private theorem Quiet.bind (hx : Quiet x) (hk : ∀ a, Asks ms c (k a)) : Asks ms c (x >>= k) :=
  Asks.bind hx hk

/-- What follows may be quiet. -/
theorem Asks.then (hx : Asks ns b x) (hk : ∀ a, Quiet (k a)) : Asks ns b (x >>= k) := by
  have h := hx.bind hk
  rwa [List.append_nil, Bool.or_false] at h

private theorem quiet_pure (a : α) : Quiet (pure a) := fun g =>
  .passed (by simp) (Nat.le_refl _) (by simp)

private theorem quiet_modify {f : Generation → Generation}
    (h : ∀ g, g.errors.size ≤ (f g).errors.size) : Quiet (modify f) := fun g =>
  .passed (by simp) (h g) (by simp)

private theorem quiet_get : Quiet (get : Gen Generation) := fun _ =>
  .passed (by simp) (Nat.le_refl _) (by simp)

private theorem quiet_onImage (pos : Pos) (build : Image.Build α) : Quiet (onImage pos build) := by
  rintro ⟨im, errors, exits, entries, pending⟩
  simp only [onImage]
  cases build im with
  | ok a im' => exact .passed (by simp) (Nat.le_refl _) (by simp)
  | error e im' => exact .passed (by simp) (by simp) (by simp)

end

/-- An error is recorded, whether or not something is said to be faulty. -/
theorem asks_report (pos : Pos) (fault : CompileFault) (b : Bool) : Asks [] b (report pos fault) :=
  fun _ => .passed (by simp) (by simp) (by simp)

/-- The walk breaks off for an expression without a type. -/
theorem asks_typeOf {β : Type} {e : Expr} {k : Ty → Gen β} {ns : List Need} {b : Bool}
    (h : ∀ t, e.type? = some t → Asks ns b (k t)) : Asks (.type e :: ns) b (typeOf e >>= k) := by
  intro g
  unfold typeOf
  cases htype : e.type? with
  | none => exact .broke List.mem_cons_self (by simp [Need.met, htype])
  | some t =>
    rw [pure_bind]
    have hg := h t htype g
    generalize k t g = r at hg
    cases hg with
    | broke hn hunmet => exact .broke (List.mem_cons_of_mem _ hn) hunmet
    | passed hmet hle hlt =>
      refine .passed ?_ hle hlt
      simpa [Need.met, htype] using hmet

private theorem asks_throw {α : Type} (n : Need) (hunmet : n.met = false) (ns : List Need)
    (b : Bool) :
    Asks (n :: ns) b (throw ⟨⟩ : Gen α) := fun _ => .broke List.mem_cons_self hunmet

/-- Nothing is asked by a need that is met. -/
theorem Asks.cons_met {α : Type} {x : Gen α} {ns : List Need} {b : Bool} {n : Need}
    (h : Asks ns b x) (hmet : n.met = true) : Asks (n :: ns) b x := by
  intro g
  have hg := h g
  generalize x g = r at hg
  cases hg with
  | broke hn hunmet => exact .broke (List.mem_cons_of_mem _ hn) hunmet
  | passed hall hle hlt => exact .passed (List.forall_mem_cons.mpr ⟨hmet, hall⟩) hle hlt

private theorem quiet_emit (pos : Pos) (op : Opcode) (x y : Int64) (c : String) :
    Quiet (emit pos op x y c) := quiet_onImage pos _

private theorem quiet_put (pos : Pos) (op : Opcode) (x y : Int64) (c : String) :
    Quiet (put pos op x y c) := (quiet_emit pos op x y c).bind fun _ => quiet_pure ()

private theorem quiet_nextAddress : Quiet nextAddress := fun _ =>
  .passed (by simp) (Nat.le_refl _) (by simp)

private theorem quiet_patch (pos : Pos) (address : Option Nat) (target : Nat) :
    Quiet (patch pos address target) := by
  cases address with
  | none => exact quiet_pure ()
  | some a => exact (quiet_onImage pos _).bind fun _ => quiet_pure ()

private theorem quiet_putConstant (pos : Pos) (code : TypeCode) (v : Value) (c : String) :
    Quiet (putConstant pos code v c) :=
  ((quiet_onImage pos _).bind fun _ => quiet_pure _).bind fun _ => quiet_put pos .ldc _ _ c

/-! ## Expressions -/

private theorem quiet_wordsByRef (pos : Pos) (id : Ident) (i : Nat) (codes : List UInt8) :
    Quiet (wordsByRef pos id i codes) := by
  induction codes generalizing i with
  | nil => exact quiet_pure ()
  | cons code rest ih =>
    have hload := (quiet_put pos .ldi (operandOfCode code) 0
      s!"value of {id.symbol.name} at index {i}").bind fun _ => ih (i + 1)
    simp only [wordsByRef]
    refine (quiet_put pos .lva id.level id.symbol.address _).bind fun _ => ?_
    split
    · exact (quiet_putConstant pos .integer _ _).bind fun _ =>
        (quiet_put pos .adi 0 0 "").bind fun _ => hload
    · exact hload

private theorem quiet_wordsDirect (pos : Pos) (id : Ident) (i count : Nat) :
    Quiet (wordsDirect pos id i count) := by
  induction count generalizing i with
  | zero => exact quiet_pure ()
  | succ count ih => exact (quiet_put pos .lvi id.level _ _).bind fun _ => ih (i + 1)

private theorem asks_identValue (pos : Pos) (id : Ident) :
    Asks id.needs false (identValue pos id) := by
  unfold identValue Ident.needs
  simp only
  split
  · exact asks_report pos _ _
  cases href : id.symbol.byRef <;> cases hcode : id.symbol.type.code? <;>
    simp only [Option.isSome_none, Option.isSome_some, Bool.false_eq_true, if_false, if_true]
  · -- all words of a composite variable
    cases hlayout : id.symbol.type.hasLayout with
    | true => exact Asks.cons_met (quiet_wordsDirect pos id 0 _) hlayout
    | false => exact asks_throw (.layout id.symbol.type) hlayout [] false
  · split
    · exact quiet_put pos _ _ _ _
    · exact asks_report pos _ _
  · -- all words behind a composite reference
    cases hcodes : id.symbol.type.codes? with
    | some codes =>
      exact Asks.cons_met (quiet_wordsByRef pos id 0 codes) (by simp [Need.met, hcodes])
    | none => exact asks_throw (.codes id.symbol.type) (by simp [Need.met, hcodes]) [] false
  · exact (quiet_put pos .lva _ _ _).bind fun _ => quiet_put pos .ldi _ _ _

private theorem asks_applyBinary (pos : Pos) (op : BinaryOp) (left : Expr) (type : Ty) :
    Asks (op.needs left) false (applyBinary pos op left type) := by
  unfold applyBinary BinaryOp.needs
  cases arithmetic? op with
  | some a =>
    simp only [Option.isNone_some, Bool.false_eq_true, false_and, if_false]
    split
    · exact quiet_put pos _ 0 0 _
    · exact asks_report pos _ _
  | none =>
    cases logical? op with
    | none => exact asks_report pos _ _
    | some opcode =>
      refine asks_typeOf fun t _ => ?_
      split
      · exact quiet_put pos _ _ 0 _
      · exact asks_report pos _ _

private theorem asks_applyUnary (pos : Pos) (op : UnaryOp) (operand : Expr) :
    Asks (op.needs operand) false (applyUnary pos op operand) := by
  cases op with
  | not => exact quiet_put pos .not 0 0 _
  | neg =>
    refine asks_typeOf fun t _ => ?_
    split
    · exact quiet_put pos .ngr 0 0 _
    · exact quiet_put pos .ngi 0 0 _
  | unknown n => exact asks_report pos _ _

private theorem asks_applyCast (pos : Pos) (operand : Expr) (target : Ty) :
    Asks [.type operand] false (applyCast pos operand target) := by
  refine asks_typeOf fun t _ => ?_
  split
  · exact quiet_put pos .flt 0 0 _
  · split
    · exact quiet_pure ()
    · exact asks_report pos _ _

private theorem asks_loadIndirect (e : Expr) (c : String) :
    Asks [.type e] false (loadIndirect e c) := by
  refine asks_typeOf fun t _ => ?_
  split
  · exact quiet_put e.pos .ldi _ 0 c
  · exact asks_report e.pos _ _

/-- Nothing breaks off at the load of an expression that has a type. -/
theorem quiet_loadIndirect {e : Expr} {t : Ty} (h : e.type? = some t) (c : String) :
    Quiet (loadIndirect e c) := by
  intro g
  have hg := asks_loadIndirect e c g
  generalize loadIndirect e c g = r at hg
  cases hg with
  | broke hn hunmet =>
    obtain rfl := List.mem_singleton.mp hn
    simp [Need.met, h] at hunmet
  | passed _ hle hlt => exact .passed (by simp) hle hlt

private theorem quiet_numberValue (pos : Pos) (x : Float) : Quiet (numberValue pos x) := by
  unfold numberValue
  split
  · exact quiet_putConstant pos .integer _ _
  · exact quiet_putConstant pos .real _ _

private theorem quiet_scaleIndex (pos : Pos) (d : Dimension) : Quiet (scaleIndex pos d) :=
  (quiet_putConstant pos .integer _ _).bind fun _ =>
    (quiet_put pos .sbi 0 0 _).bind fun _ => quiet_put pos .ixa 0 d.stride _

private theorem quiet_putUserCall (pos : Pos) (sym : Symbol) (words : Int64) :
    Quiet (putUserCall pos sym words) := by
  unfold putUserCall
  refine quiet_get.bind fun g => ?_
  refine (quiet_emit pos .cup words _ _).bind fun address => ?_
  split
  · exact quiet_modify fun g => Nat.le_refl _
  · exact quiet_pure ()

/-- A call asks what its arguments ask; where they are not lowered, an error is recorded. -/
theorem asks_invoke (pos : Pos) (callee : Ident) (args : List Arg) {arguments : Gen Unit}
    {ns : List Need} {b : Bool} (h : Asks ns b arguments) :
    Asks (callee.callNeeds ns) b (invoke pos callee args arguments) := by
  unfold invoke
  simp only
  split
  · rename_i params result htype
    rw [Ident.callNeeds, htype]
    cases callee.symbol.kind with
    | native => exact h.then fun _ => quiet_put pos .csp _ _ _
    | subprogram =>
      refine (quiet_put pos .mst _ _ _).bind fun _ => ?_
      rw [← Bool.or_false b]
      refine h.bind fun _ => ?_
      split
      · exact Asks.cons_met (quiet_putUserCall pos _ _) ‹_›
      · exact asks_throw (.params _) (Bool.eq_false_iff.mpr ‹_›) [] false
    | data | param | typedConst | result => exact asks_report pos _ b
  · rename_i hother
    have hnone : callee.callNeeds ns = [] := by
      unfold Ident.callNeeds
      split
      · exact absurd ‹_› (hother _ _)
      · exact absurd ‹_› (hother _ _)
      · rfl
    rw [hnone]
    exact asks_report pos _ b

/-- An index asks the type of its base; if that can be indexed, also the size of the elements and
what its base and its indices ask. -/
theorem asks_index (mode : Mode) {pos : Pos} {base : Expr} {indices : List Expr}
    {ns ms : List Need} {b c : Bool} (hbase : Asks ns b (lower .address base))
    (hindices : ∀ dimensions : List Dimension, indices.length ≤ dimensions.length →
      Asks ms c (lowerIndices pos dimensions indices)) :
    Asks (.type base ::
        match base.indexed? indices.length with
        | some elem => .layout elem :: (ns ++ ms)
        | none => [])
      (b || c) (lower mode (.index pos base indices)) := by
  simp only [lower, indexedDimensions, bind_assoc]
  refine asks_typeOf fun t htype => ?_
  have hload : Quiet (loadElement mode (.index pos base indices)) := by
    cases mode with
    | value =>
      exact quiet_loadIndirect (t := Expr.indexedType t indices.length)
        (by simp [Expr.type?, htype]) _
    | address => exact quiet_pure ()
  -- what cannot be indexed is reported, and neither the base nor the indices are lowered
  have hreport (fault : CompileFault) : Asks [] (b || c)
      (report pos fault >>= fun _ => loadElement mode (.index pos base indices)) :=
    (asks_report pos fault _).then fun _ => hload
  unfold Expr.indexed?
  rw [htype]
  cases t with
  | array ranges elem =>
    by_cases hcount : indices.length = 0 ∨ ranges.length < indices.length
    · simp only [if_pos hcount]
      exact hreport _
    · simp only [if_neg hcount]
      cases hlayout : elem.hasLayout with
      | false => exact asks_throw (.layout elem) hlayout _ _
      | true =>
        refine Asks.cons_met ?_ hlayout
        refine hbase.bind fun _ => ?_
        exact (hindices _ (by rw [length_dimensionsOf]; omega)).then fun _ => hload
  | _ => exact hreport _

mutual

/-- What the walk over an expression asks; it records an error if there is a hole. -/
theorem asks_lower (mode : Mode) : ∀ e : Expr, Asks (e.needs mode) e.hasHole (lower mode e)
  | .missing => by
    cases mode <;> simpa only [lower, Expr.needs, Expr.hasHole] using asks_report _ _ _
  | .ident pos id => by
    cases mode with
    | value => simpa only [lower, Expr.needs, Expr.hasHole] using asks_identValue pos id
    | address =>
      simpa only [lower, identAddress, Expr.needs, Expr.hasHole] using quiet_put pos _ _ _ _
  | .index pos base indices => by
    rw [Expr.needs, Expr.hasHole]
    exact asks_index mode (asks_lower .address base) fun dimensions h =>
      asks_lowerIndices pos dimensions indices h
  | .field pos base f => by
    have hload : Quiet (match mode with
        | .value => loadIndirect (.field pos base f) "load value of record field"
        | .address => pure ()) := by
      cases mode with
      | value => exact quiet_loadIndirect rfl _
      | address => exact quiet_pure ()
    simp only [lower, Expr.needs, Expr.hasHole]
    exact (asks_lower .address base).then fun _ =>
      (quiet_putConstant pos .integer _ _).bind fun _ =>
        (quiet_put pos .adi 0 0 _).bind fun _ => hload
  | .deref pos base => by
    cases mode with
    | value =>
      simpa only [lower, Expr.needs, Expr.hasHole, Bool.or_false] using
        (asks_lower .value base).bind fun _ => asks_loadIndirect (.deref pos base) _
    | address =>
      simpa only [lower, Expr.needs, Expr.hasHole] using
        (asks_lower .value base).then fun _ => quiet_pure ()
  | .number pos x => by
    cases mode with
    | value => simpa only [lower, Expr.needs, Expr.hasHole] using quiet_numberValue pos x
    | address => simpa only [lower, Expr.needs, Expr.hasHole] using asks_report _ _ _
  | .string pos s => by
    cases mode with
    | value => simpa only [lower, Expr.needs, Expr.hasHole] using quiet_putConstant pos .string _ _
    | address => simpa only [lower, Expr.needs, Expr.hasHole] using asks_report _ _ _
  | .char pos code => by
    cases mode with
    | value => simpa only [lower, charValue, Expr.needs, Expr.hasHole] using quiet_put pos _ _ _ _
    | address => simpa only [lower, Expr.needs, Expr.hasHole] using asks_report _ _ _
  | .bool pos b => by
    cases mode with
    | value => simpa only [lower, boolValue, Expr.needs, Expr.hasHole] using quiet_put pos _ _ _ _
    | address => simpa only [lower, Expr.needs, Expr.hasHole] using asks_report _ _ _
  | .nil pos => by
    cases mode with
    | value => simpa only [lower, Expr.needs, Expr.hasHole] using quiet_putConstant pos .pointer _ _
    | address => simpa only [lower, Expr.needs, Expr.hasHole] using asks_report _ _ _
  | .addressOf pos base => by
    cases mode with
    | value => simpa only [lower, Expr.needs, Expr.hasHole] using asks_lower .address base
    | address => simpa only [lower, Expr.needs, Expr.hasHole] using asks_report pos _ _
  | .unary pos op operand => by
    cases mode with
    | value =>
      simpa only [lower, Expr.needs, Expr.hasHole, Bool.or_false] using
        (asks_lower .value operand).bind fun _ => asks_applyUnary pos op operand
    | address => simpa only [lower, Expr.needs, Expr.hasHole] using asks_report pos _ _
  | .binary pos op left right type => by
    cases mode with
    | value =>
      simpa only [lower, Expr.needs, Expr.hasHole, Bool.or_false] using
        (asks_lower .value left).bind fun _ =>
          (asks_lower .value right).bind fun _ => asks_applyBinary pos op left type
    | address => simpa only [lower, Expr.needs, Expr.hasHole] using asks_report pos _ _
  | .cast pos operand target => by
    cases mode with
    | value =>
      simpa only [lower, Expr.needs, Expr.hasHole, Bool.or_false] using
        (asks_lower .value operand).bind fun _ => asks_applyCast pos operand target
    | address => simpa only [lower, Expr.needs, Expr.hasHole] using asks_report pos _ _
  | .call pos callee args => by
    cases mode with
    | value =>
      simpa only [lower, Expr.needs, Expr.hasHole] using
        asks_invoke pos callee args (asks_lowerArgs args)
    | address => simpa only [lower, Expr.needs, Expr.hasHole] using asks_report pos _ _

private theorem asks_lowerIndices (pos : Pos) :
    ∀ (dimensions : List Dimension) (indices : List Expr),
    indices.length ≤ dimensions.length →
    Asks (Expr.valueNeeds indices) (Expr.anyHole indices) (lowerIndices pos dimensions indices)
  | d :: dimensions, index :: indices, h => by
    simp only [lowerIndices, Expr.valueNeeds, Expr.anyHole]
    exact (asks_lower .value index).bind fun _ => (quiet_scaleIndex pos d).bind fun _ =>
      asks_lowerIndices pos dimensions indices (by simpa using h)
  | [], [], _ => by simpa only [lowerIndices, Expr.valueNeeds, Expr.anyHole] using quiet_pure ()
  | _ :: _, [], _ => by simpa only [lowerIndices, Expr.valueNeeds, Expr.anyHole] using quiet_pure ()

private theorem asks_lowerArgs : ∀ args : List Arg,
    Asks (Arg.needs args) (Arg.anyHole args) (lowerArgs args)
  | [] => by simpa only [lowerArgs, Arg.needs, Arg.anyHole] using quiet_pure ()
  | .mk e byRef :: rest => by
    simp only [lowerArgs, Arg.needs, Arg.anyHole]
    exact (asks_lower (if byRef then .address else .value) e).bind fun _ => asks_lowerArgs rest

end

/-! ## Statements -/

private theorem quiet_noteTop (a : Nat) (c : String) : Quiet (noteTop a c) :=
  (quiet_onImage {} _).bind fun _ => quiet_pure ()

private theorem quiet_noteExit (address : Option Nat) : Quiet (noteExit address) := by
  refine quiet_modify fun g => ?_
  split
  · exact Nat.le_refl _
  · exact Nat.le_refl _

/-- The end of a jump forward. -/
theorem quiet_patchHere (pos : Pos) (address : Option Nat) :
    Quiet (nextAddress >>= patch pos address) :=
  quiet_nextAddress.bind fun _ => quiet_patch pos address _

mutual

/-- What the walk over a statement asks; it records an error if there is a hole. -/
theorem asks_lowerStmt : ∀ s : Stmt, Asks s.needs s.hasHole (lowerStmt s)
  | .missing => by
    simpa only [lowerStmt, Stmt.needs, Stmt.hasHole] using quiet_pure ()
  | .block pos body => by
    simpa only [lowerStmt, Stmt.needs, Stmt.hasHole] using asks_lowerStmts body
  | .assign pos target value => by
    simp only [lowerStmt, Stmt.needs, Stmt.hasHole]
    rw [← Bool.or_false value.hasHole]
    refine (asks_lower .address target).bind fun _ => (asks_lower .value value).bind fun _ =>
      asks_typeOf fun t _ => ?_
    split
    · exact quiet_put pos .sti _ 0 _
    · exact asks_report pos _ _
  | .call pos callee args => by
    have hcall := asks_invoke pos callee args (asks_lowerArgs args)
    simp only [lowerStmt, Stmt.needs, Stmt.hasHole]
    cases callee.symbol.type with
    | subprogram params result =>
      by_cases hvoid : result.isVoid = true
      · simp only [if_pos hvoid]
        exact hcall
      · simp only [if_neg hvoid]
        exact asks_report pos _ _
    | _ => exact hcall
  | .cond pos test yes no => by
    simp only [lowerStmt, Stmt.needs, Stmt.hasHole]
    refine (asks_lower .value test).bind fun _ => (quiet_emit pos .fjp 0 0 _).bind fun skipThen =>
      (asks_lowerStmt yes).bind fun _ => ?_
    split
    · exact (quiet_emit pos .ujp 0 0 _).bind fun skipElse =>
        quiet_nextAddress.bind fun _ => (quiet_patch pos skipThen _).bind fun _ =>
        (asks_lowerStmt no).then fun _ => quiet_patchHere pos skipElse
    · have hno : no = .missing := by
        cases no <;> simp_all [Stmt.isMissing]
      rw [hno]
      exact quiet_patchHere pos skipThen
  | .whileDo pos test body => by
    simp only [lowerStmt, Stmt.needs, Stmt.hasHole]
    exact quiet_nextAddress.bind fun top => (asks_lower .value test).bind fun _ =>
      (quiet_noteTop top _).bind fun _ => (quiet_emit pos .fjp 0 0 _).bind fun leave =>
      (asks_lowerStmt body).then fun _ => (quiet_put pos .ujp 0 _ _).bind fun _ =>
      quiet_patchHere pos leave
  | .repeatUntil pos body test => by
    simp only [lowerStmt, Stmt.needs, Stmt.hasHole]
    exact quiet_nextAddress.bind fun top => (asks_lowerStmts body).bind fun _ =>
      (quiet_noteTop top _).bind fun _ => (asks_lower .value test).then fun _ =>
      quiet_put pos .fjp 0 _ _
  | .forTo pos counter first last down body => by
    simp only [lowerStmt, Stmt.needs, Stmt.hasHole]
    cases hcode : counter.symbol.type.code? with
    | none => exact asks_report pos _ _
    | some code =>
      -- a counter of a simple type asks nothing
      have hvalue : Quiet (identValue {} counter) := by
        have h := asks_identValue {} counter
        simpa [Ident.needs, hcode] using h
      have haddress : Quiet (identAddress {} counter) := quiet_put {} _ _ _ _
      have hclose (top : Nat) (done : Option Nat) (step : Opcode) (c : String) :
          Quiet (do
            identAddress {} counter
            identValue {} counter
            put pos step (operandOfCode code) 0 c
            put pos .sti (operandOfCode code) 0 ("store into " ++ counter.symbol.name)
            put pos .ujp 0 (Int64.ofNat top) "jump to top of loop"
            nextAddress >>= patch pos done) :=
        haddress.bind fun _ => hvalue.bind fun _ => (quiet_put pos step _ 0 c).bind fun _ =>
          (quiet_put pos .sti _ 0 _).bind fun _ => (quiet_put pos .ujp 0 _ _).bind fun _ =>
          quiet_patchHere pos done
      refine haddress.bind fun _ => (asks_lower .value first).bind fun _ =>
        (quiet_put pos .sti _ 0 _).bind fun _ => quiet_nextAddress.bind fun top =>
        hvalue.bind fun _ => (asks_lower .value last).bind fun _ =>
        (quiet_put pos _ _ 0 _).bind fun _ => (quiet_emit pos .tjp 0 0 _).bind fun done =>
        (asks_lowerStmt body).then fun _ => ?_
      cases down with
      | true => exact hclose top done .dec _
      | false => exact hclose top done .inc _
  | .exit pos => by
    simpa only [lowerStmt, Stmt.needs, Stmt.hasHole] using
      (quiet_emit pos .ujp 0 0 _).bind fun address => quiet_noteExit address

private theorem asks_lowerStmts : ∀ body : List Stmt,
    Asks (Stmt.allNeeds body) (Stmt.anyHole body) (lowerStmts body)
  | [] => by simpa only [lowerStmts, Stmt.allNeeds, Stmt.anyHole] using quiet_pure ()
  | s :: rest => by
    simp only [lowerStmts, Stmt.allNeeds, Stmt.anyHole]
    exact (asks_lowerStmt s).bind fun _ => asks_lowerStmts rest

end

/-! ## Subprograms -/

private theorem quiet_initialiseWords (tc : TypedConst) (base i : Nat) (codes : List UInt8) :
    Quiet (initialiseWords tc base i codes) := by
  induction codes generalizing i with
  | nil => exact quiet_pure ()
  | cons code rest ih =>
    exact (quiet_put tc.pos .lda 0 _ _).bind fun _ =>
      (quiet_putConstant tc.pos .pointer _ _).bind fun _ =>
      (quiet_put tc.pos .ldi _ 0 _).bind fun _ => (quiet_put tc.pos .sti _ 0 _).bind fun _ =>
      ih (i + 1)

private theorem asks_initialise (tc : TypedConst) :
    Asks [.codes tc.symbol.type] false (initialise tc) := by
  unfold initialise
  cases hcodes : tc.symbol.type.codes? with
  | none => exact asks_throw (.codes tc.symbol.type) (by simp [Need.met, hcodes]) [] false
  | some codes =>
    refine Asks.cons_met ?_ (by simp [Need.met, hcodes])
    simp only
    split
    · exact asks_report tc.pos _ _
    · refine (quiet_onImage tc.pos _).bind fun base? => ?_
      split
      · exact quiet_initialiseWords tc _ 0 codes
      · exact quiet_pure ()

private theorem asks_initialiseAll : ∀ tcs : List TypedConst,
    Asks (tcs.map fun tc => .codes tc.symbol.type) false (initialiseAll tcs)
  | [] => quiet_pure ()
  | tc :: rest => (asks_initialise tc).bind fun _ => asks_initialiseAll rest

private theorem quiet_patchAll (pos : Pos) (target : Nat) : ∀ addresses : List Nat,
    Quiet (patchAll pos target addresses)
  | [] => quiet_pure ()
  | a :: rest => (quiet_patch pos (some a) target).bind fun _ => quiet_patchAll pos target rest

private theorem quiet_enterAt (pos : Pos) (sym : Symbol) (entry : Nat) :
    Quiet (enterAt pos sym entry) := by
  refine quiet_get.bind fun _ => Quiet.bind (quiet_modify ?_) fun _ => quiet_patchAll pos _ _
  exact fun _ => Nat.le_refl _

private theorem quiet_openExits : Quiet openExits := by
  refine quiet_modify ?_
  exact fun _ => Nat.le_refl _

private theorem quiet_resultCode (h : SubprogramHeader) : Quiet (resultCode h) := by
  unfold resultCode
  split
  · split
    · exact quiet_pure _
    · exact (asks_report h.pos _ false).bind fun _ => quiet_pure 0
  · exact quiet_pure _

private theorem quiet_closeExits : Quiet closeExits := by
  rintro ⟨im, errors, exits, entries, pending⟩
  cases exits <;> exact .passed (by simp) (Nat.le_refl _) (by simp)

private theorem asks_lowerHeader (h : SubprogramHeader) :
    Asks h.needs (Stmt.anyHole h.body) (lowerHeader h) := by
  have hrest (entry : Nat) : Asks h.needs (Stmt.anyHole h.body) (do
      put h.pos .ent 0 h.frameSize s!"start of {h.name} -----------------"
      initialiseAll h.typedConsts
      lowerStmts h.body
      let exits ← closeExits
      let leave ← nextAddress
      let code ← resultCode h
      put h.pos .rtn (operandOfCode code) 0 ("end of " ++ h.name)
      patchAll h.pos leave exits
      return entry) :=
    (quiet_put h.pos .ent 0 _ _).bind fun _ => (asks_initialiseAll h.typedConsts).bind fun _ =>
      (asks_lowerStmts h.body).then fun _ => quiet_closeExits.bind fun exits =>
      quiet_nextAddress.bind fun leave => (quiet_resultCode h).bind fun code =>
      (quiet_put h.pos .rtn _ 0 _).bind fun _ => (quiet_patchAll h.pos leave exits).bind fun _ =>
      quiet_pure entry
  unfold lowerHeader
  refine quiet_nextAddress.bind fun entry => ?_
  cases h.symbol with
  | some sym => exact (quiet_enterAt h.pos sym entry).bind fun _ => hrest entry
  | none => exact hrest entry

mutual

/-- What the walk over a subprogram asks; it records an error if there is a hole. -/
theorem asks_lowerSubprogram : ∀ s : Subprogram, Asks s.needs s.hasHole (lowerSubprogram s)
  | .mk h nested => by
    simp only [lowerSubprogram, Subprogram.needs, Subprogram.hasHole, Subprogram.postorder,
      List.flatMap_append, List.any_append, List.flatMap_singleton, List.any_cons, List.any_nil,
      Bool.or_false]
    exact quiet_openExits.bind fun _ => (asks_lowerSubprograms nested).bind fun _ =>
      asks_lowerHeader h

private theorem asks_lowerSubprograms : ∀ subs : List Subprogram,
    Asks ((Subprogram.postorderOfAll subs).flatMap SubprogramHeader.needs)
      ((Subprogram.postorderOfAll subs).any fun h => Stmt.anyHole h.body) (lowerSubprograms subs)
  | [] => by
    simpa only [lowerSubprograms, Subprogram.postorderOfAll, List.flatMap_nil, List.any_nil] using
      quiet_pure ()
  | s :: rest => by
    simp only [lowerSubprograms, Subprogram.postorderOfAll, List.flatMap_append, List.any_append]
    exact (asks_lowerSubprogram s).bind fun _ => asks_lowerSubprograms rest

end

private theorem asks_lowerProgram (main : Subprogram) :
    Asks main.needs main.hasHole (lowerProgram main) :=
  (asks_lowerSubprogram main).then fun entry =>
    (quiet_modify fun g => by simp).bind fun _ => quiet_nextAddress.bind fun _ =>
    (quiet_onImage {} _).bind fun _ => (quiet_put {} .mst 0 0 _).bind fun _ =>
    (quiet_put {} .cup 0 _ _).bind fun _ => quiet_put {} .stp 0 0 _

end Gen

/-- What compilation of a program with missing expressions ends with: never with an image.  It
breaks off exactly if something that the walk asks of the tree is not there, such as the type of a
missing value in an assignment; and otherwise there are errors. -/
theorem missing_expression_reported_or_fatal (natives : Registry) (main : Subprogram)
    (hole : main.hasHole = true) :
    (∀ im, compile natives (some main) ≠ .image im) ∧
      (compile natives (some main) = .brokenOff ↔ ∃ n ∈ main.needs, n.met = false) ∧
      ((∀ n ∈ main.needs, n.met = true) →
        ∃ errors, compile natives (some main) = .errors errors ∧ errors ≠ #[]) := by
  have h := Gen.asks_lowerProgram main { image := Image.empty natives }
  unfold compile
  simp only
  generalize Gen.lowerProgram main { image := Image.empty natives } = r at h
  cases h with
  | broke hn hunmet =>
    refine ⟨by simp, by simpa using ⟨_, hn, hunmet⟩, fun hall => ?_⟩
    simp [hall _ hn] at hunmet
  | @passed a g hmet hle hlt =>
    have hsize : 0 < g.errors.size := Nat.lt_of_le_of_lt (Nat.zero_le _) (hlt hole)
    have hne : g.errors ≠ #[] := Array.ne_empty_of_size_pos hsize
    have hempty : g.errors.isEmpty = false := by simpa using hne
    simp only [hempty, Bool.false_eq_true, if_false]
    refine ⟨by simp, ?_, fun _ => ⟨_, rfl, hne⟩⟩
    simpa using hmet

/-- A variable, as a scope declares it first. -/
def firstVariable : Symbol := ⟨0, "x", .data, .integer, 5, false⟩

/-- The scope that declares it. -/
def firstScope : Scope := { ({} : Scope).define firstVariable with varWords := 1 }

/-- A program of one statement over the variable. -/
def programOf (s : Stmt) : Subprogram := firstScope.subprogram .program none [s] []

/-- A loop without a condition, in which a missing designator is assigned. -/
def gapingLoop : Stmt :=
  .whileDo {} .missing (.assign {} .missing (.ident {} ⟨firstVariable, 0⟩))

/-- The loop is reported, though both its condition and a designator in it are missing. -/
theorem missing_expression_reported_or_fatal_loop :
    (programOf gapingLoop).hasHole = true ∧
      ∃ errors, compile .empty (some (programOf gapingLoop)) = .errors errors ∧ errors ≠ #[] :=
  ⟨by decide, (missing_expression_reported_or_fatal .empty (programOf gapingLoop) (by decide)).2.2
    (by decide)⟩

/-- A missing value is not reported: its type is asked for the store, and the walk breaks off. -/
theorem missing_value_breaks_off :
    ({} : Scope).addVar 0 "x" .integer = .ok (firstVariable, firstScope) ∧
      compile .empty (some (programOf (.assign {} (.ident {} ⟨firstVariable, 0⟩) .missing))) =
        .brokenOff :=
  ⟨rfl, rfl⟩

end PCode
