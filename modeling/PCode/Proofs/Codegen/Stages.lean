import PCode.Proofs.Codegen.Item

/-!
# Indexing in stages

An array can be indexed through all its dimensions at once, or through some of
them at first and through others of what remains.  The code is the same: the
strides, lower bounds and types of the dimensions that remain are those that
they have in the whole array, and constants are interned in the same order.  Only the
positions of errors can differ, since every stage has its own.

Main definitions and results:

- `Generation.Alike`: two generations differ at most in the positions of their errors.
- `Gen.Matches`: two parts of a walk do the same but for positions.
- `Gen.matches_lower`: so does the walk over one expression, from generations that are alike.
- `Expr.inStages`: an array indexed in stages.
- `staged_index_lowers_alike`: it has the type and the code of one that is indexed at once.
-/

namespace PCode

/-- Two generations that differ at most in the positions of their errors. -/
structure Generation.Alike (g g' : Generation) : Prop where
  image : g.image = g'.image
  faults : g.errors.map CompileError.fault = g'.errors.map CompileError.fault
  exits : g.exits = g'.exits
  entries : g.entries = g'.entries
  pending : g.pending = g'.pending

namespace Generation.Alike

private theorem refl (g : Generation) : g.Alike g := ⟨rfl, rfl, rfl, rfl, rfl⟩

private theorem trans {g₁ g₂ g₃ : Generation} (h : g₁.Alike g₂) (h' : g₂.Alike g₃) : g₁.Alike g₃ :=
  ⟨h.image.trans h'.image, h.faults.trans h'.faults, h.exits.trans h'.exits,
    h.entries.trans h'.entries, h.pending.trans h'.pending⟩

end Generation.Alike

namespace Gen

/-! ## Parts of a walk that match -/

/-- Two results that differ at most in the positions of errors: both parts of a walk succeed, or
both break off. -/
inductive Agree {α : Type} :
    EStateM.Result Untyped Generation α → EStateM.Result Untyped Generation α → Prop where
  | ok {a : α} {g g' : Generation} : g.Alike g' → Agree (.ok a g) (.ok a g')
  | error {e : Untyped} {g g' : Generation} : g.Alike g' → Agree (.error e g) (.error e g')

private theorem Agree.trans {α : Type} {r₁ r₂ r₃ : EStateM.Result Untyped Generation α}
    (h : Agree r₁ r₂) (h' : Agree r₂ r₃) : Agree r₁ r₃ := by
  cases h with
  | ok h =>
    cases h' with
    | ok h' => exact .ok (h.trans h')
  | error h =>
    cases h' with
    | error h' => exact .error (h.trans h')

/-- Two parts of a walk do the same but for the positions of errors. -/
def Matches {α : Type} (x y : Gen α) : Prop :=
  ∀ g g' : Generation, g.Alike g' → Agree (x g) (y g')

section

variable {α β : Type} {x y z : Gen α}

private theorem Matches.trans (h : Matches x y) (h' : Matches y z) : Matches x z :=
  fun g g' hg => (h g g' hg).trans (h' g' g' (.refl g'))

private theorem Matches.bind {f k : α → Gen β} (h : Matches x y) (hf : ∀ a, Matches (f a) (k a)) :
    Matches (x >>= f) (y >>= k) := by
  intro g g' hg
  have hxy := h g g' hg
  change Agree (EStateM.bind x f g) (EStateM.bind y k g')
  unfold EStateM.bind
  generalize x g = r at hxy
  generalize y g' = r' at hxy
  cases hxy with
  | ok h₁ => exact hf _ _ _ h₁
  | error h₁ => exact .error h₁

private theorem matches_pure (a : α) : Matches (pure a) (pure a) := fun _ _ h => .ok h

private theorem matches_throw : Matches (throw ⟨⟩ : Gen α) (throw ⟨⟩) := fun _ _ h => .error h

/-- A fault is the same at any position. -/
theorem matches_report (p q : Pos) (fault : CompileFault) :
    Matches (report p fault) (report q fault) := by
  intro g g' h
  refine .ok ⟨h.image, ?_, h.exits, h.entries, h.pending⟩
  simpa only [Array.map_push] using congrArg (Array.push · fault) h.faults

private theorem matches_modify {k : Generation → Generation}
    (h : ∀ g g', g.Alike g' → (k g).Alike (k g')) : Matches (modify k) (modify k) :=
  fun g g' hg => .ok (h g g' hg)

private theorem matches_get_bind {f k : Generation → Gen α}
    (h : ∀ g g' : Generation, g.Alike g' → Matches (f g) (k g')) :
    Matches (get >>= f) (get >>= k) :=
  fun g g' hg => h g g' hg g g' hg

private theorem matches_onImage (p q : Pos) (b : Image.Build α) :
    Matches (onImage p b) (onImage q b) := by
  rintro ⟨im, errors, exits, entries, pending⟩ ⟨im', errors', exits', entries', pending'⟩
    ⟨himage, hfaults, hexits, hentries, hpending⟩
  simp only at himage hfaults
  subst himage
  simp only [onImage]
  cases b im with
  | ok a im₁ => exact .ok ⟨rfl, hfaults, hexits, hentries, hpending⟩
  | error e im₁ =>
    refine .ok ⟨rfl, ?_, hexits, hentries, hpending⟩
    simpa only [Array.map_push] using congrArg (Array.push · (CompileFault.image e)) hfaults

end

private theorem matches_emit (p q : Pos) (op : Opcode) (a b : Int64) (c : String) :
    Matches (emit p op a b c) (emit q op a b c) :=
  matches_onImage p q _

private theorem matches_put (p q : Pos) (op : Opcode) (a b : Int64) (c : String) :
    Matches (put p op a b c) (put q op a b c) :=
  (matches_emit p q op a b c).bind fun _ => matches_pure ()

private theorem matches_putConstant (p q : Pos) (code : TypeCode) (v : Value) (c : String) :
    Matches (putConstant p code v c) (putConstant q code v c) :=
  ((matches_onImage p q _).bind fun _ => matches_pure _).bind fun _ => matches_put p q _ _ _ c

/-- Expressions of one type have it both or lack it both. -/
theorem matches_typeOf {e e' : Expr} (h : e.type? = e'.type?) : Matches (typeOf e) (typeOf e') := by
  unfold typeOf
  rw [h]
  cases e'.type? with
  | some t => exact matches_pure t
  | none => exact matches_throw

/-! ## Identifiers and operators -/

private theorem matches_wordsByRef (pos : Pos) (id : Ident) (i : Nat) (codes : List UInt8) :
    Matches (wordsByRef pos id i codes) (wordsByRef pos id i codes) := by
  induction codes generalizing i with
  | nil => exact matches_pure ()
  | cons code rest ih =>
    have hload := (matches_put pos pos .ldi (operandOfCode code) 0
      s!"value of {id.symbol.name} at index {i}").bind fun _ => ih (i + 1)
    simp only [wordsByRef]
    refine (matches_put pos pos .lva id.level id.symbol.address _).bind fun _ => ?_
    split
    · exact (matches_putConstant pos pos .integer _ _).bind fun _ =>
        (matches_put pos pos .adi 0 0 "").bind fun _ => hload
    · exact hload

private theorem matches_wordsDirect (pos : Pos) (id : Ident) (i count : Nat) :
    Matches (wordsDirect pos id i count) (wordsDirect pos id i count) := by
  induction count generalizing i with
  | zero => exact matches_pure ()
  | succ count ih => exact (matches_put pos pos .lvi id.level _ _).bind fun _ => ih (i + 1)

private theorem matches_identValue (pos : Pos) (id : Ident) :
    Matches (identValue pos id) (identValue pos id) := by
  unfold identValue
  simp only
  split
  · exact matches_report pos pos _
  split
  · split
    · exact (matches_put pos pos .lva _ _ _).bind fun _ => matches_put pos pos .ldi _ _ _
    · split
      · exact matches_wordsByRef pos id 0 _
      · exact matches_throw
  · split
    · split
      · exact matches_put pos pos _ _ _ _
      · exact matches_report pos pos _
    · split
      · exact matches_wordsDirect pos id 0 _
      · exact matches_throw

private theorem matches_applyBinary (pos : Pos) (op : BinaryOp) (left : Expr) (type : Ty) :
    Matches (applyBinary pos op left type) (applyBinary pos op left type) := by
  unfold applyBinary
  split
  · split
    · exact matches_put pos pos _ 0 0 _
    · exact matches_report pos pos _
  · split
    · exact matches_report pos pos _
    · refine (matches_typeOf rfl).bind fun t => ?_
      split
      · exact matches_put pos pos _ _ 0 _
      · exact matches_report pos pos _

private theorem matches_applyUnary (pos : Pos) (op : UnaryOp) (operand : Expr) :
    Matches (applyUnary pos op operand) (applyUnary pos op operand) := by
  cases op with
  | not => exact matches_put pos pos .not 0 0 _
  | neg =>
    refine (matches_typeOf rfl).bind fun t => ?_
    split
    · exact matches_put pos pos .ngr 0 0 _
    · exact matches_put pos pos .ngi 0 0 _
  | unknown n => exact matches_report pos pos _

private theorem matches_applyCast (pos : Pos) (operand : Expr) (target : Ty) :
    Matches (applyCast pos operand target) (applyCast pos operand target) := by
  refine (matches_typeOf rfl).bind fun t => ?_
  split
  · exact matches_put pos pos .flt 0 0 _
  · split
    · exact matches_pure ()
    · exact matches_report pos pos _

/-- The word at an address is loaded alike for expressions of one type. -/
theorem matches_loadIndirect {e e' : Expr} (h : e.type? = e'.type?) (c : String) :
    Matches (loadIndirect e c) (loadIndirect e' c) := by
  refine (matches_typeOf h).bind fun t => ?_
  split
  · exact matches_put e.pos e'.pos .ldi _ 0 c
  · exact matches_report e.pos e'.pos _

private theorem matches_numberValue (pos : Pos) (x : Float) :
    Matches (numberValue pos x) (numberValue pos x) := by
  unfold numberValue
  split
  · exact matches_putConstant pos pos .integer _ _
  · exact matches_putConstant pos pos .real _ _

/-! ## Indices and calls -/

private theorem matches_scaleIndex (p q : Pos) (d : Dimension) :
    Matches (scaleIndex p d) (scaleIndex q d) :=
  (matches_putConstant p q .integer _ _).bind fun _ =>
    (matches_put p q .sbi 0 0 _).bind fun _ => matches_put p q .ixa 0 d.stride _

private theorem matches_indexedDimensions (p q : Pos) {base base' : Expr}
    (h : base.type? = base'.type?) (count : Nat) :
    Matches (indexedDimensions p base count) (indexedDimensions q base' count) := by
  refine (matches_typeOf h).bind fun t => ?_
  split
  · split
    · exact (matches_report p q _).bind fun _ => matches_pure none
    · split
      · exact matches_pure _
      · exact matches_throw
  · exact (matches_report p q _).bind fun _ => matches_pure none

/-- What follows the address of an element: its value is loaded if it is asked for. -/
def loadElement (mode : Mode) (e : Expr) : Gen Unit :=
  match mode with
  | .value => loadIndirect e "load value of array element"
  | .address => pure ()

private theorem matches_loadElement (mode : Mode) {e e' : Expr} (h : e.type? = e'.type?) :
    Matches (loadElement mode e) (loadElement mode e') := by
  cases mode with
  | value => exact matches_loadIndirect h _
  | address => exact matches_pure ()

/-- The code of an index depends on its base only through the base's type and code. -/
theorem matches_index (mode : Mode) {p q : Pos} {base base' : Expr} {indices : List Expr}
    (htype : base.type? = base'.type?)
    (hbase : Matches (lower .address base) (lower .address base'))
    (hindices : ∀ dimensions : List Dimension,
      Matches (lowerIndices p dimensions indices) (lowerIndices q dimensions indices)) :
    Matches (lower mode (.index p base indices)) (lower mode (.index q base' indices)) := by
  have hload : Matches (loadElement mode (.index p base indices))
      (loadElement mode (.index q base' indices)) :=
    matches_loadElement mode (by simp only [Expr.type?, htype])
  simp only [lower]
  refine (matches_indexedDimensions p q htype indices.length).bind fun dimensions? => ?_
  cases dimensions? with
  | some dimensions =>
    exact hbase.bind fun _ => (hindices dimensions).bind fun _ => hload
  | none => exact hload

private theorem matches_putUserCall (pos : Pos) (sym : Symbol) (words : Int64) :
    Matches (putUserCall pos sym words) (putUserCall pos sym words) := by
  unfold putUserCall
  refine matches_get_bind fun g g' h => ?_
  rw [h.entries]
  refine (matches_emit pos pos .cup words _ ("call " ++ sym.name)).bind fun address => ?_
  split
  · refine matches_modify fun g g' h => ⟨h.image, h.faults, h.exits, h.entries, ?_⟩
    simp only [h.pending]
  · exact matches_pure ()

private theorem matches_invoke (pos : Pos) (callee : Ident) (args : List Arg) {arguments : Gen Unit}
    (h : Matches arguments arguments) :
    Matches (invoke pos callee args arguments) (invoke pos callee args arguments) := by
  unfold invoke
  simp only
  split
  · split
    · exact h.bind fun _ => matches_put pos pos .csp _ _ _
    · refine (matches_put pos pos .mst _ _ _).bind fun _ => h.bind fun _ => ?_
      split
      · exact matches_putUserCall pos _ _
      · exact matches_throw
    · exact matches_report pos pos _
  · exact matches_report pos pos _

/-! ## The walk -/

mutual

/-- The walk over an expression does the same from generations that are alike. -/
theorem matches_lower (mode : Mode) : ∀ e : Expr, Matches (lower mode e) (lower mode e)
  | .missing => by
    cases mode <;> simpa only [lower] using matches_report _ _ _
  | .ident pos id => by
    cases mode with
    | value => simpa only [lower] using matches_identValue pos id
    | address => simpa only [lower, identAddress] using matches_put pos pos _ _ _ _
  | .index pos base indices =>
    matches_index mode rfl (matches_lower .address base) fun dimensions =>
      matches_lowerIndices pos pos dimensions indices
  | .field pos base f => by
    simp only [lower]
    refine (matches_lower .address base).bind fun _ =>
      (matches_putConstant pos pos .integer _ _).bind fun _ =>
      (matches_put pos pos .adi 0 0 _).bind fun _ => ?_
    cases mode with
    | value => exact matches_loadIndirect rfl _
    | address => exact matches_pure ()
  | .deref pos base => by
    simp only [lower]
    refine (matches_lower .value base).bind fun _ => ?_
    cases mode with
    | value => exact matches_loadIndirect rfl _
    | address => exact matches_pure ()
  | .number pos x => by
    cases mode with
    | value => simpa only [lower] using matches_numberValue pos x
    | address => simpa only [lower] using matches_report _ _ _
  | .string pos s => by
    cases mode with
    | value => simpa only [lower] using matches_putConstant pos pos .string _ _
    | address => simpa only [lower] using matches_report _ _ _
  | .char pos code => by
    cases mode with
    | value => simpa only [lower, charValue] using matches_put pos pos _ _ _ _
    | address => simpa only [lower] using matches_report _ _ _
  | .bool pos b => by
    cases mode with
    | value => simpa only [lower, boolValue] using matches_put pos pos _ _ _ _
    | address => simpa only [lower] using matches_report _ _ _
  | .nil pos => by
    cases mode with
    | value => simpa only [lower] using matches_putConstant pos pos .pointer _ _
    | address => simpa only [lower] using matches_report _ _ _
  | .addressOf pos base => by
    cases mode with
    | value => simpa only [lower] using matches_lower .address base
    | address => simpa only [lower] using matches_report _ _ _
  | .unary pos op operand => by
    cases mode with
    | value =>
      simpa only [lower] using
        (matches_lower .value operand).bind fun _ => matches_applyUnary pos op operand
    | address => simpa only [lower] using matches_report _ _ _
  | .binary pos op left right type => by
    cases mode with
    | value =>
      simpa only [lower] using
        (matches_lower .value left).bind fun _ =>
          (matches_lower .value right).bind fun _ => matches_applyBinary pos op left type
    | address => simpa only [lower] using matches_report _ _ _
  | .cast pos operand target => by
    cases mode with
    | value =>
      simpa only [lower] using
        (matches_lower .value operand).bind fun _ => matches_applyCast pos operand target
    | address => simpa only [lower] using matches_report _ _ _
  | .call pos callee args => by
    cases mode with
    | value => simpa only [lower] using matches_invoke pos callee args (matches_lowerArgs args)
    | address => simpa only [lower] using matches_report _ _ _

private theorem matches_lowerIndices (p q : Pos) :
    ∀ (dimensions : List Dimension) (indices : List Expr),
    Matches (lowerIndices p dimensions indices) (lowerIndices q dimensions indices)
  | d :: dimensions, index :: indices => by
    simpa only [lowerIndices] using
      (matches_lower .value index).bind fun _ =>
        (matches_scaleIndex p q d).bind fun _ => matches_lowerIndices p q dimensions indices
  | [], _ => by simpa only [lowerIndices] using matches_pure ()
  | _ :: _, [] => by simpa only [lowerIndices] using matches_pure ()

private theorem matches_lowerArgs : ∀ args : List Arg, Matches (lowerArgs args) (lowerArgs args)
  | [] => by simpa only [lowerArgs] using matches_pure ()
  | .mk e byRef :: rest => by
    simpa only [lowerArgs] using
      (matches_lower (if byRef then .address else .value) e).bind fun _ => matches_lowerArgs rest

end

/-! ## Dimensions -/

/-- The dimensions of what remains of an array are the last of its own. -/
theorem dimensionsOf_drop (size : Int64) (ranges : List IndexRange) (count : Nat) :
    dimensionsOf (ranges.drop count) (Ty.stridesOf size (ranges.drop count)) =
      (dimensionsOf ranges (Ty.stridesOf size ranges)).drop count := by
  induction ranges generalizing count with
  | nil => simp [dimensionsOf, Ty.stridesOf]
  | cons r ranges ih =>
    cases count with
    | zero => rfl
    | succ count =>
      rw [List.drop_succ_cons, ih]
      rfl

/-- Indices are taken one after another, each with its dimension. -/
theorem matches_lowerIndices_append (p q r : Pos) (dimensions : List Dimension)
    (first second : List Expr) (h : first.length ≤ dimensions.length) :
    Matches
      (lowerIndices p dimensions first >>= fun _ =>
        lowerIndices q (dimensions.drop first.length) second)
      (lowerIndices r dimensions (first ++ second)) := by
  induction first generalizing dimensions with
  | nil =>
    simpa only [lowerIndices, pure_bind, List.length_nil, List.drop_zero, List.nil_append] using
      matches_lowerIndices q r dimensions second
  | cons index first ih =>
    cases dimensions with
    | nil => simp at h
    | cons d dimensions =>
      simp only [lowerIndices, List.cons_append, bind_assoc, List.length_cons, List.drop_succ_cons]
      exact (matches_lower .value index).bind fun _ =>
        (matches_scaleIndex p r d).bind fun _ => ih dimensions (by simpa using h)

/-- The code for an index into an array of known type: that for the base, and that for the indices
with the dimensions of the type. -/
theorem lower_index {pos : Pos} {base : Expr} {indices : List Expr} {ranges : List IndexRange}
    {elem : Ty} (htype : base.type? = some (.array ranges elem)) (hne : indices ≠ [])
    (hcount : indices.length ≤ ranges.length) (mode : Mode) :
    lower mode (.index pos base indices) =
      if elem.hasLayout then
        lower .address base >>= fun _ =>
        lowerIndices pos (dimensionsOf ranges (Ty.stridesOf elem.size ranges)) indices >>= fun _ =>
        loadElement mode (.index pos base indices)
      else throw ⟨⟩ := by
  have hcount' : ¬(indices.length = 0 ∨ ranges.length < indices.length) := by
    have := List.length_pos_iff.mpr hne
    omega
  simp only [lower, indexedDimensions, typeOf, htype, pure_bind, if_neg hcount']
  split
  · rfl
  · rfl

end Gen

/-! ## Stages -/

namespace Expr

/-- Two expressions of one type, whose addresses and values are lowered alike. -/
structure Alike (e e' : Expr) : Prop where
  type : e.type? = e'.type?
  code : ∀ mode : Gen.Mode, Gen.Matches (Gen.lower mode e) (Gen.lower mode e')

private theorem Alike.trans {e₁ e₂ e₃ : Expr} (h : Alike e₁ e₂) (h' : Alike e₂ e₃) : Alike e₁ e₃ :=
  ⟨h.type.trans h'.type, fun mode => (h.code mode).trans (h'.code mode)⟩

/-- An index into arrays that are alike. -/
theorem Alike.index {base base' : Expr} (h : Alike base base') (p q : Pos) (indices : List Expr) :
    Alike (index p base indices) (index q base' indices) :=
  ⟨by simp only [type?, h.type], fun mode =>
    Gen.matches_index mode h.type (h.code .address) fun dimensions =>
      Gen.matches_lowerIndices p q dimensions indices⟩

section

variable {base : Expr} {ranges : List IndexRange} {elem : Ty}

private theorem type?_index (htype : base.type? = some (.array ranges elem)) (pos : Pos)
    (indices : List Expr) :
    (index pos base indices).type? =
      some (if ranges.length ≤ indices.length then elem
        else .array (ranges.drop indices.length) elem) := by
  simp only [type?, htype, Option.map_some, indexedType]

/-- An index into what remains of an array is a longer index into the array. -/
theorem alike_index_index (htype : base.type? = some (.array ranges elem))
    {first second : List Expr} (hfirst : first ≠ []) (hsecond : second ≠ [])
    (hcount : first.length + second.length ≤ ranges.length) (p q r : Pos) :
    Alike (index q (index p base first) second) (index r base (first ++ second)) := by
  have hpos := List.length_pos_iff.mpr hsecond
  have hinner : (Expr.index p base first).type? =
      some (.array (ranges.drop first.length) elem) := by
    rw [type?_index htype, if_neg (by omega)]
  have heq : (Expr.index q (Expr.index p base first) second).type? =
      (Expr.index r base (first ++ second)).type? := by
    rw [type?_index hinner, type?_index htype]
    simp only [List.length_drop, List.length_append, List.drop_drop]
    by_cases hall : ranges.length ≤ first.length + second.length
    · rw [if_pos (by omega), if_pos hall]
    · rw [if_neg (by omega), if_neg hall]
  refine ⟨heq, fun mode => ?_⟩
  rw [Gen.lower_index hinner hsecond (by simp; omega),
    Gen.lower_index htype hfirst (by omega),
    Gen.lower_index htype (by simp [hfirst]) (by simpa using hcount)]
  split
  · -- the indices of both stages, between the base and the load
    simp only [Gen.loadElement, bind_assoc, pure_bind, Gen.dimensionsOf_drop]
    refine (Gen.matches_lower .address base).bind fun _ => ?_
    rw [← bind_assoc]
    exact (Gen.matches_lowerIndices_append p q r _ first second
      (by rw [Gen.length_dimensionsOf]; omega)).bind fun _ => Gen.matches_loadElement mode heq
  · exact Gen.matches_throw

end

/-- An array indexed in stages, each with its position and its indices. -/
def inStages (base : Expr) (stages : List (Pos × List Expr)) : Expr :=
  stages.foldl (fun e stage => index stage.1 e stage.2) base

/-- The indices of all stages. -/
def indicesOf (stages : List (Pos × List Expr)) : List Expr := stages.flatMap (·.2)

private theorem indicesOf_cons (stage : Pos × List Expr) (stages : List (Pos × List Expr)) :
    indicesOf (stage :: stages) = stage.2 ++ indicesOf stages :=
  List.flatMap_cons

private theorem Alike.inStages {e e' : Expr} (h : Alike e e') (stages : List (Pos × List Expr)) :
    Alike (e.inStages stages) (e'.inStages stages) := by
  induction stages generalizing e e' with
  | nil => exact h
  | cons stage stages ih => exact ih (h.index stage.1 stage.1 stage.2)

/-- Stages after a first one lengthen its index. -/
theorem alike_inStages_index {base : Expr} {ranges : List IndexRange} {elem : Ty}
    (htype : base.type? = some (.array ranges elem)) (stages : List (Pos × List Expr))
    (hne : ∀ stage ∈ stages, stage.2 ≠ []) {first : List Expr} (hfirst : first ≠ [])
    (hcount : first.length + (indicesOf stages).length ≤ ranges.length) (p q : Pos) :
    Alike ((index p base first).inStages stages) (index q base (first ++ indicesOf stages)) := by
  induction stages generalizing first p with
  | nil =>
    have hbase : Alike base base := ⟨rfl, fun mode => Gen.matches_lower mode base⟩
    rw [show indicesOf [] = [] from rfl, List.append_nil]
    exact hbase.index p q first
  | cons stage stages ih =>
    obtain ⟨r, second⟩ := stage
    simp only [indicesOf_cons, List.length_append] at hcount
    rw [indicesOf_cons, ← List.append_assoc]
    -- the first two stages are one, and those after it lengthen its index
    have hsecond : second ≠ [] := hne _ List.mem_cons_self
    have hmerge := alike_index_index htype hfirst hsecond
      (by omega : first.length + second.length ≤ ranges.length) p r r
    refine (hmerge.inStages stages).trans ?_
    exact ih (fun stage h => hne stage (List.mem_cons_of_mem _ h)) (by simp [hfirst])
      (by rw [List.length_append]; omega) r

end Expr

/-- An array indexed in stages, through one or more groups of its dimensions, has the type of the
array indexed at once by all the indices, and code is generated alike for both, for the address and
for the value: the same words, comments and constants, the same faults, and the same calls that
wait for an entry. -/
theorem staged_index_lowers_alike {base : Expr} {ranges : List IndexRange} {elem : Ty}
    (htype : base.type? = some (.array ranges elem)) (stages : List (Pos × List Expr))
    (hsome : stages ≠ []) (hne : ∀ stage ∈ stages, stage.2 ≠ [])
    (hcount : (Expr.indicesOf stages).length ≤ ranges.length) (pos : Pos) :
    (base.inStages stages).type? = (Expr.index pos base (Expr.indicesOf stages)).type? ∧
      ∀ (mode : Gen.Mode) (g : Generation),
        Gen.Agree (Gen.lower mode (base.inStages stages) g)
          (Gen.lower mode (.index pos base (Expr.indicesOf stages)) g) := by
  cases stages with
  | nil => exact absurd rfl hsome
  | cons stage stages =>
    rw [Expr.indicesOf_cons, List.length_append] at hcount
    have h := Expr.alike_inStages_index htype stages (fun s h => hne s (List.mem_cons_of_mem _ h))
      (hne stage List.mem_cons_self) hcount stage.1 pos
    rw [Expr.indicesOf_cons]
    exact ⟨h.type, fun mode g => h.code mode g g (.refl g)⟩

/-- A variable with an array of three dimensions. -/
def cubeVariable : Expr :=
  .ident ⟨1, 1⟩ ⟨⟨0, "cube", .data, .array [⟨0, 1⟩, ⟨-1, 1⟩, ⟨5, 6⟩] .integer, 5, false⟩, 0⟩

/-- A first index, and then two into the plane that it selects. -/
def cubeStages : List (Pos × List Expr) :=
  [(⟨1, 5⟩, [.char ⟨1, 6⟩ 1]),
    (⟨1, 9⟩, [.unary ⟨1, 10⟩ .neg (.bool ⟨1, 11⟩ true), .addressOf ⟨1, 13⟩ cubeVariable])]

/-- A cube indexed by one index and then by two is indexed by three, down to an integer. -/
theorem staged_index_lowers_alike_cube :
    cubeStages.length = 2 ∧ (cubeVariable.inStages cubeStages).type? = some .integer ∧
      ∀ (mode : Gen.Mode) (g : Generation),
        Gen.Agree (Gen.lower mode (cubeVariable.inStages cubeStages) g)
          (Gen.lower mode (.index ⟨1, 5⟩ cubeVariable (Expr.indicesOf cubeStages)) g) :=
  have htype : cubeVariable.type? = some (.array [⟨0, 1⟩, ⟨-1, 1⟩, ⟨5, 6⟩] .integer) := rfl
  have h := staged_index_lowers_alike htype cubeStages (by simp [cubeStages])
    (by simp [cubeStages]) (by decide) ⟨1, 5⟩
  ⟨rfl, h.1.trans rfl, h.2⟩

end PCode
