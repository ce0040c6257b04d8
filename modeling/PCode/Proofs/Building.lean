import PCode.Proofs.Image

/-!
# Building an image

An image is built by operations that append, intern, patch, annotate or freeze,
in any order and with any arguments.  What an earlier operation returned stays
valid whatever follows: an instruction keeps all but its second operand, and the
pool and the typed constants only grow.  Once the image is frozen, nothing
changes any more.

Main definitions and results:

- `BuildStep.apply`: an operation with its answer.
- `Image.after`, `Image.record`: an image after some operations, and their answers.
- `lastPatch`: the second operand that an instruction was last given.
- `Builds`, `BuildStep.builds`: what one operation can do.
- `Image.code_after`, `Image.after_of_frozen`: what any number of operations keeps.
- `built_image_only_grows`: the history of an image.
-/

namespace PCode

/-! ## Operations -/

/-- An operation on an image that is being built. -/
inductive BuildStep where
  | emit (opcode : UInt8) (operand1 operand2 : Int64) (comment : String)
  | patch (address operand2 : Int64)
  | constant (v : Value)
  | typed (words : Array Value)
  | start (address : Int64)
  | comment (address : Int64) (text : String)
  | freeze

/-- How an operation is answered. -/
inductive BuildAnswer where
  | done
  /-- the address, or index, of what was added -/
  | place (n : Nat)
  | refused (error : ImageError)

namespace BuildAnswer

/-- The answer that a result stands for, and the image that it leaves. -/
def ofResult {α : Type} (answer : α → BuildAnswer) :
    EStateM.Result ImageError Image α → BuildAnswer × Image
  | .ok a im => (answer a, im)
  | .error e im => (refused e, im)

end BuildAnswer

open BuildAnswer (ofResult)

/-- Carry out an operation. -/
def BuildStep.apply : BuildStep → Image → BuildAnswer × Image
  | emit op a b c, im => ofResult .place (Image.emit op a b c im)
  | patch a t, im => ofResult (fun _ => .done) (Image.patch a t im)
  | constant v, im => ofResult .place (Image.addConstant v im)
  | typed words, im => ofResult .place (Image.addTypedConstants words im)
  | start a, im => ofResult (fun _ => .done) (Image.setStart a im)
  | comment a text, im => ofResult (fun _ => .done) (Image.addComment a text im)
  | freeze, im => (.done, im.freeze)

namespace Image

/-- The image after some operations. -/
def after (im : Image) : List BuildStep → Image
  | [] => im
  | s :: steps => (s.apply im).2.after steps

/-- Some operations with their answers. -/
def record (im : Image) : List BuildStep → List (BuildStep × BuildAnswer)
  | [] => []
  | s :: steps => (s, (s.apply im).1) :: (s.apply im).2.record steps

end Image

/-- The second operand that an operation gives to the instruction at a place. -/
def patchOf (place : Nat) : BuildStep × BuildAnswer → Option Int64
  | (.patch a t, .done) => if a.toInt = place then some t else none
  | _ => none

/-- The second operand that the instruction at a place was last given. -/
def lastPatch (place : Nat) (record : List (BuildStep × BuildAnswer)) : Option Int64 :=
  (record.filterMap (patchOf place)).getLast?

private theorem lastPatch_cons (place : Nat) (entry : BuildStep × BuildAnswer)
    (record : List (BuildStep × BuildAnswer)) :
    lastPatch place (entry :: record) = (lastPatch place record).or (patchOf place entry) := by
  unfold lastPatch
  cases hentry : patchOf place entry with
  | none => simp [hentry]
  | some t =>
    rw [List.filterMap_cons_some hentry, List.getLast?_cons]
    cases (record.filterMap (patchOf place)).getLast? <;> rfl

/-! ## What an operation can do -/

/-- An operation on an image, with its answer and the image after it. -/
inductive Builds (im : Image) : BuildStep → BuildAnswer → Image → Prop where
  | refused {s : BuildStep} {e : ImageError} : Builds im s (.refused e) im
  | emit {op : UInt8} {a b : Int64} {c : String} {w : Word} {comments : Std.HashMap Int64 String} :
      im.frozen = false → Word.encode op a b = .ok w →
      Builds im (.emit op a b c) (.place im.code.size) { im with code := im.code.push w, comments }
  | patch {a t : Int64} {old w : Word} :
      im.frozen = false → im.fetch? a = some old → old.withOperand2 t = .ok w →
      Builds im (.patch a t) .done { im with code := im.code.setIfInBounds a.toNatClampNeg w }
  | known {v : Value} {i : Nat} : poolIndex? im.constants v = some i →
      Builds im (.constant v) (.place i) im
  | new {v : Value} : im.frozen = false → poolIndex? im.constants v = none →
      Builds im (.constant v)
        (.place im.constants.size) { im with constants := im.constants.push v }
  | typed {words : Array Value} : im.frozen = false →
      Builds im (.typed words) (.place im.typedConstants.size)
        { im with typedConstants := im.typedConstants ++ words }
  | start {a : Int64} : im.frozen = false → Builds im (.start a) .done { im with start := a }
  | comment {a : Int64} {text : String} : im.frozen = false →
      Builds im (.comment a text) .done (im.noteAt a text)
  | freeze : Builds im .freeze .done im.freeze

private theorem builds_emit (im : Image) (op : UInt8) (a b : Int64) (c : String) :
    Builds im (.emit op a b c) (ofResult .place (Image.emit op a b c im)).1
      (ofResult .place (Image.emit op a b c im)).2 := by
  unfold Image.emit
  split
  · exact .refused
  · rename_i hopen
    split
    · exact .refused
    · rename_i w hw
      simp only [ofResult]
      split
      · exact @Builds.emit im op a b c w im.comments (by simpa using hopen) hw
      · exact .emit (by simpa using hopen) hw

private theorem builds_patch (im : Image) (a t : Int64) :
    Builds im (.patch a t) (ofResult (fun _ => .done) (Image.patch a t im)).1
      (ofResult (fun _ => .done) (Image.patch a t im)).2 := by
  unfold Image.patch
  split
  · exact .refused
  · rename_i hopen
    split
    · exact .refused
    · rename_i old hold
      split
      · exact .refused
      · rename_i w hw
        exact .patch (by simpa using hopen) hold hw

private theorem builds_constant (im : Image) (v : Value) :
    Builds im (.constant v) (ofResult .place (Image.addConstant v im)).1
      (ofResult .place (Image.addConstant v im)).2 := by
  unfold Image.addConstant
  split
  · rename_i i hi
    exact .known hi
  · rename_i hnone
    split
    · exact .refused
    · rename_i hopen
      exact .new (by simpa using hopen) hnone

/-- An operation that only a frozen image refuses. -/
theorem builds_guarded {α : Type} {im im' : Image} {s : BuildStep} {answer : α → BuildAnswer}
    {a : α} (h : im.frozen = false → Builds im s (answer a) im') :
    Builds im s (ofResult answer (if im.frozen then .error .frozen im else .ok a im')).1
      (ofResult answer (if im.frozen then .error .frozen im else .ok a im')).2 := by
  split
  · exact .refused
  · rename_i hopen
    exact h (by simpa using hopen)

/-- What an operation does is one of the cases. -/
theorem BuildStep.builds (s : BuildStep) (im : Image) :
    Builds im s (s.apply im).1 (s.apply im).2 := by
  cases s with
  | emit op a b c => exact builds_emit im op a b c
  | patch a t => exact builds_patch im a t
  | constant v => exact builds_constant im v
  | typed words => exact builds_guarded .typed
  | start a => exact builds_guarded .start
  | comment a text => exact builds_guarded .comment
  | freeze => exact .freeze

/-! ## What an operation keeps -/

/-- No two constants of a pool are the same. -/
def DistinctPool (constants : Array Value) : Prop :=
  ∀ (i j : Nat) (c d : Value), constants[i]? = some c → constants[j]? = some d →
    c.same d = true → i = j

/-- A constant that is the same as none in a pool can be added to it. -/
theorem DistinctPool.push {constants : Array Value} (h : DistinctPool constants) {v : Value}
    (hnew : poolIndex? constants v = none) : DistinctPool (constants.push v) := by
  have hother (i : Nat) (c : Value) (hc : constants[i]? = some c) : c.same v = false := by
    obtain ⟨hi, rfl⟩ := Array.getElem?_eq_some_iff.mp hc
    simpa using Array.findIdx?_eq_none_iff.mp hnew _ (Array.getElem_mem hi)
  intro i j c d hc hd hsame
  rw [Array.getElem?_push] at hc hd
  split at hc <;> split at hd
  · omega
  · obtain rfl := Option.some.inj hc
    replace hsame := Value.same_symm hsame
    rw [hother j d hd] at hsame
    cases hsame
  · obtain rfl := Option.some.inj hd
    rw [hother i c hc] at hsame
    cases hsame
  · exact h i j c d hc hd hsame

namespace Builds

variable {im im' : Image} {s : BuildStep} {answer : BuildAnswer}

/-- A frozen image stays as it is. -/
theorem eq_of_frozen (h : Builds im s answer im') (hfrozen : im.frozen = true) : im' = im := by
  cases h with
  | refused => rfl
  | known _ => rfl
  | freeze =>
    unfold Image.freeze
    rw [← hfrozen]
  | emit hopen _ | patch hopen _ _ | new hopen _ | typed hopen | start hopen | comment hopen =>
    rw [hfrozen] at hopen
    cases hopen

/-- The pool only grows at its end. -/
theorem constants_append (h : Builds im s answer im') :
    ∃ more, im'.constants = im.constants ++ more := by
  cases h with
  | new _ _ => exact ⟨#[_], rfl⟩
  | refused | emit _ _ | patch _ _ _ | known _ | typed _ | start _ | comment _ | freeze =>
    exact ⟨#[], Array.append_empty.symm⟩

/-- The typed constants only grow at their end. -/
theorem typedConstants_append (h : Builds im s answer im') :
    ∃ more, im'.typedConstants = im.typedConstants ++ more := by
  cases h with
  | typed _ => exact ⟨_, rfl⟩
  | refused | emit _ _ | patch _ _ _ | known _ | new _ _ | start _ | comment _ | freeze =>
    exact ⟨#[], Array.append_empty.symm⟩

/-- The pool stays without duplicates. -/
theorem distinct (h : Builds im s answer im') (hdistinct : DistinctPool im.constants) :
    DistinctPool im'.constants := by
  cases h with
  | new _ hnew => exact hdistinct.push hnew
  | refused | emit _ _ | patch _ _ _ | known _ | typed _ | start _ | comment _ | freeze =>
    exact hdistinct

/-- An instruction keeps its place, its opcode and its first operand, and only a patch of it that is
not refused changes its second operand. -/
theorem code (h : Builds im s answer im') {i : Nat} {w : Word} (hw : im.code[i]? = some w) :
    ∃ w', im'.code[i]? = some w' ∧ w'.opcode = w.opcode ∧ w'.operand1 = w.operand1 ∧
      (w'.operand2 : Int) = ((patchOf i (s, answer)).map Int64.toInt).getD w.operand2 := by
  have hlt : i < im.code.size := (Array.getElem?_eq_some_iff.mp hw).1
  cases h with
  | emit _ _ =>
    refine ⟨w, ?_, rfl, rfl, rfl⟩
    rw [Array.getElem?_push_lt hlt, ← hw, Array.getElem?_eq_getElem hlt]
  | @patch a t old new _ hold hnew =>
    obtain ⟨hop, h1, h2⟩ := Word.fields_of_withOperand2 hnew
    have hnonneg : ¬ a < 0 := by
      intro hneg
      rw [Image.fetch?, if_pos hneg] at hold
      cases hold
    rw [Image.fetch?, if_neg hnonneg] at hold
    rw [Int64.lt_iff_toInt_lt, Int64.toInt_zero] at hnonneg
    by_cases hplace : a.toInt = i
    · have hindex : a.toNatClampNeg = i := by
        change a.toInt.toNat = i
        omega
      rw [hindex] at hold ⊢
      obtain rfl := Option.some.inj (hw.symm.trans hold)
      refine ⟨new, Array.getElem?_setIfInBounds_self_of_lt hlt, hop, h1, ?_⟩
      rw [h2, patchOf, if_pos hplace]
      rfl
    · have hindex : a.toNatClampNeg ≠ i := by
        change a.toInt.toNat ≠ i
        omega
      refine ⟨w, (Array.getElem?_setIfInBounds_ne hindex).trans hw, rfl, rfl, ?_⟩
      rw [patchOf, if_neg hplace]
      rfl
  | @refused s e =>
    refine ⟨w, hw, rfl, rfl, ?_⟩
    cases s <;> rfl
  | known _ | new _ _ | typed _ | start _ | comment _ | freeze => exact ⟨w, hw, rfl, rfl, rfl⟩

/-! ## What an operation returns -/

private theorem emitted {op : UInt8} {a b : Int64} {c : String} {i : Nat}
    (h : Builds im (.emit op a b c) (.place i) im') :
    ∃ w, Word.encode op a b = .ok w ∧ im'.code[i]? = some w := by
  cases h with
  | emit _ hw => exact ⟨_, hw, Array.getElem?_push_size⟩

private theorem interned {v : Value} {i : Nat} (h : Builds im (.constant v) (.place i) im') :
    ∃ c : Value, c.same v = true ∧ im'.constants[i]? = some c := by
  cases h with
  | known hindex =>
    obtain ⟨c, hc, -, hsame⟩ := find?_of_poolIndex? hindex
    exact ⟨c, hsame, hc⟩
  | new _ _ => exact ⟨v, v.same_refl, Array.getElem?_push_size⟩

private theorem placed {words : Array Value} {i k : Nat} {v : Value}
    (h : Builds im (.typed words) (.place i) im') (hv : words[k]? = some v) :
    im'.typedConstants[i + k]? = some v := by
  cases h with
  | typed _ =>
    rw [Array.getElem?_append_right (Nat.le_add_right _ _), Nat.add_sub_cancel_left, hv]

end Builds

/-! ## Histories -/

namespace Image

/-- A frozen image stays as it is, whatever is asked of it. -/
theorem after_of_frozen {im : Image} (h : im.frozen = true) (steps : List BuildStep) :
    im.after steps = im := by
  induction steps with
  | nil => rfl
  | cons s steps ih =>
    rw [after, (s.builds im).eq_of_frozen h]
    exact ih

/-- What every operation only appends to has only grown at its end after any operations. -/
theorem append_after (table : Image → Array Value)
    (happend : ∀ (s : BuildStep) (im : Image), ∃ more, table (s.apply im).2 = table im ++ more)
    (im : Image) (steps : List BuildStep) : ∃ more, table (im.after steps) = table im ++ more := by
  induction steps generalizing im with
  | nil => exact ⟨#[], Array.append_empty.symm⟩
  | cons s steps ih =>
    obtain ⟨some, hsome⟩ := happend s im
    obtain ⟨more, hmore⟩ := ih (s.apply im).2
    exact ⟨some ++ more, by rw [after, hmore, hsome, Array.append_assoc]⟩

private theorem constants_after (im : Image) (steps : List BuildStep) :
    ∃ more, (im.after steps).constants = im.constants ++ more :=
  append_after constants (fun s im => (s.builds im).constants_append) im steps

private theorem typedConstants_after (im : Image) (steps : List BuildStep) :
    ∃ more, (im.after steps).typedConstants = im.typedConstants ++ more :=
  append_after typedConstants (fun s im => (s.builds im).typedConstants_append) im steps

private theorem distinct_after {im : Image} (h : DistinctPool im.constants)
    (steps : List BuildStep) :
    DistinctPool (im.after steps).constants := by
  induction steps generalizing im with
  | nil => exact h
  | cons s steps ih => exact ih ((s.builds im).distinct h)

/-- After any operations an instruction is as it was, but for the second operand that it was last
given. -/
theorem code_after {im : Image} {i : Nat} {w : Word} (hw : im.code[i]? = some w)
    (steps : List BuildStep) :
    ∃ w', (im.after steps).code[i]? = some w' ∧ w'.opcode = w.opcode ∧ w'.operand1 = w.operand1 ∧
      (w'.operand2 : Int) =
        ((lastPatch i (im.record steps)).map Int64.toInt).getD w.operand2 := by
  induction steps generalizing im w with
  | nil => exact ⟨w, hw, rfl, rfl, rfl⟩
  | cons s steps ih =>
    obtain ⟨w₁, hw₁, hop₁, h₁, h₂⟩ := (s.builds im).code hw
    obtain ⟨w', hw', hop', h₁', h₂'⟩ := ih hw₁
    refine ⟨w', hw', hop'.trans hop₁, h₁'.trans h₁, ?_⟩
    rw [h₂', record, lastPatch_cons]
    cases lastPatch i ((s.apply im).2.record steps) with
    | none => exact h₂
    | some t => rfl

end Image

/-- What an array holds it holds also when more is appended. -/
theorem getElem?_append_of_some {words more : Array Value} {i : Nat} {v : Value}
    (h : words[i]? = some v) : (words ++ more)[i]? = some v := by
  rw [Array.getElem?_append_left (Array.getElem?_eq_some_iff.mp h).1, h]

/-- The first constant that is the same as a value has the index of the value. -/
theorem poolIndex?_of_first {constants : Array Value} {v c : Value} {i : Nat}
    (hc : constants[i]? = some c) (hsame : c.same v = true)
    (hfirst : ∀ (j : Nat) (d : Value), j < i → constants[j]? = some d → d.same v = false) :
    poolIndex? constants v = some i := by
  obtain ⟨hi, rfl⟩ := Array.getElem?_eq_some_iff.mp hc
  refine Array.findIdx?_eq_some_iff_getElem.mpr ⟨hi, hsame, fun j hj => ?_⟩
  simpa using hfirst j constants[j] hj (Array.getElem?_eq_getElem (by omega))

/-- The history of an image.  Take any operations on a new image, one more, and any that follow.  An
instruction that the one operation appended keeps its opcode and first operand, and its second
operand is the one that it was last given; a constant or typed constant that it returned is still
there; no two constants of the pool are the same; interning a value that the pool has, also when the
image is frozen, returns its least index and changes nothing; what is refused changes nothing; and
nothing changes a frozen image. -/
theorem built_image_only_grows (natives : Registry) (before after : List BuildStep) (s : BuildStep)
    {im im' last : Image} {answer : BuildAnswer} (him : (Image.empty natives).after before = im)
    (hs : s.apply im = (answer, im')) (hlast : im'.after after = last) :
    (∀ op a b c i, s = .emit op a b c → answer = .place i →
      ∃ w, last.code[i]? = some w ∧ w.opcode = op ∧ (w.operand1 : Int) = a.toInt ∧
        (w.operand2 : Int) = ((lastPatch i (im'.record after)).getD b).toInt) ∧
    (∀ v i, s = .constant v → answer = .place i →
      ∃ c : Value, c.same v = true ∧ im'.constants[i]? = some c ∧ last.constants[i]? = some c) ∧
    (∀ words i, s = .typed words → answer = .place i →
      ∀ (k : Nat) (v : Value), words[k]? = some v → last.typedConstants[i + k]? = some v) ∧
    DistinctPool last.constants ∧
    (∀ (v c : Value) (i : Nat), im.constants[i]? = some c → c.same v = true →
      (∀ (j : Nat) (d : Value), j < i → im.constants[j]? = some d → d.same v = false) →
      (BuildStep.constant v).apply im = (.place i, im)) ∧
    (∀ e, answer = .refused e → im' = im) ∧
    (s = .freeze → last = im.freeze) := by
  have hbuilds : Builds im s answer im' := by
    have h := s.builds im
    rwa [hs] at h
  subst hlast
  refine ⟨?_, ?_, ?_, ?_, ?_, ?_, ?_⟩
  · rintro op a b c i rfl rfl
    obtain ⟨w, hw, hplace⟩ := hbuilds.emitted
    obtain ⟨hop, h₁, h₂⟩ := Word.fields_of_encode hw
    obtain ⟨w', hw', hop', h₁', h₂'⟩ := Image.code_after hplace after
    refine ⟨w', hw', hop'.trans hop, by rw [h₁', h₁], ?_⟩
    rw [h₂', h₂]
    cases lastPatch i (im'.record after) <;> rfl
  · rintro v i rfl rfl
    obtain ⟨c, hsame, hc⟩ := hbuilds.interned
    obtain ⟨more, hmore⟩ := Image.constants_after im' after
    exact ⟨c, hsame, hc, hmore ▸ getElem?_append_of_some hc⟩
  · rintro words i rfl rfl k v hv
    obtain ⟨more, hmore⟩ := Image.typedConstants_after im' after
    exact hmore ▸ getElem?_append_of_some (hbuilds.placed hv)
  · subst him
    have hempty : DistinctPool (Image.empty natives).constants := fun i _ _ _ hc => by
      simp [Image.empty] at hc
    exact Image.distinct_after (hbuilds.distinct (Image.distinct_after hempty before)) after
  · intro v c i hc hsame hfirst
    have hindex := poolIndex?_of_first hc hsame hfirst
    unfold poolIndex? at hindex
    simp only [BuildStep.apply, Image.addConstant, hindex, ofResult]
  · rintro e rfl
    cases hbuilds
    rfl
  · rintro rfl
    obtain ⟨rfl, rfl⟩ := Prod.mk.inj hs
    exact Image.after_of_frozen rfl after

/-- A jump is emitted, patched, patched out of range, patched again, and patched once the image is
frozen. -/
theorem built_image_only_grows_jump :
    ∃ w im', (BuildStep.emit Opcode.ujp.byte 0 0 "").apply (Image.empty .empty) = (.place 0, im') ∧
      (im'.after [.patch 0 9, .patch 0 40000, .patch 0 4, .freeze, .patch 0 1]).code[0]? = some w ∧
      w.opcode = Opcode.ujp.byte ∧ (w.operand2 : Int) = 4 := by
  obtain ⟨w, hw, hop, -, h₂⟩ := (built_image_only_grows .empty []
    [.patch 0 9, .patch 0 40000, .patch 0 4, .freeze, .patch 0 1]
    (.emit Opcode.ujp.byte 0 0 "") rfl rfl rfl).1 _ _ _ _ 0 rfl rfl
  exact ⟨w, _, rfl, hw, hop, h₂⟩

end PCode
