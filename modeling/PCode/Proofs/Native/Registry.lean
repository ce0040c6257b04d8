import PCode.Native.Registry

/-!
# Registries in step

A registry keeps its procedures in a table by index, and their lower-case names
in a table of indices.  A registration either adds to both, at the next index, or
is refused and changes nothing.  So the two tables agree after any registrations,
no index gets another meaning, and every index fits in an operand.

Main definitions and results:

- `Registry.register_eq_ok_iff`, `Registry.register_eq_error_iff`: what a registration does.
- `Registry.InStep`: the table of names leads to the procedures with these names, and only there.
- `Registration`, `Registry.after`, `Registry.answers`: sequences of registrations.
- `Registry.inStep_after`, `Registry.at?_after`, `Registry.size_after`: what any registrations keep.
- `Registry.registerAll_eq_ok`: procedures with new and different names are accepted while there is
  room.
-/

namespace PCode

namespace Registry

/-! ## One registration -/

/-- A registry with one more procedure. -/
def add (r : Registry) (n : Native) : Registry where
  natives := r.natives.push n
  byName := r.byName.insert (Text.lower n.name) r.size

/-- A procedure that is added makes the registry larger by one. -/
@[simp] theorem size_add (r : Registry) (n : Native) : (r.add n).size = r.size + 1 :=
  Array.size_push n

private theorem byName_add (r : Registry) (n : Native) (key : String) :
    (r.add n).byName[key]? =
      if Text.lower n.name = key then some r.size else r.byName[key]? := by
  simp only [add, Std.HashMap.getElem?_insert, beq_iff_eq]

/-- A procedure stands at an index below the size. -/
theorem lt_size_of_at? {r : Registry} {i : Nat} {n : Native} (h : r.at? i = some n) : i < r.size :=
  (Array.getElem?_eq_some_iff.mp h).1

/-- The procedures of the larger registry are the new one and those that were there. -/
theorem at?_add_eq_some_iff {r : Registry} {n m : Native} {i : Nat} :
    (r.add n).at? i = some m ↔ (i = r.size ∧ n = m) ∨ r.at? i = some m := by
  have hpush : (r.add n).at? i = if i = r.size then some n else r.at? i := Array.getElem?_push
  rw [hpush]
  by_cases hi : i = r.size
  · -- the next index is past the end of the old table
    have hnone : r.at? i ≠ some m := fun h => absurd (lt_size_of_at? h) (by omega)
    simp [hi ▸ hnone, hi]
  · simp [hi]

private theorem register_some (header : NativeHeader) (code : Array Value → Routine)
    (r : Registry) :
    register header (some code) r =
      if Text.lower header.name ∈ r.byName then .error (.duplicate header.name) r
      else if maxOperand2 < r.size then .error (.full r.size) r
      else .ok r.size (r.add { header with body := code }) :=
  rfl

/-- A procedure is added exactly if it has an implementation, its name is new and there is room; it
gets the next index. -/
theorem register_eq_ok_iff {header : NativeHeader} {body : Option (Array Value → Routine)}
    {r r' : Registry} {i : Nat} :
    register header body r = .ok i r' ↔
      ∃ code, body = some code ∧ Text.lower header.name ∉ r.byName ∧ r.size ≤ maxOperand2 ∧
        i = r.size ∧ r' = r.add { header with body := code } := by
  cases body with
  | none => simp [register]
  | some code =>
    rw [register_some]
    by_cases hname : Text.lower header.name ∈ r.byName
    · simp [hname]
    · by_cases hfull : maxOperand2 < r.size
      · simp [hname, hfull, Nat.not_le_of_lt hfull]
      · simp [hname, hfull, Nat.le_of_not_lt hfull, eq_comm]

/-- A procedure is refused for the first of three reasons that applies, and then nothing changes. -/
theorem register_eq_error_iff {header : NativeHeader} {body : Option (Array Value → Routine)}
    {r r' : Registry} {e : RegistryError} :
    register header body r = .error e r' ↔ r' = r ∧
      ((body = none ∧ e = .noImplementation header.name) ∨
        (body ≠ none ∧ Text.lower header.name ∈ r.byName ∧ e = .duplicate header.name) ∨
        (body ≠ none ∧ Text.lower header.name ∉ r.byName ∧ maxOperand2 < r.size ∧
          e = .full r.size)) := by
  cases body with
  | none => simp [register, eq_comm, and_comm]
  | some code =>
    rw [register_some]
    by_cases hname : Text.lower header.name ∈ r.byName
    · simp [hname, eq_comm, and_comm]
    · by_cases hfull : maxOperand2 < r.size
      · simp [hname, hfull, eq_comm, and_comm]
      · simp [hname, hfull]

/-- When a registration is refused. -/
theorem exists_register_error_iff {header : NativeHeader}
    {body : Option (Array Value → Routine)} {r : Registry} :
    (∃ e r', register header body r = .error e r') ↔
      body = none ∨ Text.lower header.name ∈ r.byName ∨ maxOperand2 < r.size := by
  cases body with
  | none => simp [register_eq_error_iff]
  | some code =>
    rw [register_some]
    by_cases hname : Text.lower header.name ∈ r.byName
    · simp [hname]
    · by_cases hfull : maxOperand2 < r.size <;> simp [hname, hfull]

/-! ## Tables in step -/

/-- The table of names leads to the procedures with these names, and only there; every index fits in
an operand. -/
structure InStep (r : Registry) : Prop where
  agree : ∀ (key : String) (i : Nat),
    r.byName[key]? = some i ↔ ∃ n, r.at? i = some n ∧ Text.lower n.name = key
  room : r.size ≤ maxOperand2 + 1

/-- The tables of an empty registry are in step. -/
theorem inStep_empty : empty.InStep where
  agree key i := by simp [empty, at?]
  room := Nat.zero_le _

namespace InStep

variable {r : Registry}

/-- A name is found at the index of the procedure that has it, whatever the case of its letters. -/
theorem lookup?_eq_some_iff (h : r.InStep) {name : String} {i : Nat} :
    r.lookup? name = some i ↔ ∃ n, r.at? i = some n ∧ Text.lower n.name = Text.lower name :=
  h.agree (Text.lower name) i

private theorem mem_byName_iff (h : r.InStep) {key : String} :
    key ∈ r.byName ↔ ∃ i n, r.at? i = some n ∧ Text.lower n.name = key := by
  rw [Std.HashMap.mem_iff_isSome_getElem?, Option.isSome_iff_exists]
  exact exists_congr fun i => h.agree key i

/-- No two procedures have the same name. -/
theorem index_unique (h : r.InStep) {i j : Nat} {m n : Native} (hi : r.at? i = some m)
    (hj : r.at? j = some n) (hname : Text.lower m.name = Text.lower n.name) : i = j := by
  have hm := (h.agree _ i).mpr ⟨m, hi, hname⟩
  have hn := (h.agree _ j).mpr ⟨n, hj, rfl⟩
  exact Option.some.inj (hm.symm.trans hn)

/-- Adding a procedure with a new name keeps the tables in step. -/
theorem add (h : r.InStep) {n : Native} (hnew : Text.lower n.name ∉ r.byName)
    (hroom : r.size ≤ maxOperand2) : (r.add n).InStep where
  agree key i := by
    have hsplit : (∃ m, (r.add n).at? i = some m ∧ Text.lower m.name = key) ↔
        (i = r.size ∧ Text.lower n.name = key) ∨ r.byName[key]? = some i := by
      simp only [at?_add_eq_some_iff, or_and_right, exists_or, h.agree, and_assoc, exists_and_left,
        exists_eq_left']
    rw [hsplit, byName_add]
    by_cases hkey : Text.lower n.name = key
    · -- the insertion hides no entry: the name led nowhere before
      have hnone : r.byName[key]? = none := Std.HashMap.getElem?_eq_none (hkey ▸ hnew)
      simp [hkey, hnone, eq_comm]
    · simp [hkey]
  room := by
    rw [size_add]
    omega

/-- When a registration is refused, in terms of the procedures that are there. -/
theorem exists_register_error_iff (h : r.InStep) {header : NativeHeader}
    {body : Option (Array Value → Routine)} :
    (∃ e r', register header body r = .error e r') ↔
      body = none ∨ (∃ i n, r.at? i = some n ∧ Text.lower n.name = Text.lower header.name) ∨
        r.size = maxOperand2 + 1 := by
  have hfull : maxOperand2 < r.size ↔ r.size = maxOperand2 + 1 := by
    have hroom := h.room
    omega
  rw [Registry.exists_register_error_iff, h.mem_byName_iff, hfull]

end InStep

end Registry

/-! ## Sequences of registrations -/

/-- A request to register a procedure, with or without an implementation. -/
structure Registration where
  header : NativeHeader
  body : Option (Array Value → Routine)

namespace Registration

/-- Carry out a registration: its answer, and the registry that it leaves. -/
def apply (c : Registration) (r : Registry) : Except RegistryError Nat × Registry :=
  match Registry.register c.header c.body r with
  | .ok i r' => (.ok i, r')
  | .error e r' => (.error e, r')

/-- A registration adds a procedure with a new name at the next index, or changes nothing. -/
theorem apply_cases (c : Registration) (r : Registry) :
    (∃ n : Native, Text.lower n.name ∉ r.byName ∧ r.size ≤ maxOperand2 ∧
      c.apply r = (.ok r.size, r.add n)) ∨
    ∃ e, c.apply r = (.error e, r) := by
  unfold apply
  cases h : Registry.register c.header c.body r with
  | ok i r' =>
    obtain ⟨code, -, hnew, hroom, rfl, rfl⟩ := Registry.register_eq_ok_iff.mp h
    exact .inl ⟨_, hnew, hroom, rfl⟩
  | error e r' =>
    obtain ⟨rfl, -⟩ := Registry.register_eq_error_iff.mp h
    exact .inr ⟨e, rfl⟩

end Registration

/-- The registration of a procedure that has an implementation. -/
def Native.registration (n : Native) : Registration := ⟨n.toNativeHeader, some n.body⟩

namespace Registry

/-- The registry after some registrations. -/
def after (r : Registry) : List Registration → Registry
  | [] => r
  | c :: rest => (c.apply r).2.after rest

/-- The answers to some registrations. -/
def answers (r : Registry) : List Registration → List (Except RegistryError Nat)
  | [] => []
  | c :: rest => (c.apply r).1 :: (c.apply r).2.answers rest

/-- What adding a procedure keeps, any registrations keep. -/
theorem after_induction {P : Registry → Prop}
    (hadd : ∀ (r : Registry) (n : Native), P r → Text.lower n.name ∉ r.byName →
      r.size ≤ maxOperand2 → P (r.add n))
    {r : Registry} (h : P r) (calls : List Registration) : P (r.after calls) := by
  induction calls generalizing r with
  | nil => exact h
  | cons c calls ih =>
    rw [after]
    rcases c.apply_cases r with ⟨n, hnew, hroom, happly⟩ | ⟨e, happly⟩
    · rw [happly]
      exact ih (hadd r n h hnew hroom)
    · rw [happly]
      exact ih h

/-- The tables stay in step. -/
theorem inStep_after {r : Registry} (h : r.InStep) (calls : List Registration) :
    (r.after calls).InStep :=
  after_induction (fun _ _ hr hnew hroom => hr.add hnew hroom) h calls

/-- An index keeps its meaning. -/
theorem at?_after {r : Registry} {i : Nat} {n : Native} (h : r.at? i = some n)
    (calls : List Registration) : (r.after calls).at? i = some n :=
  after_induction (P := fun r => r.at? i = some n)
    (fun _ _ hr _ _ => at?_add_eq_some_iff.mpr (.inr hr)) h calls

/-- As many procedures are added as registrations succeed. -/
theorem size_after (r : Registry) (calls : List Registration) :
    (r.after calls).size = r.size + (r.answers calls).countP Except.isOk := by
  induction calls generalizing r with
  | nil => rfl
  | cons c calls ih =>
    rw [after, answers, List.countP_cons, ih]
    rcases c.apply_cases r with ⟨n, -, -, happly⟩ | ⟨e, happly⟩
    · simp only [happly, size_add, Except.isOk, Except.toBool, if_true]
      omega
    · simp only [happly, Except.isOk, Except.toBool, Bool.false_eq_true, if_false, Nat.add_zero]

/-! ## Room -/

/-- Registering procedures with new and different names adds them in their order, up to the last
index that fits in an operand. -/
theorem registerAll_eq_ok {ns : List Native} {r : Registry}
    (hdistinct : (ns.map fun n => Text.lower n.name).Nodup)
    (hnew : ∀ n ∈ ns, Text.lower n.name ∉ r.byName)
    (hroom : r.size + ns.length ≤ maxOperand2 + 1) :
    ∃ byName, registerAll ns r = .ok () { natives := r.natives ++ ns.toArray, byName } := by
  induction ns generalizing r with
  | nil => exact ⟨r.byName, by rw [Array.append_empty]; rfl⟩
  | cons n ns ih =>
    obtain ⟨hhead, htail⟩ := List.nodup_cons.mp hdistinct
    rw [List.length_cons] at hroom
    have hregister : register n.toNativeHeader (some n.body) r = .ok r.size (r.add n) :=
      register_eq_ok_iff.mpr
        ⟨n.body, rfl, hnew n List.mem_cons_self, by omega, rfl, rfl⟩
    have hnew' : ∀ x ∈ ns, Text.lower x.name ∉ (r.add n).byName := by
      intro x hx
      rw [add, Std.HashMap.mem_insert, not_or]
      refine ⟨fun hsame => hhead ?_, hnew x (List.mem_cons_of_mem _ hx)⟩
      exact List.mem_map.mpr ⟨x, hx, (eq_of_beq hsame).symm⟩
    obtain ⟨byName, heq⟩ := ih htail hnew' (by rw [size_add]; omega)
    refine ⟨byName, ?_⟩
    simp only [registerAll, bind, EStateM.bind, hregister, heq]
    simp [add]

/-- Registering procedures one after another is a sequence of registrations. -/
theorem after_of_registerAll {ns : List Native} {r r' : Registry}
    (h : registerAll ns r = .ok () r') : r.after (ns.map Native.registration) = r' := by
  induction ns generalizing r with
  | nil => exact (EStateM.Result.ok.inj h).2
  | cons n ns ih =>
    simp only [registerAll, bind, EStateM.bind] at h
    cases hregister : register n.toNativeHeader (some n.body) r with
    | ok i r₁ =>
      rw [hregister] at h
      simpa only [List.map_cons, after, Registration.apply, Native.registration, hregister]
        using ih h
    | error e r₁ =>
      rw [hregister] at h
      cases h

end Registry

end PCode
