import PCode.Proofs.Native.Registry
import PCode.Proofs.Tree.Tiling
import PCode.Proofs.Word

/-!
# Names of native procedures

A scope knows the names that were declared in it, but for that of its result.
Where no scope around a place knows a name, the registry has the last word: the
name stands for the procedure that the registry has under it, and the address of
its symbol is the index of the procedure.  The index is also the operand of the
call, so it has to fit.

Main definitions and results:

- `Declaration.key?`: the name that a declaration makes known.
- `Scope.find?_declare`, `Scope.find?_declareAll`: what a scope knows after declarations.
- `Scopes.lookup?_of_undeclared`: resolution of a name that no scope declares.
- `registry_tables_in_step`: the history of a registry, with the names that resolve to it.
-/

namespace PCode

/-! ## Declared names -/

/-- The lower-case name that a declaration makes known.  A result is not known by name. -/
def Declaration.key? : Declaration → Option String
  | param _ name _ _ | var _ name _ | typedConst _ name _ _ | subprogram _ name _ =>
    some (Text.lower name)
  | result .. => none

namespace Scope

private theorem find?_define (s : Scope) (sym : Symbol) (key : String) :
    (s.define sym).find? key =
      if Text.lower sym.name = key then some sym else s.find? key := by
  by_cases h : Text.lower sym.name = key
  · simp [find?, define, h]
  · have hne : (key == Text.lower sym.name) = false := by simpa using Ne.symm h
    simp [find?, define, h, List.lookup_cons, hne]

private theorem find?_addParam {s s' : Scope} {id : Nat} {name : String} {type : Ty} {byRef : Bool}
    {sym : Symbol} (h : s.addParam id name type byRef = .ok (sym, s')) (key : String) :
    s'.find? key = if Text.lower name = key then some sym else s.find? key := by
  unfold addParam at h
  split at h
  · obtain ⟨rfl, rfl⟩ := Prod.mk.inj (Except.ok.inj h)
    exact find?_define _ _ key
  · cases h

private theorem find?_addLocal {s s' : Scope} {kind : SymbolKind} {id : Nat} {name : String}
    {type : Ty} {sym : Symbol} (h : s.addLocal kind id name type = .ok (sym, s')) (key : String) :
    s'.find? key = if Text.lower name = key then some sym else s.find? key := by
  obtain ⟨rfl, rfl⟩ := eq_of_addLocal h
  exact find?_define _ _ key

/-- A declaration makes its name known, in place of an earlier declaration of the name. -/
theorem find?_declare {s s' : Scope} {d : Declaration} {sym : Symbol}
    (h : s.declare d = .ok (sym, s')) (key : String) :
    s'.find? key = if d.key? = some key then some sym else s.find? key := by
  cases d with
  | param id name type byRef =>
    simpa only [Declaration.key?, Option.some.injEq] using find?_addParam h key
  | var id name type =>
    simpa only [Declaration.key?, Option.some.injEq] using find?_addLocal h key
  | typedConst id name type data =>
    rw [declare_typedConst] at h
    simpa only [Declaration.key?, Option.some.injEq] using find?_addLocal h key
  | result id name type =>
    obtain ⟨rfl, rfl⟩ := Prod.mk.inj (Except.ok.inj h)
    rfl
  | subprogram id name signature =>
    obtain ⟨rfl, rfl⟩ := Prod.mk.inj (Except.ok.inj h)
    simpa only [Declaration.key?, Option.some.injEq] using find?_define _ _ key

/-- Declarations of other names leave a name as it was. -/
theorem find?_declareAll {s s' : Scope} {ds : List Declaration} {syms : List Symbol} {key : String}
    (h : s.declareAll ds = .ok (syms, s')) (hother : ∀ d ∈ ds, d.key? ≠ some key) :
    s'.find? key = s.find? key := by
  induction ds generalizing s syms with
  | nil =>
    obtain ⟨-, rfl⟩ := Prod.mk.inj (Except.ok.inj h)
    rfl
  | cons d ds ih =>
    obtain ⟨sym, s₁, rest, hdeclare, hrest, -⟩ := declareAll_cons.mp h
    rw [ih hrest fun e he => hother e (List.mem_cons_of_mem _ he), find?_declare hdeclare,
      if_neg (hother d List.mem_cons_self)]

end Scope

namespace Scopes

private theorem find?_eq_none {scopes : Scopes} {key : String}
    (h : ∀ s ∈ scopes, s.find? key = none) (level : Nat) : scopes.find? level key = none := by
  induction scopes generalizing level with
  | nil => rfl
  | cons s outer ih =>
    rw [find?, h s List.mem_cons_self]
    exact ih (fun s hs => h s (List.mem_cons_of_mem _ hs)) (level + 1)

/-- The scopes were made by declarations, none of which makes a name known. -/
def Undeclared (scopes : Scopes) (name : String) : Prop :=
  ∀ s ∈ scopes, ∃ ds syms, ({} : Scope).declareAll ds = .ok (syms, s) ∧
    ∀ d ∈ ds, d.key? ≠ some (Text.lower name)

/-- A name that no scope declares is resolved by the registry. -/
theorem lookup?_of_undeclared {scopes : Scopes} {name : String} (h : scopes.Undeclared name)
    (natives : Registry) (id : Nat) :
    scopes.lookup? natives id name =
      (natives.lookup? name).bind fun index =>
        (natives.at? index).map fun n => ⟨nativeSymbol id index n.toNativeHeader, 0⟩ := by
  have hnone : scopes.find? 0 (Text.lower name) = none := by
    refine find?_eq_none (fun s hs => ?_) 0
    obtain ⟨ds, syms, hds, hother⟩ := h s hs
    rw [Scope.find?_declareAll hds hother]
    rfl
  rw [lookup?, hnone]
  cases natives.lookup? name <;> rfl

end Scopes

/-! ## Indices as operands and addresses -/

namespace Registry.InStep

variable {r : Registry} {i : Nat}

private theorem toInt_index (h : r.InStep) (hi : i < r.size) : (Int64.ofNat i).toInt = i := by
  have hroom := h.room
  unfold maxOperand2 at hroom
  exact Int64.toInt_ofNat_of_lt (by omega)

/-- A call of any procedure can be packed, and the operand of the call is the index. -/
theorem exists_call (h : r.InStep) (hi : i < r.size) {count : Int64}
    (hcount : Word.fits count maxOperand1) :
    ∃ w, Word.encode Opcode.csp.byte count (Int64.ofNat i) = .ok w ∧ w.operand2 = i := by
  have hindex := h.toInt_index hi
  have hfits : Word.fits (Int64.ofNat i) maxOperand2 := by
    have hroom := h.room
    rw [Word.fits_iff, hindex]
    omega
  obtain ⟨w, hw⟩ := (Word.exists_encode_iff Opcode.csp.byte count _).mpr ⟨hcount, hfits⟩
  obtain ⟨-, -, hoperand⟩ := Word.fields_of_encode hw
  exact ⟨w, hw, by omega⟩

/-- A registered name that no scope declares is resolved to the symbol of the procedure, with the
index as its address. -/
theorem exists_resolved (h : r.InStep) {scopes : Scopes} {name : String}
    (hname : scopes.Undeclared name) (hlookup : r.lookup? name = some i) (id : Nat) :
    ∃ n found, r.at? i = some n ∧ scopes.lookup? r id name = some found ∧
      found.symbol.kind = .native ∧ found.symbol.name = n.name ∧
      found.symbol.address.toInt = i := by
  obtain ⟨n, hn, -⟩ := h.lookup?_eq_some_iff.mp hlookup
  refine ⟨n, ⟨Scopes.nativeSymbol id i n.toNativeHeader, 0⟩, hn, ?_, rfl, rfl, ?_⟩
  · rw [Scopes.lookup?_of_undeclared hname, hlookup, Option.bind_some, hn, Option.map_some]
  · exact h.toInt_index (lt_size_of_at? hn)

end Registry.InStep

/-- The history of a registry.  After any registrations there are as many procedures as
registrations succeeded, never more than 32768, so every index is an operand of a call.  A name
leads to an index exactly if the procedure there has that name, and no two procedures have the same
name.  An index that was returned stands for the same procedure for ever.  A registration is refused
exactly if the implementation is missing, the name is taken or there is no room, and then nothing
changes.  And a name that no scope declares is resolved to a native symbol whose address is the
index. -/
theorem registry_tables_in_step (calls : List Registration) {r : Registry}
    (hr : Registry.empty.after calls = r) :
    r.size = (Registry.empty.answers calls).countP Except.isOk ∧
    r.size ≤ 32768 ∧
    (∀ i < r.size, ∀ count : Int64, Word.fits count maxOperand1 →
      ∃ w, Word.encode Opcode.csp.byte count (Int64.ofNat i) = .ok w ∧ w.operand2 = i) ∧
    (∀ name i, r.lookup? name = some i ↔
      ∃ n, r.at? i = some n ∧ Text.lower n.name = Text.lower name) ∧
    (∀ i j m n, r.at? i = some m → r.at? j = some n →
      Text.lower m.name = Text.lower n.name → i = j) ∧
    (∀ header body i r', Registry.register header body r = .ok i r' →
      ∃ code, body = some code ∧
        ∀ later, (r'.after later).at? i = some { header with body := code }) ∧
    (∀ i n, r.at? i = some n → ∀ later, (r.after later).at? i = some n) ∧
    (∀ header body, (∃ e r', Registry.register header body r = .error e r') ↔
      body = none ∨ (∃ i n, r.at? i = some n ∧ Text.lower n.name = Text.lower header.name) ∨
        r.size = 32768) ∧
    (∀ header body e r', Registry.register header body r = .error e r' → r' = r) ∧
    (∀ (scopes : Scopes) (name : String), scopes.Undeclared name → ∀ id : Nat,
      (∀ i, r.lookup? name = some i →
        ∃ n found, r.at? i = some n ∧ scopes.lookup? r id name = some found ∧
          found.symbol.kind = .native ∧ found.symbol.name = n.name ∧
          found.symbol.address.toInt = i) ∧
      (r.lookup? name = none → scopes.lookup? r id name = none)) := by
  have hstep : r.InStep := hr ▸ Registry.inStep_after Registry.inStep_empty calls
  refine ⟨?_, hstep.room, ?_, ?_, ?_, ?_, ?_, ?_, ?_, ?_⟩
  · rw [← hr, Registry.size_after]
    exact Nat.zero_add _
  · intro i hi count hcount
    exact hstep.exists_call hi hcount
  · intro name i
    exact hstep.lookup?_eq_some_iff
  · intro i j m n hi hj hname
    exact hstep.index_unique hi hj hname
  · intro header body i r' h
    obtain ⟨code, rfl, -, -, rfl, rfl⟩ := Registry.register_eq_ok_iff.mp h
    exact ⟨code, rfl, Registry.at?_after (Registry.at?_add_eq_some_iff.mpr (.inl ⟨rfl, rfl⟩))⟩
  · intro i n hn later
    exact Registry.at?_after hn later
  · intro header body
    exact hstep.exists_register_error_iff
  · intro header body e r' h
    exact (Registry.register_eq_error_iff.mp h).1
  · intro scopes name hname id
    refine ⟨fun i hi => hstep.exists_resolved hname hi id, fun hnone => ?_⟩
    rw [Scopes.lookup?_of_undeclared hname, hnone, Option.bind_none]

/-- A procedure whose name has a given number of letters. -/
def lettered (k : Nat) : Native where
  name := String.ofList (List.replicate k 'a')
  body _ := .nothing

private theorem lower_lettered (k : Nat) :
    (Text.lower (lettered k).name).toList = List.replicate k 'a' := by
  have hletter : Text.lowerChar 'a' = 'a' := by decide +kernel
  simp [Text.lower, lettered, hletter]

/-- As many procedures as there are indices, each with a name of its own length. -/
def letteredNatives : List Native := (List.range (maxOperand2 + 1)).map lettered

private theorem letteredNatives_distinct :
    (letteredNatives.map fun n => Text.lower n.name).Nodup := by
  rw [letteredNatives, List.map_map]
  refine List.pairwise_map.mpr (List.nodup_range.imp fun {j k} hne heq => hne ?_)
  have hlists := congrArg String.toList heq
  simpa [lower_lettered] using congrArg List.length hlists

/-- All of them can be registered. -/
theorem natives_after_lettered :
    (Registry.empty.after (letteredNatives.map Native.registration)).natives =
      letteredNatives.toArray := by
  have hroom : Registry.empty.size + letteredNatives.length ≤ maxOperand2 + 1 := by
    rw [letteredNatives, List.length_map, List.length_range]
    exact Nat.le_of_eq (Nat.zero_add _)
  obtain ⟨byName, hregister⟩ := Registry.registerAll_eq_ok letteredNatives_distinct
    (fun n _ => Std.HashMap.not_mem_empty) hroom
  rw [Registry.after_of_registerAll hregister]
  exact Array.empty_append

/-- A full registry refuses one more procedure, and its names are still found through a scope with a
result of the same name. -/
theorem registry_tables_in_step_full :
    ∃ (calls : List Registration) (r : Registry), Registry.empty.after calls = r ∧
      r.size = 32768 ∧
      (∃ e, Registry.register { name := "b" } (some fun _ => .nothing) r = .error e r) ∧
      ∃ found, Scopes.lookup? [(({} : Scope).addResult 0 "AAA" .integer).2] r 1 "AAA" = some found ∧
        found.symbol.kind = .native ∧ found.symbol.address.toInt = 3 := by
  obtain ⟨r, hr⟩ : ∃ r, Registry.empty.after (letteredNatives.map Native.registration) = r :=
    ⟨_, rfl⟩
  have hnatives : r.natives = letteredNatives.toArray := hr ▸ natives_after_lettered
  have hsize : r.size = 32768 := by
    rw [Registry.size, hnatives, List.size_toArray, letteredNatives, List.length_map,
      List.length_range, maxOperand2]
  obtain ⟨-, -, -, hlookup, -, -, -, hrefused, hkept, hscopes⟩ := registry_tables_in_step _ hr
  refine ⟨_, r, hr, hsize, ?_, ?_⟩
  · obtain ⟨e, r', h⟩ := (hrefused { name := "b" } (some fun _ => .nothing)).mpr (.inr (.inr hsize))
    exact ⟨e, hkept _ _ e r' h ▸ h⟩
  · have hthird : r.at? 3 = some (lettered 3) := by
      rw [Registry.at?, hnatives, List.getElem?_toArray, letteredNatives, List.getElem?_map,
        List.getElem?_range (by decide), Option.map_some]
    have hsame : Text.lower (lettered 3).name = Text.lower "AAA" := by
      have hletter : Text.lowerChar 'A' = 'a' := by decide +kernel
      apply String.toList_inj.mp
      rw [lower_lettered]
      simp [Text.lower, hletter, List.replicate]
    have hfound := (hlookup "AAA" 3).mpr ⟨_, hthird, hsame⟩
    have hnone : Scopes.Undeclared [(({} : Scope).addResult 0 "AAA" .integer).2] "AAA" := by
      intro s hs
      obtain rfl := List.mem_singleton.mp hs
      refine ⟨[.result 0 "AAA" .integer], _, rfl, fun d hd => ?_⟩
      obtain rfl := List.mem_singleton.mp hd
      simp [Declaration.key?]
    obtain ⟨-, found, -, hfound, hkind, -, haddress⟩ := (hscopes _ "AAA" hnone 1).1 3 hfound
    exact ⟨found, hfound, hkind, haddress⟩

end PCode
