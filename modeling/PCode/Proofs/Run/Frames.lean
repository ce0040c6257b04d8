import PCode.Proofs.Run.Moves
import PCode.Proofs.Run.Steps

/-!
# The stack during a run

A compiled program keeps its stack in order through a whole run, whatever the
host does meanwhile, as long as it stores only to words that are its own.

Main definitions and results:

- `Scoped.callStack`: the activations that are live after some moves.
- `Scoped.Disciplined`: every store during some moves is permitted.
- `Underway.move`, `Underway.play`: the stack stays in order through moves.
- `underway_run`: it is in order at the start of a run.
-/

namespace PCode

open Machine

/-! ## Moves -/

namespace Move

/-- The stores that a move makes: only instructions store. -/
def stores : Move → Machine → List (Machine × Int64)
  | execute, m =>
    if m.state = .running then (m.image.fetch? m.pc).elim [] fun w => (m.fetched w).stores w
    else []
  | _, _ => []

/-- The activations that are live after a move: only instructions call and return. -/
def follow (natives : Registry) (src : Scoped) (acts : List Activation) :
    Move → Machine → List Activation
  | execute, m =>
    if m.state = .running then
      (m.image.fetch? m.pc).elim acts fun w => src.follow natives m w acts
    else acts
  | _, _ => acts

end Move

namespace Scoped

/-- The activations that are live after some moves, the newest first. -/
def callStack (natives : Registry) (src : Scoped) :
    List Activation → Machine → List Move → List Activation
  | acts, _, [] => acts
  | acts, m, a :: moves =>
    match a.run m with
    | .ok _ m' => src.callStack natives (a.follow natives src acts m) m' moves
    | .error .. => acts

/-- Every store during some moves is to a word that is permitted then. -/
def Disciplined (natives : Registry) (src : Scoped) :
    List Activation → Machine → List Move → Prop
  | _, _, [] => True
  | acts, m, a :: moves =>
    (∀ q ∈ a.stores m, Permitted m.image.typedConstants.size acts q.1 q.2) ∧
      match a.run m with
      | .ok _ m' => src.Disciplined natives (a.follow natives src acts m) m' moves
      | .error .. => True

end Scoped

section

variable {natives : Registry} {src : Scoped} {im : Image} {m m' : Machine}
  {acts : List Activation}

/-! ## What does not concern the stack -/

/-- Two machines have the same image, store, registers, state and reader. -/
structure Machine.Twins (m m' : Machine) : Prop where
  image : m'.image = m.image
  store : m'.store = m.store
  sp : m'.sp = m.sp
  np : m'.np = m.np
  mp : m'.mp = m.mp
  pc : m'.pc = m.pc
  state : m'.state = m.state
  reader : m'.reader = m.reader

private theorem Machine.Twins.observe (m : Machine) : Twins m m.observe := by
  unfold Machine.observe
  split <;> exact ⟨rfl, rfl, rfl, rfl, rfl, rfl, rfl, rfl⟩

private theorem Machine.Twins.deliver (m : Machine) (line : String) : Twins m (m.deliver line) := by
  unfold Machine.deliver
  split <;> exact ⟨rfl, rfl, rfl, rfl, rfl, rfl, rfl, rfl⟩

private theorem Machine.Keeps.twins {top heap : Nat} {kept : List (Nat × Value)}
    (h : Keeps m top heap kept) (ht : Twins m m') : Keeps m' top heap kept :=
  h.transfer ht.image ht.store ht.sp ht.np

private theorem Inside.twins {a : Activation} {rest : List Activation} {s : Shape} {p : Nat}
    (h : Inside natives src m a rest s p) (ht : Twins m m') : Inside natives src m' a rest s p := by
  obtain ⟨heap, hkeeps⟩ := h.keeps
  exact h.moved ht.image ht.mp (ht.pc.trans h.pc) h.low h.high (hkeeps.twins ht)

private theorem Ordered.twins (h : Ordered natives src m acts) (ht : Twins m m') :
    Ordered natives src m' acts := by
  cases h with
  | idle hmp hpc hkeeps =>
    rw [← ht.image] at hkeeps
    exact .idle (ht.mp.trans hmp) (ht.pc ▸ hpc) (hkeeps.twins ht)
  | launching hmp hpc hkeeps =>
    rw [← ht.image] at hkeeps
    exact .launching (ht.mp.trans hmp) (ht.pc.trans hpc) (hkeeps.twins ht)
  | entering h =>
    obtain ⟨arguments, heap, hkeeps⟩ := h.keeps
    refine .entering ⟨?_, ht.mp.trans h.mp, ht.pc.trans h.pc, arguments, heap, hkeeps.twins ht⟩
    rw [ht.image]
    exact h.live
  | inside h => exact .inside (h.twins ht)

private theorem Underway.twins (h : Underway natives src m acts) (ht : Twins m m') :
    Continues natives src m acts m' := by
  refine ⟨ht.image, ?_⟩
  cases h with
  | stopped hstate => exact .stopped (ht.state.trans hstate)
  | running hstate hreader h =>
    exact .running (ht.state.trans hstate) (ht.reader.trans hreader) (h.twins ht)
  | waiting hstate hreader h =>
    obtain ⟨hshape, hinside⟩ := h
    exact .waiting (ht.state.trans hstate) (ht.reader.trans hreader)
      (.inside hshape (hinside.twins ht))

/-- Nothing but a new run makes a stopped machine go on. -/
theorem Machine.lasting_stopped :
    Lasting (fun m => m.state = .stopped) (fun _ => True) (fun _ _ => True) := by
  have hinert : Inert fun m => m.state = .stopped :=
    ⟨fun _ _ _ _ _ _ _ _ h => h, fun {m} h => by rw [Machine.stop, if_pos h]; exact h⟩
  refine hinert.lasting (fun _ _ h => h) (fun _ _ _ _ _ _ _ _ _ h => h) ?_ ?_
  · intro m h
    rw [Machine.suspend, if_neg (by simp [h])]
    exact h
  · intro m h
    rw [Machine.resume, if_neg (by simp [h])]
    exact h

/-! ## Single moves -/

namespace Underway

/-- An instruction keeps the stack in order. -/
theorem execute (hc : Compiled natives src im) (himage : m.image = im)
    (h : Underway natives src m acts)
    (hstores : ∀ q ∈ Move.execute.stores m, Permitted m.image.typedConstants.size acts q.1 q.2)
    (hrun : stepOnce m = .ok () m') :
    Continues natives src m (Move.execute.follow natives src acts m) m' := by
  refine ⟨image_of_move (a := .execute) hrun, ?_⟩
  by_cases hstate : m.state = .running
  · cases h with
    | stopped hstopped => simp [hstate] at hstopped
    | waiting hwaiting => simp [hstate] at hwaiting
    | running _ hreader h =>
      obtain ⟨w, hfetch, hexecutes⟩ := h.executes hc himage ⟨hstate, hreader⟩
      simp only [Move.stores, if_pos hstate, hfetch, Option.elim_some] at hstores
      simp only [Move.follow, if_pos hstate, hfetch, Option.elim_some]
      have hmeets := hexecutes hstores
      rw [stepOnce_fetched hstate hfetch] at hrun
      unfold Meets at hmeets
      cases hx : Machine.execute w (m.fetched w) with
      | ok u m₁ =>
        rw [hx] at hmeets hrun
        obtain rfl : m₁.observe = m' := (EStateM.Result.ok.inj hrun).2
        exact (hmeets.2.twins (.observe m₁)).2
      | error e m₁ =>
        rw [hx] at hrun
        cases e with
        | fault cause =>
          obtain rfl : m₁.failWith (m₁.errorOf cause) = m' := (EStateM.Result.ok.inj hrun).2
          exact .stopped (failWith_state ..)
        | error e =>
          obtain rfl : m₁.failWith e = m' := (EStateM.Result.ok.inj hrun).2
          exact .stopped (failWith_state ..)
        | crash c => cases hrun
  · have hidle : stepOnce m = .ok () m := if_pos hstate
    obtain rfl : m = m' := (EStateM.Result.ok.inj (hidle.symm.trans hrun)).2
    simp only [Move.follow, if_neg hstate]
    exact h

/-- Handing on a line keeps the stack in order. -/
theorem poll (h : Underway natives src m acts) (hrun : pollInput m = .ok () m') :
    Continues natives src m acts m' := by
  have himage : m'.image = m.image := image_of_move (a := .poll) hrun
  cases h with
  | stopped hstate =>
    have hpoll := lasting_stopped.pollInput hstate fun _ _ _ => trivial
    exact ⟨himage, .stopped (hpoll.of_host_ok hrun)⟩
  | running hstate hreader h =>
    obtain rfl : { m with line := none } = m' :=
      (EStateM.Result.ok.inj ((pollInput_unawaited (.inr hreader)).symm.trans hrun)).2
    exact ⟨rfl, .running hstate hreader (h.twins ⟨rfl, rfl, rfl, rfl, rfl, rfl, rfl, rfl⟩)⟩
  | waiting hstate hreader h =>
    obtain ⟨hshape, hinside⟩ := h
    obtain ⟨heap, hkeeps⟩ := hinside.keeps
    have hmeets := meets_pollInput_waiting hkeeps hstate hreader
    unfold Meets ofHost at hmeets
    rw [hrun] at hmeets
    exact hinside.served ⟨rfl, rfl, rfl, rfl⟩ hmeets.1 hinside.pc hinside.low hinside.high hshape

/-- Every move keeps the stack in order. -/
theorem move (hc : Compiled natives src im) (himage : m.image = im)
    (h : Underway natives src m acts) (a : Move)
    (hstores : ∀ q ∈ a.stores m, Permitted m.image.typedConstants.size acts q.1 q.2)
    (hrun : a.run m = .ok () m') :
    Continues natives src m (a.follow natives src acts m) m' := by
  cases a with
  | execute => exact h.execute hc himage hstores hrun
  | poll => exact h.poll hrun
  | answer line =>
    obtain rfl : m.deliver line = m' := (EStateM.Result.ok.inj hrun).2
    exact h.twins (.deliver m line)
  | console c =>
    obtain rfl : { m with console := c } = m' := (EStateM.Result.ok.inj hrun).2
    exact h.twins ⟨rfl, rfl, rfl, rfl, rfl, rfl, rfl, rfl⟩
  | wait =>
    obtain rfl : { m with held := 0 } = m' := (EStateM.Result.ok.inj hrun).2
    exact h.twins ⟨rfl, rfl, rfl, rfl, rfl, rfl, rfl, rfl⟩

/-- Moves keep the stack in order one after another. -/
theorem play (hc : Compiled natives src im) {moves : List Move} (himage : m.image = im)
    (h : Underway natives src m acts) (hdisciplined : src.Disciplined natives acts m moves)
    (hplay : Machine.play moves m = .ok () m') :
    Continues natives src m (src.callStack natives acts m moves) m' := by
  induction moves generalizing m acts with
  | nil =>
    obtain rfl : m = m' := (EStateM.Result.ok.inj hplay).2
    exact ⟨rfl, h⟩
  | cons a moves ih =>
    obtain ⟨hstores, hrest⟩ := hdisciplined
    cases hrun : a.run m with
    | error c m₁ =>
      rw [play_cons_error hrun] at hplay
      cases hplay
    | ok u m₁ =>
      rw [play_cons_ok hrun] at hplay
      simp only [hrun] at hrest
      simp only [Scoped.callStack, hrun]
      obtain ⟨himage₁, hunderway⟩ := h.move hc himage a hstores hrun
      obtain ⟨himage', hunderway'⟩ := ih (himage₁.trans himage) hunderway hrest hplay
      exact ⟨himage'.trans himage₁, hunderway'⟩

end Underway

/-! ## Runs -/

/-- A started machine is in order. -/
theorem underway_run (hc : Compiled natives src im) (himage : m.image = im)
    (hconstants : m.image.typedConstants.size ≤ m.store.size) (hsize : m.store.size < 2 ^ 62) :
    Underway natives src m.run [] := by
  have hstop := Beside.stop m
  have hstore : m.stop.store = m.store := by
    unfold Machine.stop
    split <;> rfl
  have hlength : m.run.store.size = m.store.size := by
    simp only [run, reset, initialStore, hstore, hstop.image, Array.size_append,
      Array.size_replicate]
    omega
  have hkeeps : Keeps m.run m.run.image.typedConstants.size m.store.size [] := by
    refine ⟨rfl, ?_, Nat.le_refl _, ?_, ?_, by simp, by simp, ?_⟩
    · rw [← hstore]
      rfl
    · rw [← hstop.image] at hconstants
      exact hconstants
    · rw [hlength]
      exact hsize
    · rw [← hlength]
      exact .nil
  refine .running rfl rfl (.idle rfl (.inl ?_) hkeeps)
  rw [← hc.start, ← himage, ← hstop.image]
  rfl

end

end PCode
