import Raveil.Device.Isolation
import Raveil.Device.Refines

/-! The words under the authority of `outputValid`: what a run of the region leaves in the scratchpad. -/
namespace Raveil.Device
open Raveil.Lib Raveil.Graph

section Sound

/-- The version of the live program. -/
def Wiring.version (w : Wiring) : ℕ := w.programVersion.toNat

local instance programIndex : NeZero 16 := ⟨by decide⟩

/-- The instructions of the live program. -/
def Wiring.instructions (w : Wiring) : List ℕ :=
  (List.range w.programLength.toNat).map fun i => (w.program (Fin.ofNat 16 i)).toNat

theorem Holds.sound {w : Wiring} {version : ℕ} {l : List ℕ} (h : Holds w version l) :
    Holds w w.version w.instructions := by
  have hl : w.instructions = l := by
    apply List.ext_getElem
    · rw [Wiring.instructions, List.length_map, List.length_range, h.length_eq]
    · intro i h1 h2
      simp only [Wiring.instructions, List.getElem_map, List.getElem_range]
      rw [h.word i h2, List.getD_eq_getElem]
  have hv : w.version = version := h.version_eq
  rw [hl, hv]
  exact h

/-- The live registers of the program installer hold a program that follows the rules. -/
def SoundProgram (s : Installer) : Prop :=
  ∀ shape, shape = baseline ∨ shape = compact →
    Holds ⟨shape, s.programVersion, s.programLength, s.program⟩
      (Wiring.version ⟨shape, s.programVersion, s.programLength, s.program⟩)
      (Wiring.instructions ⟨shape, s.programVersion, s.programLength, s.program⟩)

theorem soundProgram_live {s : Installer} {payload : Fin 32 → BitVec 32} (h : Live s payload)
    (ha : Admitted payload) : SoundProgram s := fun _ hs => (holds_of_live hs h ha).sound

theorem SoundProgram.step {s : Installer} (h : SoundProgram s) (io : InstallerInput) : SoundProgram (s.step io) := by
  by_cases hcommit : Commits s io
  · exact soundProgram_live (commit_step hcommit) (admitted_of_valid hcommit.2.2).2
  · obtain ⟨h1, h2, h3, -⟩ := live_step hcommit
    intro shape hs
    rw [h1, h2, h3]
    exact h shape hs

/-- The payload of the program that is there after reset. -/
def factoryPayload : Fin 32 → BitVec 32 := fun i =>
  ([0x52504731, 1, 10, 8] ++ List.ofFn Installer.reset.digest ++ List.ofFn Installer.reset.program ++
    List.replicate 4 0).getD i 0

theorem soundProgram_reset : SoundProgram Installer.reset := by
  refine @soundProgram_live _ factoryPayload ⟨rfl, rfl, ?_, ?_⟩ ?_
  · funext i
    revert i
    decide
  · funext i
    revert i
    decide
  · unfold Admitted
    decide +kernel

end Sound

section Bench

variable {s : Region} {io : RegionInput}

/-- The memory that the scratchpad is. -/
def Scratchpad.memory (m : Scratchpad) : Memory :=
  ⟨m.storage, if m.responseValid then some m.responseReadData else none⟩

/-- The core of the region with its side of the scratchpad. -/
def Region.bench (s : Region) : Bench := ⟨s.core, s.scratchpad.memory⟩

/-- What the scratchpad chooses: it takes a request when it owes nothing, and answers at once. -/
def Region.cycle (s : Region) (io : Control) : Cycle :=
  ⟨io.cancel, !s.scratchpad.responseValid, true, 0, s.scratchpad.responseReadData⟩

theorem Region.coreInput_bench (he : s.scratchpad.responseError = false) (c : Control) :
    s.coreInput c = s.bench.coreInput (s.graphStart c) (s.cycle c) := by
  cases hv : s.scratchpad.responseValid with
  | false => simp [Region.coreInput, Bench.coreInput, Region.bench, Region.cycle, Scratchpad.requestReady,
    Scratchpad.memory, hv, he]
  | true => simp [Region.coreInput, Bench.coreInput, Region.bench, Region.cycle, Scratchpad.requestReady,
    Scratchpad.memory, hv, he]

theorem Scratchpad.accept_memory (m : Scratchpad) {request : Request} (h : request.address < 580) :
    (m.accept request).memory = m.memory.accept 0 request ∧ (m.accept request).responseError = false := by
  have herror : (!decide (request.address < 580)) = false := by
    rw [decide_eq_true h]
    rfl
  refine ⟨?_, herror⟩
  unfold Scratchpad.memory Scratchpad.accept Memory.accept
  simp only [herror, Bool.not_false, Bool.true_and]
  cases hwrite : request.write with
  | true => rfl
  | false => rfl

/-- While the core is busy the region is a bench. -/
theorem Region.bench_step (hb : s.core.busy = true) (he : s.scratchpad.responseError = false)
    (haddress : s.core.requestFire (s.coreInput io.toControl) = true →
      (s.core.request s.wiring (s.coreInput io.toControl)).address < 580) :
    (s.step io).bench = s.bench.step s.wiring false (s.cycle io.toControl) ∧
      (s.step io).scratchpad.responseError = false := by
  have hstart := @graphStart_of_busy s io.toControl hb
  have hinput := Region.coreInput_bench he io.toControl
  rw [hstart] at hinput
  have hcore : (s.step io).core = s.core.step s.wiring (s.bench.coreInput false (s.cycle io.toControl)) := by
    rw [← hinput]
    rfl
  have hmemory : (s.step io).scratchpad = s.scratchpad.step (s.core.requestValid (s.coreInput io.toControl))
      (s.core.request s.wiring (s.coreInput io.toControl)) s.core.responseReady := by
    change s.scratchpad.step (s.requestValid io.toControl) (s.request io.toControl) (s.responseReady io.toControl) = _
    rw [Region.requestValid, Region.request, Region.responseReady, if_pos hb, if_pos hb, if_pos hb]
  have hfire : s.core.requestFire (s.coreInput io.toControl) =
      (s.core.requestValid (s.coreInput io.toControl) && s.scratchpad.requestReady) := rfl
  have hresponse : s.core.responseFire (s.coreInput io.toControl) =
      (s.scratchpad.responseValid && s.core.responseReady) := rfl
  rw [hinput] at hmemory hfire hresponse haddress
  cases hf : s.core.requestFire (s.bench.coreInput false (s.cycle io.toControl)) with
  | true =>
    have hlt := haddress hf
    rw [Scratchpad.step, ← hfire, hf, if_pos rfl] at hmemory
    obtain ⟨haccept, herror⟩ := Scratchpad.accept_memory s.scratchpad hlt
    rw [← hmemory] at haccept herror
    refine ⟨?_, herror⟩
    change Bench.mk (s.step io).core (s.step io).scratchpad.memory = Bench.mk _ (if _ then _ else _)
    rw [hcore, haccept, Bench.mk.injEq]
    exact ⟨rfl, (if_pos hf).symm⟩
  | false =>
    rw [Scratchpad.step, ← hfire, hf, if_neg Bool.false_ne_true, ← hresponse] at hmemory
    have hkept : (s.step io).scratchpad.responseError = false := by
      rw [hmemory]
      split
      · exact he
      · exact he
    refine ⟨?_, hkept⟩
    change Bench.mk (s.step io).core (s.step io).scratchpad.memory = Bench.mk _ (if _ then _ else if _ then _ else _)
    rw [hcore, hmemory, Bench.mk.injEq]
    refine ⟨rfl, ?_⟩
    change _ = if s.core.requestFire (s.bench.coreInput false (s.cycle io.toControl)) = true then _ else
      if s.core.responseFire (s.bench.coreInput false (s.cycle io.toControl)) = true then _ else _
    rw [hf, if_neg Bool.false_ne_true]
    cases hr : s.core.responseFire (s.bench.coreInput false (s.cycle io.toControl)) with
    | true => rfl
    | false => rfl

end Bench

section Words

/-- The input words that are staged. -/
def Region.staged (s : Region) : List ℕ :=
  (List.range 324).map fun i => (s.scratchpad.storage (BitVec.ofNat 10 i)).toNat

theorem Region.length_staged (s : Region) : s.staged.length = 324 := by
  rw [Region.staged, List.length_map, List.length_range]

theorem Region.staged_getD (s : Region) {i : ℕ} (hi : i < 324) :
    (s.scratchpad.storage (BitVec.ofNat 10 i)).toNat = s.staged.getD i 0 := by
  rw [Region.staged, List.getD_eq_getElem _ _ (by rw [List.length_map, List.length_range]; exact hi),
    List.getElem_map, List.getElem_range]

/-- The scratchpad as a run leaves it that was started in state `z`. -/
def Region.result (z : Region) : BitVec 10 → BitVec 32 :=
  written z.wiring.version z.wiring.shape z.staged z.wiring.instructions z.scratchpad.storage
    z.wiring.shape.activeOutputs.toNat

/-- The output words are those of the run that was started in state `z`. -/
def Delivers (z s : Region) : Prop :=
  ∀ a : BitVec 10, 324 ≤ a.toNat → s.scratchpad.storage a = z.result a

end Words

section Activity

/-- What holds of the region in every state. -/
structure RegionOk (s : Region) : Prop where
  guarded : Guarded s
  sound : SoundProgram s.program
  error : s.scratchpad.responseError = false
  index : s.provider.index.toNat ≤ 323

theorem RegionOk.holds {s : Region} (h : RegionOk s) : Holds s.wiring s.wiring.version s.wiring.instructions :=
  h.sound _ h.guarded.config.shape

/-- What the region is doing, with the states in which the last run was started and in which the last
run that completed was started. -/
inductive Activity (s : Region) (started completed : Option Region) : Prop
  | idle (hb : s.core.busy = false)
      (hv : s.outputValid = true → ∃ z, completed = some z ∧ Delivers z s)
  | running (z : Region) (hz : started = some z) (hw : s.wiring = z.wiring) (hv : s.outputValid = false)
      (trace : List Transaction) (cell pc : ℕ) (phase : Phase)
      (h : Running s.wiring s.wiring.version z.staged s.wiring.instructions z.scratchpad.storage s.bench trace cell
        pc phase)
  | draining (hv : s.outputValid = false) (hb : s.core.busy = true) (hr : s.core.cancelRequested = true)
      (hs : s.scratchpad.responseValid = true → s.core.responseReady = true)
  | stuck (hv : s.outputValid = false) (hb : s.core.busy = true) (hs : s.core.state = .loadRequest)
      (hr : s.scratchpad.responseValid = true)

variable {s : Region} {io : RegionInput} {started completed : Option Region}

theorem Region.response_isSome (s : Region) : s.bench.memory.response.isSome = s.scratchpad.responseValid := by
  cases h : s.scratchpad.responseValid with
  | false => simp [Region.bench, Scratchpad.memory, h]
  | true => simp [Region.bench, Scratchpad.memory, h]

/-- While the core is busy only its end changes the authority of the output. -/
theorem Region.outputValid_busy (hb : s.core.busy = true) (hv : s.outputValid = false) (c : Control) :
    s.outputValidNext c = (!s.cancellation c && s.completion c) := by
  have hready : s.inputStageReady = false := by simp [Region.inputStageReady, hb]
  rw [Region.outputValidNext, graphStart_of_busy hb, hready, hv, Bool.and_false]
  cases s.cancellation c <;> cases s.completion c <;> rfl

/-- The wiring stays while the core is busy. -/
theorem RegionOk.wiring_busy (h : RegionOk s) (hb : s.core.busy = true) : (s.step io).wiring = s.wiring :=
  wiring_step h.guarded (Or.inl (by simp [Region.installerBusy, hb]))

/-- The index of the provider stays inside the input. -/
theorem Provider.index_step {p : Provider} (h : p.index.toNat ≤ 323) (input : ProviderInput) :
    (p.step input).index.toNat ≤ 323 := by
  have hbegin : ((if input.start then p.begin input.seed else p).index).toNat ≤ 323 := by
    cases input.start with
    | true => exact Nat.zero_le 323
    | false => exact h
  unfold Provider.step
  cases hf : p.responseFire input with
  | false =>
    cases p.requestFire input with
    | true => exact hbegin
    | false => exact hbegin
  | true =>
    cases hfinal : p.finalResponse input with
    | true =>
      cases p.requestFire input with
      | true => exact hbegin
      | false => exact hbegin
    | false =>
      have hne : p.index ≠ 323 := by
        intro heq
        rw [Provider.finalResponse, hf, heq] at hfinal
        cases hfinal
      have hlt : p.index.toNat < 323 := by
        refine lt_of_le_of_ne h fun heq => hne ?_
        apply BitVec.eq_of_toNat_eq
        exact heq
      have hnext : (p.index + 1).toNat ≤ 323 := by
        rw [BitVec.toNat_add]
        simp only [BitVec.reduceToNat]
        omega
      cases p.requestFire input with
      | true => exact hnext
      | false => exact hnext

/-- The states that the chronicle of a run keeps: where the last run started, and the last one that
completed. -/
def startedNext (s : Region) (started : Option Region) (c : Control) : Option Region :=
  if s.graphStart c then some s else started

def completedNext (s : Region) (started completed : Option Region) (c : Control) : Option Region :=
  if s.completion c then started else completed

section Busy

variable (h : RegionOk s) (hb : s.core.busy = true)

include h hb

/-- A cancelled core drains and stops. -/
theorem RegionOk.step_cancelling (hv : s.outputValid = false)
    (hcancel : s.core.cancelling (s.coreInput io.toControl) = true)
    (hs : s.scratchpad.responseValid = true → s.core.responseReady = true) :
    (s.step io).scratchpad.responseError = false ∧ ∀ started completed, Activity (s.step io) started completed := by
  have hinput := Region.coreInput_bench h.error io.toControl
  rw [graphStart_of_busy hb] at hinput
  have hno : s.core.requestFire (s.coreInput io.toControl) = false := by
    simp [Core.requestFire, Core.requestValid, Core.graphInputRequest, Core.graphOutputRequest, hcancel]
  obtain ⟨hbench, herror⟩ := @Region.bench_step s io hb h.error fun hfire => by
    rw [hno] at hfire
    cases hfire
  refine ⟨herror, fun started completed => ?_⟩
  rw [hinput] at hcancel
  obtain ⟨-, hcomplete, hstop, hwait⟩ := @Bench.step_cancelling s.bench _ _ s.wiring hb hcancel
  have hcompletion : s.completion io.toControl = false := by
    rw [Region.completion, hinput]
    exact hcomplete
  have hvalid : (s.step io).outputValid = false := by
    change s.outputValidNext io.toControl = false
    rw [Region.outputValid_busy hb hv, hcompletion, Bool.and_false]
  cases hr : s.scratchpad.responseValid with
  | false =>
    have hnone : s.bench.memory.response = none := by simp [Region.bench, Scratchpad.memory, hr]
    obtain ⟨-, hbusy, -⟩ := hstop hnone
    rw [← hbench] at hbusy
    refine .idle hbusy fun hout => ?_
    rw [hvalid] at hout
    cases hout
  | true =>
    have hsome : s.bench.memory.response.isSome = true := by rw [Region.response_isSome, hr]
    obtain ⟨-, hcore, -⟩ := hwait hsome
    rw [← hbench] at hcore
    change (s.step io).core = _ at hcore
    refine .draining hvalid (by rw [hcore]; exact hb) (by rw [hcore]) fun _ => ?_
    rw [hcore]
    exact hs hr

omit h in
/-- A core that waits for a response that is not its own waits for ever. -/
theorem Region.stuck_core (hstate : s.core.state = .loadRequest) (hr : s.scratchpad.responseValid = true) :
    (s.step io).core.busy = true ∧ (s.step io).core.state = .loadRequest := by
  have hfire : s.core.requestFire (s.coreInput io.toControl) = false := by
    simp [Core.requestFire, Region.coreInput, Scratchpad.requestReady, hr]
  change (s.core.step s.wiring (s.coreInput io.toControl)).busy = true ∧ _
  have hpending : (s.coreInput io.toControl).pending = true := hr
  have hnext : s.core.step s.wiring (s.coreInput io.toControl) = { s.core with cancelRequested := true } ∨
      s.core.step s.wiring (s.coreInput io.toControl) = { s.core with cycleCount := s.core.cycleCount + 1 } := by
    rw [Core.step, hb, hpending, Core.stepBusy, hstate, hfire]
    cases s.core.cancelling (s.coreInput io.toControl) with
    | true =>
      left
      simp [hb, hstate]
    | false =>
      right
      simp [hb, hstate]
  change _ ∧ (s.core.step s.wiring (s.coreInput io.toControl)).state = .loadRequest
  rcases hnext with hnext | hnext
  · rw [hnext]
    exact ⟨hb, hstate⟩
  · rw [hnext]
    exact ⟨hb, hstate⟩

theorem RegionOk.step_stuck (hv : s.outputValid = false) (hstate : s.core.state = .loadRequest)
    (hr : s.scratchpad.responseValid = true) :
    (s.step io).scratchpad.responseError = false ∧ ∀ started completed, Activity (s.step io) started completed := by
  have hready : s.core.responseReady = false := by
    rw [Core.responseReady, hstate]
    rfl
  have hscratchpad : (s.step io).scratchpad = s.scratchpad := by
    change s.scratchpad.step _ _ (s.responseReady io.toControl) = _
    rw [Region.responseReady, if_pos hb, hready, Scratchpad.step, Scratchpad.requestReady, hr]
    simp
  have hcompletion : s.completion io.toControl = false := by
    simp [Region.completion, Core.completion, hstate]
  have hcore := @Region.stuck_core s io hb hstate hr
  refine ⟨by rw [hscratchpad]; exact h.error, fun _ _ => .stuck ?_ hcore.1 hcore.2 (by rw [hscratchpad]; exact hr)⟩
  change s.outputValidNext io.toControl = false
  rw [Region.outputValid_busy hb hv, hcompletion, Bool.and_false]

end Busy

/-- A run goes on, ends, or is cancelled. -/
theorem RegionOk.step_running (h : RegionOk s) {z : Region} (hz : started = some z) (hw : s.wiring = z.wiring)
    (hv : s.outputValid = false) {trace : List Transaction} {cell pc : ℕ} {phase : Phase}
    (hr : Running s.wiring s.wiring.version z.staged s.wiring.instructions z.scratchpad.storage s.bench trace cell
      pc phase) :
    (s.step io).scratchpad.responseError = false ∧
      Activity (s.step io) started (completedNext s started completed io.toControl) := by
  have hb : s.core.busy = true := hr.busy
  have hwords := fun i hi => @Region.staged_getD z i hi
  have hinput := Region.coreInput_bench h.error io.toControl
  rw [graphStart_of_busy hb] at hinput
  cases hc : io.cancel with
  | true =>
    have hcancel : s.core.cancelling (s.coreInput io.toControl) = true := by
      simp [Core.cancelling, Region.coreInput, hc]
    obtain ⟨herror, hnext⟩ := h.step_cancelling hb hv hcancel fun hsome =>
      hr.responseReady (by rw [Region.response_isSome]; exact hsome)
    exact ⟨herror, hnext _ _⟩
  | false =>
    have hcalm : (s.cycle io.toControl).cancel = false := hc
    obtain ⟨hbench, herror⟩ := @Region.bench_step s io hb h.error (by
      rw [hinput]
      exact hr.address_lt h.holds hwords hcalm)
    have hwiring : (s.step io).wiring = s.wiring := h.wiring_busy hb
    have hcompletion : s.completion io.toControl = s.bench.completion s.wiring false (s.cycle io.toControl) := by
      rw [Region.completion, hinput]
      rfl
    have hcancellation : s.cancellation io.toControl = false := by
      rw [Region.cancellation, hinput]
      exact hr.cancellation hcalm
    have hvalid : (s.step io).outputValid = s.completion io.toControl := by
      change s.outputValidNext io.toControl = _
      rw [Region.outputValid_busy hb hv, hcancellation]
      rfl
    refine ⟨herror, ?_⟩
    have hmove : ∀ {trace' cell' pc' phase'}, s.completion io.toControl = false →
        Running s.wiring s.wiring.version z.staged s.wiring.instructions z.scratchpad.storage
          (s.bench.step s.wiring false (s.cycle io.toControl)) trace' cell' pc' phase' →
        Activity (s.step io) started (completedNext s started completed io.toControl) := by
      intro trace' cell' pc' phase' hno hnext
      rw [← hbench] at hnext
      refine .running z hz (hwiring.trans hw) (by rw [hvalid]; exact hno) trace' cell' pc' phase' ?_
      rw [hwiring]
      exact hnext
    cases hr.step h.holds hwords false hcalm with
    | move _ _ _ hno hnext => exact hmove (by rw [hcompletion]; exact hno) hnext
    | wait hno hnext => exact hmove (by rw [hcompletion]; exact hno) hnext
    | finish hyes _ hnext =>
      rw [← hbench] at hnext
      have hdone : completedNext s started completed io.toControl = started := by
        rw [completedNext, hcompletion, hyes]
        rfl
      rw [hdone]
      refine .idle hnext.busy fun _ => ⟨z, hz, fun a _ => ?_⟩
      have hstorage : (s.step io).scratchpad.storage = _ := hnext.storage
      rw [hstorage, Region.result, ← hw]

section Start

variable {c : Control}

/-- A run starts by itself only on the response to the last fixture word. -/
theorem start_release (hstart : s.graphStart c = true) (hno : s.directStart c = false) :
    s.provider.finalResponse (s.providerInput c) = true := by
  rw [Region.graphStart, hno, Bool.or_false, Bool.and_assoc, Bool.and_eq_true] at hstart
  exact hstart.1

/-- The provider asks for nothing when a run starts. -/
theorem start_requestValid (hstart : s.graphStart c = true) : s.provider.requestValid = false := by
  cases hdirect : s.directStart c with
  | true =>
    simp only [Region.directStart, Bool.and_eq_true, Bool.not_eq_true'] at hdirect
    simp [Provider.requestValid, hdirect.1.1.2]
  | false =>
    have hfinal := start_release hstart hdirect
    simp only [Provider.finalResponse, Provider.responseFire, Bool.and_eq_true] at hfinal
    simp [Provider.requestValid, hfinal.1.1.1.2]

/-- A response that is out when a run starts is taken in that cycle. -/
theorem start_responseReady (hb : s.core.busy = false) (hstart : s.graphStart c = true)
    (hr : s.scratchpad.responseValid = true) : s.responseReady c = true := by
  have hfinal := start_release hstart (by simp [Region.directStart, hr])
  simp only [Provider.finalResponse, Provider.responseFire, Region.providerInput, Bool.and_eq_true] at hfinal
  obtain ⟨⟨⟨⟨hactive, hwaiting⟩, hselected, -⟩, -⟩, -⟩ := hfinal
  rw [Region.responseReady, hb, if_neg Bool.false_ne_true, if_pos hselected, Provider.responseReady, hactive, hwaiting]
  rfl

end Start

section Idle

/-- A staging request that the scratchpad takes. -/
def Region.stages (s : Region) (c : Control) : Bool := s.controlStageSelected c && s.scratchpad.requestReady

variable (h : RegionOk s) (hb : s.core.busy = false)

include h hb

/-- Every request outside a run stays in the scratchpad. -/
theorem RegionOk.idle_address (c : Control) : (s.request c).address < 580 := by
  have hindex := h.index
  have hstage := c.inputStageAddress.isLt
  have hvalidate := c.outputValidationAddress.isLt
  rw [Region.request, if_neg (by rw [hb]; exact Bool.false_ne_true), BitVec.lt_def]
  dsimp only
  change _ < 580
  by_cases hf : s.fixtureSelected = true
  · rw [if_pos hf, BitVec.toNat_setWidth]
    omega
  rw [if_neg hf]
  by_cases hc : s.controlStageSelected c = true
  · rw [if_pos hc, BitVec.toNat_setWidth]
    omega
  · rw [if_neg hc, BitVec.toNat_add, BitVec.toNat_setWidth]
    simp only [BitVec.reduceToNat]
    omega

theorem RegionOk.idle_error : (s.step io).scratchpad.responseError = false := by
  change (s.scratchpad.step _ (s.request io.toControl) _).responseError = false
  unfold Scratchpad.step
  split
  · exact (Scratchpad.accept_memory s.scratchpad (h.idle_address hb io.toControl)).2
  · split
    · exact h.error
    · exact h.error

/-- Outside a run only a staging request writes above the input. -/
theorem RegionOk.idle_storage {a : BitVec 10} (ha : 324 ≤ a.toNat)
    (hno : ¬ (s.stages io.toControl = true ∧ io.inputStageAddress.toNat = a.toNat)) :
    (s.step io).scratchpad.storage a = s.scratchpad.storage a := by
  have hindex := h.index
  change (s.scratchpad.step (s.requestValid io.toControl) (s.request io.toControl) _).storage a = _
  unfold Scratchpad.step
  split
  · next hfire =>
    rw [Bool.and_eq_true] at hfire
    unfold Scratchpad.accept
    dsimp only
    split
    · next hwrite =>
      refine Function.update_of_ne (fun heq => ?_) _ _
      rw [Bool.and_eq_true] at hwrite
      have hwrite := hwrite.2
      rw [Region.request, if_neg (by rw [hb]; exact Bool.false_ne_true)] at heq hwrite
      dsimp only at heq hwrite
      by_cases hf : s.fixtureSelected = true
      · rw [if_pos hf] at heq
        rw [heq, BitVec.toNat_setWidth] at ha
        omega
      · rw [Bool.not_eq_true] at hf
        rw [hf, Bool.false_or] at hwrite
        rw [hf, if_neg Bool.false_ne_true, if_pos hwrite] at heq
        refine hno ⟨by rw [Region.stages, hwrite, hfire.2]; rfl, ?_⟩
        have hlt := io.inputStageAddress.isLt
        rw [heq, BitVec.toNat_setWidth, Nat.mod_eq_of_lt (by omega)]
    · rfl
  · split
    · rfl
    · rfl

omit h in
theorem Region.idle_signals (c : Control) : s.completion c = false ∧ s.cancellation c = false := by
  constructor
  · simp [Region.completion, Core.completion, hb]
  · simp [Region.cancellation, Core.cancellation, Core.storeFailure, hb]

/-- No start: the words under authority stay. -/
theorem RegionOk.step_idle (hv : s.outputValid = true → ∃ z, completed = some z ∧ Delivers z s)
    (hstart : s.graphStart io.toControl = false)
    (hkeep : ¬ (s.outputValid = true ∧ s.fixtureMode = true ∧ s.stages io.toControl = true ∧
      324 ≤ io.inputStageAddress.toNat)) :
    Activity (s.step io) started (completedNext s started completed io.toControl) := by
  obtain ⟨hcompletion, hcancellation⟩ := Region.idle_signals hb io.toControl
  have hcore : (s.step io).core.busy = false := by
    change (s.core.step s.wiring (s.coreInput io.toControl)).busy = false
    have hno : (s.coreInput io.toControl).start = false := hstart
    rw [Core.step, hb, hno, Bool.and_false]
    exact hb
  have hsame : completedNext s started completed io.toControl = completed := by
    rw [completedNext, hcompletion]
    rfl
  rw [hsame]
  refine .idle hcore fun hout => ?_
  change s.outputValidNext io.toControl = true at hout
  rw [Region.outputValidNext, hcancellation, hcompletion, hstart] at hout
  have hquiet : (io.inputStageValid && s.inputStageReady) = false := by
    by_contra hyes
    rw [Bool.not_eq_false] at hyes
    rw [hyes] at hout
    cases hout
  rw [hquiet] at hout
  obtain ⟨z, hz, hdelivers⟩ := hv hout
  refine ⟨z, hz, fun a ha => ?_⟩
  rw [h.idle_storage hb ha, hdelivers a ha]
  -- an accepted staging request would have taken the authority away, except in fixture mode
  rintro ⟨hstages, haddress⟩
  simp only [Region.stages, Region.controlStageSelected, Region.fixtureSelected, Bool.and_eq_true, hb,
    Bool.not_false, Bool.true_and, Bool.not_eq_true'] at hstages
  obtain ⟨⟨hprovider, hvalid⟩, hready⟩ := hstages
  cases hmode : s.fixtureMode with
  | true =>
    refine hkeep ⟨hout, hmode, ?_, by omega⟩
    simp [Region.stages, Region.controlStageSelected, Region.fixtureSelected, hb, hprovider, hvalid, hready]
  | false =>
    simp [Region.inputStageReady, hmode, hb, hprovider, hvalid, hready] at hquiet

/-- A start runs the words that are there, unless another request gets to the scratchpad first. -/
theorem RegionOk.step_start (hstart : s.graphStart io.toControl = true) :
    Activity (s.step io) (startedNext s started io.toControl) completed := by
  obtain ⟨⟨hconfig, -⟩, hprogram, -⟩ := Region.graphStart_ready hstart
  have hwiring : (s.step io).wiring = s.wiring := wiring_step h.guarded (Or.inr ⟨hconfig, hprogram⟩)
  obtain ⟨hcompletion, hcancellation⟩ := Region.idle_signals hb io.toControl
  have hcore : (s.step io).core = .started := by
    change s.core.step s.wiring (s.coreInput io.toControl) = .started
    have hyes : (s.coreInput io.toControl).start = true := hstart
    rw [Core.step, hb, hyes, Bool.and_false]
    rfl
  have hvalid : (s.step io).outputValid = false := by
    change s.outputValidNext io.toControl = false
    rw [Region.outputValidNext, hcancellation, hcompletion, hstart]
    rfl
  have hnext : startedNext s started io.toControl = some s := by
    rw [startedNext, hstart]
    rfl
  have hrun : (s.step io).scratchpad.storage = s.scratchpad.storage →
      (s.step io).scratchpad.responseValid = false →
      Activity (s.step io) (startedNext s started io.toControl) completed := by
    intro hstorage hquiet
    have hbench : (s.step io).bench = ⟨.started, ⟨s.scratchpad.storage, none⟩⟩ := by
      rw [Region.bench, hcore, Scratchpad.memory, hstorage, hquiet]
      rfl
    refine .running s hnext hwiring hvalid [] 0 0 .request ?_
    rw [hbench, hwiring]
    exact running_started h.holds s.scratchpad.storage
  have hscratchpad : (s.step io).scratchpad =
      s.scratchpad.step (s.requestValid io.toControl) (s.request io.toControl) (s.responseReady io.toControl) := rfl
  cases hfire : s.requestValid io.toControl && s.scratchpad.requestReady with
  | true =>
    rw [Scratchpad.step, hfire, if_pos rfl] at hscratchpad
    exact .stuck hvalid (by rw [hcore]; rfl) (by rw [hcore]; rfl) (by rw [hscratchpad]; rfl)
  | false =>
    rw [Scratchpad.step, hfire, if_neg Bool.false_ne_true] at hscratchpad
    refine hrun ?_ ?_
    · rw [hscratchpad]
      split
      · rfl
      · rfl
    · cases hr : s.scratchpad.responseValid with
      | false =>
        rw [hscratchpad, hr]
        exact hr
      | true =>
        have hready : s.responseReady io.toControl = true := start_responseReady hb hstart hr
        rw [hscratchpad, hr, hready]
        rfl

end Idle

/-- What one cycle does to what holds of the region. -/
theorem Activity.step (h : RegionOk s) (ha : Activity s started completed)
    (hkeep : ¬ (s.outputValid = true ∧ s.fixtureMode = true ∧ s.stages io.toControl = true ∧
      324 ≤ io.inputStageAddress.toNat)) :
    RegionOk (s.step io) ∧ Activity (s.step io) (startedNext s started io.toControl)
      (completedNext s started completed io.toControl) := by
  suffices hsuff : (s.step io).scratchpad.responseError = false ∧ Activity (s.step io)
      (startedNext s started io.toControl) (completedNext s started completed io.toControl) by
    exact ⟨⟨h.guarded.step io, h.sound.step _, hsuff.1, Provider.index_step h.index _⟩, hsuff.2⟩
  have hbusy : s.core.busy = true → startedNext s started io.toControl = started := by
    intro hb
    rw [startedNext, graphStart_of_busy hb]
    rfl
  cases ha with
  | idle hb hv =>
    refine ⟨h.idle_error hb, ?_⟩
    cases hstart : s.graphStart io.toControl with
    | false =>
      have hsame : startedNext s started io.toControl = started := by
        rw [startedNext, hstart]
        rfl
      rw [hsame]
      exact h.step_idle hb hv hstart hkeep
    | true =>
      have hsame : completedNext s started completed io.toControl = completed := by
        rw [completedNext, (Region.idle_signals hb io.toControl).1]
        rfl
      rw [hsame]
      exact h.step_start hb hstart
  | running z hz hw hv trace cell pc phase hr =>
    rw [hbusy hr.busy]
    exact h.step_running hz hw hv hr
  | draining hv hb hr hs =>
    obtain ⟨herror, hnext⟩ := @RegionOk.step_cancelling s io h hb hv (by rw [Core.cancelling, hr, Bool.or_true]) hs
    exact ⟨herror, hnext _ _⟩
  | stuck hv hb hs hr =>
    obtain ⟨herror, hnext⟩ := @RegionOk.step_stuck s io h hb hv hs hr
    exact ⟨herror, hnext _ _⟩

theorem regionOk_reset : RegionOk Region.reset :=
  ⟨⟨configOk_reset, liveOk_reset⟩, soundProgram_reset, rfl, Nat.zero_le 323⟩

theorem activity_reset : Activity Region.reset none none := .idle rfl fun h => by cases h

end Activity

section Chronicle

/-- The state after some cycles, with the state in which the last run was started, and the state in which
the last run that completed was started. -/
structure Chronicle where
  state : Region
  started : Option Region
  completed : Option Region

def Chronicle.step (c : Chronicle) (io : RegionInput) : Chronicle :=
  ⟨c.state.step io, startedNext c.state c.started io.toControl,
    completedNext c.state c.started c.completed io.toControl⟩

def chronicle (ios : List RegionInput) : Chronicle := ios.foldl Chronicle.step ⟨Region.reset, none, none⟩

theorem chronicle_append (ios : List RegionInput) (io : RegionInput) :
    chronicle (ios ++ [io]) = (chronicle ios).step io := by
  rw [chronicle, List.foldl_append]
  rfl

theorem chronicle_state (ios : List RegionInput) : (chronicle ios).state = Region.reset.run ios := by
  induction ios using List.reverseRecOn with
  | nil => rfl
  | append_singleton ios io ih =>
    rw [chronicle_append, Region.run_append, ← ih]
    rfl

/-- What holds along a history. -/
structure ChronicleOk (c : Chronicle) : Prop where
  region : RegionOk c.state
  activity : Activity c.state c.started c.completed
  started : ∀ z, c.started = some z → RegionOk z
  completed : ∀ z, c.completed = some z → RegionOk z

theorem ChronicleOk.step {c : Chronicle} (h : ChronicleOk c) {io : RegionInput}
    (hkeep : ¬ (c.state.outputValid = true ∧ c.state.fixtureMode = true ∧ c.state.stages io.toControl = true ∧
      324 ≤ io.inputStageAddress.toNat)) : ChronicleOk (c.step io) := by
  obtain ⟨hregion, hactivity⟩ := h.activity.step h.region hkeep
  refine ⟨hregion, hactivity, fun z hz => ?_, fun z hz => ?_⟩
  · change startedNext c.state c.started io.toControl = some z at hz
    unfold startedNext at hz
    split at hz
    · obtain rfl := Option.some.inj hz
      exact h.region
    · exact h.started z hz
  · change completedNext c.state c.started c.completed io.toControl = some z at hz
    unfold completedNext at hz
    split at hz
    · exact h.started z hz
    · exact h.completed z hz

theorem chronicleOk_reset : ChronicleOk ⟨Region.reset, none, none⟩ :=
  ⟨regionOk_reset, activity_reset, fun z hz => (by cases hz), fun z hz => (by cases hz)⟩

/-- A start that finds zeros where its run does not store. -/
def CleanStart (z : Region) : Prop := ∀ k, z.wiring.shape.activeOutputs.toNat ≤ k → k < 256 →
  z.scratchpad.storage (BitVec.ofNat 10 (324 + k)) = 0

/-- A cycle that does not bring words from elsewhere under authority: a run that completes began with zeros where it
does not store, and no staging request writes over an output that is valid in fixture mode. -/
structure Clean (c : Chronicle) (io : Control) : Prop where
  tail : c.state.completion io = true → ∀ z, c.started = some z → CleanStart z
  keep : ¬ (c.state.outputValid = true ∧ c.state.fixtureMode = true ∧ c.state.stages io = true ∧
    324 ≤ io.inputStageAddress.toNat)

/-- In every history whose cycles are clean, every run that completed began clean. -/
theorem clean_run {ios : List RegionInput}
    (h : ∀ before io after, ios = before ++ io :: after → Clean (chronicle before) io.toControl) :
    ChronicleOk (chronicle ios) ∧ ∀ z, (chronicle ios).completed = some z → CleanStart z := by
  induction ios using List.reverseRecOn with
  | nil => exact ⟨chronicleOk_reset, fun z hz => (by cases hz)⟩
  | append_singleton ios io ih =>
    rw [chronicle_append]
    obtain ⟨hok, hcompleted⟩ := ih fun before x after heq => h before x (after ++ [io]) (by rw [heq]; simp)
    have hclean : Clean (chronicle ios) io.toControl := h ios io [] rfl
    refine ⟨hok.step hclean.keep, fun z hz => ?_⟩
    change completedNext (chronicle ios).state (chronicle ios).started (chronicle ios).completed
      io.toControl = some z at hz
    unfold completedNext at hz
    split at hz
    · next hcompletes => exact hclean.tail hcompletes z hz
    · exact hcompleted z hz

end Chronicle

end Raveil.Device
