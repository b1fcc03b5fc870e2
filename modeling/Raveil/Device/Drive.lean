import Raveil.Device.Stale

/-! The region as a single owner drives it: no fixture, and one request at a time. -/
namespace Raveil.Device

/-- The fixture has never staged anything. -/
structure Direct (s : Region) : Prop where
  mode : s.fixtureMode = false
  provider : s.provider.active = false

theorem direct_reset : Direct Region.reset := ⟨rfl, rfl⟩

section Direct

variable {s : Region} {io : RegionInput}

theorem Direct.step (h : Direct s) (hio : io.fixtureStageStart = false) : Direct (s.step io) := by
  constructor
  · change (s.fixtureMode || (io.fixtureStageStart && s.fixtureStageReady io.toControl)) = false
    rw [h.mode, hio]
    rfl
  · change (s.provider.step (s.providerInput io.toControl)).active = false
    simp [Provider.step, Region.providerInput, hio, Provider.requestFire, Provider.responseFire, h.provider]

theorem Direct.fixtureSelected (h : Direct s) : s.fixtureSelected = false := by
  rw [Region.fixtureSelected, h.provider, Bool.and_false]

/-- Every start is one that is asked for. -/
theorem Direct.graphStart (h : Direct s) (c : Control) : s.graphStart c = s.directStart c := by
  have hfinal : s.provider.finalResponse (s.providerInput c) = false := by
    simp [Provider.finalResponse, Provider.responseFire, h.provider]
  rw [Region.graphStart, hfinal, Bool.false_or, Region.directStart]
  cases s.configReady <;> cases s.programReady <;> simp

theorem Direct.graphStart_of_no_start (h : Direct s) {c : Control} (hc : c.start = false) : s.graphStart c = false := by
  rw [h.graphStart, Region.directStart, hc]
  rfl

section Idle

variable (h : Direct s) (hb : s.core.busy = false)

include h hb

theorem Direct.requestValid (c : Control) :
    s.requestValid c = (c.inputStageValid || (c.outputValidationValid && s.outputValid)) := by
  rw [Region.requestValid, hb, if_neg Bool.false_ne_true, Provider.requestValid, h.provider, Bool.false_and,
    Bool.false_or, Region.controlStageSelected, Region.controlValidationSelected, hb, h.fixtureSelected]
  cases c.inputStageValid <;> simp

/-- A quiet region takes a start. -/
theorem Direct.directStart (hq : s.scratchpad.responseValid = false) (hc : s.configReady = true)
    (hp : s.programReady = true) (c : Control) : s.directStart c = c.start := by
  rw [Region.directStart, hb, hq, h.provider, hc, hp]
  simp

omit h in
/-- Without a start the core stays as it is, and gives no pulse. -/
theorem Region.idle_core (hstart : s.graphStart io.toControl = false) :
    (s.step io).core = s.core ∧ (s.step io).done = false ∧ (s.step io).cancelled = false := by
  obtain ⟨hcompletion, hcancellation⟩ := Region.idle_signals hb io.toControl
  refine ⟨?_, hcompletion, hcancellation⟩
  change s.core.step s.wiring (s.coreInput io.toControl) = s.core
  have hno : (s.coreInput io.toControl).start = false := hstart
  rw [Core.step, hb, hno, Bool.and_false]
  rfl

omit h in
/-- Without a start and a staged word the output keeps its authority. -/
theorem Region.idle_outputValid (hstart : s.graphStart io.toControl = false) (hs : io.inputStageValid = false) :
    (s.step io).outputValid = s.outputValid := by
  obtain ⟨hcompletion, hcancellation⟩ := Region.idle_signals hb io.toControl
  change s.outputValidNext io.toControl = _
  rw [Region.outputValidNext, hcompletion, hcancellation, hstart, hs]
  rfl

/-- A cycle without a request leaves a quiet scratchpad alone. -/
theorem Direct.idle_scratchpad (hq : s.scratchpad.responseValid = false) (hs : io.inputStageValid = false)
    (hv : io.outputValidationValid = false) : (s.step io).scratchpad = s.scratchpad := by
  change s.scratchpad.step (s.requestValid io.toControl) _ _ = _
  rw [h.requestValid hb, hs, hv, Scratchpad.step, hq]
  rfl

/-- A staged word is taken at once by a quiet scratchpad. -/
theorem Direct.stage (hq : s.scratchpad.responseValid = false) (hs : io.inputStageValid = true) :
    s.inputStageReady = true ∧ (s.step io).scratchpad.responseValid = true ∧
      (s.step io).controlResponseIsValidation = false ∧
      (s.step io).scratchpad.storage =
        Function.update s.scratchpad.storage (io.inputStageAddress.setWidth 10) io.inputStageData := by
  have hready : s.scratchpad.requestReady = true := by rw [Scratchpad.requestReady, hq]; rfl
  have hselected : s.controlStageSelected io.toControl = true := by
    rw [Region.controlStageSelected, hb, h.fixtureSelected, hs]
    rfl
  have hvalidation : s.controlValidationSelected io.toControl = false := by
    rw [Region.controlValidationSelected, hs]
    simp
  have hvalid : s.requestValid io.toControl = true := by rw [h.requestValid hb, hs, Bool.true_or]
  have hrequest : s.request io.toControl =
      ⟨true, io.inputStageAddress.setWidth 10, io.inputStageData, 0xf⟩ := by
    rw [Region.request, hb, if_neg Bool.false_ne_true, h.fixtureSelected, hselected]
    rfl
  have hlt : (io.inputStageAddress.setWidth 10 : BitVec 10) < 580 := by
    have := io.inputStageAddress.isLt
    rw [BitVec.lt_def, BitVec.toNat_setWidth]
    change _ < 580
    omega
  have hstep : (s.step io).scratchpad = s.scratchpad.accept (s.request io.toControl) := by
    change s.scratchpad.step (s.requestValid io.toControl) _ _ = _
    rw [Scratchpad.step, hvalid, hready, Bool.and_self, if_pos rfl]
  refine ⟨?_, ?_, ?_, ?_⟩
  · rw [Region.inputStageReady, h.mode, hb, h.provider, hready]
    rfl
  · rw [hstep]
    rfl
  · change (if !s.core.busy && s.requestValid io.toControl && s.scratchpad.requestReady then
      s.controlValidationSelected io.toControl else s.controlResponseIsValidation) = false
    rw [hb, hvalid, hready, hvalidation]
    rfl
  · rw [hstep, hrequest]
    simp only [Scratchpad.accept, decide_eq_true hlt, Bool.not_true, Bool.not_false, Bool.and_self, if_true,
      mergedBytes_full]

/-- A word that is asked for is there in the next cycle. -/
theorem Direct.fetch (hq : s.scratchpad.responseValid = false) (hs : io.inputStageValid = false)
    (hv : io.outputValidationValid = true) (ho : s.outputValid = true) :
    s.outputValidationReady io.toControl = true ∧ (s.step io).scratchpad.responseValid = true ∧
      (s.step io).controlResponseIsValidation = true ∧ (s.step io).scratchpad.storage = s.scratchpad.storage ∧
      (s.step io).scratchpad.responseReadData = s.readout io.outputValidationAddress := by
  have hready : s.scratchpad.requestReady = true := by rw [Scratchpad.requestReady, hq]; rfl
  have hvalidation : s.outputValidationReady io.toControl = true := by
    rw [Region.outputValidationReady, hb, h.provider, hs, ho, hready]
    rfl
  obtain ⟨hdata, hresponse⟩ := Region.readout_of_request hv hvalidation
  have hselected : s.controlStageSelected io.toControl = false := by
    rw [Region.controlStageSelected, hs, Bool.and_false]
  have hchosen : s.controlValidationSelected io.toControl = true := by
    rw [Region.controlValidationSelected, hb, h.fixtureSelected, hs, hv, ho]
    rfl
  have hvalid : s.requestValid io.toControl = true := by rw [h.requestValid hb, hs, hv, ho]; rfl
  have hwrite : (s.request io.toControl).write = false := by
    rw [Region.request, hb, if_neg Bool.false_ne_true, h.fixtureSelected, hselected]
    rfl
  refine ⟨hvalidation, hresponse, ?_, ?_, hdata⟩
  · change (if !s.core.busy && s.requestValid io.toControl && s.scratchpad.requestReady then
      s.controlValidationSelected io.toControl else s.controlResponseIsValidation) = true
    rw [hb, hvalid, hready, hchosen]
    rfl
  · change (s.scratchpad.step (s.requestValid io.toControl) (s.request io.toControl) _).storage = _
    rw [Scratchpad.step, hvalid, hready, Bool.and_self, if_pos rfl]
    unfold Scratchpad.accept
    dsimp only
    rw [hwrite, Bool.and_false]
    rfl

/-- The scratchpad is quiet again once its response is taken. -/
theorem Direct.close (hr : s.scratchpad.responseValid = true) (hs : io.inputStageValid = false)
    (hv : io.outputValidationValid = false)
    (hready : (if s.controlResponseIsValidation then io.outputValidationResponseReady
      else io.inputStageResponseReady) = true) :
    (s.step io).scratchpad.responseValid = false ∧
      (s.step io).scratchpad.storage = s.scratchpad.storage := by
  have hresponse : s.responseReady io.toControl = true := by
    rw [Region.responseReady, hb, if_neg Bool.false_ne_true, h.fixtureSelected, if_neg Bool.false_ne_true]
    exact hready
  have hstep : (s.step io).scratchpad =
      { s.scratchpad with responseValid := false, completedCount := s.scratchpad.completedCount + 1 } := by
    change s.scratchpad.step (s.requestValid io.toControl) _ (s.responseReady io.toControl) = _
    rw [h.requestValid hb, hs, hv, hresponse, Scratchpad.step, hr]
    rfl
  rw [hstep]
  exact ⟨rfl, rfl⟩

end Idle

end Direct

section Still

/-- No wire into the region asks for anything. -/
structure Still (io : RegionInput) : Prop where
  stage : io.inputStageValid = false
  stageReady : io.inputStageResponseReady = false
  fixture : io.fixtureStageStart = false
  start : io.start = false
  cancel : io.cancel = false
  validation : io.outputValidationValid = false
  validationReady : io.outputValidationResponseReady = false
  config : io.config.clear = false ∧ io.config.write = false ∧ io.config.commit = false
  program : io.program.clear = false ∧ io.program.write = false ∧ io.program.commit = false

variable {io : RegionInput}

theorem Still.installers (h : Still io) (s : Region) : (s.step io).config = s.config ∧ (s.step io).program = s.program := by
  constructor
  · change s.config.step (io.config.config s.installerBusy) = s.config
    simp [ConfigInstaller.step, ConfigInput.collides, Command.config, h.config]
  · exact step_quiet s.program (by simp [commands, Command.program, h.program])

theorem still_rest : Still restCycle := ⟨rfl, rfl, rfl, rfl, rfl, rfl, rfl, ⟨rfl, rfl, rfl⟩, ⟨rfl, rfl, rfl⟩⟩

/-- What such a cycle does does not depend on the data wires. -/
theorem Still.step (h : Still io) (s : Region) : s.step io = s.step restCycle := by
  have hstart : s.graphStart io.toControl = s.graphStart restCycle.toControl := by
    simp [Region.graphStart, Region.directStart, Provider.finalResponse, Provider.responseFire, Region.providerInput,
      restCycle, h.start]
  have hinput : s.coreInput io.toControl = s.coreInput restCycle.toControl := by
    rw [Region.coreInput, Region.coreInput, hstart, h.cancel]
    rfl
  have hstage : s.controlStageSelected io.toControl = false := by
    rw [Region.controlStageSelected, h.stage, Bool.and_false]
  have hvalidation : s.controlValidationSelected io.toControl = false := by
    simp [Region.controlValidationSelected, h.validation]
  have hvalid : s.requestValid io.toControl = s.requestValid restCycle.toControl := by
    rw [Region.requestValid, Region.requestValid, hinput, hstage, hvalidation]
    simp [Region.controlStageSelected, Region.controlValidationSelected, restCycle]
  have hready : s.responseReady io.toControl = s.responseReady restCycle.toControl := by
    rw [Region.responseReady, Region.responseReady, h.stageReady, h.validationReady]
    rfl
  have hscratchpad : s.scratchpad.step (s.requestValid io.toControl) (s.request io.toControl)
      (s.responseReady io.toControl) = s.scratchpad.step (s.requestValid restCycle.toControl)
      (s.request restCycle.toControl) (s.responseReady restCycle.toControl) := by
    rw [hready, hvalid]
    cases hv : s.requestValid restCycle.toControl with
    | false => rfl
    | true =>
      -- only the core and the provider ask, and their requests do not depend on the wires
      have hrequest : s.request io.toControl = s.request restCycle.toControl := by
        cases hb : s.core.busy with
        | true => rw [Region.request, Region.request, if_pos hb, if_pos hb, hinput]
        | false =>
          have hactive : s.fixtureSelected = true := by
            rw [← hvalid, Region.requestValid, hb, hstage, hvalidation] at hv
            simp only [Bool.or_false, Provider.requestValid, Bool.and_eq_true, Bool.false_eq_true, if_false] at hv
            rw [Region.fixtureSelected, hb, hv.1]
            rfl
          rw [Region.request, Region.request, hb, hactive]
          rfl
      rw [hrequest]
  have hprovider : s.provider.step (s.providerInput io.toControl) =
      s.provider.step (s.providerInput restCycle.toControl) := by
    simp [Provider.step, Region.providerInput, Provider.requestFire, Provider.responseFire, Provider.finalResponse,
      restCycle, h.fixture]
  obtain ⟨hconfig, hprogram⟩ := h.installers s
  obtain ⟨hconfig', hprogram'⟩ := still_rest.installers s
  have hvalidated : s.fixtureValidated io.toControl = s.fixtureValidated restCycle.toControl := by
    rw [Region.fixtureValidated, Region.fixtureValidated, h.validationReady]
    rfl
  unfold Region.step
  rw [Region.mk.injEq]
  refine ⟨hscratchpad, hprovider, ?_, hconfig.trans hconfig'.symm, hprogram.trans hprogram'.symm, ?_, ?_, ?_, ?_, ?_,
    ?_, ?_, ?_⟩
  · rw [hinput]
  · rw [Region.outputValidNext, Region.outputValidNext, Region.cancellation, Region.cancellation, Region.completion,
      Region.completion, hinput, hstart, h.stage]
    rfl
  · rw [Region.completion, Region.completion, hinput]
  · rw [Region.cancellation, Region.cancellation, hinput]
  · rw [h.fixture]
    rfl
  · rw [h.stage, h.start]
    rfl
  · rw [hvalidated, h.fixture]
    rfl
  · rw [hvalidated, h.fixture]
    rfl
  · rw [hvalid, hvalidation]
    simp [Region.controlValidationSelected, restCycle]

end Still

section End

variable {s : Region} {io : RegionInput} {started completed : Option Region}

/-- A run that ends leaves the scratchpad quiet. -/
theorem Activity.quiet (h : RegionOk s) (ha : Activity s started completed) (hb : s.core.busy = true)
    (hend : (s.step io).core.busy = false) : (s.step io).scratchpad.responseValid = false := by
  have hinput := Region.coreInput_bench h.error io.toControl
  rw [graphStart_of_busy hb] at hinput
  have hcancelled : s.core.cancelling (s.coreInput io.toControl) = true →
      (s.step io).scratchpad.responseValid = false := by
    intro hcancel
    have hno : s.core.requestFire (s.coreInput io.toControl) = false := by
      simp [Core.requestFire, Core.requestValid, Core.graphInputRequest, Core.graphOutputRequest, hcancel]
    obtain ⟨hbench, -⟩ := @Region.bench_step s io hb h.error fun hfire => by
      rw [hno] at hfire
      cases hfire
    rw [hinput] at hcancel
    obtain ⟨-, -, hstop, hwait⟩ := @Bench.step_cancelling s.bench _ _ s.wiring hb hcancel
    rw [← hbench] at hstop hwait
    cases hr : s.scratchpad.responseValid with
    | false =>
      have hnone : s.bench.memory.response = none := by simp [Region.bench, Scratchpad.memory, hr]
      obtain ⟨-, -, hmemory⟩ := hstop hnone
      rw [← Region.response_isSome, hmemory, hnone]
      rfl
    | true =>
      obtain ⟨-, hcore, -⟩ := hwait (by rw [Region.response_isSome, hr])
      have hstill : (s.step io).core.busy = true := by
        change (s.step io).bench.core.busy = true
        rw [hcore]
        exact hb
      rw [hend] at hstill
      cases hstill
  cases ha with
  | idle hidle =>
    rw [hb] at hidle
    cases hidle
  | draining _ _ hr => exact hcancelled (by rw [Core.cancelling, hr, Bool.or_true])
  | stuck _ _ hs hr =>
    rw [(Region.stuck_core hb hs hr).1] at hend
    cases hend
  | running z hz hw hv trace cell pc phase hr =>
    cases hc : io.cancel with
    | true => exact hcancelled (by simp [Core.cancelling, Region.coreInput, hc])
    | false =>
      have hwords := fun i hi => @Region.staged_getD z i hi
      have hcalm : (s.cycle io.toControl).cancel = false := hc
      obtain ⟨hbench, -⟩ := @Region.bench_step s io hb h.error (by
        rw [hinput]
        exact hr.address_lt h.holds hwords hcalm)
      have hbusy : (s.bench.step s.wiring false (s.cycle io.toControl)).core.busy = false := by
        rw [← hbench]
        exact hend
      cases hr.step h.holds hwords false hcalm with
      | move _ _ _ _ hnext =>
        rw [hnext.busy] at hbusy
        cases hbusy
      | wait _ hnext =>
        rw [hnext.busy] at hbusy
        cases hbusy
      | finish _ _ hnext =>
        rw [← hbench] at hnext
        rw [← Region.response_isSome, hnext.quiet]
        rfl

end End

end Raveil.Device
