import Raveil.Lib.Hash
import Raveil.Device.Output

/-! Whose words the output port shows: those of the last run that completed, or stale ones. -/
namespace Raveil.Device
open Raveil.Lib Raveil.Graph

section Fallback

variable {s z : Region}

/-- The dictionary of the live program and profile. -/
def Region.image (sha256 : List UInt8 → Digest) (z : Region) : Image :=
  sealedImage sha256 z.wiring.shape.affine z.wiring.version z.wiring.instructions

/-- The host accepts the live program. -/
theorem RegionOk.accepted (h : RegionOk z) (sha256 : List UInt8 → Digest) :
    validateFallbackProgram sha256 (z.image sha256) = .ok z.wiring.instructions := by
  have hh := h.holds
  refine validateFallbackProgram_eq_ok.mpr ⟨fallbackOk_sealed sha256 _ ?_ hh.two_le hh.le_capacity ?_ hh.program, rfl⟩
  · exact mem_versions.mpr ⟨hh.version_pos, hh.version_le⟩
  · intro w hw
    obtain ⟨i, -, rfl⟩ := List.mem_map.mp hw
    exact (z.wiring.program _).isLt

/-- What the host computes for the state in which a run starts. -/
theorem RegionOk.fallback (h : RegionOk z) (sha256 : List UInt8 → Digest) :
    softwareFallback sha256 (z.image sha256) z.staged =
      .ok (outputWords z.wiring.version z.wiring.shape z.staged z.wiring.instructions) := by
  have hversion : (z.image sha256).payload.getD 1 0 = z.wiring.version := getD_payloadWords _ _ _
  rw [softwareFallback_eq h.holds.shape z.length_staged (h.accepted sha256) rfl, hversion]

theorem Region.staged_lt (z : Region) (i : ℕ) : z.staged.getD i 0 < 2 ^ 32 := by
  by_cases hi : i < 324
  · rw [← z.staged_getD hi]
    exact (z.scratchpad.storage _).isLt
  · rw [List.getD_eq_default _ _ (by rw [z.length_staged]; omega)]
    exact Nat.two_pow_pos 32

/-- The word that the output port shows at an address. -/
def Region.readout (s : Region) (k : BitVec 8) : BitVec 32 := s.scratchpad.storage (324 + k.setWidth 10)

theorem readout_address (k : BitVec 8) : (324 + k.setWidth 10 : BitVec 10).toNat = 324 + k.toNat := by
  have := k.isLt
  rw [BitVec.toNat_add, BitVec.toNat_setWidth]
  simp only [BitVec.reduceToNat]
  omega

/-- A validation request that is taken brings the word to the response. -/
theorem Region.readout_of_request {io : RegionInput} (hv : io.outputValidationValid = true)
    (hr : s.outputValidationReady io.toControl = true) :
    (s.step io).scratchpad.responseReadData = s.readout io.outputValidationAddress ∧
      (s.step io).scratchpad.responseValid = true := by
  simp only [Region.outputValidationReady, Bool.and_eq_true, Bool.not_eq_true'] at hr
  obtain ⟨⟨⟨⟨hb, hp⟩, hstage⟩, hout⟩, hready⟩ := hr
  have hfixture : s.fixtureSelected = false := by simp [Region.fixtureSelected, hp]
  have hcontrol : s.controlStageSelected io.toControl = false := by simp [Region.controlStageSelected, hstage]
  have hselected : s.controlValidationSelected io.toControl = true := by
    simp [Region.controlValidationSelected, hb, hfixture, hstage, hv, hout]
  have hvalid : s.requestValid io.toControl = true := by
    rw [Region.requestValid, hb, if_neg Bool.false_ne_true, hselected, Bool.or_true]
  have hrequest : s.request io.toControl = ⟨false, 324 + io.outputValidationAddress.setWidth 10, io.inputStageData, 0⟩ := by
    rw [Region.request, hb, if_neg Bool.false_ne_true, hfixture, hcontrol]
    rfl
  have hlt : (324 + io.outputValidationAddress.setWidth 10 : BitVec 10) < 580 := by
    have := io.outputValidationAddress.isLt
    rw [BitVec.lt_def, readout_address]
    change _ < 580
    omega
  have hstep : (s.step io).scratchpad = s.scratchpad.accept (s.request io.toControl) := by
    change s.scratchpad.step (s.requestValid io.toControl) _ _ = _
    rw [Scratchpad.step, hvalid, hready, Bool.and_self, if_pos rfl]
  rw [hstep, hrequest]
  refine ⟨?_, rfl⟩
  simp only [Scratchpad.accept, decide_eq_true hlt, Bool.not_true, Bool.not_false, Bool.and_self, if_true]
  rfl

/-- A word below the size of the output is the word of its cell, whatever was there before. -/
theorem Delivers.cell (h : Delivers z s) {k : BitVec 8} (hk : k.toNat < z.wiring.shape.activeOutputs.toNat) :
    (s.readout k).toNat = cellWord z.wiring.version z.wiring.shape z.staged k.toNat z.wiring.instructions := by
  have haddress := readout_address k
  rw [Region.readout, h _ (by omega), Region.result, written, if_pos (by omega), haddress, Nat.add_sub_cancel_left,
    BitVec.toNat_ofNat, Nat.mod_eq_of_lt (cellWord_lt z.staged_lt _)]

/-- A word above it is what the run found there. -/
theorem Delivers.tail (h : Delivers z s) {k : BitVec 8} (hk : z.wiring.shape.activeOutputs.toNat ≤ k.toNat) :
    s.readout k = z.scratchpad.storage (324 + k.setWidth 10) := by
  have haddress := readout_address k
  rw [Region.readout, h _ (by omega), Region.result, written, if_neg (by omega)]

/-- After a clean start the port shows what the host computes. -/
theorem Delivers.readout (h : Delivers z s) (hz : CleanStart z) (k : BitVec 8) :
    (s.readout k).toNat =
      (outputWords z.wiring.version z.wiring.shape z.staged z.wiring.instructions).getD k.toNat 0 := by
  have hk := k.isLt
  have hget : (outputWords z.wiring.version z.wiring.shape z.staged z.wiring.instructions).getD k.toNat 0 =
      if k.toNat < z.wiring.shape.activeOutputs.toNat then
        cellWord z.wiring.version z.wiring.shape z.staged k.toNat z.wiring.instructions else 0 := by
    rw [outputWords, List.getD_eq_getElem _ _ (by rw [List.length_map, List.length_range]; exact hk),
      List.getElem_map, List.getElem_range]
  rw [hget]
  by_cases hlt : k.toNat < z.wiring.shape.activeOutputs.toNat
  · rw [if_pos hlt, h.cell hlt]
  · rw [if_neg hlt, h.tail (by omega)]
    have haddress : (324 + k.setWidth 10 : BitVec 10) = BitVec.ofNat 10 (324 + k.toNat) := by
      apply BitVec.eq_of_toNat_eq
      rw [readout_address, BitVec.toNat_ofNat, Nat.mod_eq_of_lt (by omega)]
    rw [haddress, hz k.toNat (by omega) hk]
    rfl

end Fallback

section Stale

variable {ios ios' : List RegionInput}

/-- A valid output belongs to a run that completed. -/
theorem ChronicleOk.valid {c : Chronicle} (h : ChronicleOk c) (hv : c.state.outputValid = true) :
    ∃ z, c.completed = some z ∧ RegionOk z ∧ Delivers z c.state := by
  cases h.activity with
  | idle _ hout =>
    obtain ⟨z, hz, hdelivers⟩ := hout hv
    exact ⟨z, hz, h.completed z hz, hdelivers⟩
  | running _ _ _ hno => rw [hno] at hv; cases hv
  | draining hno => rw [hno] at hv; cases hv
  | stuck hno => rw [hno] at hv; cases hv

/-- In clean histories the words under authority are those that the host computes for the last run that
completed, so that two histories with the same last run show the same words. -/
theorem output_not_stale (sha256 : List UInt8 → Digest)
    (h : ∀ before io after, ios = before ++ io :: after → Clean (chronicle before) io.toControl)
    (h' : ∀ before io after, ios' = before ++ io :: after → Clean (chronicle before) io.toControl)
    (hv : (Region.reset.run ios).outputValid = true) (hv' : (Region.reset.run ios').outputValid = true) :
    ∃ z z', (chronicle ios).completed = some z ∧ (chronicle ios').completed = some z' ∧
      (∃ words, softwareFallback sha256 (z.image sha256) z.staged = .ok words ∧ words.length = 256 ∧
        ∀ k, ((Region.reset.run ios).readout k).toNat = words.getD k.toNat 0) ∧
      (z.wiring.shape = z'.wiring.shape → z.wiring.version = z'.wiring.version →
        z.wiring.instructions = z'.wiring.instructions → z.staged = z'.staged →
        ∀ k, (Region.reset.run ios).readout k = (Region.reset.run ios').readout k) ∧
      ∀ io, io.outputValidationValid = true → (Region.reset.run ios).outputValidationReady io.toControl = true →
        ((Region.reset.run ios).step io).scratchpad.responseReadData =
          (Region.reset.run ios).readout io.outputValidationAddress := by
  obtain ⟨hok, hclean⟩ := clean_run h
  obtain ⟨hok', hclean'⟩ := clean_run h'
  rw [← chronicle_state] at hv hv'
  obtain ⟨z, hz, hregion, hdelivers⟩ := hok.valid hv
  obtain ⟨z', hz', -, hdelivers'⟩ := hok'.valid hv'
  rw [chronicle_state] at hdelivers hdelivers'
  have hreadout := hdelivers.readout (hclean z hz)
  refine ⟨z, z', hz, hz', ⟨_, hregion.fallback sha256, ?_, hreadout⟩, fun h1 h2 h3 h4 k => ?_, fun io hvalid hready =>
    (Region.readout_of_request hvalid hready).1⟩
  · rw [outputWords, List.length_map, List.length_range]
  · apply BitVec.eq_of_toNat_eq
    rw [hreadout, hdelivers'.readout (hclean' z' hz'), h1, h2, h3, h4]

end Stale

section Alone

variable {s z : Region} {c : Chronicle}

theorem rest_provider (h : s.provider.active = false) : (s.step restCycle).provider.active = false := by
  change (s.provider.step (s.providerInput restCycle.toControl)).active = false
  simp [Provider.step, Region.providerInput, restCycle, Provider.requestFire, Provider.responseFire, h]

theorem rest_stages (s : Region) : s.stages restCycle.toControl = false := by
  simp [Region.stages, Region.controlStageSelected, restCycle]

theorem rest_graphStart (h : s.provider.active = false) : s.graphStart restCycle.toControl = false := by
  simp [Region.graphStart, Region.directStart, Provider.finalResponse, Provider.responseFire, restCycle, h]

theorem ChronicleOk.rest (h : ChronicleOk c) : ChronicleOk (c.step restCycle) :=
  h.step fun hno => by
    rw [rest_stages] at hno
    cases hno.2.2.1

/-- An output that is valid stays valid while the region is left alone. -/
theorem rest_valid (hb : c.state.core.busy = false) (hp : c.state.provider.active = false)
    (hv : c.state.outputValid = true) (hz : c.completed = some z) :
    (c.step restCycle).state.core.busy = false ∧ (c.step restCycle).state.outputValid = true ∧
      (c.step restCycle).completed = some z := by
  obtain ⟨hcompletion, hcancellation⟩ := Region.idle_signals hb restCycle.toControl
  have hstart := rest_graphStart hp
  refine ⟨?_, ?_, ?_⟩
  · change (c.state.core.step c.state.wiring (c.state.coreInput restCycle.toControl)).busy = false
    have hno : (c.state.coreInput restCycle.toControl).start = false := hstart
    rw [Core.step, hb, hno, Bool.and_false]
    exact hb
  · change c.state.outputValidNext restCycle.toControl = true
    rw [Region.outputValidNext, hcancellation, hcompletion, hstart]
    exact hv
  · change completedNext c.state c.started c.completed restCycle.toControl = some z
    rw [completedNext, hcompletion]
    exact hz

theorem rest_valid_run (n : ℕ) (hb : c.state.core.busy = false) (hp : c.state.provider.active = false)
    (hv : c.state.outputValid = true) (hz : c.completed = some z) :
    ((List.replicate n restCycle).foldl Chronicle.step c).state.outputValid = true ∧
      ((List.replicate n restCycle).foldl Chronicle.step c).completed = some z := by
  induction n generalizing c with
  | zero => exact ⟨hv, hz⟩
  | succ n ih =>
    rw [List.replicate_succ, List.foldl_cons]
    obtain ⟨h1, h2, h3⟩ := rest_valid hb hp hv hz
    exact ih h1 (rest_provider hp) h2 h3

/-- A run that is left alone moves in every cycle. -/
theorem rest_running (h : RegionOk s) {trace : List Transaction} {cell pc : ℕ} {phase : Phase}
    (hr : Running s.wiring s.wiring.version z.staged s.wiring.instructions z.scratchpad.storage s.bench trace cell
      pc phase) :
    (s.completion restCycle.toControl = true ∧ (s.step restCycle).core.busy = false) ∨
    ∃ trace' cell' pc' phase', position s.wiring.instructions cell pc phase <
        position s.wiring.instructions cell' pc' phase' ∧
      Running s.wiring s.wiring.version z.staged s.wiring.instructions z.scratchpad.storage
        (s.step restCycle).bench trace' cell' pc' phase' := by
  have hwords := fun i hi => @Region.staged_getD z i hi
  have hinput := Region.coreInput_bench h.error restCycle.toControl
  rw [graphStart_of_busy hr.busy] at hinput
  have hcalm : (s.cycle restCycle.toControl).cancel = false := rfl
  obtain ⟨hbench, -⟩ := @Region.bench_step s restCycle hr.busy h.error (by
    rw [hinput]
    exact hr.address_lt h.holds hwords hcalm)
  rw [hbench]
  cases hr.step h.holds hwords false hcalm with
  | move cell' pc' phase' _ hnext hmove => exact Or.inr ⟨_, cell', pc', phase', hmove, hnext⟩
  | wait _ _ hwait =>
    rcases hwait with ⟨rfl, hready⟩ | ⟨-, hdeliver⟩
    · have hnone := hr.quiet (by simp)
      have hvalid : s.scratchpad.responseValid = false := by
        rw [← s.response_isSome, hnone]
        rfl
      change (!s.scratchpad.responseValid) = false at hready
      rw [hvalid] at hready
      cases hready
    · cases hdeliver
  | finish hyes _ hnext =>
    left
    constructor
    · rw [Region.completion, hinput]
      exact hyes
    · have hbusy := hnext.busy
      rw [← hbench] at hbusy
      exact hbusy

/-- A run that is left alone for as many cycles as it has steps is complete. -/
theorem completes_alone {n : ℕ} (h : ChronicleOk c) (hz : c.started = some z) (hp : c.state.provider.active = false)
    (hv : c.state.outputValid = false) {trace : List Transaction} {cell pc : ℕ} {phase : Phase}
    (hr : Running c.state.wiring c.state.wiring.version z.staged c.state.wiring.instructions z.scratchpad.storage
      c.state.bench trace cell pc phase)
    (hn : c.state.wiring.shape.activeOutputs.toNat * c.state.wiring.instructions.length * 3 ≤
      position c.state.wiring.instructions cell pc phase + n) :
    ((List.replicate n restCycle).foldl Chronicle.step c).state.outputValid = true ∧
      ((List.replicate n restCycle).foldl Chronicle.step c).completed = some z := by
  induction n generalizing c trace cell pc phase with
  | zero =>
    have := hr.position_lt
    omega
  | succ n ih =>
    rw [List.replicate_succ, List.foldl_cons]
    have hprovider : (c.step restCycle).state.provider.active = false := rest_provider hp
    have hbusy : c.state.core.busy = true := hr.busy
    rcases rest_running h.region hr with ⟨hcomplete, hidle⟩ | ⟨trace', cell', pc', phase', hmove, hnext⟩
    · have hcancellation : c.state.cancellation restCycle.toControl = false := by
        have hinput := Region.coreInput_bench h.region.error restCycle.toControl
        rw [Region.cancellation, hinput]
        exact hr.cancellation rfl
      have hvalid : (c.step restCycle).state.outputValid = true := by
        change c.state.outputValidNext restCycle.toControl = true
        rw [Region.outputValid_busy hbusy hv, hcancellation, hcomplete]
        rfl
      have hdone : (c.step restCycle).completed = some z := by
        change completedNext c.state c.started c.completed restCycle.toControl = some z
        rw [completedNext, hcomplete]
        exact hz
      exact rest_valid_run n hidle hprovider hvalid hdone
    · have hwiring : (c.step restCycle).state.wiring = c.state.wiring := h.region.wiring_busy hbusy
      have hstarted : (c.step restCycle).started = some z := by
        change startedNext c.state c.started restCycle.toControl = some z
        rw [startedNext, graphStart_of_busy hbusy]
        exact hz
      have hstill : (c.step restCycle).state.outputValid = false := by
        have hnextbusy : (c.step restCycle).state.core.busy = true := hnext.busy
        by_contra hyes
        rw [Bool.not_eq_false] at hyes
        change c.state.outputValidNext restCycle.toControl = true at hyes
        rw [Region.outputValid_busy hbusy hv, Bool.and_eq_true] at hyes
        have := Core.step_completion hyes.2
        change (c.state.core.step c.state.wiring (c.state.coreInput restCycle.toControl)).busy = true at hnextbusy
        rw [this] at hnextbusy
        cases hnextbusy
      refine ih h.rest hstarted hprovider hstill (by rw [hwiring]; exact hnext) ?_
      rw [hwiring]
      omega

/-- A start that nothing disturbs, and enough rest, is a completed run. -/
theorem completes_started {n : ℕ} (h : ChronicleOk c) {io : RegionInput}
    (hstart : c.state.graphStart io.toControl = true) (hstage : io.inputStageValid = false)
    (hvalidation : io.outputValidationValid = false) (hp : (c.state.step io).provider.active = false)
    (hn : c.state.wiring.shape.activeOutputs.toNat * c.state.wiring.instructions.length * 3 ≤ n) :
    ((List.replicate n restCycle).foldl Chronicle.step (c.step io)).state.outputValid = true ∧
      ((List.replicate n restCycle).foldl Chronicle.step (c.step io)).completed = some c.state := by
  have hb : c.state.core.busy = false := by
    by_contra hno
    rw [Bool.not_eq_false] at hno
    rw [graphStart_of_busy hno] at hstart
    cases hstart
  obtain ⟨⟨hconfig, -⟩, hprogram, -⟩ := Region.graphStart_ready hstart
  have hwiring : (c.step io).state.wiring = c.state.wiring :=
    wiring_step h.region.guarded (Or.inr ⟨hconfig, hprogram⟩)
  have hok : ChronicleOk (c.step io) := h.step fun hno => by
    have := hno.2.2.1
    simp [Region.stages, Region.controlStageSelected, hstage] at this
  have hcore : (c.step io).state.core = .started := by
    change c.state.core.step c.state.wiring (c.state.coreInput io.toControl) = .started
    have hyes : (c.state.coreInput io.toControl).start = true := hstart
    rw [Core.step, hb, hyes, Bool.and_false]
    rfl
  have hquiet : (c.step io).state.scratchpad.responseValid = false := by
    have hnone : c.state.requestValid io.toControl = false := by
      rw [Region.requestValid, hb, if_neg Bool.false_ne_true, start_requestValid hstart]
      simp [Region.controlStageSelected, Region.controlValidationSelected, hstage, hvalidation]
    by_contra hvalid
    rw [Bool.not_eq_false] at hvalid
    change (c.state.scratchpad.step (c.state.requestValid io.toControl) _ _).responseValid = true at hvalid
    rw [Scratchpad.step, hnone, Bool.false_and, if_neg Bool.false_ne_true] at hvalid
    split at hvalid
    · cases hvalid
    · next hkept =>
      refine hkept ?_
      rw [hvalid, start_responseReady hb hstart hvalid]
      rfl
  cases hok.activity with
  | idle hidle =>
    rw [hcore] at hidle
    cases hidle
  | running z hz hw hv trace cell pc phase hr =>
    have hstarted : (c.step io).started = some c.state := by
      change startedNext c.state c.started io.toControl = some c.state
      rw [startedNext, hstart]
      rfl
    obtain rfl := Option.some.inj (hz.symm.trans hstarted)
    refine completes_alone hok hz hp hv hr ?_
    rw [hwiring]
    omega
  | draining _ _ hrequested =>
    rw [hcore] at hrequested
    cases hrequested
  | stuck _ _ _ hvalid =>
    rw [hquiet] at hvalid
    cases hvalid

/-- Without a fixture the whole scratchpad is in the hands of the host. -/
theorem chronicleOk_legacy {ios : List RegionInput} (h : ∀ io ∈ ios, io.fixtureStageStart = false) :
    ChronicleOk (chronicle ios) ∧ (chronicle ios).state.fixtureMode = false := by
  induction ios using List.reverseRecOn with
  | nil => exact ⟨chronicleOk_reset, rfl⟩
  | append_singleton ios io ih =>
    rw [chronicle_append]
    obtain ⟨hok, hmode⟩ := ih fun x hx => h x (List.mem_append_left _ hx)
    refine ⟨hok.step fun hno => ?_, ?_⟩
    · rw [hmode] at hno
      cases hno.2.1
    · change ((chronicle ios).state.fixtureMode || _) = false
      rw [hmode, h io (by simp)]
      rfl

end Alone

section Histories

/-- A run of the program that is there after reset. -/
def factoryHistory : List RegionInput := startCycle :: List.replicate 7680 restCycle

theorem chronicle_replicate (ios : List RegionInput) (io : RegionInput) (n : ℕ) :
    chronicle (ios ++ io :: List.replicate n restCycle) =
      (List.replicate n restCycle).foldl Chronicle.step ((chronicle ios).step io) := by
  rw [chronicle, List.foldl_append, List.foldl_cons]
  rfl

/-- The run that a lone start begins, when it is left alone. -/
theorem run_of_start {ios : List RegionInput} {n : ℕ} (hlegacy : ∀ io ∈ ios, io.fixtureStageStart = false)
    (hstart : (Region.reset.run ios).graphStart startCycle.toControl = true)
    (hp : ((Region.reset.run ios).step startCycle).provider.active = false)
    (hn : (Region.reset.run ios).wiring.shape.activeOutputs.toNat *
      (Region.reset.run ios).wiring.instructions.length * 3 ≤ n) :
    (Region.reset.run (ios ++ startCycle :: List.replicate n restCycle)).outputValid = true ∧
      (chronicle (ios ++ startCycle :: List.replicate n restCycle)).completed = some (Region.reset.run ios) ∧
      Delivers (Region.reset.run ios) (Region.reset.run (ios ++ startCycle :: List.replicate n restCycle)) := by
  obtain ⟨hok, -⟩ := chronicleOk_legacy hlegacy
  rw [← chronicle_state] at hstart hp hn
  have hrun := completes_started hok hstart rfl rfl hp hn
  rw [← chronicle_replicate] at hrun
  have hall : ∀ io ∈ ios ++ startCycle :: List.replicate n restCycle, io.fixtureStageStart = false := by
    intro io hio
    rcases List.mem_append.mp hio with hio | hio
    · exact hlegacy io hio
    · rcases List.mem_cons.mp hio with rfl | hio
      · rfl
      · rw [List.eq_of_mem_replicate hio]
        rfl
  obtain ⟨z, hz, -, hdelivers⟩ := (chronicleOk_legacy hall).1.valid hrun.1
  obtain rfl := Option.some.inj (hz.symm.trans hrun.2)
  rw [chronicle_state] at hrun hdelivers
  rw [chronicle_state] at hrun hdelivers
  exact ⟨hrun.1, hrun.2, hdelivers⟩

theorem factory_valid : (Region.reset.run factoryHistory).outputValid = true :=
  (@run_of_start [] 7680 (fun io hio => by cases hio) (by decide) (by decide) (by decide)).1

/-- Starts and rests leave the profile that is there after reset. -/
theorem factory_config {ios : List RegionInput} (h : ∀ x ∈ ios, x = startCycle ∨ x = restCycle) :
    (chronicle ios).state.config = ConfigInstaller.reset ∧
      ∀ z, (chronicle ios).started = some z → z.config = ConfigInstaller.reset := by
  induction ios using List.reverseRecOn with
  | nil => exact ⟨rfl, fun z hz => by cases hz⟩
  | append_singleton ios x ih =>
    obtain ⟨hconfig, hstarted⟩ := ih fun y hy => h y (List.mem_append_left _ hy)
    rw [chronicle_append]
    constructor
    · change (chronicle ios).state.config.step _ = _
      rw [hconfig]
      rcases h x (by simp) with rfl | rfl
      · rfl
      · rfl
    · intro z hz
      change startedNext (chronicle ios).state (chronicle ios).started x.toControl = some z at hz
      unfold startedNext at hz
      split at hz
      · obtain rfl := Option.some.inj hz
        exact hconfig
      · exact hstarted z hz

theorem factory_clean {before after : List RegionInput} {io : RegionInput}
    (h : factoryHistory = before ++ io :: after) : Clean (chronicle before) io.toControl := by
  have hquiet : ∀ x ∈ factoryHistory, x = startCycle ∨ x = restCycle := by
    intro x hx
    rcases List.mem_cons.mp hx with rfl | hx
    · exact Or.inl rfl
    · exact Or.inr (List.eq_of_mem_replicate hx)
  refine ⟨fun _ z hz k hk hlt => ?_, fun hno => ?_⟩
  · have hconfig := (factory_config fun x hx => hquiet x (by rw [h]; exact List.mem_append_left _ hx)).2 z hz
    have hactive : z.wiring.shape.activeOutputs.toNat = 256 := by
      change z.config.activeOutputs.toNat = 256
      rw [hconfig]
      rfl
    omega
  · have hstage : io.inputStageValid = false := by
      rcases hquiet io (by rw [h]; simp) with rfl | rfl
      · rfl
      · rfl
    have := hno.2.2.1
    simp [Region.stages, Region.controlStageSelected, hstage] at this

theorem output_not_stale_factory : (Region.reset.run factoryHistory).outputValid = true ∧
    ∃ z z', (chronicle factoryHistory).completed = some z ∧ (chronicle factoryHistory).completed = some z' ∧
      (∃ words, softwareFallback Sha256.digest (z.image Sha256.digest) z.staged = .ok words ∧ words.length = 256 ∧
        ∀ k, ((Region.reset.run factoryHistory).readout k).toNat = words.getD k.toNat 0) ∧
      (z.wiring.shape = z'.wiring.shape → z.wiring.version = z'.wiring.version →
        z.wiring.instructions = z'.wiring.instructions → z.staged = z'.staged →
        ∀ k, (Region.reset.run factoryHistory).readout k = (Region.reset.run factoryHistory).readout k) ∧
      ∀ io, io.outputValidationValid = true →
        (Region.reset.run factoryHistory).outputValidationReady io.toControl = true →
        ((Region.reset.run factoryHistory).step io).scratchpad.responseReadData =
          (Region.reset.run factoryHistory).readout io.outputValidationAddress :=
  ⟨factory_valid, output_not_stale Sha256.digest (fun _ _ _ h => factory_clean h) (fun _ _ _ h => factory_clean h)
    factory_valid factory_valid⟩

/-- A staging request to an address above the input, and its response. -/
def strayStage : List RegionInput :=
  [{ restCycle with inputStageValid := true, inputStageAddress := 424, inputStageData := 7 },
    { restCycle with inputStageResponseReady := true }]

def freshHistory : List RegionInput := compactInstall ++ startCycle :: List.replicate 1920 restCycle
def staleHistory : List RegionInput := (compactInstall ++ strayStage) ++ startCycle :: List.replicate 1920 restCycle

theorem wiring_quiet (s : Region) {io : RegionInput} (hc : io.config = noCommand 5) (hp : io.program = noCommand 6) :
    (s.step io).wiring = s.wiring := by
  have hconfig : (s.step io).config = s.config := by
    change s.config.step (io.config.config s.installerBusy) = s.config
    rw [hc]
    rfl
  have hprogram : (s.step io).program = s.program := by
    change s.program.step (io.program.program s.installerBusy) = s.program
    rw [hp]
    exact step_quiet _ rfl
  rw [Region.wiring, hconfig, hprogram]
  rfl

/-- Two runs of the same program on the same words, with different words under authority. -/
theorem output_stale : (Region.reset.run freshHistory).outputValid = true ∧
    (Region.reset.run staleHistory).outputValid = true ∧
    ∃ z z', (chronicle freshHistory).completed = some z ∧ (chronicle staleHistory).completed = some z' ∧
      z.wiring = z'.wiring ∧ z.staged = z'.staged ∧
      (Region.reset.run freshHistory).readout 100 ≠ (Region.reset.run staleHistory).readout 100 := by
  obtain ⟨hvalid, hcompleted, hdelivers⟩ := @run_of_start compactInstall 1920 (by decide) (by decide +kernel)
    (by decide +kernel) (by decide +kernel)
  obtain ⟨hvalid', hcompleted', hdelivers'⟩ := @run_of_start (compactInstall ++ strayStage) 1920 (by decide)
    (by decide +kernel) (by decide +kernel) (by decide +kernel)
  refine ⟨hvalid, hvalid', _, _, hcompleted, hcompleted', ?_, ?_, ?_⟩
  · rw [show compactInstall ++ strayStage = compactInstall ++ [_] ++ [_] from rfl, Region.run_append,
      Region.run_append, wiring_quiet _ rfl rfl, wiring_quiet _ rfl rfl]
  · decide +kernel
  · have h1 : (Region.reset.run freshHistory).readout 100 = _ := hdelivers.tail (by decide +kernel)
    have h2 : (Region.reset.run staleHistory).readout 100 = _ := hdelivers'.tail (by decide +kernel)
    rw [h1, h2]
    decide +kernel

end Histories

end Raveil.Device
