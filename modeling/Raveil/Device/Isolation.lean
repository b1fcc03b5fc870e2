import Raveil.Device.Assertions

/-! Commands to the installers cannot reach a run that has started. -/
namespace Raveil.Device
open Raveil.Graph (Installer InstallerInput clearInput writeInput commitInput copyPayload)

section Live

variable {s : Installer} {t : ConfigInstaller}

/-- What is installed and can be committed again is what is live. -/
def LiveOk (s : Installer) : Prop := s.installed = true → s.payloadValid = true → Live s s.payload

theorem LiveOk.step (h : LiveOk s) (io : InstallerInput) : LiveOk (s.step io) := by
  have hs := installerStep s io
  generalize s.step io = u at hs
  cases hs with
  | idle => exact h
  | clear | fault => exact fun hi => (by cases hi)
  | write _ _ _ hi => exact fun hi' => (by rw [hi] at hi'; cases hi')
  | commit => exact fun _ _ => ⟨rfl, rfl, rfl, rfl⟩

theorem liveOk_reset : LiveOk Installer.reset := fun _ hv => absurd (admitted_of_valid hv).1 (by decide)

/-- A command to a busy installer, or one that is installed, leaves the live program alone. -/
theorem program_live {io : InstallerInput} (h : LiveOk s) (hi : io.busy = true ∨ s.installed = true) :
    (s.step io).programVersion = s.programVersion ∧ (s.step io).programLength = s.programLength ∧
      (s.step io).program = s.program := by
  by_cases hcommit : Commits s io
  · obtain ⟨h1, h2, h3, -⟩ := commit_step hcommit
    obtain ⟨⟨-, -, -, hb⟩, -, hv⟩ := hcommit
    have hin : s.installed = true := by
      rcases hi with hbusy | hin
      · rw [hb] at hbusy
        cases hbusy
      · exact hin
    obtain ⟨g1, g2, g3, -⟩ := h hin hv
    exact ⟨h2.trans g2.symm, h1.trans g1.symm, h3.trans g3.symm⟩
  · obtain ⟨h1, h2, h3, -⟩ := live_step hcommit
    exact ⟨h2, h1, h3⟩

theorem config_live {io : ConfigInput} (h : ConfigOk t) (hi : io.busy = true ∨ t.installed = true) :
    (t.step io).shape = t.shape := by
  have hs := configStep t io
  generalize t.step io = u at hs
  cases hs with
  | idle | clear | write | fault => rfl
  | commit _ _ _ hb hl =>
    rcases hi with hbusy | hin
    · rw [hb] at hbusy
      cases hbusy
    · rw [h.loading hin] at hl
      cases hl

theorem program_busy_fault {io : InstallerInput} (hb : io.busy = true) (hcmd : commands io = true) :
    (s.step io).installed = false ∧ (s.step io).fault = true := by
  have hs := installerStep s io
  generalize s.step io = u at hs
  cases hs with
  | fault => exact ⟨rfl, rfl⟩
  | idle h => rw [hcmd] at h; cases h
  | clear _ h => rw [hb] at h; cases h
  | write _ _ h => rw [hb] at h; cases h
  | commit _ _ _ h => rw [hb] at h; cases h

theorem config_busy_fault {io : ConfigInput} (hb : io.busy = true) (hcmd : configCommands io = true) :
    (t.step io).fault = true := by
  have hs := configStep t io
  generalize t.step io = u at hs
  cases hs with
  | fault => rfl
  | idle hc hw hm => simp [configCommands, hc, hw, hm] at hcmd
  | clear _ _ _ h => rw [hb] at h; cases h
  | write _ _ _ h => rw [hb] at h; cases h
  | commit _ _ _ h => rw [hb] at h; cases h

end Live

/-- What holds of the installers of the region in every state. -/
structure Guarded (s : Region) : Prop where
  config : ConfigOk s.config
  program : LiveOk s.program

theorem Guarded.step {s : Region} (h : Guarded s) (io : RegionInput) : Guarded (s.step io) :=
  ⟨h.config.step _, h.program.step _⟩

theorem guarded_run (ios : List RegionInput) : Guarded (Region.reset.run ios) := by
  induction ios using List.reverseRecOn with
  | nil => exact ⟨configOk_reset, liveOk_reset⟩
  | append_singleton ios io ih =>
    rw [Region.run_append]
    exact ih.step io

/-- The states agree in everything but what the installers keep to themselves. -/
def Agree (s t : Region) : Prop :=
  t = { s with config := t.config, program := t.program } ∧ t.wiring = s.wiring

section Agree

variable {s t : Region} {io io' : RegionInput}

/-- A busy core is not started again. -/
theorem graphStart_of_busy {c : Control} (h : s.core.busy = true) : s.graphStart c = false := by
  simp [Region.graphStart, Region.directStart, h, Provider.finalResponse, Provider.responseFire,
    Region.providerInput, Region.fixtureSelected]

/-- The live registers survive the cycle. -/
theorem wiring_step (h : Guarded s) (hi : s.installerBusy = true ∨
    (s.config.installed = true ∧ s.program.installed = true)) : (s.step io).wiring = s.wiring := by
  have hc := @config_live s.config (io.config.config s.installerBusy) h.config (hi.imp id And.left)
  obtain ⟨h1, h2, h3⟩ := @program_live s.program (io.program.program s.installerBusy) h.program (hi.imp id And.right)
  change Wiring.mk _ _ _ _ = Wiring.mk _ _ _ _
  rw [Wiring.mk.injEq]
  exact ⟨hc, h1, h2, h3⟩

theorem coreInput_agree (h : Agree s t) (hb : s.core.busy = true) (c : Control) :
    t.coreInput c = s.coreInput c := by
  have hstart : t.graphStart c = s.graphStart c := by
    rw [graphStart_of_busy hb, graphStart_of_busy (by rw [h.1]; exact hb)]
  unfold Region.coreInput
  rw [hstart, h.1]

/-- What the memory takes and what the core signals is the same on both sides. -/
theorem observe_agree (h : Agree s t) (hb : s.core.busy = true) (c : Control) :
    t.accepted c = s.accepted c ∧ t.completion c = s.completion c ∧ t.cancellation c = s.cancellation c := by
  have hcore : t.core = s.core := by rw [h.1]
  simp only [Region.accepted, Region.completion, Region.cancellation, coreInput_agree h hb c, h.2, hcore,
    and_self]

theorem Agree.step (h : Agree s t) (hb : s.core.busy = true) (hs : Guarded s) (ht : Guarded t)
    (hio : io'.toControl = io.toControl) : Agree (s.step io) (t.step io') := by
  have hci := coreInput_agree h hb io.toControl
  obtain ⟨-, hdone, hcancel⟩ := observe_agree h hb io.toControl
  have hbt : t.core.busy = true := by
    rw [h.1]
    exact hb
  have hwiring : (t.step io').wiring = (s.step io).wiring := by
    rw [wiring_step ht (Or.inl (by simp [Region.installerBusy, hbt])),
      wiring_step hs (Or.inl (by simp [Region.installerBusy, hb])), h.2]
  have hstart : t.graphStart io.toControl = s.graphStart io.toControl := by
    rw [graphStart_of_busy hb, graphStart_of_busy hbt]
  refine ⟨?_, hwiring⟩
  obtain ⟨hfields, hw⟩ := h
  rw [Region.mk.injEq]
  have hreq : t.request io.toControl = s.request io.toControl := by
    rw [Region.request, Region.request, if_pos hb, if_pos hbt, hci, hw, hfields]
  have hvalid : t.requestValid io.toControl = s.requestValid io.toControl := by
    rw [Region.requestValid, Region.requestValid, if_pos hb, if_pos hbt, hci, hfields]
  have hnext : t.outputValidNext io.toControl = s.outputValidNext io.toControl := by
    unfold Region.outputValidNext
    rw [hdone, hcancel, hstart, hfields]
    rfl
  refine ⟨?_, ?_, ?_, rfl, rfl, ?_, ?_, ?_, ?_, ?_, ?_, ?_, ?_⟩
  · change t.scratchpad.step (t.requestValid io'.toControl) (t.request io'.toControl)
      (t.responseReady io'.toControl) = s.scratchpad.step _ _ _
    rw [hio, hreq, hvalid, hfields]
    rfl
  · change t.provider.step (t.providerInput io'.toControl) = s.provider.step (s.providerInput io.toControl)
    rw [hio, hfields]
    rfl
  · change t.core.step t.wiring (t.coreInput io'.toControl) = s.core.step s.wiring (s.coreInput io.toControl)
    rw [hio, hci, hw, hfields]
  · exact (congrArg t.outputValidNext hio).trans hnext
  · exact (congrArg t.completion hio).trans hdone
  · exact (congrArg t.cancellation hio).trans hcancel
  · change (t.fixtureMode || (io'.toControl.fixtureStageStart && t.fixtureStageReady io'.toControl)) = _
    rw [hio, hfields]
    rfl
  · change (t.legacyMode || (io'.toControl.inputStageValid && t.inputStageReady) ||
      (io'.toControl.start && !t.core.busy && !t.provider.active)) = _
    rw [hio, hfields]
    rfl
  · change (if t.fixtureValidated io'.toControl && t.fixtureValidationResponses == 255 then true
      else if io'.toControl.fixtureStageStart && t.fixtureStageReady io'.toControl then false
      else t.fixtureCanStage) = _
    rw [hio, hfields]
    rfl
  · change (if t.fixtureValidated io'.toControl then
        if t.fixtureValidationResponses == 255 then 0 else t.fixtureValidationResponses + 1
      else if io'.toControl.fixtureStageStart && t.fixtureStageReady io'.toControl then 0
      else t.fixtureValidationResponses) = _
    rw [hio, hfields]
    rfl
  · change (if !t.core.busy && t.requestValid io'.toControl && t.scratchpad.requestReady then
      t.controlValidationSelected io'.toControl else t.controlResponseIsValidation) = _
    rw [hio, hvalid, hfields]
    rfl

/-- The cycle of the start itself. -/
theorem agree_start (hs : Guarded s) (hstart : s.graphStart io.toControl = true)
    (hio : io'.toControl = io.toControl) : Agree (s.step io) (s.step io') := by
  obtain ⟨⟨hc, -⟩, hp, -⟩ := Region.graphStart_ready hstart
  constructor
  · unfold Region.step
    rw [hio]
  · rw [wiring_step hs (Or.inr ⟨hc, hp⟩), wiring_step hs (Or.inr ⟨hc, hp⟩)]

end Agree

section Runs

/-- What an execution shows cycle by cycle: the request the memory takes, completion and cancellation. -/
def observed : Region → List RegionInput → List (Option Request × Bool × Bool)
  | _, [] => []
  | s, io :: ios =>
    (s.accepted io.toControl, s.completion io.toControl, s.cancellation io.toControl) :: observed (s.step io) ios

/-- The core is busy in every cycle of `ios`. -/
def BusyThrough : Region → List RegionInput → Prop
  | _, [] => True
  | s, io :: ios => s.core.busy = true ∧ BusyThrough (s.step io) ios

def decideBusyThrough : (s : Region) → (ios : List RegionInput) → Decidable (BusyThrough s ios)
  | _, [] => isTrue trivial
  | s, io :: ios =>
    have := decideBusyThrough (s.step io) ios
    inferInstanceAs (Decidable (_ ∧ _))

instance (s : Region) (ios : List RegionInput) : Decidable (BusyThrough s ios) := decideBusyThrough s ios

theorem Agree.run {s t : Region} {ios ios' : List RegionInput} (h : Agree s t) (hs : Guarded s) (ht : Guarded t)
    (hio : ios'.map RegionInput.toControl = ios.map RegionInput.toControl) (hbusy : BusyThrough s ios) :
    Agree (s.run ios) (t.run ios') ∧ observed t ios' = observed s ios := by
  induction ios generalizing s t ios' with
  | nil =>
    obtain rfl : ios' = [] := List.map_eq_nil_iff.mp hio
    exact ⟨h, rfl⟩
  | cons io ios ih =>
    cases ios' with
    | nil => cases hio
    | cons io' ios' =>
      obtain ⟨hhead, htail⟩ := List.cons.inj hio
      obtain ⟨hb, hrest⟩ := hbusy
      obtain ⟨h1, h2, h3⟩ := observe_agree h hb io.toControl
      obtain ⟨hrun, hobs⟩ := ih (h.step hb hs ht hhead) (hs.step io) (ht.step io') htail hrest
      refine ⟨hrun, ?_⟩
      rw [observed, observed, hobs, hhead, h1, h2, h3]

/-- The commands as the configuration installer sees them along a run. -/
def configInputs : Region → List RegionInput → List ConfigInput
  | _, [] => []
  | s, io :: ios => io.config.config s.installerBusy :: configInputs (s.step io) ios

theorem run_config (s : Region) (ios : List RegionInput) :
    (s.run ios).config = runConfig s.config (configInputs s ios) := by
  induction ios generalizing s with
  | nil => rfl
  | cons io ios ih => exact ih (s.step io)

/-- Two sequences that differ only in commands from an accepted start on show the same execution, up to the
cycle in which the core goes idle. A command to a busy installer makes it report a fault, and no run starts
before that installer has been cleared while idle and a whole valid payload has been installed. -/
theorem busy_mutation_isolated (history : List RegionInput) :
    (∀ start start' ios ios', (Region.reset.run history).graphStart start.toControl = true →
      (start' :: ios').map RegionInput.toControl = (start :: ios).map RegionInput.toControl →
      BusyThrough ((Region.reset.run history).step start) ios →
      observed (Region.reset.run history) (start' :: ios') = observed (Region.reset.run history) (start :: ios) ∧
      ((Region.reset.run history).run (start' :: ios')).scratchpad.storage =
        ((Region.reset.run history).run (start :: ios)).scratchpad.storage ∧
      ((Region.reset.run history).run (start' :: ios')).core =
        ((Region.reset.run history).run (start :: ios)).core ∧
      ((Region.reset.run history).run (start' :: ios')).outputValid =
        ((Region.reset.run history).run (start :: ios)).outputValid) ∧
    (∀ io, (Region.reset.run history).installerBusy = true →
      (commands (io.program.program true) = true →
        ((Region.reset.run history).step io).program.fault = true ∧
        ∀ ios last, (((Region.reset.run history).step io).run ios).graphStart last = true →
          ∃ payload, Installs payload (programInputs ((Region.reset.run history).step io) ios)) ∧
      (configCommands (io.config.config true) = true →
        ((Region.reset.run history).step io).config.fault = true ∧
        ∀ ios last, (((Region.reset.run history).step io).run ios).graphStart last = true →
          ∃ payload, ConfigInstalls payload (configInputs ((Region.reset.run history).step io) ios))) := by
  have hguard := guarded_run history
  generalize Region.reset.run history = s at hguard
  constructor
  · intro start start' ios ios' hstart hio hbusy
    obtain ⟨hhead, htail⟩ := List.cons.inj hio
    obtain ⟨hrun, hobs⟩ := (agree_start hguard hstart hhead).run (hguard.step start) (hguard.step start') htail hbusy
    change Agree (s.run (start :: ios)) (s.run (start' :: ios')) at hrun
    refine ⟨?_, ?_, ?_, ?_⟩
    · rw [observed, observed, hobs, hhead]
    · rw [hrun.1]
    · rw [hrun.1]
    · rw [hrun.1]
  · intro io hb
    refine ⟨fun hcmd => ?_, fun hcmd => ?_⟩
    · have hcommand : commands (io.program.program s.installerBusy) = true := by rw [hb]; exact hcmd
      obtain ⟨hi, hf⟩ := @program_busy_fault s.program (io.program.program s.installerBusy) hb hcommand
      refine ⟨hf, fun ios last hstart => ?_⟩
      obtain ⟨-, hp, -⟩ := Region.graphStart_ready hstart
      rw [run_program] at hp
      rcases ((history_fault hi hf).run _).installed hp with ⟨hno, -⟩ | hin
      · exact hno.elim
      · exact ⟨_, hin⟩
    · have hcommand : configCommands (io.config.config s.installerBusy) = true := by rw [hb]; exact hcmd
      have hf := @config_busy_fault s.config (io.config.config s.installerBusy) hb hcommand
      refine ⟨hf, fun ios last hstart => ?_⟩
      obtain ⟨⟨hc, hcf⟩, -⟩ := Region.graphStart_ready hstart
      rw [run_config] at hc hcf
      exact ⟨_, ((configHistory_fault (hguard.config.step _) hf).run _).installed hcf hc⟩

/-- Commands of several kinds at once to both installers, beside whatever else the cycle holds. -/
def meddled (io : RegionInput) : RegionInput :=
  { io with config := ⟨true, true, false, 3, 7⟩, program := ⟨false, true, true, 2, 9⟩ }

/-- The commands that install the compact profile. -/
def compactInstall : List RegionInput :=
  { restCycle with config := ⟨true, false, false, 0, 0⟩ } ::
    ((List.range 16).map (fun i => { restCycle with
      config := ⟨false, true, false, BitVec.ofNat 5 i,
        ([0x52414631, 1] ++ compactShape ++ compactDigestWords).getD i 0⟩ }) ++
    [{ restCycle with config := ⟨false, false, true, 0, 0⟩ }])

/-- The commands that install the copying program. -/
def copyInstall : List RegionInput :=
  let command (io : InstallerInput) : RegionInput :=
    { restCycle with program := ⟨io.clear, io.write, io.commit, io.address, io.data⟩ }
  command clearInput :: ((List.range 32).map (fun i => command (writeInput copyPayload i)) ++ [command commitInput])

/-- Ten cycles of a run and its cancellation. -/
def cancelledCycles : List RegionInput := List.replicate 10 restCycle ++ [cancelCycle]

/-- A run whose every cycle is meddled with is cancelled as it would have been, and the next one starts once both
installers have been through a whole installation. -/
theorem busy_mutation_isolated_meddled :
    (observed Region.reset ((startCycle :: cancelledCycles).map meddled) =
        observed Region.reset (startCycle :: cancelledCycles) ∧
      (Region.reset.run ((startCycle :: cancelledCycles).map meddled)).core =
        (Region.reset.run (startCycle :: cancelledCycles)).core ∧
      (Region.reset.run (startCycle :: cancelledCycles)).cancelled = true) ∧
    let s := Region.reset.run ([startCycle] ++ [meddled restCycle])
    let ios := cancelledCycles ++ compactInstall ++ copyInstall
    s.program.fault = true ∧ s.config.fault = true ∧ (s.run ios).graphStart startCycle.toControl = true ∧
      (∃ payload, Installs payload (programInputs s ios)) ∧ ∃ payload, ConfigInstalls payload (configInputs s ios) := by
  constructor
  · obtain ⟨hobserved, -, hcore, -⟩ := (busy_mutation_isolated []).1 startCycle (meddled startCycle) cancelledCycles
      (cancelledCycles.map meddled) (by decide) rfl (by decide +kernel)
    exact ⟨hobserved, hcore, by decide +kernel⟩
  · have hstart : (((Region.reset.run [startCycle]).step (meddled restCycle)).run
        (cancelledCycles ++ compactInstall ++ copyInstall)).graphStart startCycle.toControl = true := by
      decide +kernel
    obtain ⟨hprogram, hconfig⟩ := (busy_mutation_isolated [startCycle]).2 (meddled restCycle) (by decide)
    obtain ⟨hfault, hinstalls⟩ := hprogram rfl
    obtain ⟨hfault', hinstalls'⟩ := hconfig rfl
    exact ⟨hfault, hfault', hstart, hinstalls _ _ hstart, hinstalls' _ _ hstart⟩

end Runs

end Raveil.Device
