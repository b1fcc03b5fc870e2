import Raveil.Device.Drive
import Raveil.Device.Registers
import Raveil.Device.Turns

/-! The shell and its core in every reachable state. -/
namespace Raveil.Device

section Wires

variable {s : Shell} {moment : Moment}

theorem Shell.At.still (h : s.At moment) (h1 : moment ≠ .applying) (h2 : moment ≠ .staging)
    (h3 : moment ≠ .fetching) : Still s.coreInput := by
  have happlies := h.applies h1
  have hstaging : s.inputActive = false := by rw [h.staging, decide_eq_false h2]
  have hfetching : s.outputActive = false := by rw [h.fetching, decide_eq_false h3]
  constructor <;> simp [Shell.coreInput, happlies, hstaging, hfetching]

end Wires

section Invariant

/-- What a mutation was decoded on still holds of the core. -/
structure Prepared (s : Shell) : Prop where
  kind : s.mutationKind ≠ .none
  stage : s.mutationKind = .inputStage → s.core.core.busy = false ∧
    s.mutationAddress.toNat = s.stagedWords.toNat ∧ s.stagedWords.toNat < 324
  start : s.mutationKind = .start → s.core.core.busy = false ∧ s.core.configReady = true ∧
    s.core.programReady = true ∧ s.stagedWords = 324

/-- What the shell relies on while it is at something. -/
def Holding (s : Shell) : Moment → Prop
  | .collecting => True
  | .responding => s.pendingMutation = true → Prepared s
  | .applying => Prepared s ∧ s.mutationKind ≠ .inputStage
  | .staging => Prepared s ∧ s.mutationKind = .inputStage ∧ (s.inputIssued = true →
      s.core.scratchpad.responseValid = true ∧ s.core.controlResponseIsValidation = false)
  | .resetting => True
  | .fetching => s.core.core.busy = false ∧ s.core.outputValid = true ∧ s.outputSuppressed = false ∧
      (s.outputIssued = true → s.core.scratchpad.responseValid = true ∧ s.core.controlResponseIsValidation = true ∧
        s.core.scratchpad.responseReadData = s.core.readout s.outputAddress)
  | .answering => True

/-- What holds of the shell and its core in every state. -/
structure ShellOk (s : Shell) (launch completed : Option Region) (moment : Moment) : Prop where
  at_moment : s.At moment
  region : RegionOk s.core
  activity : Activity s.core launch completed
  direct : Direct s.core
  quiet : s.core.core.busy = false → s.inputIssued = false → s.outputIssued = false →
    s.core.scratchpad.responseValid = false
  words : s.core.core.busy = true → s.stagedWords = 0
  bound : s.stagedWords.toNat ≤ 324
  holding : Holding s moment

/-- Where the last run was started since the last reset of the core. -/
def launchNext (s : Shell) (launch : Option Region) : Option Region :=
  if s.resetBarrier then none else startedNext s.core launch s.coreInput.toControl

/-- The same, once that run has completed. -/
def completedSince (s : Shell) (launch completed : Option Region) : Option Region :=
  if s.resetBarrier then none
  else if s.core.graphStart s.coreInput.toControl then none
  else completedNext s.core launch completed s.coreInput.toControl

theorem shellOk_reset (aw w : BitVec 32) (strb : BitVec 4) : ShellOk (.reset aw w strb) none none .collecting where
  at_moment := by constructor <;> simp [Shell.reset]
  region := regionOk_reset
  activity := activity_reset
  direct := direct_reset
  quiet := fun _ _ _ => rfl
  words := fun h => by cases h
  bound := Nat.zero_le 324
  holding := trivial

theorem Activity.forget {s : Region} {started completed completed' : Option Region}
    (h : Activity s started completed) (hv : s.outputValid = false) : Activity s started completed' := by
  cases h with
  | idle hb _ => exact .idle hb fun hyes => by rw [hv] at hyes; cases hyes
  | running z hz hw hv trace cell pc phase hr => exact .running z hz hw hv trace cell pc phase hr
  | draining hv hb hr hs => exact .draining hv hb hr hs
  | stuck hv hb hs hr => exact .stuck hv hb hs hr

variable {s : Shell} {io : Master} {launch completed : Option Region} {moment : Moment}

/-- The core goes on under the wires of the shell. -/
theorem ShellOk.drives (h : ShellOk s launch completed moment) (hm : moment ≠ .resetting) :
    RegionOk (s.core.step s.coreInput) ∧
      Activity (s.core.step s.coreInput) (launchNext s launch) (completedSince s launch completed) ∧
      Direct (s.core.step s.coreInput) := by
  have hreset : s.resetBarrier = false := by rw [h.at_moment.resetting, decide_eq_false hm]
  obtain ⟨hregion, hactivity⟩ := @Activity.step s.core s.coreInput launch completed h.region h.activity fun hno => by
    rw [h.direct.mode] at hno
    cases hno.2.1
  refine ⟨hregion, ?_, h.direct.step rfl⟩
  rw [launchNext, completedSince, hreset, if_neg Bool.false_ne_true, if_neg Bool.false_ne_true]
  cases hstart : s.core.graphStart s.coreInput.toControl with
  | false => exact hactivity
  | true =>
    rw [if_pos rfl]
    refine hactivity.forget ?_
    have hb : s.core.core.busy = false := by
      by_contra hno
      rw [Bool.not_eq_false] at hno
      rw [graphStart_of_busy hno] at hstart
      cases hstart
    obtain ⟨hcompletion, hcancellation⟩ := Region.idle_signals hb s.coreInput.toControl
    change s.core.outputValidNext s.coreInput.toControl = false
    rw [Region.outputValidNext, hcompletion, hcancellation, hstart]
    rfl

/-- No start is taken outside the moment of applying. -/
theorem ShellOk.no_start (h : ShellOk s launch completed moment) (hm : moment ≠ .applying) :
    s.core.graphStart s.coreInput.toControl = false :=
  h.direct.graphStart_of_no_start (h.at_moment.applies hm .start)

/-- The last start stays the last start while no other is taken. -/
theorem launchNext_keep (hm : s.resetBarrier = false) (hstart : s.core.graphStart s.coreInput.toControl = false) :
    launchNext s launch = launch := by
  rw [launchNext, hm, if_neg Bool.false_ne_true, startedNext, hstart]
  rfl

/-- A cycle in which the core is left alone: it may only come to its end. -/
structure Calm (s t : Region) : Prop where
  quiet : t.core.busy = false → t.scratchpad.responseValid = false
  busy : t.core.busy = true → s.core.busy = true
  core : s.core.busy = false → t.core = s.core
  installers : t.config = s.config ∧ t.program = s.program
  scratchpad : s.core.busy = false → t.scratchpad = s.scratchpad
  outputValid : s.core.busy = false → t.outputValid = s.outputValid
  pulses : s.core.busy = false → t.done = false ∧ t.cancelled = false

theorem ShellOk.calm (h : ShellOk s launch completed moment) (h1 : moment ≠ .applying) (h2 : moment ≠ .staging)
    (h3 : moment ≠ .fetching) : Calm s.core (s.core.step s.coreInput) := by
  have hstill := h.at_moment.still h1 h2 h3
  have hstart := h.direct.graphStart_of_no_start hstill.start
  have hquiet := fun hb => h.quiet hb (h.at_moment.issued h2) (h.at_moment.requested h3)
  have hscratchpad := fun hb => h.direct.idle_scratchpad hb (hquiet hb) hstill.stage hstill.validation
  have hcore := fun hb => @Region.idle_core s.core s.coreInput hb hstart
  refine ⟨fun hend => ?_, fun hbusy => ?_, fun hb => (hcore hb).1, hstill.installers s.core, hscratchpad,
    fun hb => Region.idle_outputValid hb hstart hstill.stage, fun hb => (hcore hb).2⟩
  · cases hb : s.core.core.busy with
    | true => exact h.activity.quiet h.region hb hend
    | false =>
      rw [hscratchpad hb]
      exact hquiet hb
  · rcases Core.busy_of_step hbusy with hb | hb
    · exact hb
    · have : s.core.graphStart s.coreInput.toControl = true := hb
      rw [hstart] at this
      cases this

/-- A mutation that waits stays prepared while the core is left alone. -/
theorem Prepared.keep {t : Shell} (h : Prepared s) (hk : t.mutationKind = s.mutationKind)
    (ha : t.mutationAddress = s.mutationAddress) (hw : t.stagedWords = s.stagedWords) (hc : Calm s.core t.core) :
    Prepared t := by
  refine ⟨by rw [hk]; exact h.kind, fun hkind => ?_, fun hkind => ?_⟩
  · rw [hk] at hkind
    obtain ⟨hb, haddress, hlt⟩ := h.stage hkind
    rw [ha, hw, hc.core hb]
    exact ⟨hb, haddress, hlt⟩
  · rw [hk] at hkind
    obtain ⟨hb, hconfig, hprogram, hstaged⟩ := h.start hkind
    rw [hw, hc.core hb, Region.configReady, Region.programReady, hc.installers.1, hc.installers.2]
    exact ⟨hb, hconfig, hprogram, hstaged⟩

/-- A mutation is prepared when it is decoded. -/
theorem prepared_decode (h : s.At .collecting) (hc : Calm s.core (s.core.step s.coreInput))
    (ha : s.acceptedMutation = true) : Prepared s.decode := by
  have hdecoded := decoded_of_accepted ha
  have hdevice := h.device (by decide)
  have hword := wordOf_toNat s.savedAw
  have hindex := wordIndex_toNat s.savedAw
  have hkind : s.decode.mutationKind = s.decodedKind := if_pos ha
  have haddress : s.decode.mutationAddress = (wordOf s.savedAw - 256).extractLsb 8 0 := if_pos ha
  have hstaged : s.decode.stagedWords = s.stagedWords := rfl
  have hcore : s.decode.core = s.core.step s.coreInput := rfl
  constructor
  · rw [hkind]
    intro hnone
    rw [hnone] at hdecoded
    cases hdecoded
  · rw [hkind, haddress, hstaged, hcore]
    intro heq
    rw [heq] at hdecoded
    cases hdecoded with
    | inputStage hl hu hi hb =>
      rw [hdevice] at hb
      rw [if_pos (by omega)] at hword
      rw [hc.core hb, hindex (by omega)]
      exact ⟨hb, by omega, by omega⟩
  · rw [hkind, hstaged, hcore]
    intro heq
    rw [heq] at hdecoded
    cases hdecoded with
    | start _ _ hw hb hconfig _ hprogram _ =>
      rw [hdevice] at hb hconfig hprogram
      rw [hc.core hb, Region.configReady, Region.programReady, hc.installers.1, hc.installers.2]
      exact ⟨hb, hconfig, hprogram, hw⟩

/-- After a calm cycle. -/
theorem ShellOk.after (h : ShellOk s launch completed moment) (hm : moment ≠ .resetting)
    (hc : Calm s.core (s.core.step s.coreInput)) {t : Shell} {next : Moment} (hat : t.At next)
    (hcore : t.core = s.core.step s.coreInput) (hw : t.stagedWords = s.stagedWords) (hhold : Holding t next) :
    ShellOk t (launchNext s launch) (completedSince s launch completed) next := by
  obtain ⟨hregion, hactivity, hdirect⟩ := h.drives hm
  rw [← hcore] at hregion hactivity hdirect hc
  refine ⟨hat, hregion, hactivity, hdirect, fun hb _ _ => hc.quiet hb, fun hb => ?_, ?_, hhold⟩
  · rw [hw]
    exact h.words (hc.busy hb)
  · rw [hw]
    exact h.bound

theorem ShellOk.step_calm (h : ShellOk s launch completed moment)
    (hm : moment = .collecting ∨ moment = .responding ∨ moment = .answering) {next : Moment} {t : Shell}
    (ht : s.Turn io moment next t) : ShellOk t (launchNext s launch) (completedSince s launch completed) next := by
  have h1 : moment ≠ .applying := by rcases hm with rfl | rfl | rfl <;> decide
  have h2 : moment ≠ .staging := by rcases hm with rfl | rfl | rfl <;> decide
  have h3 : moment ≠ .fetching := by rcases hm with rfl | rfl | rfl <;> decide
  have h4 : moment ≠ .resetting := by rcases hm with rfl | rfl | rfl <;> decide
  have hc := h.calm h1 h2 h3
  have hat := ht.at_next h.at_moment
  cases ht with
  | collect => exact h.after h4 hc hat rfl rfl trivial
  | decode => exact h.after h4 hc hat rfl rfl fun hpending => prepared_decode h.at_moment hc hpending
  | answer => exact h.after h4 hc hat rfl rfl trivial
  | fetch ha hw hr ho =>
    refine h.after h4 hc hat rfl rfl ?_
    simp only [Shell.readsOutput, Shell.authorizedOutput, h.at_moment.device h4, Bool.and_eq_true,
      Bool.not_eq_true'] at ho
    obtain ⟨⟨-, hvalid, hsuppressed⟩, hb⟩ := ho
    refine ⟨?_, ?_, hsuppressed, fun hissued => by cases hissued⟩
    · change (s.core.step s.coreInput).core.busy = false
      rw [hc.core hb]
      exact hb
    · change (s.core.step s.coreInput).outputValid = true
      rw [hc.outputValid hb]
      exact hvalid
  | holdB => exact h.after h4 hc hat rfl rfl fun hpending => (h.holding hpending).keep rfl rfl rfl hc
  | refuse => exact h.after h4 hc hat rfl rfl trivial
  | reset => exact h.after h4 hc hat rfl rfl trivial
  | stage _ _ hpending hk =>
    exact h.after h4 hc hat rfl rfl ⟨(h.holding hpending).keep rfl rfl rfl hc, hk, fun hissued => by cases hissued⟩
  | release _ _ hpending hk => exact h.after h4 hc hat rfl rfl ⟨(h.holding hpending).keep rfl rfl rfl hc, hk⟩
  | holdR => exact h.after h4 hc hat rfl rfl trivial
  | give => exact h.after h4 hc hat rfl rfl trivial
  | _ => simp at hm

/-- The mutation reaches the core. -/
theorem ShellOk.step_applying (h : ShellOk s launch completed .applying) (hat : s.apply.At .collecting) :
    ShellOk s.apply (launchNext s launch) (completedSince s launch completed) .collecting := by
  obtain ⟨hregion, hactivity, hdirect⟩ := h.drives (by decide)
  have hissued := h.at_moment.issued (by decide)
  have hrequested := h.at_moment.requested (by decide)
  have hstage : s.coreInput.inputStageValid = false := by simp [Shell.coreInput, h.at_moment.staging]
  have hvalidation : s.coreInput.outputValidationValid = false := by simp [Shell.coreInput, h.at_moment.fetching]
  refine ⟨hat, hregion, hactivity, hdirect, fun hend _ _ => ?_, fun hbusy => ?_, ?_, trivial⟩
  · cases hb : s.core.core.busy with
    | true => exact h.activity.quiet h.region hb hend
    | false =>
      have hquiet := h.quiet hb hissued hrequested
      have := h.direct.idle_scratchpad hb hquiet hstage hvalidation
      change (s.core.step s.coreInput).scratchpad.responseValid = false
      rw [this]
      exact hquiet
  · change (if s.mutationKind = .start then 0 else s.stagedWords) = 0
    by_cases hk : s.mutationKind = .start
    · exact if_pos hk
    · rw [if_neg hk]
      have hno : s.coreInput.start = false := by simp [Shell.coreInput, Shell.applies, hk]
      rcases Core.busy_of_step hbusy with hb | hb
      · exact h.words hb
      · have hstart : s.core.graphStart s.coreInput.toControl = true := hb
        rw [h.direct.graphStart_of_no_start hno] at hstart
        cases hstart
  · change BitVec.toNat (if s.mutationKind = .start then 0 else s.stagedWords) ≤ 324
    split
    · exact Nat.zero_le 324
    · exact h.bound

section Staging

variable (h : ShellOk s launch completed .staging)

include h

theorem ShellOk.staging_idle : s.core.core.busy = false ∧ s.mutationAddress.toNat = s.stagedWords.toNat ∧
    s.stagedWords.toNat < 324 := h.holding.1.stage h.holding.2.1

/-- The scratchpad takes the word at once. -/
theorem ShellOk.issues (hi : s.inputIssued = false) : s.issuesInput = true ∧ s.closesInput = false ∧
    (s.core.step s.coreInput).scratchpad.responseValid = true ∧
    (s.core.step s.coreInput).controlResponseIsValidation = false ∧
    (s.core.step s.coreInput).scratchpad.storage =
      Function.update s.core.scratchpad.storage (s.mutationAddress.setWidth 10) s.mutationData := by
  obtain ⟨hb, -, -⟩ := h.staging_idle
  have hquiet := h.quiet hb hi (h.at_moment.requested (by decide))
  have hactive : s.inputActive = true := h.at_moment.staging
  have hstage : s.coreInput.inputStageValid = true := by simp [Shell.coreInput, hactive, hi]
  obtain ⟨hready, hrest⟩ := h.direct.stage hb hquiet hstage
  refine ⟨?_, ?_, hrest⟩
  · rw [Shell.issuesInput, hactive, hi, h.at_moment.device (by decide), hready]
    rfl
  · rw [Shell.closesInput, hi, Bool.and_false]
    rfl

/-- It gives back that it did in the next cycle. -/
theorem ShellOk.closes (hi : s.inputIssued = true) : s.closesInput = true ∧ s.issuesInput = false ∧
    (s.core.step s.coreInput).scratchpad.responseValid = false ∧
    (s.core.step s.coreInput).scratchpad.storage = s.core.scratchpad.storage := by
  obtain ⟨hb, -, -⟩ := h.staging_idle
  obtain ⟨hresponse, hcontrol⟩ := h.holding.2.2 hi
  have hactive : s.inputActive = true := h.at_moment.staging
  have hfetching : s.outputActive = false := h.at_moment.fetching
  have hclose := @Direct.close s.core s.coreInput h.direct hb hresponse (by simp [Shell.coreInput, hi])
    (by simp [Shell.coreInput, hfetching]) (by simp [Shell.coreInput, hcontrol, hactive, hi])
  refine ⟨?_, ?_, hclose⟩
  · rw [Shell.closesInput, hactive, hi, h.at_moment.device (by decide), Region.inputStageResponseValid, hb,
      h.direct.provider, hresponse, hcontrol]
    rfl
  · rw [Shell.issuesInput, hi]
    simp

/-- Staging starts nothing. -/
theorem ShellOk.staging_core : (s.core.step s.coreInput).core.busy = false := by
  obtain ⟨hb, -, -⟩ := h.staging_idle
  have hno : s.coreInput.start = false := h.at_moment.applies (by decide) .start
  rw [(@Region.idle_core s.core s.coreInput hb (h.direct.graphStart_of_no_start hno)).1]
  exact hb

/-- The staged word reaches the scratchpad, and the response comes back. -/
theorem ShellOk.step_staging {next : Moment} {t : Shell} (ht : s.Turn io .staging next t) :
    ShellOk t (launchNext s launch) (completedSince s launch completed) next := by
  obtain ⟨hregion, hactivity, hdirect⟩ := h.drives (by decide)
  have hat := ht.at_next h.at_moment
  have hcore := h.staging_core
  obtain ⟨hb, haddress, hlt⟩ := h.staging_idle
  cases ht with
  | holdInput hi hc =>
    cases hissued : s.inputIssued with
    | false => rw [(h.issues hissued).1] at hi; cases hi
    | true => rw [(h.closes hissued).1] at hc; cases hc
  | issueInput hi =>
    cases hissued : s.inputIssued with
    | true => rw [(h.closes hissued).2.1] at hi; cases hi
    | false =>
      obtain ⟨-, -, hresponse, hcontrol, -⟩ := h.issues hissued
      refine ⟨hat, hregion, hactivity, hdirect, fun _ hno => (by cases hno), fun hbusy => ?_, h.bound, ?_⟩
      · change (s.core.step s.coreInput).core.busy = true at hbusy
        rw [hcore] at hbusy
        cases hbusy
      · refine ⟨⟨h.holding.1.kind, fun _ => ⟨hcore, haddress, hlt⟩, fun hk => ?_⟩, h.holding.2.1, fun _ =>
          ⟨hresponse, hcontrol⟩⟩
        have hkind : s.mutationKind = .start := hk
        rw [h.holding.2.1] at hkind
        cases hkind
  | closeInput hc =>
    cases hissued : s.inputIssued with
    | false => rw [(h.issues hissued).2.1] at hc; cases hc
    | true =>
      obtain ⟨-, -, hresponse, -⟩ := h.closes hissued
      refine ⟨hat, hregion, hactivity, hdirect, fun _ _ _ => hresponse, fun hbusy => ?_, ?_, trivial⟩
      · change (s.core.step s.coreInput).core.busy = true at hbusy
        rw [hcore] at hbusy
        cases hbusy
      · change BitVec.toNat (if s.core.scratchpad.responseError then s.stagedWords else s.stagedWords + 1) ≤ 324
        rw [h.region.error, if_neg Bool.false_ne_true, BitVec.toNat_add]
        simp only [BitVec.reduceToNat]
        omega

end Staging

section Fetching

variable (h : ShellOk s launch completed .fetching)

include h

/-- The word that is asked for is on its way at once. -/
theorem ShellOk.asks (hi : s.outputIssued = false) : s.issuesOutput = true ∧ s.closesOutput = false ∧
    (s.core.step s.coreInput).scratchpad.responseValid = true ∧
    (s.core.step s.coreInput).controlResponseIsValidation = true ∧
    (s.core.step s.coreInput).scratchpad.storage = s.core.scratchpad.storage ∧
    (s.core.step s.coreInput).scratchpad.responseReadData = s.core.readout s.outputAddress := by
  obtain ⟨hb, hvalid, -, -⟩ := h.holding
  have hquiet := h.quiet hb (h.at_moment.issued (by decide)) hi
  have hactive : s.outputActive = true := h.at_moment.fetching
  have hstaging : s.inputActive = false := h.at_moment.staging
  have hasked : s.coreInput.outputValidationValid = true := by simp [Shell.coreInput, hactive, hi]
  obtain ⟨hready, hrest⟩ := h.direct.fetch hb hquiet (by simp [Shell.coreInput, hstaging]) hasked hvalid
  refine ⟨?_, ?_, hrest⟩
  · rw [Shell.issuesOutput, hactive, hi, h.at_moment.device (by decide), hready]
    rfl
  · rw [Shell.closesOutput, hi, Bool.and_false]
    rfl

theorem ShellOk.gets (hi : s.outputIssued = true) : s.closesOutput = true ∧ s.issuesOutput = false ∧
    (s.core.step s.coreInput).scratchpad.responseValid = false ∧
    (s.core.step s.coreInput).scratchpad.storage = s.core.scratchpad.storage := by
  obtain ⟨hb, -, -, hissued⟩ := h.holding
  obtain ⟨hresponse, hcontrol, -⟩ := hissued hi
  have hactive : s.outputActive = true := h.at_moment.fetching
  have hstaging : s.inputActive = false := h.at_moment.staging
  have hclose := @Direct.close s.core s.coreInput h.direct hb hresponse (by simp [Shell.coreInput, hstaging])
    (by simp [Shell.coreInput, hi]) (by simp [Shell.coreInput, hcontrol, hactive, hi])
  refine ⟨?_, ?_, hclose⟩
  · rw [Shell.closesOutput, hactive, hi, h.at_moment.device (by decide), Region.outputValidationResponseValid, hb,
      h.direct.provider, hresponse, hcontrol]
    rfl
  · rw [Shell.issuesOutput, hi]
    simp

/-- Reading starts nothing and takes no authority away. -/
theorem ShellOk.fetching_core :
    (s.core.step s.coreInput).core = s.core.core ∧ (s.core.step s.coreInput).outputValid = true ∧
      (s.core.step s.coreInput).done = false ∧ (s.core.step s.coreInput).cancelled = false := by
  obtain ⟨hb, hvalid, -, -⟩ := h.holding
  have hno : s.coreInput.start = false := h.at_moment.applies (by decide) .start
  have hstart := @Direct.graphStart_of_no_start s.core h.direct s.coreInput.toControl hno
  have hstaging : s.inputActive = false := h.at_moment.staging
  obtain ⟨hcore, hdone, hcancelled⟩ := @Region.idle_core s.core s.coreInput hb hstart
  refine ⟨hcore, ?_, hdone, hcancelled⟩
  rw [Region.idle_outputValid hb hstart (by simp [Shell.coreInput, hstaging])]
  exact hvalid

theorem ShellOk.step_fetching {next : Moment} {t : Shell} (ht : s.Turn io .fetching next t) :
    ShellOk t (launchNext s launch) (completedSince s launch completed) next := by
  obtain ⟨hregion, hactivity, hdirect⟩ := h.drives (by decide)
  have hat := ht.at_next h.at_moment
  obtain ⟨hcore, hvalid, -⟩ := h.fetching_core
  obtain ⟨hb, -, hsuppressed, -⟩ := h.holding
  have hidle : (s.core.step s.coreInput).core.busy = false := by rw [hcore]; exact hb
  have hwords : (s.core.step s.coreInput).core.busy = true → s.stagedWords = 0 := by
    intro hbusy
    rw [hidle] at hbusy
    cases hbusy
  cases ht with
  | holdOutput hi hc =>
    cases hissued : s.outputIssued with
    | false => rw [(h.asks hissued).1] at hi; cases hi
    | true => rw [(h.gets hissued).1] at hc; cases hc
  | issueOutput hi =>
    cases hissued : s.outputIssued with
    | true => rw [(h.gets hissued).2.1] at hi; cases hi
    | false =>
      obtain ⟨-, -, hresponse, hcontrol, hstorage, hdata⟩ := h.asks hissued
      refine ⟨hat, hregion, hactivity, hdirect, fun _ _ hno => (by cases hno), hwords, h.bound, hidle, hvalid,
        hsuppressed, fun _ => ⟨hresponse, hcontrol, ?_⟩⟩
      change (s.core.step s.coreInput).scratchpad.responseReadData =
        (s.core.step s.coreInput).scratchpad.storage (324 + s.outputAddress.setWidth 10)
      rw [hdata, hstorage]
      rfl
  | closeOutput hc =>
    cases hissued : s.outputIssued with
    | false => rw [(h.asks hissued).2.1] at hc; cases hc
    | true =>
      obtain ⟨-, -, hresponse, -⟩ := h.gets hissued
      exact ⟨hat, hregion, hactivity, hdirect, fun _ _ _ => hresponse, hwords, h.bound, trivial⟩

end Fetching

/-- What one cycle does to what holds of the shell. -/
theorem ShellOk.step (h : ShellOk s launch completed moment) (io : Master) : ∃ next, s.Turn io moment next (s.step io) ∧
    ShellOk (s.step io) (launchNext s launch) (completedSince s launch completed) next := by
  obtain ⟨next, ht⟩ := @Shell.At.turn s io moment h.at_moment
  refine ⟨next, ht, ?_⟩
  cases moment with
  | collecting => exact h.step_calm (Or.inl rfl) ht
  | responding => exact h.step_calm (Or.inr (Or.inl rfl)) ht
  | answering => exact h.step_calm (Or.inr (Or.inr rfl)) ht
  | staging => exact h.step_staging ht
  | fetching => exact h.step_fetching ht
  | applying =>
    have hat := ht.at_next h.at_moment
    have heq := @Shell.At.step_applying s io h.at_moment
    rw [heq] at ht hat ⊢
    cases next with
    | collecting => exact h.step_applying hat
    | _ => cases ht
  | resetting =>
    have hat := ht.at_next h.at_moment
    have hreset : s.resetBarrier = true := h.at_moment.resetting
    have heq := @Shell.At.step_resetting s io h.at_moment
    rw [launchNext, completedSince, hreset, if_pos rfl, if_pos rfl]
    rw [heq] at ht hat ⊢
    cases next with
    | collecting =>
      exact ⟨hat, regionOk_reset, activity_reset, direct_reset, fun _ _ _ => rfl, fun hbusy => (by cases hbusy),
        Nat.zero_le 324, trivial⟩
    | _ => cases ht

end Invariant

end Raveil.Device
