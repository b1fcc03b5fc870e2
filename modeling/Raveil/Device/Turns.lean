import Raveil.Device.Shell

/-! What one cycle of the shell can do: its moments exclude each other. -/
namespace Raveil.Device

/-- What the shell is at. -/
inductive Moment
  | collecting | responding | applying | staging | resetting | fetching | answering
  deriving DecidableEq

namespace Shell

/-- The registers of the handshake say one thing. -/
structure At (s : Shell) (moment : Moment) : Prop where
  haveB : s.haveB = decide (moment = .responding)
  haveR : s.haveR = decide (moment = .answering)
  applying : s.mutationApply = decide (moment = .applying)
  barrier : s.mutationBarrier = decide (moment = .applying)
  staging : s.inputActive = decide (moment = .staging)
  fetching : s.outputActive = decide (moment = .fetching)
  resetting : s.resetBarrier = decide (moment = .resetting)
  issued : moment ≠ .staging → s.inputIssued = false
  requested : moment ≠ .fetching → s.outputIssued = false
  collected : moment ≠ .collecting → s.haveAw = false ∧ s.haveW = false
  pending : moment ≠ .responding → s.pendingReset = false ∧ s.pendingMutation = false
  exclusive : (s.pendingReset && s.pendingMutation) = false

variable (s : Shell) (io : Master)

/-- The core goes on, and its pulses are kept. -/
def drift : Shell :=
  { s with
    core := s.core.step s.coreInput
    completedSticky := if s.core.done then true else s.completedSticky
    cancelledSticky := if s.core.cancelled then true else s.cancelledSticky }

/-- The channels of a write are taken as they come. -/
def collect : Shell :=
  { s.drift with
    haveAw := s.haveAw || io.awvalid
    savedAw := if io.awvalid && !s.haveAw then io.awaddr else s.savedAw
    haveW := s.haveW || io.wvalid
    savedW := if io.wvalid && !s.haveW then io.wdata else s.savedW
    savedStrb := if io.wvalid && !s.haveW then io.wstrb else s.savedStrb }

/-- A write is decoded, and its response is up. -/
def decode : Shell :=
  { s.drift with
    haveAw := false
    haveW := false
    haveB := true
    savedBresp := s.writeResponse
    pendingReset := s.acceptedReset
    pendingMutation := s.acceptedMutation
    mutationKind := if s.acceptedMutation then s.decodedKind else s.mutationKind
    mutationAddress := if s.acceptedMutation then (wordOf s.savedAw - 256).extractLsb 8 0 else s.mutationAddress
    mutationData := if s.acceptedMutation then s.savedW else s.mutationData
    transportFault := if s.controlFault then true else s.transportFault }

/-- A read is answered from the registers. -/
def answer (a : BitVec 32) : Shell :=
  { s.drift with haveR := true, savedRdata := s.readData a, savedRresp := s.readResponse a }

/-- A read of an output word goes on to the scratchpad. -/
def fetch (a : BitVec 32) : Shell :=
  { s.drift with
    outputActive := true
    outputIssued := false
    outputAddress := (wordOf a - 1024).extractLsb 7 0 }

/-- A mutation reaches the core. -/
def apply : Shell :=
  { s with
    core := s.core.step s.coreInput
    mutationApply := false
    mutationBarrier := false
    stagedWords := if s.mutationKind = .start then 0 else s.stagedWords
    completedSticky :=
      if s.mutationKind = .cancel ∨ s.mutationKind = .start then false
      else if s.core.done then true
      else s.completedSticky
    cancelledSticky :=
      if s.mutationKind = .cancel ∧ s.core.core.busy = false then true
      else if s.mutationKind = .start then false
      else if s.core.cancelled then true
      else s.cancelledSticky
    transportFault := if s.mutationKind = .start then false else s.transportFault
    outputSuppressed :=
      if s.mutationKind = .cancel then true
      else if s.mutationKind = .start then false
      else s.outputSuppressed }

/-- The core comes out of its reset. -/
def clear : Shell :=
  { s with
    resetBarrier := false
    inputActive := false
    inputIssued := false
    stagedWords := 0
    outputActive := false
    outputIssued := false
    completedSticky := false
    cancelledSticky := false
    transportFault := false
    outputSuppressed := false
    core := Region.reset }

/-- The core gives back that it took a staged word. -/
def closeInput : Shell :=
  { s.drift with
    inputActive := false
    inputIssued := false
    stagedWords := if s.core.scratchpad.responseError then s.stagedWords else s.stagedWords + 1
    transportFault := if s.core.scratchpad.responseError then true else s.transportFault }

/-- The core gives back an output word. -/
def closeOutput : Shell :=
  { s.drift with
    outputActive := false
    outputIssued := false
    haveR := true
    savedRdata := s.core.scratchpad.responseReadData
    savedRresp := if s.core.scratchpad.responseError then .slverr else .okay
    transportFault := if s.core.scratchpad.responseError then true else s.transportFault }

section Signals

variable {s io} {moment : Moment}

theorem At.device (h : s.At moment) (hs : moment ≠ .resetting) : s.device = s.core := by
  rw [Shell.device, h.resetting, decide_eq_false hs]
  rfl

theorem At.applies (h : s.At moment) (hs : moment ≠ .applying) (kind : Mutation) : s.applies kind = false := by
  rw [Shell.applies, h.applying, decide_eq_false hs]
  rfl

theorem At.decodes (h : s.At moment) (hs : moment ≠ .collecting) : s.decodes = false := by
  rw [Shell.decodes, (h.collected hs).1]
  rfl

theorem At.awready (h : s.At moment) : s.awready = (decide (moment = .collecting) && !s.haveAw) := by
  cases moment <;>
    simp [Shell.awready, h.haveB, h.haveR, h.applying, h.barrier, h.staging, h.fetching, h.resetting,
      h.pending]

theorem At.wready (h : s.At moment) : s.wready = (decide (moment = .collecting) && !s.haveW) := by
  cases moment <;>
    simp [Shell.wready, h.haveB, h.haveR, h.applying, h.barrier, h.staging, h.fetching, h.resetting,
      h.pending]

theorem At.busy (h : s.At moment) : s.busy = (decide (moment ≠ .collecting) || s.haveAw || s.haveW) := by
  cases moment <;>
    simp [Shell.busy, h.haveB, h.haveR, h.applying, h.barrier, h.staging, h.fetching, h.resetting,
      h.pending]

/-- Outside that moment no channel is taken. -/
theorem At.takes (h : s.At moment) (hs : moment ≠ .collecting) :
    s.takesAw io = false ∧ s.takesW io = false ∧ s.takesAr io = false := by
  refine ⟨?_, ?_, ?_⟩
  · simp [Shell.takesAw, h.awready, hs]
  · simp [Shell.takesW, h.wready, hs]
  · simp [Shell.takesAr, Shell.arready, h.busy, hs]

theorem At.gives (h : s.At moment) : s.givesB io = (decide (moment = .responding) && io.bready) ∧
    s.givesR io = (decide (moment = .answering) && io.rready) := by
  rw [Shell.givesB, Shell.givesR, h.haveB, h.haveR]
  exact ⟨rfl, rfl⟩

theorem At.input (h : s.At moment) (hs : moment ≠ .staging) : s.issuesInput = false ∧ s.closesInput = false := by
  rw [Shell.issuesInput, Shell.closesInput, h.staging, decide_eq_false hs]
  exact ⟨rfl, rfl⟩

theorem At.output (h : s.At moment) (hs : moment ≠ .fetching) :
    s.issuesOutput = false ∧ s.closesOutput = false := by
  rw [Shell.issuesOutput, Shell.closesOutput, h.fetching, decide_eq_false hs]
  exact ⟨rfl, rfl⟩

end Signals

/-- What a cycle does, by the moment that it finds. -/
inductive Turn : Moment → Moment → Shell → Prop
  | collect (hd : (s.haveAw && s.haveW) = false) (hr : s.takesAr io = false) :
      Turn .collecting .collecting (s.collect io)
  | decode (ha : s.haveAw = true) (hw : s.haveW = true) : Turn .collecting .responding s.decode
  | answer (ha : s.haveAw = false) (hw : s.haveW = false) (hr : s.takesAr io = true)
      (ho : s.readsOutput io.araddr = false) : Turn .collecting .answering (s.answer io.araddr)
  | fetch (ha : s.haveAw = false) (hw : s.haveW = false) (hr : s.takesAr io = true)
      (ho : s.readsOutput io.araddr = true) : Turn .collecting .fetching (s.fetch io.araddr)
  | holdB (hb : io.bready = false) : Turn .responding .responding s.drift
  | refuse (hb : io.bready = true) (hr : s.pendingReset = false) (hm : s.pendingMutation = false) :
      Turn .responding .collecting { s.drift with haveB := false }
  | reset (hb : io.bready = true) (hr : s.pendingReset = true) (hm : s.pendingMutation = false) :
      Turn .responding .resetting { s.drift with haveB := false, pendingReset := false, resetBarrier := true }
  | stage (hb : io.bready = true) (hr : s.pendingReset = false) (hm : s.pendingMutation = true)
      (hk : s.mutationKind = .inputStage) :
      Turn .responding .staging
        { s.drift with haveB := false, pendingMutation := false, inputActive := true, inputIssued := false }
  | release (hb : io.bready = true) (hr : s.pendingReset = false) (hm : s.pendingMutation = true)
      (hk : s.mutationKind ≠ .inputStage) :
      Turn .responding .applying
        { s.drift with haveB := false, pendingMutation := false, mutationApply := true, mutationBarrier := true }
  | apply : Turn .applying .collecting s.apply
  | clear : Turn .resetting .collecting s.clear
  | holdInput (hi : s.issuesInput = false) (hc : s.closesInput = false) : Turn .staging .staging s.drift
  | issueInput (hi : s.issuesInput = true) : Turn .staging .staging { s.drift with inputIssued := true }
  | closeInput (hc : s.closesInput = true) : Turn .staging .collecting s.closeInput
  | holdOutput (hi : s.issuesOutput = false) (hc : s.closesOutput = false) : Turn .fetching .fetching s.drift
  | issueOutput (hi : s.issuesOutput = true) : Turn .fetching .fetching { s.drift with outputIssued := true }
  | closeOutput (hc : s.closesOutput = true) : Turn .fetching .answering s.closeOutput
  | holdR (hr : io.rready = false) : Turn .answering .answering s.drift
  | give (hr : io.rready = true) : Turn .answering .collecting { s.drift with haveR := false }

section Turn

variable {s io} {moment : Moment}

theorem At.step_collecting (h : s.At .collecting) : ∃ next, s.Turn io .collecting next (s.step io) := by
  have hdevice := h.device (by decide)
  have happlies := h.applies (by decide)
  obtain ⟨hgivesB, hgivesR⟩ := @At.gives s io _ h
  obtain ⟨hissues, hcloses⟩ := h.input (by decide)
  obtain ⟨hissuesO, hclosesO⟩ := h.output (by decide)
  obtain ⟨hpr, hpm⟩ := h.pending (by decide)
  have hi := h.issued (by decide)
  have ho := h.requested (by decide)
  have hdecodes : s.decodes = (s.haveAw && s.haveW) := by simp [Shell.decodes, h.haveB, h.resetting]
  cases hd : s.haveAw && s.haveW with
  | true =>
    rw [hd] at hdecodes
    rw [Bool.and_eq_true] at hd
    have hno : s.takesAr io = false := by simp [Shell.takesAr, Shell.arready, h.busy, hd.1]
    have heq : s.step io = s.decode := by
      simp [step, Shell.decode, drift, hdecodes, hno, hdevice, happlies, hgivesB, hgivesR, hissues, hcloses, hissuesO,
        hclosesO, takesAw, takesW, h.awready, h.wready, hd.1, hd.2, answersRead, beginsOutput, releases, h.haveR,
        h.applying, h.barrier, h.staging, h.fetching, h.resetting, hi, ho, hpr, hpm]
    rw [heq]
    exact ⟨_, .decode hd.1 hd.2⟩
  | false =>
    rw [hd] at hdecodes
    cases hr : s.takesAr io with
    | false =>
      have heq : s.step io = s.collect io := by
        have hand := Bool.and_comm
        have hor := Bool.or_comm
        simp [step, Shell.collect, drift, hdecodes, hr, hdevice, happlies, hgivesB, hgivesR, hissues, hcloses, hissuesO,
          hclosesO, takesAw, takesW, h.awready, h.wready, answersRead, beginsOutput, releases, h.haveB, h.haveR,
          h.applying, h.barrier, h.staging, h.fetching, h.resetting, hi, ho, hpr, hpm]
        cases s.haveAw <;> cases s.haveW <;> simp
      rw [heq]
      exact ⟨_, .collect hd hr⟩
    | true =>
      have hfree := hr
      simp only [Shell.takesAr, Shell.arready, h.busy, Bool.and_eq_true, Bool.not_eq_true', Bool.or_eq_false_iff] at hfree
      obtain ⟨-, ⟨⟨⟨-, ha⟩, hw⟩, hav⟩, hwv⟩ := hfree
      cases hout : s.readsOutput io.araddr with
      | false =>
        have heq : s.step io = s.answer io.araddr := by
          simp [step, Shell.answer, drift, hdecodes, hr, hdevice, happlies, hgivesB, hissues, hcloses, hissuesO,
            hclosesO, takesAw, takesW, hav, hwv, ha, hw, hout, answersRead, beginsOutput, releases, h.haveB,
            h.applying, h.barrier, h.staging, h.fetching, h.resetting, hi, ho, hpr, hpm]
        rw [heq]
        exact ⟨_, .answer ha hw hr hout⟩
      | true =>
        have heq : s.step io = s.fetch io.araddr := by
          simp [step, Shell.fetch, drift, hdecodes, hr, hdevice, happlies, hgivesB, hgivesR, hissues, hcloses,
            hclosesO, takesAw, takesW, hav, hwv, ha, hw, hout, answersRead, beginsOutput, releases, h.haveB, h.haveR,
            h.applying, h.barrier, h.staging, h.resetting, hi, hpr, hpm]
        rw [heq]
        exact ⟨_, .fetch ha hw hr hout⟩

theorem At.step_responding (h : s.At .responding) : ∃ next, s.Turn io .responding next (s.step io) := by
  have hdevice := h.device (by decide)
  have happlies := h.applies (by decide)
  obtain ⟨hgivesB, hgivesR⟩ := @At.gives s io _ h
  obtain ⟨hissues, hcloses⟩ := h.input (by decide)
  obtain ⟨hissuesO, hclosesO⟩ := h.output (by decide)
  have hi := h.issued (by decide)
  have ho := h.requested (by decide)
  obtain ⟨ha, hw⟩ := h.collected (by decide)
  have hdecodes := h.decodes (by decide)
  obtain ⟨htaw, htw, htar⟩ := @At.takes s io _ h (by decide)
  have heq : s.step io = { s.drift with
      haveB := !io.bready
      pendingReset := s.pendingReset && !io.bready
      resetBarrier := io.bready && s.pendingReset
      pendingMutation := s.pendingMutation && !io.bready
      mutationApply := io.bready && s.pendingMutation && !decide (s.mutationKind = .inputStage)
      mutationBarrier := io.bready && s.pendingMutation && !decide (s.mutationKind = .inputStage)
      inputActive := io.bready && s.pendingMutation && decide (s.mutationKind = .inputStage) } := by
    simp [step, drift, hdecodes, hdevice, happlies, hgivesB, hgivesR, hissues, hcloses, hissuesO, hclosesO, htaw, htw,
      htar, answersRead, beginsOutput, releases, h.haveB, h.haveR, h.applying, h.barrier, h.staging, h.fetching,
      h.resetting, hi, ho, ha, hw, bne, beq_eq_decide]
    cases io.bready <;> cases s.pendingReset <;> cases s.pendingMutation <;> simp
  cases hb : io.bready with
  | false =>
    have hstep : s.step io = s.drift := by
      rw [heq]
      simp [drift, hb, h.haveB, h.applying, h.barrier, h.staging, h.resetting]
    rw [hstep]
    exact ⟨_, .holdB hb⟩
  | true =>
    cases hm : s.pendingMutation with
    | false =>
      cases hr : s.pendingReset with
      | false =>
        have hstep : s.step io = { s.drift with haveB := false } := by
          rw [heq]
          simp [drift, hb, hm, hr, h.applying, h.barrier, h.staging, h.resetting]
        rw [hstep]
        exact ⟨_, .refuse hb hr hm⟩
      | true =>
        have hstep : s.step io = { s.drift with haveB := false, pendingReset := false, resetBarrier := true } := by
          rw [heq]
          simp [drift, hb, hm, hr, h.applying, h.barrier, h.staging]
        rw [hstep]
        exact ⟨_, .reset hb hr hm⟩
    | true =>
      have hr : s.pendingReset = false := by
        have := h.exclusive
        rwa [hm, Bool.and_true] at this
      by_cases hk : s.mutationKind = .inputStage
      · have hstep : s.step io = { s.drift with
            haveB := false, pendingMutation := false, inputActive := true, inputIssued := false } := by
          rw [heq]
          simp [drift, hb, hm, hr, hk, hi, h.applying, h.barrier, h.resetting]
        rw [hstep]
        exact ⟨_, .stage hb hr hm hk⟩
      · have hstep : s.step io = { s.drift with
            haveB := false, pendingMutation := false, mutationApply := true, mutationBarrier := true } := by
          rw [heq]
          simp [drift, hb, hm, hr, hk, h.staging, h.resetting]
        rw [hstep]
        exact ⟨_, .release hb hr hm hk⟩

theorem At.step_applying (h : s.At .applying) : s.step io = s.apply := by
  have hdevice := h.device (by decide)
  have happlies : ∀ kind, s.applies kind = decide (s.mutationKind = kind) := by
    intro kind
    rw [Shell.applies, h.applying, beq_eq_decide]
    rfl
  obtain ⟨hgivesB, hgivesR⟩ := @At.gives s io _ h
  obtain ⟨hissues, hcloses⟩ := h.input (by decide)
  obtain ⟨hissuesO, hclosesO⟩ := h.output (by decide)
  obtain ⟨hpr, hpm⟩ := h.pending (by decide)
  have hi := h.issued (by decide)
  have ho := h.requested (by decide)
  obtain ⟨ha, hw⟩ := h.collected (by decide)
  have hdecodes := h.decodes (by decide)
  obtain ⟨htaw, htw, htar⟩ := @At.takes s io _ h (by decide)
  simp [step, Shell.apply, hdecodes, hdevice, happlies, hgivesB, hgivesR, hissues, hcloses, hissuesO, hclosesO, htaw,
    htw, htar, answersRead, beginsOutput, releases, h.haveB, h.haveR, h.applying, h.barrier, h.staging, h.fetching,
    h.resetting, hi, ho, ha, hw, hpr, hpm]
  by_cases hk : s.mutationKind = .cancel
  · simp [hk]
  · simp [hk]

theorem At.step_resetting (h : s.At .resetting) : s.step io = s.clear := by
  have happlies := h.applies (by decide)
  obtain ⟨hgivesB, hgivesR⟩ := @At.gives s io _ h
  obtain ⟨hissues, hcloses⟩ := h.input (by decide)
  obtain ⟨hissuesO, hclosesO⟩ := h.output (by decide)
  obtain ⟨hpr, hpm⟩ := h.pending (by decide)
  obtain ⟨ha, hw⟩ := h.collected (by decide)
  have hdecodes := h.decodes (by decide)
  obtain ⟨htaw, htw, htar⟩ := @At.takes s io _ h (by decide)
  simp [step, Shell.clear, hdecodes, hgivesB, hgivesR, hclosesO, htaw, htw, htar, answersRead, beginsOutput, releases,
    h.haveB, h.haveR, h.applying, h.barrier, h.resetting, ha, hw, hpr, hpm]

theorem At.step_staging (h : s.At .staging) : ∃ next, s.Turn io .staging next (s.step io) := by
  have hdevice := h.device (by decide)
  have happlies := h.applies (by decide)
  obtain ⟨hgivesB, hgivesR⟩ := @At.gives s io _ h
  obtain ⟨hissuesO, hclosesO⟩ := h.output (by decide)
  obtain ⟨hpr, hpm⟩ := h.pending (by decide)
  have ho := h.requested (by decide)
  obtain ⟨ha, hw⟩ := h.collected (by decide)
  have hdecodes := h.decodes (by decide)
  obtain ⟨htaw, htw, htar⟩ := @At.takes s io _ h (by decide)
  cases hc : s.closesInput with
  | true =>
    have hstep : s.step io = s.closeInput := by
      simp [step, Shell.closeInput, drift, hdecodes, hdevice, happlies, hgivesB, hgivesR, hc, hissuesO, hclosesO, htaw,
        htw, htar, answersRead, beginsOutput, releases, h.haveB, h.haveR, h.applying, h.barrier, h.fetching,
        h.resetting, ho, ha, hw, hpr, hpm]
      cases s.core.scratchpad.responseError <;> simp
    rw [hstep]
    exact ⟨_, .closeInput hc⟩
  | false =>
    cases hi : s.issuesInput with
    | true =>
      have hstep : s.step io = { s.drift with inputIssued := true } := by
        simp [step, drift, hdecodes, hdevice, happlies, hgivesB, hgivesR, hc, hi, hissuesO, hclosesO, htaw,
          htw, htar, answersRead, beginsOutput, releases, h.haveB, h.haveR, h.applying, h.barrier, h.fetching,
          h.resetting, ho, ha, hw, hpr, hpm]
      rw [hstep]
      exact ⟨_, .issueInput hi⟩
    | false =>
      have hstep : s.step io = s.drift := by
        simp [step, drift, hdecodes, hdevice, happlies, hgivesB, hgivesR, hc, hi, hissuesO, hclosesO, htaw,
          htw, htar, answersRead, beginsOutput, releases, h.haveB, h.haveR, h.applying, h.barrier, h.fetching,
          h.resetting, ho, ha, hw, hpr, hpm]
      rw [hstep]
      exact ⟨_, .holdInput hi hc⟩

theorem At.step_fetching (h : s.At .fetching) : ∃ next, s.Turn io .fetching next (s.step io) := by
  have hdevice := h.device (by decide)
  have happlies := h.applies (by decide)
  obtain ⟨hgivesB, hgivesR⟩ := @At.gives s io _ h
  obtain ⟨hissues, hcloses⟩ := h.input (by decide)
  obtain ⟨hpr, hpm⟩ := h.pending (by decide)
  have hi := h.issued (by decide)
  obtain ⟨ha, hw⟩ := h.collected (by decide)
  have hdecodes := h.decodes (by decide)
  obtain ⟨htaw, htw, htar⟩ := @At.takes s io _ h (by decide)
  cases hc : s.closesOutput with
  | true =>
    have hstep : s.step io = s.closeOutput := by
      simp [step, Shell.closeOutput, drift, hdecodes, hdevice, happlies, hgivesB, hc, hissues, hcloses, htaw,
        htw, htar, answersRead, beginsOutput, releases, h.haveB, h.applying, h.barrier, h.staging,
        h.resetting, hi, ha, hw, hpr, hpm]
    rw [hstep]
    exact ⟨_, .closeOutput hc⟩
  | false =>
    cases ho : s.issuesOutput with
    | true =>
      have hstep : s.step io = { s.drift with outputIssued := true } := by
        simp [step, drift, hdecodes, hdevice, happlies, hgivesB, hgivesR, hc, ho, hissues, hcloses, htaw,
          htw, htar, answersRead, beginsOutput, releases, h.haveB, h.haveR, h.applying, h.barrier, h.staging,
          h.resetting, hi, ha, hw, hpr, hpm]
      rw [hstep]
      exact ⟨_, .issueOutput ho⟩
    | false =>
      have hstep : s.step io = s.drift := by
        simp [step, drift, hdecodes, hdevice, happlies, hgivesB, hgivesR, hc, ho, hissues, hcloses, htaw,
          htw, htar, answersRead, beginsOutput, releases, h.haveB, h.haveR, h.applying, h.barrier, h.staging,
          h.resetting, hi, ha, hw, hpr, hpm]
      rw [hstep]
      exact ⟨_, .holdOutput ho hc⟩

theorem At.step_answering (h : s.At .answering) : ∃ next, s.Turn io .answering next (s.step io) := by
  have hdevice := h.device (by decide)
  have happlies := h.applies (by decide)
  obtain ⟨hgivesB, hgivesR⟩ := @At.gives s io _ h
  obtain ⟨hissues, hcloses⟩ := h.input (by decide)
  obtain ⟨hissuesO, hclosesO⟩ := h.output (by decide)
  obtain ⟨hpr, hpm⟩ := h.pending (by decide)
  have hi := h.issued (by decide)
  have ho := h.requested (by decide)
  obtain ⟨ha, hw⟩ := h.collected (by decide)
  have hdecodes := h.decodes (by decide)
  obtain ⟨htaw, htw, htar⟩ := @At.takes s io _ h (by decide)
  have heq : s.step io = { s.drift with haveR := !io.rready } := by
    simp [step, drift, hdecodes, hdevice, happlies, hgivesB, hgivesR, hissues, hcloses, hissuesO, hclosesO, htaw, htw,
      htar, answersRead, beginsOutput, releases, h.haveB, h.haveR, h.applying, h.barrier, h.staging, h.fetching,
      h.resetting, hi, ho, ha, hw, hpr, hpm]
  cases hr : io.rready with
  | false =>
    have hstep : s.step io = s.drift := by
      rw [heq]
      simp [drift, hr, h.haveR]
    rw [hstep]
    exact ⟨_, .holdR hr⟩
  | true =>
    rw [heq, hr]
    exact ⟨_, .give hr⟩

/-- Every cycle is a turn. -/
theorem At.turn (h : s.At moment) : ∃ next, s.Turn io moment next (s.step io) := by
  cases moment with
  | collecting => exact h.step_collecting
  | responding => exact h.step_responding
  | applying => exact ⟨_, by rw [h.step_applying]; exact .apply⟩
  | staging => exact h.step_staging
  | resetting => exact ⟨_, by rw [h.step_resetting]; exact .clear⟩
  | fetching => exact h.step_fetching
  | answering => exact h.step_answering

/-- A reset is not a mutation too. -/
theorem accepted_exclusive (s : Shell) : (s.acceptedReset && s.acceptedMutation) = false := by
  cases hr : s.acceptedReset with
  | false => rfl
  | true =>
    simp only [acceptedReset, resetWrite, Bool.and_eq_true, beq_iff_eq] at hr
    obtain ⟨-, ⟨ha, hd⟩, -⟩ := hr
    have hword : wordOf 16#32 = 4#11 := by decide
    have hconfig : configuration 16#32 = false := by decide
    have hprogram : programming 16#32 = false := by decide
    simp [acceptedMutation, mutation, configControl, configPayload, programControl, programPayload, inputPayload,
      executionStart, executionCancel, ha, hd, hword, hconfig, hprogram]

/-- A turn leads to the moment that it names. -/
theorem Turn.at_next {next : Moment} {t : Shell} (ht : s.Turn io moment next t) (h : s.At moment) : t.At next := by
  have h1 := h.haveB
  have h2 := h.haveR
  have h3 := h.applying
  have h4 := h.barrier
  have h5 := h.staging
  have h6 := h.fetching
  have h7 := h.resetting
  have h8 := h.issued
  have h9 := h.requested
  have h10 := h.collected
  have h11 := h.pending
  have h12 := h.exclusive
  cases ht with
  | decode ha hw =>
    constructor <;>
      simp_all [Shell.decode, drift, accepted_exclusive]
  | collect hd hr => constructor <;> simp_all [Shell.collect, drift]
  | answer ha hw hr ho => constructor <;> simp_all [Shell.answer, drift]
  | fetch ha hw hr ho => constructor <;> simp_all [Shell.fetch, drift]
  | holdB hb => exact ⟨h1, h2, h3, h4, h5, h6, h7, h8, h9, h10, h11, h12⟩
  | refuse hb hr hm => constructor <;> simp_all [drift]
  | reset hb hr hm => constructor <;> simp_all [drift]
  | stage hb hr hm hk => constructor <;> simp_all [drift]
  | release hb hr hm hk => constructor <;> simp_all [drift]
  | apply => constructor <;> simp_all [Shell.apply]
  | clear => constructor <;> simp_all [Shell.clear]
  | holdInput hi hc => exact ⟨h1, h2, h3, h4, h5, h6, h7, h8, h9, h10, h11, h12⟩
  | issueInput hi => constructor <;> simp_all [drift]
  | closeInput hc => constructor <;> simp_all [Shell.closeInput, drift]
  | holdOutput hi hc => exact ⟨h1, h2, h3, h4, h5, h6, h7, h8, h9, h10, h11, h12⟩
  | issueOutput hi => constructor <;> simp_all [drift]
  | closeOutput hc => constructor <;> simp_all [Shell.closeOutput, drift]
  | holdR hr => exact ⟨h1, h2, h3, h4, h5, h6, h7, h8, h9, h10, h11, h12⟩
  | give hr => constructor <;> simp_all [drift]

/-- The shell is at one thing at a time. -/
theorem At.unique {moment moment' : Moment} (h : s.At moment) (h' : s.At moment') : moment = moment' := by
  have h1 := h.haveB.symm.trans h'.haveB
  have h2 := h.haveR.symm.trans h'.haveR
  have h3 := h.applying.symm.trans h'.applying
  have h4 := h.staging.symm.trans h'.staging
  have h5 := h.fetching.symm.trans h'.fetching
  have h6 := h.resetting.symm.trans h'.resetting
  revert h1 h2 h3 h4 h5 h6
  cases moment <;> cases moment' <;> decide

/-- A cycle that completes no write and asks for no read collects. -/
theorem At.step_collect (h : s.At .collecting) (hfree : (s.haveAw && s.haveW) = false)
    (hr : s.takesAr io = false) : s.step io = s.collect io := by
  obtain ⟨next, ht⟩ := @At.step_collecting s io h
  generalize s.step io = t at ht
  cases ht with
  | collect => rfl
  | decode ha hw => rw [ha, hw] at hfree; cases hfree
  | answer _ _ hyes => rw [hr] at hyes; cases hyes
  | fetch _ _ hyes => rw [hr] at hyes; cases hyes

theorem At.step_decode (h : s.At .collecting) (ha : s.haveAw = true) (hw : s.haveW = true) :
    s.step io = s.decode := by
  obtain ⟨next, ht⟩ := @At.step_collecting s io h
  generalize s.step io = t at ht
  cases ht with
  | collect hd => rw [ha, hw] at hd; cases hd
  | decode => rfl
  | answer hno => rw [ha] at hno; cases hno
  | fetch hno => rw [ha] at hno; cases hno

theorem At.pending_mutation {moment : Moment} (h : s.At moment) (hm : s.pendingMutation = true) :
    s.pendingReset = false := by
  have := h.exclusive
  rwa [hm, Bool.and_true] at this

/-- A read of an output word under authority goes on to the scratchpad. -/
theorem At.step_fetch (h : s.At .collecting) (hfree : s.haveAw = false ∧ s.haveW = false)
    (hr : s.takesAr io = true) (ho : s.readsOutput io.araddr = true) : s.step io = s.fetch io.araddr := by
  obtain ⟨next, ht⟩ := @At.step_collecting s io h
  generalize s.step io = t at ht
  cases ht with
  | collect _ hno => rw [hr] at hno; cases hno
  | decode ha => rw [hfree.1] at ha; cases ha
  | answer _ _ _ hno => rw [ho] at hno; cases hno
  | fetch => rfl

/-- An accepted mutation leaves the shell with the master's acceptance of its response. -/
theorem At.step_release (h : s.At .responding) (hb : io.bready = true) (hm : s.pendingMutation = true) :
    s.step io = if s.mutationKind = .inputStage then
        { s.drift with haveB := false, pendingMutation := false, inputActive := true, inputIssued := false }
      else
        { s.drift with haveB := false, pendingMutation := false, mutationApply := true, mutationBarrier := true } := by
  obtain ⟨next, ht⟩ := @At.step_responding s io h
  generalize s.step io = t at ht
  cases ht with
  | holdB hno => rw [hb] at hno; cases hno
  | refuse _ _ hno => rw [hm] at hno; cases hno
  | reset _ _ hno => rw [hm] at hno; cases hno
  | stage _ _ _ hk => rw [if_pos hk]
  | release _ _ _ hk => rw [if_neg hk]

/-- The scratchpad takes a staged word, and its response comes back in the next cycle. -/
theorem At.step_staged (h : s.At .staging) :
    (s.closesInput = true → s.step io = s.closeInput) ∧
      (s.issuesInput = true → s.closesInput = false → s.step io = { s.drift with inputIssued := true }) := by
  obtain ⟨next, ht⟩ := @At.step_staging s io h
  generalize s.step io = t at ht
  constructor
  · intro hyes
    cases ht with
    | holdInput _ hc => rw [hyes] at hc; cases hc
    | issueInput hi =>
      simp only [issuesInput, closesInput, Bool.and_eq_true] at hi hyes
      rw [hyes.1.2] at hi
      simp at hi
    | closeInput => rfl
  · intro hyes hno
    cases ht with
    | holdInput hi => rw [hyes] at hi; cases hi
    | issueInput => rfl
    | closeInput hc => rw [hno] at hc; cases hc

theorem At.step_fetched (h : s.At .fetching) :
    (s.closesOutput = true → s.step io = s.closeOutput) ∧
      (s.issuesOutput = true → s.closesOutput = false → s.step io = { s.drift with outputIssued := true }) := by
  obtain ⟨next, ht⟩ := @At.step_fetching s io h
  generalize s.step io = t at ht
  constructor
  · intro hyes
    cases ht with
    | holdOutput _ hc => rw [hyes] at hc; cases hc
    | issueOutput hi =>
      simp only [issuesOutput, closesOutput, Bool.and_eq_true] at hi hyes
      rw [hyes.1.2] at hi
      simp at hi
    | closeOutput => rfl
  · intro hyes hno
    cases ht with
    | holdOutput hi => rw [hyes] at hi; cases hi
    | issueOutput => rfl
    | closeOutput hc => rw [hno] at hc; cases hc

end Turn

end Shell

end Raveil.Device
