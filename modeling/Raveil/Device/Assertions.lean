import Raveil.Device.Installers
import Raveil.Device.Region

/-! The safety assertions of the region and of its program installer, along every run. -/
namespace Raveil.Device
open Raveil.Graph (Installer InstallerInput)

/-- `io.loading` of the program installer. -/
def programLoading (s : Installer) : Bool := s.payloadCount != 0 && !s.installed && !s.fault

/-- The assertions of `GraphDeviceProgramInstaller` and `StaticStencilRegion` in one cycle. -/
structure Asserted (s : Region) (io : RegionInput) : Prop where
  exclusive : ¬ (s.program.installed = true ∧ s.program.fault = true)
  loading : s.installerBusy = true → ¬ (programLoading s.program = true ∧ s.program.installed = true)
  ordered : io.program.write = true → s.installerBusy = false → s.program.installed = false →
    s.program.fault = false → io.program.address = s.program.payloadCount
  authority : ¬ (s.outputValid = true ∧ s.core.busy = true)
  executing : s.core.busy = true → s.config.installed = true ∧ s.config.loading = false ∧
    s.program.installed = true ∧ programLoading s.program = false

/-- The commands as the program installer sees them along a run. -/
def programInputs : Region → List RegionInput → List InstallerInput
  | _, [] => []
  | s, io :: ios => io.program.program s.installerBusy :: programInputs (s.step io) ios

/-- What a cycle makes of the number of writes of an open installation: an idle clear opens one, an idle write that there
is room for counts, and any other command ends it. -/
def countWrite (open_ : Option ℕ) (io : InstallerInput) : Option ℕ :=
  if !commands io then open_
  else if io.busy then none
  else if io.clear then some 0
  else if io.write then open_.bind fun n => if n < 32 then some (n + 1) else none
  else none

/-- The idle writes since the last idle clear, as long as nothing else has been commanded since; no address and no word
of them is looked at. -/
def writesSince (cs : List InstallerInput) : Option ℕ := cs.foldl countWrite none

/-- A cycle that keeps the rules the installers expect, after the commands so far: a write of an open installation has
the number of the writes before it for its address; when the core is busy after the cycle there is no program command
in it but the commit of what is installed; and a direct start has no lone clear of the configuration beside it. -/
structure Quiet (cs : List InstallerInput) (s : Region) (io : RegionInput) : Prop where
  ordered : io.program.write = true → s.installerBusy = false → ∀ n ∈ writesSince cs, io.program.address.toNat = n
  program : (s.step io).core.busy = true →
    commands (io.program.program s.installerBusy) = false ∨ Commits s.program (io.program.program s.installerBusy)
  config : s.directStart io.toControl = true →
    ¬ (io.config.clear = true ∧ io.config.write = false ∧ io.config.commit = false)

/-- In every cycle of a run: of what came before it, and of its inputs. -/
def EveryCycle (p : List RegionInput → RegionInput → Prop) (ios : List RegionInput) : Prop :=
  ∀ before io after, ios = before ++ io :: after → p before io

section Core

variable {wiring : Wiring} {s : Core} {io : CoreInput}

theorem Core.step_completion (h : s.completion wiring io = true) : (s.step wiring io).busy = false := by
  simp only [Core.completion, Bool.and_eq_true, Bool.not_eq_true', beq_iff_eq] at h
  obtain ⟨⟨⟨⟨⟨⟨hbusy, hcancel⟩, hstate⟩, hfinal⟩, hlast⟩, hfire⟩, herror⟩ := h
  have hstored : (s.stepStored wiring io).busy = false := by
    rw [Core.stepStored, herror, hfinal, if_neg (by simp), if_pos hlast]
    rfl
  rw [Core.step, hcancel, hbusy, if_neg (by simp), if_pos rfl, Core.stepBusy, hstate]
  dsimp only
  rw [if_pos hfire]
  exact hstored

/-- A core that is busy after a cycle was busy before it, or was started in it. -/
theorem Core.busy_of_step (h : (s.step wiring io).busy = true) : s.busy = true ∨ io.start = true := by
  cases hbusy : s.busy with
  | true => exact Or.inl rfl
  | false =>
    right
    rw [Core.step, hbusy, Bool.and_false, if_neg (by simp), if_neg (by simp)] at h
    by_contra hstart
    rw [if_neg hstart, hbusy] at h
    cases h

end Core

section Installers

variable {s : Installer} {t : ConfigInstaller}

/-- The program stays installed exactly if there is no command, or a commit of what is installed. -/
theorem program_stays {io : InstallerInput} (hi : s.installed = true) :
    (s.step io).installed = true ↔ commands io = false ∨ Commits s io := by
  have hs := installerStep s io
  generalize s.step io = u at hs
  constructor
  · intro hu
    cases hs with
    | idle h => exact Or.inl h
    | clear => cases hu
    | write _ _ _ hno => rw [hi] at hno; cases hno
    | commit hc hw hm hb hf hv => exact Or.inr ⟨⟨hc, hw, hm, hb⟩, hf, hv⟩
    | fault => cases hu
  · rintro (h | ⟨⟨hc, hw, hm, hb⟩, hf, hv⟩)
    · cases hs with
      | idle => exact hi
      | clear hc => simp [commands, hc] at h
      | write _ hw => simp [commands, hw] at h
      | commit _ _ hm => simp [commands, hm] at h
      | fault hcmd => rw [h] at hcmd; cases hcmd
    · cases hs with
      | commit => rfl
      | idle h => simp [commands, hm] at h
      | clear hc' => rw [hc] at hc'; cases hc'
      | write _ hw' => rw [hw] at hw'; cases hw'
      | fault _ _ hno => rw [hno hb hw hf] at hv; cases hv

/-- An installed configuration stays installed unless a lone clear arrives while idle. -/
theorem config_stays {io : ConfigInput} (hi : t.installed = true) (hl : t.loading = false)
    (h : io.busy = true ∨ ¬ (io.clear = true ∧ io.write = false ∧ io.commit = false)) :
    (t.step io).installed = true ∧ (t.step io).loading = false := by
  have hs := configStep t io
  generalize t.step io = u at hs
  cases hs with
  | idle => exact ⟨hi, hl⟩
  | clear hc hw hm hb =>
    rcases h with h | h
    · rw [hb] at h
      cases h
    · exact absurd ⟨hc, hw, hm⟩ h
  | write _ _ _ _ hl' => rw [hl] at hl'; cases hl'
  | commit _ _ _ _ hl' => rw [hl] at hl'; cases hl'
  | fault => exact ⟨hi, hl⟩

/-- A lone clear while idle takes the configuration away. -/
theorem config_cleared {io : ConfigInput} (hb : io.busy = false) (hc : io.clear = true) (hw : io.write = false)
    (hm : io.commit = false) : (t.step io).installed = false := by
  unfold ConfigInstaller.step
  simp [ConfigInput.collides, hb, hc, hw, hm]

end Installers

section Loads

variable {s : Installer} {io : InstallerInput} {open_ : Option ℕ}

/-- The registers of an installer with an installation open, or with none. -/
structure Loads (s : Installer) (open_ : Option ℕ) : Prop where
  opened : ∀ n ∈ open_, s.installed = false ∧ s.fault = false ∧ s.payloadCount.toNat = n
  closed : open_ = none → s.installed = true ∨ s.fault = true

theorem loads_reset : Loads Installer.reset none := ⟨fun n hn => (by cases hn), fun _ => Or.inl rfl⟩

/-- A write with the expected address is taken as long as there is room. -/
theorem write_taken (hc : io.clear = false) (hw : io.write = true) (hb : io.busy = false) (hi : s.installed = false)
    (hf : s.fault = false) (hlt : s.payloadCount < 32) (ha : io.address = s.payloadCount) : (s.step io).fault = false := by
  have hroom : s.payloadCount < 32#6 := hlt
  unfold Installer.step
  simp [hc, hw, hb, hi, hf, hroom, ha]

theorem Loads.step (h : Loads s open_)
    (ho : io.write = true → io.busy = false → ∀ n ∈ open_, io.address.toNat = n) :
    Loads (s.step io) (countWrite open_ io) := by
  have hs := installerStep s io
  have htaken := @write_taken s io
  generalize s.step io = u at hs htaken
  unfold countWrite
  cases hs with
  | idle hno =>
    rw [hno]
    exact h
  | clear hc hb =>
    rw [show commands io = true by simp [commands, hc], hb, hc]
    exact ⟨fun n hn => (by cases hn; exact ⟨rfl, rfl, rfl⟩), fun hnone => (by cases hnone)⟩
  | write hc hw hb hi hf hlt ha =>
    rw [show commands io = true by simp [commands, hw], hb, hc, hw]
    cases open_ with
    | none =>
      rcases h.closed rfl with hin | hfault
      · rw [hi] at hin; cases hin
      · rw [hf] at hfault; cases hfault
    | some k =>
      obtain ⟨-, -, hk⟩ := h.opened k rfl
      have hk32 : k < 32 := by
        rw [← hk]
        exact hlt
      have hnext : (s.payloadCount + 1).toNat = k + 1 := by
        rw [BitVec.toNat_add, hk]
        change (k + 1) % 64 = k + 1
        omega
      dsimp only [Bool.not_true, Bool.false_eq_true, if_false, if_true, Option.bind_some]
      rw [if_pos hk32]
      exact ⟨fun n hn => (by cases hn; exact ⟨hi, hf, hnext⟩), fun hnone => (by cases hnone)⟩
  | commit hc hw hm hb =>
    rw [show commands io = true by simp [commands, hm], hb, hc, hw]
    exact ⟨fun n hn => (by cases hn), fun _ => Or.inl rfl⟩
  | fault hcmd hclear hno =>
    have hnone : countWrite open_ io = none := by
      unfold countWrite
      rw [hcmd]
      cases hb : io.busy with
      | true => rfl
      | false =>
        rw [hclear hb]
        cases hw : io.write with
        | false => rfl
        | true =>
          cases open_ with
          | none => rfl
          | some k =>
            -- a write with the expected address is refused only when there is no room
            obtain ⟨hi, hf, hk⟩ := h.opened k rfl
            have hfull : ¬ k < 32 := by
              intro hlt
              refine Bool.false_ne_true (htaken (hclear hb) hw hb hi hf ?_ ?_).symm
              · rw [← hk] at hlt
                exact hlt
              · exact BitVec.eq_of_toNat_eq ((ho hw hb k rfl).trans hk.symm)
            simp [hfull]
    unfold countWrite at hnone
    rw [hnone]
    exact ⟨fun n hn => (by cases hn), fun _ => Or.inr rfl⟩

end Loads

section History

variable {s : Region} {ios : List RegionInput} {p q : List RegionInput → RegionInput → Prop}

theorem run_program (s : Region) (ios : List RegionInput) :
    (s.run ios).program = runInstaller s.program (programInputs s ios) := by
  induction ios generalizing s with
  | nil => rfl
  | cons io ios ih => exact ih (s.step io)

theorem programInputs_append (s : Region) (ios : List RegionInput) (io : RegionInput) :
    programInputs s (ios ++ [io]) = programInputs s ios ++ [io.program.program (s.run ios).installerBusy] := by
  induction ios generalizing s with
  | nil => rfl
  | cons first ios ih => exact congrArg _ (ih (s.step first))

theorem writesSince_append (cs : List InstallerInput) (io : InstallerInput) :
    writesSince (cs ++ [io]) = countWrite (writesSince cs) io := by
  rw [writesSince, List.foldl_append]
  rfl

theorem everyCycle_nil : EveryCycle p [] := fun before io after h => by simp at h

theorem EveryCycle.head {io : RegionInput} (h : EveryCycle p (ios ++ [io])) : EveryCycle p ios :=
  fun before x after heq => h before x (after ++ [io]) (by rw [heq]; simp)

theorem EveryCycle.last {io : RegionInput} (h : EveryCycle p (ios ++ [io])) : p ios io := h ios io [] rfl

theorem EveryCycle.snoc {io : RegionInput} (h : EveryCycle p ios) (hio : p ios io) : EveryCycle p (ios ++ [io]) := by
  intro before x after heq
  rcases last_split heq with ⟨-, rfl, rfl⟩ | ⟨rest, -, rfl⟩
  · exact hio
  · exact h before x rest rfl

end History

/-- What the assertions rest on. -/
structure Steady (s : Region) : Prop where
  exclusive : ¬ (s.program.installed = true ∧ s.program.fault = true)
  config : ConfigOk s.config
  authority : ¬ (s.outputValid = true ∧ s.core.busy = true)
  executing : s.core.busy = true → s.config.installed = true ∧ s.program.installed = true

theorem steady_reset : Steady Region.reset := by
  refine ⟨by decide, configOk_reset, by decide, fun h => ?_⟩
  cases h

/-- Output has authority only while the core is idle, whatever happens. -/
theorem authority_step {s : Region} (io : RegionInput) (h : ¬ (s.outputValid = true ∧ s.core.busy = true)) :
    ¬ ((s.step io).outputValid = true ∧ (s.step io).core.busy = true) := by
  rintro ⟨hvalid, hbusy⟩
  change s.outputValidNext io.toControl = true at hvalid
  change (s.core.step s.wiring (s.coreInput io.toControl)).busy = true at hbusy
  unfold Region.outputValidNext at hvalid
  by_cases hcancel : s.cancellation io.toControl = true
  · rw [if_pos hcancel] at hvalid
    cases hvalid
  · rw [if_neg hcancel] at hvalid
    by_cases hdone : s.completion io.toControl = true
    · rw [Core.step_completion hdone] at hbusy
      cases hbusy
    · rw [if_neg hdone] at hvalid
      by_cases hstart : s.graphStart io.toControl = true
      · rw [if_pos hstart] at hvalid
        cases hvalid
      · rw [if_neg hstart] at hvalid
        have hkept : s.outputValid = true := by
          by_contra hno
          rw [Bool.not_eq_true] at hno
          rw [hno, ite_self] at hvalid
          cases hvalid
        rcases Core.busy_of_step hbusy with hb | hb
        · exact h ⟨hkept, hb⟩
        · exact hstart hb

theorem Region.graphStart_ready {s : Region} {io : Control} (h : s.graphStart io = true) :
    (s.config.installed = true ∧ s.config.fault = false) ∧
      s.program.installed = true ∧ s.program.fault = false := by
  simp only [Region.graphStart, Region.configReady, Region.programReady, Bool.and_eq_true,
    Bool.not_eq_true'] at h
  exact ⟨h.1.2, h.2⟩

/-- A start that is not direct is the release of the provider, which is active then. -/
theorem Region.installerBusy_of_release {s : Region} {io : Control} (h : s.graphStart io = true)
    (hd : s.directStart io = false) : s.installerBusy = true := by
  simp only [Region.graphStart, hd, Bool.or_false, Bool.and_eq_true, Provider.finalResponse,
    Provider.responseFire] at h
  simp [Region.installerBusy, h.1.1.1.1.1.1]

theorem Region.busy_of_directStart {s : Region} {io : RegionInput} (h : s.directStart io.toControl = true) :
    (s.step io).core.busy = true ∧ s.installerBusy = false := by
  have hstart : s.graphStart io.toControl = true := by
    simp only [Region.directStart, Bool.and_eq_true] at h
    simp [Region.graphStart, Region.directStart, h]
  simp only [Region.directStart, Bool.and_eq_true, Bool.not_eq_true'] at h
  obtain ⟨⟨⟨⟨⟨-, hbusy⟩, hresponse⟩, hactive⟩, -⟩, -⟩ := h
  constructor
  · change (s.core.step s.wiring (s.coreInput io.toControl)).busy = true
    have hcore : (s.coreInput io.toControl).start = true := hstart
    rw [Core.step, hbusy, Bool.and_false, if_neg (by simp), if_neg (by simp), if_pos hcore]
    rfl
  · simp [Region.installerBusy, hbusy, hresponse, hactive]

/-- A core that is busy after a cycle has what it runs on installed before it; only a direct start finds the installers
idle. -/
theorem Region.ready_of_busy {s : Region} {io : RegionInput}
    (h : s.core.busy = true → s.config.installed = true ∧ s.program.installed = true)
    (hbusy : (s.step io).core.busy = true) :
    (s.config.installed = true ∧ (s.installerBusy = true ∨ s.directStart io.toControl = true)) ∧
      s.program.installed = true := by
  rcases Core.busy_of_step hbusy with hb | hstart
  · obtain ⟨hc, hp⟩ := h hb
    exact ⟨⟨hc, Or.inl (by simp [Region.installerBusy, hb])⟩, hp⟩
  · obtain ⟨⟨hc, -⟩, hp, -⟩ := Region.graphStart_ready hstart
    refine ⟨⟨hc, ?_⟩, hp⟩
    cases hd : s.directStart io.toControl with
    | true => exact Or.inr rfl
    | false => exact Or.inl (Region.installerBusy_of_release hstart hd)

theorem Steady.step {s : Region} {io : RegionInput} {cs : List InstallerInput} (h : Steady s) (hq : Quiet cs s io) :
    Steady (s.step io) := by
  refine ⟨?_, h.config.step _, authority_step io h.authority, fun hbusy => ?_⟩
  · have hs := installerStep s.program (io.program.program s.installerBusy)
    change ¬ ((s.program.step (io.program.program s.installerBusy)).installed = true ∧
      (s.program.step (io.program.program s.installerBusy)).fault = true)
    generalize s.program.step (io.program.program s.installerBusy) = t at hs
    cases hs with
    | idle => exact h.exclusive
    | clear => exact fun hboth => by cases hboth.1
    | write _ _ _ hi => exact fun hboth => by rw [hi] at hboth; cases hboth.1
    | commit _ _ _ _ hf => exact fun hboth => by rw [hf] at hboth; cases hboth.2
    | fault => exact fun hboth => by cases hboth.1
  · obtain ⟨⟨hc, hconfig⟩, hp⟩ := Region.ready_of_busy h.executing hbusy
    refine ⟨(config_stays hc (h.config.loading hc) ?_).1, (program_stays hp).mpr (hq.program hbusy)⟩
    rcases hconfig with hb | hd
    · exact Or.inl hb
    · exact Or.inr (hq.config hd)

/-- What is open in the history of a run is what the installer has open. -/
theorem Quiet.loads {s : Region} {io : RegionInput} {cs : List InstallerInput}
    (ho : io.program.write = true → s.installerBusy = false → ∀ n ∈ writesSince cs, io.program.address.toNat = n)
    (h : Loads s.program (writesSince cs)) :
    Loads (s.step io).program (writesSince (cs ++ [io.program.program s.installerBusy])) := by
  rw [writesSince_append]
  exact h.step ho

theorem Steady.asserted {s : Region} {io : RegionInput} {cs : List InstallerInput} (h : Steady s)
    (hl : Loads s.program (writesSince cs)) (hq : Quiet cs s io) : Asserted s io := by
  refine ⟨h.exclusive, fun _ => ?_, fun hw hb hi hf => ?_, h.authority, fun hb => ?_⟩
  · rintro ⟨hloading, hi⟩
    simp [programLoading, hi] at hloading
  · -- neither installed nor faulted: an installation is open, and its writes are counted
    cases hopen : writesSince cs with
    | none =>
      rcases hl.closed hopen with hin | hfault
      · rw [hi] at hin; cases hin
      · rw [hf] at hfault; cases hfault
    | some n =>
      obtain ⟨-, -, hn⟩ := hl.opened n hopen
      exact BitVec.eq_of_toNat_eq ((hq.ordered hw hb n hopen).trans hn.symm)
  · obtain ⟨hc, hp⟩ := h.executing hb
    exact ⟨hc, h.config.loading hc, hp, by simp [programLoading, hp]⟩

/-- Two cycles without a failed assertion: the first keeps the rules. -/
theorem Asserted.quiet {s : Region} {io next : RegionInput} {cs : List InstallerInput} (h : Asserted s io)
    (hl : Loads s.program (writesSince cs)) (hnext : Asserted (s.step io) next) : Quiet cs s io := by
  refine ⟨fun hw hb n hn => ?_, fun hbusy => ?_, fun hd => ?_⟩
  · obtain ⟨hi, hf, hcount⟩ := hl.opened n hn
    rw [h.ordered hw hb hi hf, hcount]
  · obtain ⟨-, hp⟩ := Region.ready_of_busy (fun hb => ⟨(h.executing hb).1, (h.executing hb).2.2.1⟩) hbusy
    exact (program_stays hp).mp (hnext.executing hbusy).2.2.1
  · rintro ⟨hc, hw, hm⟩
    obtain ⟨hbusy, hidle⟩ := Region.busy_of_directStart hd
    have hcleared : (s.step io).config.installed = false :=
      @config_cleared s.config (io.config.config s.installerBusy) hidle hc hw hm
    rw [(hnext.executing hbusy).1] at hcleared
    cases hcleared

section Runs

variable {ios : List RegionInput}

/-- The cycle after `before` keeps the rules. -/
def QuietAfter (before : List RegionInput) (io : RegionInput) : Prop :=
  Quiet (programInputs Region.reset before) (Region.reset.run before) io

/-- No assertion fires in the cycle after `before`. -/
def AssertedAfter (before : List RegionInput) (io : RegionInput) : Prop := Asserted (Region.reset.run before) io

theorem steady_run (h : EveryCycle QuietAfter ios) :
    Steady (Region.reset.run ios) ∧ Loads (Region.reset.run ios).program (writesSince (programInputs Region.reset ios)) := by
  induction ios using List.reverseRecOn with
  | nil => exact ⟨steady_reset, loads_reset⟩
  | append_singleton ios io ih =>
    obtain ⟨hsteady, hloads⟩ := ih h.head
    have hquiet : Quiet (programInputs Region.reset ios) (Region.reset.run ios) io := h.last
    rw [Region.run_append, programInputs_append]
    exact ⟨hsteady.step hquiet, Quiet.loads hquiet.ordered hloads⟩

/-- In a run whose cycles all keep the rules no assertion fires in any cycle; and where none fires, up to one cycle after
a run, all of its cycles keep the rules. -/
theorem assertions_hold (ios : List RegionInput) :
    (EveryCycle QuietAfter ios → EveryCycle AssertedAfter ios) ∧
      ∀ next, EveryCycle AssertedAfter (ios ++ [next]) → EveryCycle QuietAfter ios := by
  constructor
  · intro h
    induction ios using List.reverseRecOn with
    | nil => exact everyCycle_nil
    | append_singleton ios io ih =>
      obtain ⟨hsteady, hloads⟩ := steady_run h.head
      exact (ih h.head).snoc (hsteady.asserted hloads h.last)
  · induction ios using List.reverseRecOn with
    | nil => exact fun _ _ => everyCycle_nil
    | append_singleton ios io ih =>
      intro next h
      have hquiet := ih io h.head
      have hnext : Asserted (Region.reset.run (ios ++ [io])) next := h.last
      rw [Region.run_append] at hnext
      have hio : Asserted (Region.reset.run ios) io := h.head.last
      exact hquiet.snoc (hio.quiet (steady_run hquiet).2 hnext)

end Runs

section Examples

def noCommand (w : ℕ) : Command w := ⟨false, false, false, 0, 0⟩

/-- A cycle in which nothing is asked. -/
def restCycle : RegionInput where
  inputStageValid := false
  inputStageAddress := 0
  inputStageData := 0
  inputStageResponseReady := false
  fixtureStageStart := false
  fixtureStageSeed := 0
  start := false
  cancel := false
  outputValidationValid := false
  outputValidationAddress := 0
  outputValidationResponseReady := false
  config := noCommand 5
  program := noCommand 6

def startCycle : RegionInput := { restCycle with start := true }

def cancelCycle : RegionInput := { restCycle with cancel := true }

def clearProgramCycle : RegionInput := { restCycle with program := ⟨true, false, false, 0, 0⟩ }

/-- A write to a word of the payload. -/
def writeCycle (address : BitVec 6) : RegionInput := { restCycle with program := ⟨false, true, false, address, 0⟩ }

instance (s : Installer) (io : InstallerInput) : Decidable (Commits s io) :=
  inferInstanceAs (Decidable ((_ ∧ _ ∧ _ ∧ _) ∧ _ ∧ _))

instance (before : List RegionInput) (io : RegionInput) : Decidable (QuietAfter before io) :=
  decidable_of_iff
    ((io.program.write = true → (Region.reset.run before).installerBusy = false →
        ∀ n ∈ writesSince (programInputs Region.reset before), io.program.address.toNat = n) ∧
      (((Region.reset.run before).step io).core.busy = true →
        commands (io.program.program (Region.reset.run before).installerBusy) = false ∨
          Commits (Region.reset.run before).program (io.program.program (Region.reset.run before).installerBusy)) ∧
      ((Region.reset.run before).directStart io.toControl = true →
        ¬ (io.config.clear = true ∧ io.config.write = false ∧ io.config.commit = false)))
    ⟨fun h => ⟨h.1, h.2.1, h.2.2⟩, fun h => ⟨h.ordered, h.program, h.config⟩⟩

/-- A run that starts the factory program, cancels it, and then writes two words of another one in order. -/
theorem assertions_hold_start : EveryCycle AssertedAfter
    [startCycle, restCycle, cancelCycle, clearProgramCycle, writeCycle 0, writeCycle 1] := by
  have hstarted : EveryCycle QuietAfter ([] ++ [startCycle] ++ [restCycle] ++ [cancelCycle]) :=
    ((everyCycle_nil.snoc (by decide +kernel)).snoc (by decide +kernel)).snoc (by decide +kernel)
  exact (assertions_hold _).1
    (((hstarted.snoc (by decide +kernel)).snoc (by decide +kernel)).snoc (by decide +kernel))

/-- A write out of order while loading, and a command to the program installer of a running core. -/
theorem assertions_fire : ¬ Asserted (Region.reset.run [clearProgramCycle]) (writeCycle 1) ∧
    ¬ Asserted (Region.reset.run [startCycle, clearProgramCycle]) restCycle := by
  constructor
  · intro h
    exact absurd (h.ordered rfl rfl rfl rfl) (by decide)
  · intro h
    have hrun := (h.executing (by decide)).2.2.1
    exact absurd hrun (by decide)

end Examples

end Raveil.Device
