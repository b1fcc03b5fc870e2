import Raveil.Device.Verdict

/-! A session of the master: it stages the input, starts, lets the core run and reads a word. -/
namespace Raveil.Device

variable {s : Shell} {j : Journal} {n : ℕ} {a d : BitVec 32} {launch completed : Option Region}

/-- What a turn of a known kind leaves. -/
theorem ShellOk.turn {moment next : Moment} {t : Shell} (h : ShellOk j.state j.launch j.completed moment) (io : Master)
    (ht : j.state.Turn io moment next t) (hstep : j.state.step io = t) :
    (j.step io).state = t ∧ ShellOk (j.step io).state (j.step io).launch (j.step io).completed next := by
  obtain ⟨next', -, hok⟩ := h.step io
  have hat := ht.at_next h.at_moment
  rw [← hstep] at hat
  obtain rfl := hat.unique hok.at_moment
  exact ⟨hstep, hok⟩

section Transactions

/-- A cycle in which the master only takes what is up for a write. -/
def restMaster : Master := ⟨0, false, 0, 0, false, true, 0, false, false⟩

def writeMaster (a d : BitVec 32) : Master :=
  { restMaster with awaddr := a, awvalid := true, wdata := d, wstrb := 0xf, wvalid := true }

def readMaster (a : BitVec 32) : Master := { restMaster with araddr := a, arvalid := true }

/-- The core of a master that has installed and completed nothing since the reset. -/
structure Factory (s : Region) : Prop where
  busy : s.core.busy = false
  config : s.config = .reset
  program : s.program = .reset
  outputValid : s.outputValid = false

theorem Factory.calm {t : Region} (h : Factory s.core) (hc : Calm s.core t) : Factory t where
  busy := by rw [hc.core h.busy]; exact h.busy
  config := hc.installers.1.trans h.config
  program := hc.installers.2.trans h.program
  outputValid := (hc.outputValid h.busy).trans h.outputValid

theorem Factory.staging (h : Factory s.core) (hok : ShellOk s launch completed .staging) :
    Factory (s.core.step s.coreInput) := by
  have happlies := hok.at_moment.applies (by decide)
  have hno : s.coreInput.start = false := happlies .start
  have hstart := @Direct.graphStart_of_no_start s.core hok.direct s.coreInput.toControl hno
  obtain ⟨hcompletion, hcancellation⟩ := Region.idle_signals h.busy s.coreInput.toControl
  refine ⟨hok.staging_core, ?_, ?_, ?_⟩
  · change s.core.config.step (s.coreInput.config.config s.core.installerBusy) = .reset
    rw [h.config]
    simp [Shell.coreInput, happlies, ConfigInstaller.step, ConfigInput.collides, Command.config]
  · change s.core.program.step (s.coreInput.program.program s.core.installerBusy) = .reset
    rw [step_quiet _ (by simp [commands, Command.program, Shell.coreInput, happlies])]
    exact h.program
  · change s.core.outputValidNext s.coreInput.toControl = false
    rw [Region.outputValidNext, hcompletion, hcancellation, hstart, h.outputValid]
    simp

/-- Between two transactions of a session that has staged `n` words. -/
structure Staged (j : Journal) (n : ℕ) : Prop where
  ok : ShellOk j.state j.launch j.completed .collecting
  free : j.state.haveAw = false ∧ j.state.haveW = false
  core : Factory j.state.core
  words : j.state.stagedWords.toNat = n

/-- The channels are collected in one cycle and decoded in the next. -/
theorem Staged.write (h : Staged j n) (a d : BitVec 32) :
    let t := j.state.collect (writeMaster a d)
    let u := (j.step (writeMaster a d)).step restMaster
    u.state = t.decode ∧ t.device = t.core ∧ Factory t.core ∧ ShellOk u.state u.launch u.completed .responding ∧
      Factory u.state.core := by
  intro t u
  have hnone : j.state.takesAr (writeMaster a d) = false := by simp [Shell.takesAr, writeMaster, restMaster]
  have hfree : (j.state.haveAw && j.state.haveW) = false := by rw [h.free.1]; rfl
  obtain ⟨hcollect, hok⟩ := h.ok.turn (writeMaster a d) (.collect hfree hnone) (h.ok.at_moment.step_collect hfree hnone)
  have hcore : Factory t.core := h.core.calm (h.ok.calm (by decide) (by decide) (by decide))
  have ha : (j.step (writeMaster a d)).state.haveAw = true := by rw [hcollect]; exact Bool.or_true _
  have hw : (j.step (writeMaster a d)).state.haveW = true := by rw [hcollect]; exact Bool.or_true _
  have hdevice := hok.at_moment.device (by decide)
  have hcalm := hok.calm (by decide) (by decide) (by decide)
  obtain ⟨hdecode, hok'⟩ := hok.turn restMaster (.decode ha hw) (hok.at_moment.step_decode ha hw)
  rw [hcollect] at hdecode hdevice hcalm
  have hafter : Factory u.state.core := by
    rw [hdecode]
    exact hcore.calm hcalm
  exact ⟨hdecode, hdevice, hcore, hok', hafter⟩

/-- A transaction that stages a word: the write, its acceptance, and the two cycles of the scratchpad. -/
def stageCycles (n : ℕ) (d : BitVec 32) : List Master :=
  writeMaster (BitVec.ofNat 32 (1024 + 4 * n)) d :: List.replicate 4 restMaster

theorem Staged.stage (h : Staged j n) (hn : n < 324) (d : BitVec 32) : Staged (j.run (stageCycles n d)) (n + 1) := by
  set a : BitVec 32 := BitVec.ofNat 32 (1024 + 4 * n) with ha
  have haddress : a.toNat = 1024 + 4 * n := by
    rw [ha, BitVec.toNat_ofNat, Nat.mod_eq_of_lt (by omega)]
  obtain ⟨hstate, hdevice, hbefore, hok, hcore⟩ := h.write a d
  change Staged ((((((j.step (writeMaster a d)).step restMaster).step restMaster).step restMaster).step restMaster)) _
  generalize (j.step (writeMaster a d)).step restMaster = j2 at hstate hok hcore
  have hstrb : (j.state.collect (writeMaster a d)).savedStrb = 0xf := by
    simp [Shell.collect, writeMaster, restMaster, h.free]
  have hsaved : (j.state.collect (writeMaster a d)).savedAw.toNat = 1024 + 4 * n := by
    simp [Shell.collect, writeMaster, restMaster, h.free, haddress]
  obtain ⟨haccepted, hkind⟩ := accepted_stage hsaved hn hstrb h.words (by rw [hdevice]; exact hbefore.busy)
  -- the response is accepted
  have hpending : j2.state.pendingMutation = true := by rw [hstate]; exact haccepted
  have hnoreset := (hok.at_moment.pending_mutation hpending)
  have hstages : j2.state.mutationKind = .inputStage := by
    rw [hstate]
    exact (if_pos haccepted).trans hkind
  have hwords : j2.state.stagedWords = j.state.stagedWords := by rw [hstate]; rfl
  obtain ⟨hrelease, hok3⟩ := hok.turn restMaster (.stage rfl hnoreset hpending hstages)
    ((hok.at_moment.step_release rfl hpending).trans (if_pos hstages))
  have hcore3 : Factory (j2.step restMaster).state.core := by
    rw [hrelease]
    exact hcore.calm (hok.calm (by decide) (by decide) (by decide))
  have hwords3 : (j2.step restMaster).state.stagedWords = j.state.stagedWords := by rw [hrelease]; exact hwords
  have hissued3 : (j2.step restMaster).state.inputIssued = false := by rw [hrelease]
  generalize j2.step restMaster = j3 at hok3 hcore3 hwords3 hissued3
  -- the scratchpad takes the word
  obtain ⟨hissues, hcloses, -⟩ := hok3.issues hissued3
  obtain ⟨hissue, hok4⟩ := hok3.turn restMaster (.issueInput hissues)
    (hok3.at_moment.step_staged.2 hissues hcloses)
  have hcore4 : Factory (j3.step restMaster).state.core := by
    rw [hissue]
    exact hcore3.staging hok3
  have hwords4 : (j3.step restMaster).state.stagedWords = j.state.stagedWords := by rw [hissue]; exact hwords3
  have hissued4 : (j3.step restMaster).state.inputIssued = true := by rw [hissue]
  generalize j3.step restMaster = j4 at hok4 hcore4 hwords4 hissued4
  -- and gives its response
  obtain ⟨hcloses4, -⟩ := hok4.closes hissued4
  obtain ⟨hclose, hok5⟩ := hok4.turn restMaster (.closeInput hcloses4) (hok4.at_moment.step_staged.1 hcloses4)
  refine ⟨hok5, ?_, ?_, ?_⟩
  · rw [hclose]
    exact hok4.at_moment.collected (by decide)
  · rw [hclose]
    exact hcore4.staging hok4
  · rw [hclose]
    change BitVec.toNat (if j4.state.core.scratchpad.responseError then _ else j4.state.stagedWords + 1) = n + 1
    rw [hok4.region.error, if_neg Bool.false_ne_true, hwords4, BitVec.toNat_add, h.words]
    simp only [BitVec.reduceToNat]
    omega

/-- All the words of the input, in order. -/
def stageAll (words : ℕ → BitVec 32) (n : ℕ) : List Master :=
  (List.range n).flatMap fun i => stageCycles i (words i)

theorem Staged.all (h : Staged j 0) (words : ℕ → BitVec 32) (hn : n ≤ 324) : Staged (j.run (stageAll words n)) n := by
  induction n with
  | zero => exact h
  | succ n ih =>
    rw [stageAll, List.range_succ, List.flatMap_append, List.flatMap_singleton, Journal.run, List.foldl_append]
    exact (ih (by omega)).stage (by omega) (words n)

/-- The start: the write, its acceptance, and the cycle in which it reaches the core. -/
def startCycles : List Master := writeMaster 0x10 1 :: List.replicate 3 restMaster

theorem Staged.start (h : Staged j 324) : ∃ j' : Journal, j.run startCycles = j'.step restMaster ∧
    ShellOk j'.state j'.launch j'.completed .applying ∧ Factory j'.state.core ∧ j'.state.mutationKind = .start := by
  obtain ⟨hstate, hdevice, hbefore, hok, hcore⟩ := h.write 0x10 1
  refine ⟨((j.step (writeMaster 0x10 1)).step restMaster).step restMaster, rfl, ?_⟩
  generalize (j.step (writeMaster 0x10 1)).step restMaster = j2 at hstate hok hcore
  have hsaved : (j.state.collect (writeMaster 0x10 1)).savedAw = 0x10 ∧
      (j.state.collect (writeMaster 0x10 1)).savedW = 1 ∧ (j.state.collect (writeMaster 0x10 1)).savedStrb = 0xf := by
    simp [Shell.collect, writeMaster, restMaster, h.free]
  have hwords : (j.state.collect (writeMaster 0x10 1)).stagedWords = 324 := BitVec.eq_of_toNat_eq h.words
  obtain ⟨haccepted, hkind⟩ := accepted_start hsaved.1 hsaved.2.1 hsaved.2.2 hwords
    (by rw [hdevice]; exact hbefore.busy) (by rw [hdevice]; exact hbefore.config) (by rw [hdevice]; exact hbefore.program)
  have hpending : j2.state.pendingMutation = true := by rw [hstate]; exact haccepted
  have hstarts : j2.state.mutationKind = .start := by
    rw [hstate]
    exact (if_pos haccepted).trans hkind
  have hno : j2.state.mutationKind ≠ .inputStage := by rw [hstarts]; decide
  obtain ⟨hrelease, hok3⟩ := hok.turn restMaster (.release rfl (hok.at_moment.pending_mutation hpending) hpending hno)
    ((hok.at_moment.step_release rfl hpending).trans (if_neg hno))
  refine ⟨hok3, ?_, ?_⟩
  · rw [hrelease]
    exact hcore.calm (hok.calm (by decide) (by decide) (by decide))
  · rw [hrelease]
    exact hstarts

/-- Between two transactions of a session, with the run that began at `z`. -/
structure Launching (j : Journal) (z : Region) : Prop where
  ok : ShellOk j.state j.launch j.completed .collecting
  free : j.state.haveAw = false ∧ j.state.haveW = false
  launch : j.launch = some z
  suppressed : j.state.outputSuppressed = false

theorem Launching.rest {z : Region} (h : Launching j z) :
    Launching (j.step restMaster) z ∧ (j.step restMaster).state.core = j.state.core.step restCycle := by
  have hnone : j.state.takesAr restMaster = false := by simp [Shell.takesAr, restMaster]
  have hfree : (j.state.haveAw && j.state.haveW) = false := by rw [h.free.1]; rfl
  obtain ⟨hcollect, hok⟩ := h.ok.turn restMaster (.collect hfree hnone) (h.ok.at_moment.step_collect hfree hnone)
  have hcore : (j.step restMaster).state.core = j.state.core.step j.state.coreInput := by rw [hcollect]; rfl
  have hstill := h.ok.at_moment.still (by decide) (by decide) (by decide)
  refine ⟨⟨hok, ?_, ?_, ?_⟩, hcore.trans (hstill.step _)⟩
  · rw [hcollect]
    exact ⟨(Bool.or_false _).trans h.free.1, (Bool.or_false _).trans h.free.2⟩
  · exact (launchNext_keep h.ok.at_moment.resetting (h.ok.no_start (by decide))).trans h.launch
  · rw [hcollect]
    exact h.suppressed

theorem Launching.rests {z : Region} (h : Launching j z) (n : ℕ) : Launching (j.run (List.replicate n restMaster)) z ∧
    (j.run (List.replicate n restMaster)).state.core = (List.replicate n restCycle).foldl Region.step j.state.core := by
  induction n generalizing j with
  | zero => exact ⟨h, rfl⟩
  | succ n ih =>
    obtain ⟨hnext, hcore⟩ := h.rest
    rw [List.replicate_succ, List.replicate_succ, List.foldl_cons, ← hcore]
    exact ih hnext

theorem foldl_chronicle_state (c : Chronicle) (ios : List RegionInput) :
    (ios.foldl Chronicle.step c).state = ios.foldl Region.step c.state := by
  induction ios generalizing c with
  | nil => rfl
  | cons io ios ih => exact ih (c.step io)

/-- Left alone after the start, the core completes its run. -/
theorem Staged.runs (h : Staged j 324) : ∃ z, Factory z ∧
    Launching ((j.run startCycles).run (List.replicate 7680 restMaster)) z ∧
    ((j.run startCycles).run (List.replicate 7680 restMaster)).state.core.outputValid = true := by
  obtain ⟨j', hrun, hok, hcore, hkind⟩ := h.start
  rw [hrun]
  refine ⟨j'.state.core, hcore, ?_⟩
  have hat := hok.at_moment
  obtain ⟨happly, hok'⟩ := hok.turn restMaster .apply hat.step_applying
  have hstart : j'.state.core.graphStart j'.state.coreInput.toControl = true := by
    have hready : j'.state.core.configReady = true ∧ j'.state.core.programReady = true := by
      rw [Region.configReady, Region.programReady, hcore.config, hcore.program]
      decide
    rw [hok.direct.graphStart, hok.direct.directStart hcore.busy
      (hok.quiet hcore.busy (hat.issued (by decide)) (hat.requested (by decide))) hready.1 hready.2]
    change j'.state.applies .start = true
    simp [Shell.applies, hat.applying, hkind]
  have hlaunching : Launching (j'.step restMaster) j'.state.core := by
    refine ⟨hok', ?_, ?_, ?_⟩
    · rw [happly]
      exact hat.collected (by decide)
    · change launchNext j'.state j'.launch = _
      rw [launchNext, hat.resetting, startedNext, hstart]
      rfl
    · rw [happly]
      simp [Shell.apply, hkind]
  obtain ⟨hlast, hlastcore⟩ := hlaunching.rests 7680
  refine ⟨hlast, ?_⟩
  have hchronicle : ChronicleOk ⟨j'.state.core, none, none⟩ := by
    refine ⟨hok.region, .idle hcore.busy fun hv => ?_, fun z hz => ?_, fun z hz => ?_⟩
    · rw [hcore.outputValid] at hv
      cases hv
    · cases hz
    · cases hz
  have hstage : j'.state.coreInput.inputStageValid = false := by simp [Shell.coreInput, hat.staging]
  have hvalidation : j'.state.coreInput.outputValidationValid = false := by simp [Shell.coreInput, hat.fetching]
  have hprovider : (j'.state.core.step j'.state.coreInput).provider.active = false := (hok.direct.step rfl).provider
  have hsteps : j'.state.core.wiring.shape.activeOutputs.toNat * j'.state.core.wiring.instructions.length * 3 ≤ 7680 := by
    rw [Region.wiring, hcore.config, hcore.program]
    decide
  have hcompletes := (completes_started hchronicle hstart hstage hvalidation hprovider hsteps).1
  rw [foldl_chronicle_state] at hcompletes
  rw [hlastcore, happly]
  exact hcompletes

theorem rest_ar (j : Journal) : (j.step restMaster).ar = j.ar := by
  have hnone : j.state.takesAr restMaster = false := by simp [Shell.takesAr, restMaster]
  change (if j.state.takesAr restMaster then j.ar ++ [restMaster.araddr] else j.ar) = j.ar
  rw [hnone]
  rfl

/-- A read of an output word: the request, and the two cycles of the scratchpad. -/
def readCycles (k : ℕ) : List Master := readMaster (outputAddress k) :: List.replicate 2 restMaster

theorem Launching.read {z : Region} (h : Launching j z) (hv : j.state.core.outputValid = true) {k : ℕ} (hk : k < 256) :
    (j.run (readCycles k)).state.haveR = true ∧ (j.run (readCycles k)).state.savedRresp = .okay ∧
      (j.run (readCycles k)).ar.getLast? = some (outputAddress k) ∧ (j.run (readCycles k)).launch = some z := by
  have hat := h.ok.at_moment
  have hdevice := hat.device (by decide)
  have hb : j.state.core.core.busy = false := by
    cases h.ok.activity with
    | idle hb => exact hb
    | running _ _ _ hno => rw [hno] at hv; cases hv
    | draining hno => rw [hno] at hv; cases hv
    | stuck hno => rw [hno] at hv; cases hv
  obtain ⟨haligned, hword, -⟩ := outputAddress_word hk
  have hreads : j.state.readsOutput (outputAddress k) = true := by
    rw [Shell.readsOutput, haligned, hword, Shell.authorizedOutput, hdevice, hv, h.suppressed, hb]
    rfl
  have htakes : j.state.takesAr (readMaster (outputAddress k)) = true := by
    simp [Shell.takesAr, Shell.arready, hat.busy, h.free, readMaster, restMaster]
  obtain ⟨hfetch, hok⟩ := h.ok.turn (readMaster (outputAddress k)) (.fetch h.free.1 h.free.2 htakes hreads)
    (hat.step_fetch h.free htakes hreads)
  have har : (j.step (readMaster (outputAddress k))).ar.getLast? = some (outputAddress k) := by
    change (if j.state.takesAr (readMaster (outputAddress k)) then _ else _ : List (BitVec 32)).getLast? = _
    rw [if_pos htakes, List.getLast?_concat]
    rfl
  have hlaunch : (j.step (readMaster (outputAddress k))).launch = some z :=
    (launchNext_keep hat.resetting (h.ok.no_start (by decide))).trans h.launch
  have hissued : (j.step (readMaster (outputAddress k))).state.outputIssued = false := by rw [hfetch]; rfl
  change let j3 := ((j.step (readMaster (outputAddress k))).step restMaster).step restMaster
    j3.state.haveR = true ∧ j3.state.savedRresp = .okay ∧ j3.ar.getLast? = some (outputAddress k) ∧ j3.launch = some z
  generalize j.step (readMaster (outputAddress k)) = j1 at hok har hlaunch hissued
  -- the scratchpad is asked
  obtain ⟨hasks, hwaits, -⟩ := hok.asks hissued
  obtain ⟨hask, hok2⟩ := hok.turn restMaster (.issueOutput hasks) (hok.at_moment.step_fetched.2 hasks hwaits)
  have hlaunch2 : (j1.step restMaster).launch = some z :=
    (launchNext_keep hok.at_moment.resetting (hok.no_start (by decide))).trans hlaunch
  have hissued2 : (j1.step restMaster).state.outputIssued = true := by rw [hask]
  rw [← rest_ar j1] at har
  generalize j1.step restMaster = j2 at hok2 har hlaunch2 hissued2
  -- and answers
  obtain ⟨hgets, -⟩ := hok2.gets hissued2
  obtain ⟨hget, -⟩ := hok2.turn restMaster (.closeOutput hgets) (hok2.at_moment.step_fetched.1 hgets)
  refine ⟨?_, ?_, ?_, ?_⟩
  · rw [hget]
    rfl
  · rw [hget]
    change (if j2.state.core.scratchpad.responseError then Response.slverr else .okay) = .okay
    rw [hok2.region.error]
    rfl
  · rw [rest_ar]
    exact har
  · exact (launchNext_keep hok2.at_moment.resetting (hok2.no_start (by decide))).trans hlaunch2

/-- A whole session: the staged words, a start, the run, and a read of word `k`. -/
def sessionCycles (words : ℕ → BitVec 32) (k : ℕ) : List Master :=
  stageAll words 324 ++ startCycles ++ List.replicate 7680 restMaster ++ readCycles k

theorem staged_start (aw w : BitVec 32) (strb : BitVec 4) : Staged (.start aw w strb) 0 :=
  ⟨shellOk_reset aw w strb, ⟨rfl, rfl⟩, ⟨rfl, rfl, rfl, rfl⟩, rfl⟩

/-- At the end of a session the word is answered OKAY, for the run that its start began. -/
theorem session_answered (aw w : BitVec 32) (strb : BitVec 4) (words : ℕ → BitVec 32) {k : ℕ} (hk : k < 256) :
    let j := ((Account.start aw w strb).run (sessionCycles words k)).journal
    j.state.haveR = true ∧ j.state.savedRresp = .okay ∧ j.ar.getLast? = some (outputAddress k) ∧
      ∃ z, j.launch = some z ∧ z.wiring.shape.rows.toNat * z.wiring.shape.columns.toNat = 256 := by
  intro j
  obtain ⟨z, hfactory, hlaunching, hvalid⟩ := ((staged_start aw w strb).all words le_rfl).runs
  obtain ⟨hr, hokay, har, hlaunch⟩ := hlaunching.read hvalid hk
  have hj : j = ((((Journal.start aw w strb).run (stageAll words 324)).run startCycles).run
      (List.replicate 7680 restMaster)).run (readCycles k) := by
    refine (Account.run_journal aw w strb _).trans ?_
    simp only [sessionCycles, Journal.run, List.foldl_append]
  rw [hj]
  refine ⟨hr, hokay, har, z, hlaunch, ?_⟩
  change z.config.shape.rows.toNat * z.config.shape.columns.toNat = 256
  rw [hfactory.config]
  decide

end Transactions

end Raveil.Device
