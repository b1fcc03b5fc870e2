import Raveil.Device.Session

/-! What the shell vouches for when it answers the read of an output word. -/
namespace Raveil.Device
open Raveil.Lib Raveil.Graph

section Staged

/-- The words that were staged since the last start or reset, each with its place, in order. -/
def stagings (ops : List Operation) : List (ℕ × BitVec 32) :=
  ops.foldl (fun words op =>
    match op with
    | .stage address data => words ++ [(address.toNat, data)]
    | .start => []
    | .reset => []
    | _ => words) []

theorem stagings_append (ops : List Operation) (op : Operation) : stagings (ops ++ [op]) =
    match op with
    | .stage address data => stagings ops ++ [(address.toNat, data)]
    | .start => []
    | .reset => []
    | _ => stagings ops := by
  rw [stagings, List.foldl_append]
  rfl

/-- How many words the scratchpad has taken. -/
def Shell.taken (s : Shell) : ℕ := s.stagedWords.toNat + if s.inputIssued then 1 else 0

/-- The first words of the input. -/
def Region.firstWords (s : Region) (n : ℕ) : List (ℕ × BitVec 32) :=
  (List.range n).map fun i => (i, s.scratchpad.storage (BitVec.ofNat 10 i))

theorem Region.firstWords_congr {s t : Region} (h : t.scratchpad.storage = s.scratchpad.storage) (n : ℕ) :
    t.firstWords n = s.firstWords n := by
  rw [Region.firstWords, h]
  rfl

variable {j : Journal} {io : Master} {moment next : Moment}

/-- A cycle in which no operation touches the staged words. -/
theorem staged_keep (hok : ShellOk j.state j.launch j.completed moment)
    (h : stagings j.applied = j.state.core.firstWords j.state.taken) {t : Shell}
    (hops : stagings (j.applied ++ j.state.applied) = stagings j.applied) (htaken : t.taken = j.state.taken)
    (hissued : j.state.core.core.busy = true → j.state.inputIssued = false)
    (hstorage : j.state.core.core.busy = false → t.core.scratchpad.storage = j.state.core.scratchpad.storage) :
    stagings (j.applied ++ j.state.applied) = t.core.firstWords t.taken := by
  rw [hops, h, htaken]
  cases hb : j.state.core.core.busy with
  | false => exact (Region.firstWords_congr (hstorage hb) _).symm
  | true =>
    -- a run starts with nothing staged, and nothing is staged while it lasts
    have hnone : j.state.taken = 0 := by
      rw [Shell.taken, hok.words hb, hissued hb]
      rfl
    rw [hnone]
    rfl

end Staged

section Launched

/-- What is known of the last start: the state of the core then, and what has reached the core before and since. -/
structure Launched (s : Shell) (ops : List Operation) (z : Region) : Prop where
  region : RegionOk z
  ready : z.configReady = true ∧ z.programReady = true
  history : ∃ before since, ops = before ++ .start :: since ∧ (∀ op ∈ since, op ≠ .start ∧ op ≠ .reset) ∧
    stagings before = z.firstWords 324 ∧ (s.outputSuppressed = false → .cancel ∉ since) ∧
    (s.core.outputValid = true ∨ s.core.core.busy = true → ∀ a d, .stage a d ∉ since)

variable {s t : Shell} {launch completed : Option Region} {moment next : Moment} {ops : List Operation} {z : Region}

theorem Launched.more (h : Launched s ops z) (ops' : List Operation)
    (hbarrier : ∀ op ∈ ops', op ≠ .start ∧ op ≠ .reset)
    (hs : t.outputSuppressed = false → s.outputSuppressed = false ∧ .cancel ∉ ops')
    (hv : t.core.outputValid = true ∨ t.core.core.busy = true →
      (s.core.outputValid = true ∨ s.core.core.busy = true) ∧ ∀ a d, .stage a d ∉ ops') :
    Launched t (ops ++ ops') z := by
  obtain ⟨before, since, rfl, hsince, hstaged, hcancel, hstage⟩ := h.history
  refine ⟨h.region, h.ready, before, since ++ ops', by simp, fun op hop => ?_, hstaged, fun hno hmem => ?_,
    fun hyes a d hmem => ?_⟩
  · rcases List.mem_append.mp hop with hop | hop
    · exact hsince op hop
    · exact hbarrier op hop
  · rcases List.mem_append.mp hmem with hmem | hmem
    · exact hcancel (hs hno).1 hmem
    · exact (hs hno).2 hmem
  · rcases List.mem_append.mp hmem with hmem | hmem
    · exact hstage (hv hyes).1 a d hmem
    · exact (hv hyes).2 a d hmem

theorem Launched.same (h : Launched s ops z) (hs : t.outputSuppressed = s.outputSuppressed)
    (hv : t.core.outputValid = true ∨ t.core.core.busy = true →
      s.core.outputValid = true ∨ s.core.core.busy = true) : Launched t ops z := by
  have := @Launched.more s t ops z h [] (fun op hop => by cases hop) (fun hno => ⟨by rw [← hs]; exact hno, by simp⟩)
    (fun hyes => ⟨hv hyes, by simp⟩)
  rwa [List.append_nil] at this

/-- Without a start and a staged word nothing comes under authority but the run that is on. -/
theorem authority_keep (hstart : s.core.graphStart s.coreInput.toControl = false)
    (hstage : s.coreInput.inputStageValid = false) :
    (s.core.step s.coreInput).outputValid = true ∨ (s.core.step s.coreInput).core.busy = true →
      s.core.outputValid = true ∨ s.core.core.busy = true := by
  intro hyes
  cases hb : s.core.core.busy with
  | true => exact Or.inr rfl
  | false =>
    left
    obtain ⟨hcore, -⟩ := @Region.idle_core s.core s.coreInput hb hstart
    rcases hyes with hyes | hyes
    · rwa [Region.idle_outputValid hb hstart hstage] at hyes
    · rw [hcore, hb] at hyes
      cases hyes

/-- A run that has completed is the last one that was started. -/
theorem completedSince_launch (h : ∀ z, completed = some z → launch = some z) {z : Region}
    (hz : completedSince s launch completed = some z) : launchNext s launch = some z := by
  unfold completedSince at hz
  split at hz
  · cases hz
  · next hreset =>
    split at hz
    · cases hz
    · next hstart =>
      rw [Bool.not_eq_true] at hreset hstart
      rw [launchNext_keep hreset hstart]
      unfold completedNext at hz
      split at hz
      · exact hz
      · exact h z hz

end Launched

section Authority

/-- What the shell has to show for its answers. -/
structure Authority (j : Journal) (moment : Moment) : Prop where
  staged : stagings j.applied = j.state.core.firstWords j.state.taken
  launched : ∀ z, j.launch = some z → Launched j.state j.applied z
  completed : ∀ z, j.completed = some z → j.launch = some z
  fetching : moment = .fetching → ∃ a, j.ar.getLast? = some a ∧
    j.state.outputAddress = (wordOf a - 1024).extractLsb 7 0
  answering : moment = .answering → ∃ a, j.ar.getLast? = some a ∧ (aligned a = true → Shell.outputWord a = true →
    j.state.savedRresp = .okay → j.state.core.core.busy = false ∧ j.state.core.outputValid = true ∧
      j.state.outputSuppressed = false ∧
      j.state.savedRdata = j.state.core.readout ((wordOf a - 1024).extractLsb 7 0))

variable {j : Journal} {io : Master} {moment next : Moment}

/-- An output word is not answered from the registers. -/
theorem readResponse_output {s : Shell} {a : BitVec 32} (ho : Shell.outputWord a = true) : s.readResponse a ≠ .okay := by
  simp only [Shell.outputWord, Bool.and_eq_true, decide_eq_true_eq] at ho
  obtain ⟨⟨hexec, hl⟩, hu⟩ := ho
  have hconfig : configuration a = false := by
    rw [← Bool.not_eq_true, configuration_iff]
    rw [execution_iff] at hexec
    omega
  have hprogram : programming a = false := by
    rw [← Bool.not_eq_true, programming_iff]
    rw [execution_iff] at hexec
    omega
  have hne : ∀ w : BitVec 11, w < 1024 → wordOf a ≠ w := by
    rintro w hw rfl
    rw [BitVec.lt_def] at hw
    rw [ge_iff_le, BitVec.le_def] at hl
    omega
  have hreadable : s.readable a = false := by
    simp [Shell.readable, Shell.digestWord, Shell.checksumWord, hconfig, hprogram, hne 0#11 (by decide), hne 1#11 (by decide),
      hne 5#11 (by decide), hne 6#11 (by decide), hne 7#11 (by decide), hne 40#11 (by decide), hne 41#11 (by decide)]
  rw [Shell.readResponse, hreadable]
  split <;> simp

/-- What the shell has to show about the operations, apart from its answers. -/
structure Backed (j : Journal) : Prop where
  staged : stagings j.applied = j.state.core.firstWords j.state.taken
  launched : ∀ z, j.launch = some z → Launched j.state j.applied z
  completed : ∀ z, j.completed = some z → j.launch = some z

theorem Authority.backed (h : Authority j moment) : Backed j := ⟨h.staged, h.launched, h.completed⟩

/-- No start and no reset reaches the core. -/
theorem Backed.keep (h : Backed j) (hreset : j.state.resetBarrier = false)
    (hstart : j.state.core.graphStart j.state.coreInput.toControl = false)
    (hstaged : stagings (j.applied ++ j.state.applied) = (j.state.step io).core.firstWords (j.state.step io).taken)
    (hlaunched : ∀ z, Launched j.state j.applied z → Launched (j.state.step io) (j.applied ++ j.state.applied) z) :
    Backed (j.step io) := by
  refine ⟨hstaged, fun z hz => ?_, fun z hz => completedSince_launch h.completed hz⟩
  change launchNext j.state j.launch = some z at hz
  rw [launchNext_keep hreset hstart] at hz
  exact hlaunched z (h.launched z hz)

/-- Nothing reaches the core, and it may only come to its end. -/
theorem Backed.calm (h : Backed j) (hok : ShellOk j.state j.launch j.completed moment)
    (hm : moment = .collecting ∨ moment = .responding ∨ moment = .answering)
    (hcore : (j.state.step io).core = j.state.core.step j.state.coreInput)
    (hwords : (j.state.step io).stagedWords = j.state.stagedWords) (hissued : (j.state.step io).inputIssued = false)
    (hsuppressed : (j.state.step io).outputSuppressed = j.state.outputSuppressed) : Backed (j.step io) := by
  have h1 : moment ≠ .applying := by rcases hm with rfl | rfl | rfl <;> decide
  have h2 : moment ≠ .staging := by rcases hm with rfl | rfl | rfl <;> decide
  have h3 : moment ≠ .fetching := by rcases hm with rfl | rfl | rfl <;> decide
  have h4 : moment ≠ .resetting := by rcases hm with rfl | rfl | rfl <;> decide
  have hc := hok.calm h1 h2 h3
  have hidle := hok.at_moment.issued h2
  have hstage : j.state.coreInput.inputStageValid = false := (hok.at_moment.still h1 h2 h3).stage
  have happlied := hok.applied_calm h1 h2 h3 h4
  refine h.keep (by rw [hok.at_moment.resetting, decide_eq_false h4]) (hok.no_start h1) ?_ fun z hz => ?_
  · refine staged_keep hok h.staged (by rw [happlied, List.append_nil]) ?_ (fun _ => hidle) fun hb => ?_
    · rw [Shell.taken, Shell.taken, hwords, hissued, hidle]
    · rw [hcore, hc.scratchpad hb]
  · rw [happlied, List.append_nil]
    refine hz.same hsuppressed ?_
    rw [hcore]
    exact authority_keep (hok.no_start h1) hstage

/-- A staged word reaches the scratchpad, at the next place. -/
theorem Backed.stage (h : Backed j) (hok : ShellOk j.state j.launch j.completed .staging)
    (hi : j.state.inputIssued = false) (heq : j.state.step io = { j.state.drift with inputIssued := true }) :
    Backed (j.step io) := by
  obtain ⟨hb, haddress, hlt⟩ := hok.staging_idle
  obtain ⟨-, -, -, -, hstorage⟩ := hok.issues hi
  have happlied : j.state.applied = [.stage j.state.mutationAddress j.state.mutationData] := by
    rw [hok.applied_staging, hi]
    rfl
  have hcore : (j.state.step io).core = j.state.core.step j.state.coreInput := by rw [heq]; rfl
  refine h.keep hok.at_moment.resetting (hok.no_start (by decide)) ?_ fun z hz => ?_
  · have htaken : (j.state.step io).taken = j.state.stagedWords.toNat + 1 := by rw [heq]; rfl
    have hbefore : j.state.taken = j.state.stagedWords.toNat := by rw [Shell.taken, hi]; rfl
    rw [happlied, stagings_append, htaken, Region.firstWords, List.range_succ, List.map_append, h.staged, hbefore,
      hcore, hstorage]
    dsimp only
    rw [haddress]
    congr 1
    · apply List.map_congr_left
      intro i hmem
      rw [List.mem_range] at hmem
      rw [Function.update_of_ne]
      intro heq
      rw [← BitVec.toNat_inj, BitVec.toNat_ofNat, BitVec.toNat_setWidth, haddress] at heq
      omega
    · have hplace : BitVec.ofNat 10 j.state.stagedWords.toNat = j.state.mutationAddress.setWidth 10 := by
        apply BitVec.eq_of_toNat_eq
        rw [BitVec.toNat_ofNat, BitVec.toNat_setWidth, haddress]
      rw [List.map_singleton, hplace, Function.update_self]
  · refine hz.more _ (fun op hop => ?_) (fun hno => ⟨by rw [heq] at hno; exact hno, ?_⟩) fun hyes => ?_
    · rw [happlied, List.mem_singleton] at hop
      rw [hop]
      exact ⟨by simp, by simp⟩
    · rw [happlied]
      simp
    · -- the word takes the authority of the output away
      have hidle := hok.staging_core
      obtain ⟨hcompletion, hcancellation⟩ := Region.idle_signals hb j.state.coreInput.toControl
      have hvalid : (j.state.core.step j.state.coreInput).outputValid = false := by
        have hissue := (hok.issues hi).1
        simp only [Shell.issuesInput, hok.at_moment.device (by decide), Bool.and_eq_true] at hissue
        have hstage : j.state.coreInput.inputStageValid = true := by
          simp [Shell.coreInput, hissue.1.1, hi]
        change j.state.core.outputValidNext j.state.coreInput.toControl = false
        rw [Region.outputValidNext, hcompletion, hcancellation, hok.no_start (by decide), hstage, hissue.2]
        rfl
      rw [hcore, hvalid, hidle] at hyes
      rcases hyes with hyes | hyes <;> cases hyes

/-- The response of a staged word comes back. -/
theorem Backed.closeInput (h : Backed j) (hok : ShellOk j.state j.launch j.completed .staging)
    (hi : j.state.inputIssued = true) (heq : j.state.step io = j.state.closeInput) : Backed (j.step io) := by
  obtain ⟨hb, -, hlt⟩ := hok.staging_idle
  obtain ⟨-, -, -, hstorage⟩ := hok.closes hi
  have happlied : j.state.applied = [] := by
    rw [hok.applied_staging, hi]
    rfl
  have hcore : (j.state.step io).core = j.state.core.step j.state.coreInput := by rw [heq]; rfl
  refine h.keep hok.at_moment.resetting (hok.no_start (by decide)) ?_ fun z hz => ?_
  · have htaken : (j.state.step io).taken = j.state.taken := by
      have hwords : (j.state.step io).stagedWords = j.state.stagedWords + 1 := by
        rw [heq]
        exact if_neg (by rw [hok.region.error]; exact Bool.false_ne_true)
      have hissued : (j.state.step io).inputIssued = false := by rw [heq]; rfl
      rw [Shell.taken, Shell.taken, hwords, hissued, hi, BitVec.toNat_add]
      simp only [BitVec.reduceToNat, if_true, Bool.false_eq_true, if_false]
      omega
    rw [happlied, List.append_nil, h.staged, htaken, hcore]
    exact (Region.firstWords_congr hstorage _).symm
  · rw [happlied, List.append_nil]
    refine hz.same (by rw [heq]; rfl) ?_
    rw [hcore]
    exact authority_keep (hok.no_start (by decide)) (by simp [Shell.coreInput, hi])

/-- A word is read. -/
theorem Backed.fetch (h : Backed j) (hok : ShellOk j.state j.launch j.completed .fetching)
    (hcore : (j.state.step io).core = j.state.core.step j.state.coreInput)
    (hstorage : (j.state.core.step j.state.coreInput).scratchpad.storage = j.state.core.scratchpad.storage)
    (htaken : (j.state.step io).taken = j.state.taken)
    (hsuppressed : (j.state.step io).outputSuppressed = j.state.outputSuppressed) : Backed (j.step io) := by
  have hstaging : j.state.inputActive = false := hok.at_moment.staging
  refine h.keep hok.at_moment.resetting (hok.no_start (by decide)) ?_ fun z hz => ?_
  · rw [hok.applied_fetching, List.append_nil, h.staged, htaken, hcore]
    exact (Region.firstWords_congr hstorage _).symm
  · rw [hok.applied_fetching, List.append_nil]
    refine hz.same hsuppressed ?_
    rw [hcore]
    exact authority_keep (hok.no_start (by decide)) (by simp [Shell.coreInput, hstaging])

/-- The core is reset. -/
theorem Backed.clear (hok : ShellOk j.state j.launch j.completed .resetting)
    (heq : j.state.step io = j.state.clear) : Backed (j.step io) := by
  have hreset : j.state.resetBarrier = true := hok.at_moment.resetting
  have hlaunch : (j.step io).launch = none := by
    change launchNext j.state j.launch = none
    rw [launchNext, hreset, if_pos rfl]
  have hcompleted : (j.step io).completed = none := by
    change completedSince j.state j.launch j.completed = none
    rw [completedSince, hreset, if_pos rfl]
  refine ⟨?_, fun z hz => (by rw [hlaunch] at hz; cases hz), fun z hz => (by rw [hcompleted] at hz; cases hz)⟩
  change stagings (j.applied ++ j.state.applied) = (j.state.step io).core.firstWords (j.state.step io).taken
  rw [hok.applied_resetting, stagings_append, heq]
  rfl

/-- A start that is applied is taken, on what was staged. -/
theorem Backed.start (h : Backed j) (hok : ShellOk j.state j.launch j.completed .applying)
    (heq : j.state.step io = j.state.apply) (hk : j.state.mutationKind = .start) : Backed (j.step io) := by
  obtain ⟨hb, hconfig, hprogram, hwords⟩ := hok.holding.1.start hk
  obtain ⟨op, hop, happlied⟩ := hok.applied_applying
  rw [hk] at hop
  obtain rfl := Option.some.inj hop
  have hissued := hok.at_moment.issued (by decide)
  have hquiet := hok.quiet hb hissued (hok.at_moment.requested (by decide))
  have happly : j.state.mutationApply = true := hok.at_moment.applying
  have hasked : j.state.coreInput.start = true := by simp [Shell.coreInput, Shell.applies, happly, hk]
  have hstart : j.state.core.graphStart j.state.coreInput.toControl = true := by
    rw [hok.direct.graphStart, hok.direct.directStart hb hquiet hconfig hprogram]
    exact hasked
  have hreset : j.state.resetBarrier = false := hok.at_moment.resetting
  have hlaunch : (j.step io).launch = some j.state.core := by
    change launchNext j.state j.launch = _
    rw [launchNext, hreset, if_neg Bool.false_ne_true, startedNext, hstart]
    rfl
  refine ⟨?_, fun z hz => ?_, fun z hz => completedSince_launch h.completed hz⟩
  · change stagings (j.applied ++ j.state.applied) = (j.state.step io).core.firstWords (j.state.step io).taken
    have hnone : (j.state.step io).taken = 0 := by
      have hzero : (j.state.step io).stagedWords = 0 := by
        rw [heq]
        exact if_pos hk
      have hstill : (j.state.step io).inputIssued = false := by rw [heq]; exact hissued
      rw [Shell.taken, hzero, hstill]
      rfl
    rw [happlied, stagings_append, hnone]
    rfl
  · rw [hlaunch] at hz
    obtain rfl := Option.some.inj hz
    refine ⟨hok.region, ⟨hconfig, hprogram⟩, j.applied, [], ?_, fun op hop => (by cases hop), ?_, fun _ => (by simp),
      fun _ => (by simp)⟩
    · change j.applied ++ j.state.applied = _
      rw [happlied]
    · rw [h.staged, Shell.taken, hwords, hissued]
      rfl

/-- Another mutation leaves the staged words and the last start as they are. -/
theorem Backed.apply (h : Backed j) (hok : ShellOk j.state j.launch j.completed .applying)
    (heq : j.state.step io = j.state.apply) (hk : j.state.mutationKind ≠ .start) : Backed (j.step io) := by
  obtain ⟨op, hop, happlied⟩ := hok.applied_applying
  obtain ⟨hprepared, hkind⟩ := hok.holding
  have hissued := hok.at_moment.issued (by decide)
  have hrequested := hok.at_moment.requested (by decide)
  have hno : j.state.coreInput.start = false := by simp [Shell.coreInput, Shell.applies, hk]
  have hstart := @Direct.graphStart_of_no_start j.state.core hok.direct j.state.coreInput.toControl hno
  have hstage : j.state.coreInput.inputStageValid = false := by simp [Shell.coreInput, hok.at_moment.staging]
  have hvalidation : j.state.coreInput.outputValidationValid = false := by simp [Shell.coreInput, hok.at_moment.fetching]
  have hcore : (j.state.step io).core = j.state.core.step j.state.coreInput := by rw [heq]; rfl
  have hplain : op ≠ .start ∧ op ≠ .reset ∧ (∀ a d, op ≠ .stage a d) ∧
      (op = .cancel → j.state.mutationKind = .cancel) := by
    cases hmutation : j.state.mutationKind with
    | none => exact absurd hmutation hprepared.kind
    | inputStage => exact absurd hmutation hkind
    | start => exact absurd hmutation hk
    | _ =>
      rw [hmutation] at hop
      obtain rfl := Option.some.inj hop
      simp
  refine h.keep hok.at_moment.resetting hstart ?_ fun z hz => ?_
  · refine staged_keep hok h.staged ?_ ?_ (fun _ => hissued) fun hb => ?_
    · rw [happlied, stagings_append]
      cases op with
      | start => exact absurd rfl hplain.1
      | reset => exact absurd rfl hplain.2.1
      | stage a d => exact absurd rfl (hplain.2.2.1 a d)
      | _ => rfl
    · have hwords : (j.state.step io).stagedWords = j.state.stagedWords := by
        rw [heq]
        exact if_neg hk
      have hstill : (j.state.step io).inputIssued = j.state.inputIssued := by rw [heq]; rfl
      rw [Shell.taken, Shell.taken, hwords, hstill]
    · rw [hcore, hok.direct.idle_scratchpad hb (hok.quiet hb hissued hrequested) hstage hvalidation]
  · rw [happlied]
    refine hz.more [op] (fun x hx => ?_) (fun hsuppressed => ?_) fun hyes => ?_
    · rw [List.mem_singleton] at hx
      rw [hx]
      exact ⟨hplain.1, hplain.2.1⟩
    · have hnext : (j.state.step io).outputSuppressed =
          if j.state.mutationKind = .cancel then true else j.state.outputSuppressed := by
        rw [heq]
        change (if _ then _ else if _ then _ else _) = _
        rw [if_neg hk]
      rw [hnext] at hsuppressed
      by_cases hc : j.state.mutationKind = .cancel
      · rw [if_pos hc] at hsuppressed
        cases hsuppressed
      · rw [if_neg hc] at hsuppressed
        refine ⟨hsuppressed, fun hmem => ?_⟩
        rw [List.mem_singleton] at hmem
        exact hc (hplain.2.2.2 hmem.symm)
    · rw [hcore] at hyes
      refine ⟨authority_keep hstart hstage hyes, fun a d hmem => ?_⟩
      rw [List.mem_singleton] at hmem
      exact hplain.2.2.1 a d hmem.symm

/-- What one cycle does to what the shell has to show. -/
theorem Authority.step (h : Authority j moment) (hok : ShellOk j.state j.launch j.completed moment)
    (ht : j.state.Turn io moment next (j.state.step io)) : Authority (j.step io) next := by
  have hb := h.backed
  have hpack : ∀ {next}, Backed (j.step io) → next ≠ .fetching → next ≠ .answering → Authority (j.step io) next :=
    fun hb h1 h2 => ⟨hb.staged, hb.launched, hb.completed, fun hno => absurd hno h1, fun hno => absurd hno h2⟩
  have hars : j.state.takesAr io = false → (j.step io).ar = j.ar := fun hno =>
    if_neg (by rw [hno]; exact Bool.false_ne_true)
  have hnone : moment ≠ .collecting → (j.step io).ar = j.ar := fun hm =>
    hars (@Shell.At.takes j.state io moment hok.at_moment hm).2.2
  generalize heq : j.state.step io = t at ht
  cases ht with
  | collect =>
    exact hpack (hb.calm hok (Or.inl rfl) (by rw [heq]; rfl) (by rw [heq]; rfl)
      (by rw [heq]; exact hok.at_moment.issued (by decide)) (by rw [heq]; rfl)) (by decide) (by decide)
  | decode =>
    exact hpack (hb.calm hok (Or.inl rfl) (by rw [heq]; rfl) (by rw [heq]; rfl)
      (by rw [heq]; exact hok.at_moment.issued (by decide)) (by rw [heq]; rfl)) (by decide) (by decide)
  | answer ha hw hr ho =>
    have hback := @Backed.calm j io _ hb hok (Or.inl rfl) (by rw [heq]; rfl) (by rw [heq]; rfl)
      (by rw [heq]; exact hok.at_moment.issued (by decide)) (by rw [heq]; rfl)
    refine ⟨hback.staged, hback.launched, hback.completed, fun hno => (by cases hno), fun _ => ⟨io.araddr, ?_, ?_⟩⟩
    · have hlist : (j.step io).ar = j.ar ++ [io.araddr] := if_pos hr
      rw [hlist, List.getLast?_append, List.getLast?_singleton]
      rfl
    · intro _ hout hokay
      have hresponse : (j.state.step io).savedRresp = j.state.readResponse io.araddr := by rw [heq]; rfl
      change (j.state.step io).savedRresp = .okay at hokay
      rw [hresponse] at hokay
      exact absurd hokay (readResponse_output hout)
  | fetch ha hw hr ho =>
    have hback := @Backed.calm j io _ hb hok (Or.inl rfl) (by rw [heq]; rfl) (by rw [heq]; rfl)
      (by rw [heq]; exact hok.at_moment.issued (by decide)) (by rw [heq]; rfl)
    refine ⟨hback.staged, hback.launched, hback.completed, fun _ => ⟨io.araddr, ?_, ?_⟩, fun hno => (by cases hno)⟩
    · have hlist : (j.step io).ar = j.ar ++ [io.araddr] := if_pos hr
      rw [hlist, List.getLast?_append, List.getLast?_singleton]
      rfl
    · change (j.state.step io).outputAddress = _
      rw [heq]
      rfl
  | holdB =>
    exact hpack (hb.calm hok (Or.inr (Or.inl rfl)) (by rw [heq]; rfl) (by rw [heq]; rfl)
      (by rw [heq]; exact hok.at_moment.issued (by decide)) (by rw [heq]; rfl)) (by decide) (by decide)
  | refuse =>
    exact hpack (hb.calm hok (Or.inr (Or.inl rfl)) (by rw [heq]; rfl) (by rw [heq]; rfl)
      (by rw [heq]; exact hok.at_moment.issued (by decide)) (by rw [heq]; rfl)) (by decide) (by decide)
  | reset =>
    exact hpack (hb.calm hok (Or.inr (Or.inl rfl)) (by rw [heq]; rfl) (by rw [heq]; rfl)
      (by rw [heq]; exact hok.at_moment.issued (by decide)) (by rw [heq]; rfl)) (by decide) (by decide)
  | stage =>
    exact hpack (hb.calm hok (Or.inr (Or.inl rfl)) (by rw [heq]; rfl) (by rw [heq]; rfl) (by rw [heq])
      (by rw [heq]; rfl)) (by decide) (by decide)
  | release =>
    exact hpack (hb.calm hok (Or.inr (Or.inl rfl)) (by rw [heq]; rfl) (by rw [heq]; rfl)
      (by rw [heq]; exact hok.at_moment.issued (by decide)) (by rw [heq]; rfl)) (by decide) (by decide)
  | apply =>
    by_cases hk : j.state.mutationKind = .start
    · exact hpack (hb.start hok heq hk) (by decide) (by decide)
    · exact hpack (hb.apply hok heq hk) (by decide) (by decide)
  | clear => exact hpack (Backed.clear hok heq) (by decide) (by decide)
  | holdInput hi hc =>
    cases hissued : j.state.inputIssued with
    | false => rw [(hok.issues hissued).1] at hi; cases hi
    | true => rw [(hok.closes hissued).1] at hc; cases hc
  | issueInput hi =>
    cases hissued : j.state.inputIssued with
    | true => rw [(hok.closes hissued).2.1] at hi; cases hi
    | false => exact hpack (hb.stage hok hissued heq) (by decide) (by decide)
  | closeInput hc =>
    cases hissued : j.state.inputIssued with
    | false => rw [(hok.issues hissued).2.1] at hc; cases hc
    | true => exact hpack (hb.closeInput hok hissued heq) (by decide) (by decide)
  | holdOutput hi hc =>
    cases hissued : j.state.outputIssued with
    | false => rw [(hok.asks hissued).1] at hi; cases hi
    | true => rw [(hok.gets hissued).1] at hc; cases hc
  | issueOutput hi =>
    cases hissued : j.state.outputIssued with
    | true => rw [(hok.gets hissued).2.1] at hi; cases hi
    | false =>
      obtain ⟨-, -, -, -, hstorage, -⟩ := hok.asks hissued
      have hback := @Backed.fetch j io hb hok (by rw [heq]; rfl) hstorage (by rw [heq]; rfl) (by rw [heq]; rfl)
      obtain ⟨a, hlast, haddress⟩ := h.fetching rfl
      refine ⟨hback.staged, hback.launched, hback.completed, fun _ => ⟨a, ?_, ?_⟩, fun hno => (by cases hno)⟩
      · rw [hnone (by decide)]
        exact hlast
      · change (j.state.step io).outputAddress = _
        rw [heq]
        exact haddress
  | closeOutput hc =>
    cases hissued : j.state.outputIssued with
    | false => rw [(hok.asks hissued).2.1] at hc; cases hc
    | true =>
      obtain ⟨-, -, -, hstorage⟩ := hok.gets hissued
      have htaken : j.state.closeOutput.taken = j.state.taken := rfl
      have hback := @Backed.fetch j io hb hok (by rw [heq]; rfl) hstorage (by rw [heq]; rfl) (by rw [heq]; rfl)
      obtain ⟨a, hlast, haddress⟩ := h.fetching rfl
      obtain ⟨hidle, -, hsuppressed, hread⟩ := hok.holding
      obtain ⟨-, -, hdata⟩ := hread hissued
      obtain ⟨hcore, hvalid, -⟩ := hok.fetching_core
      refine ⟨hback.staged, hback.launched, hback.completed, fun hno => (by cases hno), fun _ => ⟨a, ?_, ?_⟩⟩
      · rw [hnone (by decide)]
        exact hlast
      · intro _ _ _
        change (j.state.step io).core.core.busy = false ∧ (j.state.step io).core.outputValid = true ∧
          (j.state.step io).outputSuppressed = false ∧ (j.state.step io).savedRdata = (j.state.step io).core.readout _
        rw [heq]
        refine ⟨?_, hvalid, hsuppressed, ?_⟩
        · change (j.state.core.step j.state.coreInput).core.busy = false
          rw [hcore]
          exact hidle
        · change j.state.core.scratchpad.responseReadData =
            (j.state.core.step j.state.coreInput).scratchpad.storage _
          rw [hdata, hstorage, haddress]
          rfl
  | holdR =>
    have hback := @Backed.calm j io _ hb hok (Or.inr (Or.inr rfl)) (by rw [heq]; rfl) (by rw [heq]; rfl)
      (by rw [heq]; exact hok.at_moment.issued (by decide)) (by rw [heq]; rfl)
    obtain ⟨a, hlast, hvouched⟩ := h.answering rfl
    refine ⟨hback.staged, hback.launched, hback.completed, fun hno => (by cases hno), fun _ => ⟨a, ?_, ?_⟩⟩
    · rw [hnone (by decide)]
      exact hlast
    · intro haligned hout hokay
      change (j.state.step io).savedRresp = .okay at hokay
      change (j.state.step io).core.core.busy = false ∧ (j.state.step io).core.outputValid = true ∧
        (j.state.step io).outputSuppressed = false ∧ (j.state.step io).savedRdata = (j.state.step io).core.readout _
      rw [heq] at hokay ⊢
      obtain ⟨hidle, hvalid, hsuppressed, hdata⟩ := hvouched haligned hout hokay
      have hc := hok.calm (by decide) (by decide) (by decide)
      refine ⟨?_, ?_, hsuppressed, ?_⟩
      · change (j.state.core.step j.state.coreInput).core.busy = false
        rw [hc.core hidle]
        exact hidle
      · change (j.state.core.step j.state.coreInput).outputValid = true
        rw [hc.outputValid hidle]
        exact hvalid
      · change j.state.savedRdata = (j.state.core.step j.state.coreInput).scratchpad.storage _
        rw [hc.scratchpad hidle]
        exact hdata
  | give =>
    exact hpack (hb.calm hok (Or.inr (Or.inr rfl)) (by rw [heq]; rfl) (by rw [heq]; rfl)
      (by rw [heq]; exact hok.at_moment.issued (by decide)) (by rw [heq]; rfl)) (by decide) (by decide)

end Authority

section Vouched

/-- What holds of the account after any cycles. -/
def AccountOk (c : Account) : Prop := ∃ moment, ShellOk c.journal.state c.journal.launch c.journal.completed moment ∧
  Authority c.journal moment ∧ VerdictOk c moment

theorem accountOk_run (aw w : BitVec 32) (strb : BitVec 4) (ios : List Master) :
    AccountOk ((Account.start aw w strb).run ios) := by
  induction ios using List.reverseRecOn with
  | nil =>
    refine ⟨_, shellOk_reset aw w strb, ⟨rfl, fun z hz => (by cases hz), fun z hz => (by cases hz),
      fun hno => (by cases hno), fun hno => (by cases hno)⟩, verdictOk_start aw w strb⟩
  | append_singleton ios io ih =>
    rw [Account.run_append]
    obtain ⟨moment, hok, hauthority, hverdict⟩ := ih
    obtain ⟨next, ht, hok'⟩ := hok.step io
    exact ⟨next, hok', hauthority.step hok ht, hverdict.step hok ht⟩

theorem Region.firstWords_staged (z : Region) : ((z.firstWords 324).map fun x => x.2.toNat) = z.staged ∧
    (z.firstWords 324).map Prod.fst = List.range 324 := by
  constructor
  · rw [Region.firstWords, List.map_map, Region.staged]
    rfl
  · rw [Region.firstWords, List.map_map]
    exact List.map_id _

/-- An output under authority is that of the last run that completed. -/
theorem Activity.valid {s : Region} {started completed : Option Region} (h : Activity s started completed)
    (hv : s.outputValid = true) : ∃ z, completed = some z ∧ Delivers z s := by
  cases h with
  | idle _ hout => exact hout hv
  | running _ _ _ hno => rw [hno] at hv; cases hv
  | draining hno => rw [hno] at hv; cases hv
  | stuck hno => rw [hno] at hv; cases hv

/-- A word below the size of the output is the word that the host computes. -/
theorem Delivers.fallback {z s : Region} (h : Delivers z s) (hz : RegionOk z) (sha256 : List UInt8 → Digest) {k : BitVec 8}
    (hk : k.toNat < z.wiring.shape.rows.toNat * z.wiring.shape.columns.toNat) :
    ∃ words, softwareFallback sha256 (z.image sha256) z.staged = .ok words ∧
      (s.readout k).toNat = words.getD k.toNat 0 := by
  have hlt := k.isLt
  rw [activeOutputs_eq (show z.wiring.shape = baseline ∨ z.wiring.shape = compact from hz.guarded.config.shape)] at hk
  refine ⟨_, hz.fallback sha256, ?_⟩
  rw [h.cell hk, outputWords, List.getD_eq_getElem _ _ (by rw [List.length_map, List.length_range]; exact hlt),
    List.getElem_map, List.getElem_range, if_pos hk]

/-- Whatever the master does: when the read of an output word is answered OKAY, the last start was taken on 324
words that were staged in order since the start or reset before it, with an installed program and configuration
that have no fault; its run completed; since then no cancel, no staged word, no start and no reset was granted; and
the word is the one that the host computes. And no run is reported both as completed and as cancelled. -/
theorem output_authority (sha256 : List UInt8 → Digest) (aw w : BitVec 32) (strb : BitVec 4) (ios : List Master) :
    let c := (Account.start aw w strb).run ios
    let j := c.journal
    (∀ k < 256, j.state.haveR = true → j.state.savedRresp = .okay → j.ar.getLast? = some (outputAddress k) →
      ∃ z before since, j.launch = some z ∧ j.completed = some z ∧
        j.granted = (before ++ .start :: since).map some ∧
        (∀ op ∈ since, op ≠ .start ∧ op ≠ .reset ∧ op ≠ .cancel ∧ ∀ a d, op ≠ .stage a d) ∧
        (stagings before).map Prod.fst = List.range 324 ∧
        z.configReady = true ∧ z.programReady = true ∧
        (k < z.wiring.shape.rows.toNat * z.wiring.shape.columns.toNat → ∃ words,
          softwareFallback sha256 (z.image sha256) ((stagings before).map fun x => x.2.toNat) = .ok words ∧
            j.state.savedRdata.toNat = words.getD k 0)) ∧
    ∀ d ∈ c.reports, ∀ e ∈ c.reports, ¬ (d.getLsbD 1 = true ∧ e.getLsbD 2 = true) := by
  intro c j
  obtain ⟨moment, hok, hauthority, hverdict⟩ := accountOk_run aw w strb ios
  refine ⟨fun k hk hr hokay hlast => ?_, fun d hd e he => hverdict.reports hd he⟩
  have hm : moment = .answering := by
    change c.journal.state.haveR = true at hr
    rw [hok.at_moment.haveR, decide_eq_true_iff] at hr
    exact hr
  subst hm
  obtain ⟨a, ha, hvouched⟩ := hauthority.answering rfl
  have haddress : a = outputAddress k := Option.some.inj (ha.symm.trans hlast)
  subst haddress
  obtain ⟨haligned, hword, hindex⟩ := outputAddress_word hk
  obtain ⟨-, hvalid, hsuppressed, hdata⟩ := hvouched haligned hword hokay
  obtain ⟨z, hz, hdelivers⟩ := hok.activity.valid hvalid
  have hlaunch := hauthority.completed z hz
  obtain ⟨hregion, ⟨hconfig, hprogram⟩, before, since, hops, hsince, hstaged, hcancel, hstage⟩ :=
    hauthority.launched z hlaunch
  obtain ⟨hwords, hplaces⟩ := z.firstWords_staged
  refine ⟨z, before, since, hlaunch, hz, ?_, fun op hop => ?_, ?_, hconfig, hprogram, fun hbelow => ?_⟩
  · have hgranted : j.granted = (j.applied ++ j.state.applied).map some := by
      have := journalOk_run aw w strb ios
      rw [← Account.run_journal] at this
      exact this.granted_eq
    have hnone : j.state.applied = [] := hok.applied_calm (by decide) (by decide) (by decide) (by decide)
    rw [hgranted, hnone, List.append_nil]
    exact congrArg _ hops
  · obtain ⟨h1, h2⟩ := hsince op hop
    refine ⟨h1, h2, fun heq => ?_, fun x d heq => ?_⟩
    · rw [heq] at hop
      exact hcancel hsuppressed hop
    · rw [heq] at hop
      exact hstage (Or.inl hvalid) x d hop
  · rw [hstaged]
    exact hplaces
  · rw [← hindex] at hbelow
    obtain ⟨words, hfallback, hword⟩ := hdelivers.fallback hregion sha256 hbelow
    rw [hstaged, hwords]
    refine ⟨words, hfallback, ?_⟩
    rw [hindex] at hword
    rw [← hword]
    exact congrArg BitVec.toNat hdata

/-- Word 7 after a session that stages 0, 1, 2 and so on. -/
theorem output_authority_session :
    let j := ((Account.start 0 0 0).run (sessionCycles (BitVec.ofNat 32) 7)).journal
    j.state.haveR = true ∧ j.state.savedRresp = .okay ∧
      ∃ z before since words, j.launch = some z ∧ j.completed = some z ∧
        j.granted = (before ++ .start :: since).map some ∧ (stagings before).map Prod.fst = List.range 324 ∧
        softwareFallback Sha256.digest (z.image Sha256.digest) ((stagings before).map fun x => x.2.toNat) = .ok words ∧
        j.state.savedRdata.toNat = words.getD 7 0 := by
  have hsession := session_answered 0 0 0 (BitVec.ofNat 32) (show 7 < 256 by decide)
  have hauthority := (output_authority Sha256.digest 0 0 0 (sessionCycles (BitVec.ofNat 32) 7)).1 7 (by decide)
  generalize (Account.start 0 0 0).run (sessionCycles (BitVec.ofNat 32) 7) = c at hsession hauthority ⊢
  obtain ⟨hr, hokay, har, z, hlaunch, hsize⟩ := hsession
  obtain ⟨z', before, since, hz, hcompleted, hgranted, -, hplaces, -, -, hwords⟩ := hauthority hr hokay har
  obtain rfl := Option.some.inj (hlaunch.symm.trans hz)
  obtain ⟨words, hfallback, hword⟩ := hwords (by rw [hsize]; decide)
  exact ⟨hr, hokay, z, before, since, words, hz, hcompleted, hgranted, hplaces, hfallback, hword⟩

end Vouched

end Raveil.Device
