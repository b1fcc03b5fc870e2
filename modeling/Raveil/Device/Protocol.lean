import Raveil.Device.Holding

/-! The protocol of the shell: one transaction at a time, and each accepted write applied once, in order. -/
namespace Raveil.Device

section Applied

/-- What the wires into a region carry out in one cycle. -/
def carriedOut (z : Region) (io : RegionInput) : List Operation :=
  (if io.config.clear then [.configClear] else []) ++
  (if io.config.write then [.configWrite io.config.address io.config.data] else []) ++
  (if io.config.commit then [.configCommit] else []) ++
  (if io.program.clear then [.programClear] else []) ++
  (if io.program.write then [.programWrite io.program.address io.program.data] else []) ++
  (if io.program.commit then [.programCommit] else []) ++
  (if io.inputStageValid && z.inputStageReady then [.stage io.inputStageAddress io.inputStageData] else []) ++
  (if z.directStart io.toControl then [.start] else []) ++
  (if io.cancel then [.cancel] else [])

/-- The operations that reach the core in this cycle. -/
def Shell.applied (s : Shell) : List Operation :=
  if s.resetBarrier then [.reset] else carriedOut s.core s.coreInput

variable {s : Shell} {launch completed : Option Region} {moment : Moment}

theorem carriedOut_still {z : Region} {io : RegionInput} (h : Still io) : carriedOut z io = [] := by
  simp [carriedOut, h.config, h.program, h.stage, h.cancel, Region.directStart, h.start]

/-- Outside the three moments that reach the core nothing does. -/
theorem ShellOk.applied_calm (h : ShellOk s launch completed moment) (h1 : moment ≠ .applying)
    (h2 : moment ≠ .staging) (h3 : moment ≠ .fetching) (h4 : moment ≠ .resetting) : s.applied = [] := by
  rw [Shell.applied, h.at_moment.resetting, decide_eq_false h4]
  exact carriedOut_still (h.at_moment.still h1 h2 h3)

theorem ShellOk.applied_fetching (h : ShellOk s launch completed .fetching) : s.applied = [] := by
  have hreset : s.resetBarrier = false := h.at_moment.resetting
  have hstaging : s.inputActive = false := h.at_moment.staging
  have happlies := h.at_moment.applies (by decide)
  rw [Shell.applied, hreset, if_neg Bool.false_ne_true]
  simp [carriedOut, Shell.coreInput, happlies, hstaging, Region.directStart]

theorem ShellOk.applied_resetting (h : ShellOk s launch completed .resetting) : s.applied = [.reset] := by
  have hreset : s.resetBarrier = true := h.at_moment.resetting
  rw [Shell.applied, hreset, if_pos rfl]

/-- A staged word reaches the core in the first cycle of its staging. -/
theorem ShellOk.applied_staging (h : ShellOk s launch completed .staging) :
    s.applied = if s.inputIssued then [] else [.stage s.mutationAddress s.mutationData] := by
  have hreset : s.resetBarrier = false := h.at_moment.resetting
  have hactive : s.inputActive = true := h.at_moment.staging
  have happlies := h.at_moment.applies (by decide)
  rw [Shell.applied, hreset, if_neg Bool.false_ne_true]
  cases hi : s.inputIssued with
  | true => simp [carriedOut, Shell.coreInput, happlies, hi, Region.directStart]
  | false =>
    have hissues := (h.issues hi).1
    simp only [Shell.issuesInput, h.at_moment.device (by decide), Bool.and_eq_true] at hissues
    simp [carriedOut, Shell.coreInput, happlies, hactive, hi, Region.directStart, hissues.2]

/-- A mutation that is applied reaches the core as what it is; a start is taken. -/
theorem ShellOk.applied_applying (h : ShellOk s launch completed .applying) :
    ∃ op, s.mutationKind.operation s.mutationAddress s.mutationData = some op ∧ s.applied = [op] := by
  have hreset : s.resetBarrier = false := h.at_moment.resetting
  have happly : s.mutationApply = true := h.at_moment.applying
  have hstaging : s.inputActive = false := h.at_moment.staging
  obtain ⟨hprepared, hkind⟩ := h.holding
  have hstart : s.core.directStart s.coreInput.toControl = decide (s.mutationKind = .start) := by
    by_cases hk : s.mutationKind = .start
    · obtain ⟨hb, hconfig, hprogram, -⟩ := hprepared.start hk
      have hquiet := h.quiet hb (h.at_moment.issued (by decide)) (h.at_moment.requested (by decide))
      rw [h.direct.directStart hb hquiet hconfig hprogram]
      simp [Shell.coreInput, Shell.applies, happly, hk]
    · simp [Region.directStart, Shell.coreInput, Shell.applies, hk]
  rw [Shell.applied, hreset, if_neg Bool.false_ne_true, carriedOut, hstart]
  cases hk : s.mutationKind with
  | none => exact absurd hk hprepared.kind
  | inputStage => exact absurd hk hkind
  | _ =>
    refine ⟨_, rfl, ?_⟩
    simp [Shell.coreInput, Shell.applies, happly, hk, hstaging]

end Applied

section Journal

/-- What the writes asked for whose answer is OKAY, in order: the n-th answer is that of the n-th address and
the n-th data. -/
def grants (aw : List (BitVec 32)) (w : List (BitVec 32 × BitVec 4)) (b : List Response) : List (Option Operation) :=
  (((aw.zip w).zip b).filter fun x => x.2 = .okay).map fun x => operation x.1.1 x.1.2.1

/-- The shell with what crossed each of its channels, what reached the core, and the last run. -/
structure Journal where
  state : Shell
  aw : List (BitVec 32)
  w : List (BitVec 32 × BitVec 4)
  b : List Response
  ar : List (BitVec 32)
  r : List (BitVec 32 × Response)
  applied : List Operation
  launch : Option Region
  completed : Option Region

namespace Journal

variable (j : Journal) (io : Master)

def step : Journal where
  state := j.state.step io
  aw := if j.state.takesAw io then j.aw ++ [io.awaddr] else j.aw
  w := if j.state.takesW io then j.w ++ [(io.wdata, io.wstrb)] else j.w
  b := if j.state.givesB io then j.b ++ [j.state.savedBresp] else j.b
  ar := if j.state.takesAr io then j.ar ++ [io.araddr] else j.ar
  r := if j.state.givesR io then j.r ++ [(j.state.savedRdata, j.state.savedRresp)] else j.r
  applied := j.applied ++ j.state.applied
  launch := launchNext j.state j.launch
  completed := completedSince j.state j.launch j.completed

/-- A journal with nothing in it yet. -/
def start (aw w : BitVec 32) (strb : BitVec 4) : Journal :=
  ⟨.reset aw w strb, [], [], [], [], [], [], none, none⟩

def run (ios : List Master) : Journal := ios.foldl step j

/-- What the writes asked for that were answered OKAY, in order. -/
def granted : List (Option Operation) := grants j.aw j.w j.b

/-- The transactions in progress: writes without a response, reads without an answer, operations that have
still to reach the core. -/
def inProgress : ℕ := (max j.aw.length j.w.length - j.b.length) + (j.ar.length - j.r.length) + j.state.applied.length

end Journal

/-- The channels of a write that is open. -/
def openAw (s : Shell) (moment : Moment) : List (BitVec 32) :=
  if moment = .responding ∨ (moment = .collecting ∧ s.haveAw = true) then [s.savedAw] else []

def openW (s : Shell) (moment : Moment) : List (BitVec 32 × BitVec 4) :=
  if moment = .responding ∨ (moment = .collecting ∧ s.haveW = true) then [(s.savedW, s.savedStrb)] else []

/-- The operation of the write that is being answered. -/
structure Answering (s : Shell) : Prop where
  okay : s.savedBresp = .okay ↔ (s.pendingReset || s.pendingMutation) = true
  reset : s.pendingReset = true → operation s.savedAw s.savedW = some .reset
  mutation : s.pendingMutation = true →
    s.mutationKind.operation s.mutationAddress s.mutationData = operation s.savedAw s.savedW

theorem grants_append {aw : List (BitVec 32)} {w : List (BitVec 32 × BitVec 4)} {b : List Response}
    (ha : aw.length = b.length) (hw : w.length = b.length) (a : BitVec 32) (d : BitVec 32 × BitVec 4) (r : Response) :
    grants (aw ++ [a]) (w ++ [d]) (b ++ [r]) = grants aw w b ++ if r = .okay then [operation a d.1] else [] := by
  rw [grants, List.zip_append (by rw [ha, hw]), List.zip_append (by rw [List.length_zip, ha, hw, Nat.min_self]),
    List.filter_append, List.map_append]
  cases r <;> rfl

/-- An open channel adds nothing. -/
theorem grants_open {aw : List (BitVec 32)} {w : List (BitVec 32 × BitVec 4)} {b : List Response}
    (ha : aw.length = b.length) (hw : w.length = b.length) (as : List (BitVec 32)) (ds : List (BitVec 32 × BitVec 4)) :
    grants (aw ++ as) (w ++ ds) b = grants aw w b := by
  rw [grants, List.zip_append (by rw [ha, hw])]
  have : (List.zip aw w ++ List.zip as ds).zip b = (List.zip aw w).zip b := by
    have hlen : (List.zip aw w).length = b.length := by rw [List.length_zip, ha, hw, Nat.min_self]
    have := @List.zip_append _ _ (List.zip aw w) (List.zip as ds) b [] hlen
    rwa [List.append_nil, List.zip_nil_right, List.append_nil] at this
  rw [this]
  rfl

/-- What the journal says of the moment. -/
structure Traffic (j : Journal) (moment : Moment) : Prop where
  writes : ∃ aw w, aw.length = j.b.length ∧ w.length = j.b.length ∧ j.aw = aw ++ openAw j.state moment ∧
    j.w = w ++ openW j.state moment ∧ grants aw w j.b = (j.applied ++ j.state.applied).map some
  answering : moment = .responding → Answering j.state
  reads : j.ar.length = j.r.length + if moment = .fetching ∨ moment = .answering then 1 else 0

section Step

variable {j : Journal} {io : Master} {moment next : Moment}

theorem decode_answering (s : Shell) : Answering s.decode := by
  refine ⟨writeResponse_okay, operation_of_reset, fun h => ?_⟩
  have haccepted : s.acceptedMutation = true := h
  change (if s.acceptedMutation then s.decodedKind else s.mutationKind).operation
    (if s.acceptedMutation then (wordOf s.savedAw - 256).extractLsb 8 0 else s.mutationAddress)
    (if s.acceptedMutation then s.savedW else s.mutationData) = _
  rw [if_pos haccepted, if_pos haccepted, if_pos haccepted]
  exact operation_of_accepted haccepted

/-- Nothing of a write crosses, and nothing new reaches the core. -/
theorem Traffic.keep (h : Traffic j moment) (haw : (j.step io).aw = j.aw) (hw : (j.step io).w = j.w)
    (hb : (j.step io).b = j.b) (hopen : openAw (j.state.step io) next = openAw j.state moment)
    (hopen' : openW (j.state.step io) next = openW j.state moment) (happlied : (j.state.step io).applied = [])
    (ha : next = .responding → Answering (j.state.step io))
    (hr : (j.step io).ar.length = (j.step io).r.length + if next = .fetching ∨ next = .answering then 1 else 0) :
    Traffic (j.step io) next := by
  obtain ⟨aw, w, hla, hlw, hja, hjw, hgrants⟩ := h.writes
  refine ⟨⟨aw, w, by rw [hb]; exact hla, by rw [hb]; exact hlw, ?_, ?_, ?_⟩, ha, hr⟩
  · change _ = aw ++ openAw (j.state.step io) next
    rw [haw, hopen, hja]
  · change _ = w ++ openW (j.state.step io) next
    rw [hw, hopen', hjw]
  · change grants aw w (j.step io).b = ((j.applied ++ j.state.applied) ++ (j.state.step io).applied).map some
    rw [hb, happlied, List.append_nil, hgrants]

/-- A response is taken; what it grants reaches the core next. -/
theorem Traffic.grant (h : Traffic j .responding) (hn : next ≠ .responding) (hc : openAw (j.state.step io) next = [])
    (hc' : openW (j.state.step io) next = []) (haw : (j.step io).aw = j.aw) (hw : (j.step io).w = j.w)
    (hb : (j.step io).b = j.b ++ [j.state.savedBresp])
    (happlied : (if j.state.savedBresp = .okay then [operation j.state.savedAw j.state.savedW] else []) =
      (j.state.step io).applied.map some)
    (hr : (j.step io).ar.length = (j.step io).r.length + if next = .fetching ∨ next = .answering then 1 else 0) :
    Traffic (j.step io) next := by
  obtain ⟨aw, w, hla, hlw, hja, hjw, hgrants⟩ := h.writes
  have ha : openAw j.state .responding = [j.state.savedAw] := rfl
  have hd : openW j.state .responding = [(j.state.savedW, j.state.savedStrb)] := rfl
  refine ⟨⟨aw ++ [j.state.savedAw], w ++ [(j.state.savedW, j.state.savedStrb)], ?_, ?_, ?_, ?_, ?_⟩,
    fun hno => absurd hno hn, hr⟩
  · rw [hb, List.length_append, List.length_append, hla]
    rfl
  · rw [hb, List.length_append, List.length_append, hlw]
    rfl
  · change _ = _ ++ openAw (j.state.step io) next
    rw [haw, hc, hja, ha, List.append_nil]
  · change _ = _ ++ openW (j.state.step io) next
    rw [hw, hc', hjw, hd, List.append_nil]
  · change grants _ _ (j.step io).b = ((j.applied ++ j.state.applied) ++ (j.state.step io).applied).map some
    rw [hb, grants_append hla hlw, hgrants, happlied, ← List.map_append]

/-- What crosses each channel in a turn. -/
structure Crossing (s : Shell) (io : Master) (takesAw takesW takesAr givesB givesR : Bool) : Prop where
  aw : s.takesAw io = takesAw
  w : s.takesW io = takesW
  ar : s.takesAr io = takesAr
  b : s.givesB io = givesB
  r : s.givesR io = givesR

theorem Shell.At.crossing {s : Shell} (h : s.At moment) (hm : moment ≠ .collecting) :
    Crossing s io false false false (decide (moment = .responding) && io.bready)
      (decide (moment = .answering) && io.rready) := by
  obtain ⟨haw, hw, har⟩ := @Shell.At.takes s io moment h hm
  obtain ⟨hb, hr⟩ := @Shell.At.gives s io moment h
  exact ⟨haw, hw, har, hb, hr⟩

/-- While the shell is reading or answering, applying or staging, no channel of a write is open. -/
theorem openAw_none {s : Shell} (h1 : moment ≠ .collecting) (h2 : moment ≠ .responding) : openAw s moment = [] := by
  rw [openAw, if_neg]
  rintro (hm | ⟨hm, -⟩)
  · exact h2 hm
  · exact h1 hm

theorem openW_none {s : Shell} (h1 : moment ≠ .collecting) (h2 : moment ≠ .responding) : openW s moment = [] := by
  rw [openW, if_neg]
  rintro (hm | ⟨hm, -⟩)
  · exact h2 hm
  · exact h1 hm

theorem open_free {s : Shell} (ha : s.haveAw = false) (hw : s.haveW = false) :
    openAw s .collecting = [] ∧ openW s .collecting = [] := by
  constructor
  · simp [openAw, ha]
  · simp [openW, hw]

/-- The channels of a write are taken one by one. -/
theorem Traffic.collect (h : Traffic j .collecting) (hok : ShellOk j.state j.launch j.completed .collecting)
    (heq : j.state.step io = j.state.collect io) (hr : j.state.takesAr io = false)
    (happlied : (j.state.step io).applied = []) : Traffic (j.step io) .collecting := by
  obtain ⟨aw, w, hla, hlw, hja, hjw, hgrants⟩ := h.writes
  obtain ⟨hgb, hgr⟩ := @Shell.At.gives j.state io _ hok.at_moment
  have hb : (j.step io).b = j.b := if_neg (by rw [hgb]; exact Bool.false_ne_true)
  have hrs : (j.step io).r = j.r := if_neg (by rw [hgr]; exact Bool.false_ne_true)
  have har : (j.step io).ar = j.ar := if_neg (by rw [hr]; exact Bool.false_ne_true)
  have htaw : j.state.takesAw io = (io.awvalid && !j.state.haveAw) := by
    rw [Shell.takesAw, hok.at_moment.awready]
    rfl
  have htw : j.state.takesW io = (io.wvalid && !j.state.haveW) := by
    rw [Shell.takesW, hok.at_moment.wready]
    rfl
  refine ⟨⟨aw, w, by rw [hb]; exact hla, by rw [hb]; exact hlw, ?_, ?_, ?_⟩, fun hno => (by cases hno), ?_⟩
  · change (if j.state.takesAw io then j.aw ++ [io.awaddr] else j.aw) = aw ++ openAw (j.state.step io) .collecting
    rw [heq, htaw, hja]
    cases ha : j.state.haveAw <;> cases hv : io.awvalid <;> simp [openAw, Shell.collect, ha, hv]
  · change (if j.state.takesW io then j.w ++ [(io.wdata, io.wstrb)] else j.w) = w ++ openW (j.state.step io) .collecting
    rw [heq, htw, hjw]
    cases ha : j.state.haveW <;> cases hv : io.wvalid <;> simp [openW, Shell.collect, ha, hv]
  · change grants aw w (j.step io).b = ((j.applied ++ j.state.applied) ++ (j.state.step io).applied).map some
    rw [hb, happlied, List.append_nil, hgrants]
  · rw [har, hrs]
    exact h.reads

/-- A turn in which no channel of a write is open, before or after. -/
theorem Traffic.pass (h : Traffic j moment) (hok : ShellOk j.state j.launch j.completed moment)
    (hat : (j.state.step io).At next) (h1 : moment ≠ .collecting) (h2 : moment ≠ .responding) (h3 : next ≠ .responding)
    (hfree : (j.state.step io).haveAw = false ∧ (j.state.step io).haveW = false)
    (happlied : (j.state.step io).applied = [])
    (hr : (moment = .fetching ∨ moment = .answering ↔ next = .fetching ∨ next = .answering) ∧
        (moment = .answering → io.rready = false) ∨
      moment = .answering ∧ next = .collecting ∧ io.rready = true) : Traffic (j.step io) next := by
  obtain ⟨haw, hw, har, hb, hgr⟩ := @Shell.At.crossing io moment j.state hok.at_moment h1
  rw [decide_eq_false h2, Bool.false_and] at hb
  have hopen : openAw (j.state.step io) next = [] ∧ openW (j.state.step io) next = [] := by
    by_cases hn : next = .collecting
    · rw [hn]
      exact open_free hfree.1 hfree.2
    · exact ⟨openAw_none hn h3, openW_none hn h3⟩
  refine h.keep (if_neg (by rw [haw]; exact Bool.false_ne_true)) (if_neg (by rw [hw]; exact Bool.false_ne_true))
    (if_neg (by rw [hb]; exact Bool.false_ne_true)) ?_ ?_ happlied (fun hno => absurd hno h3) ?_
  · rw [hopen.1, openAw_none h1 h2]
  · rw [hopen.2, openW_none h1 h2]
  · have hreads := h.reads
    have hars : (j.step io).ar = j.ar := if_neg (by rw [har]; exact Bool.false_ne_true)
    rw [hars]
    change _ = (if j.state.givesR io then j.r ++ _ else j.r).length + _
    rcases hr with ⟨hsame, hhold⟩ | ⟨rfl, rfl, hready⟩
    · have hno : j.state.givesR io = false := by
        rw [hgr]
        by_cases ha : moment = .answering
        · rw [hhold ha, Bool.and_false]
        · rw [decide_eq_false ha, Bool.false_and]
      rw [hno, if_neg Bool.false_ne_true, hreads]
      simp only [hsame]
    · have hyes : j.state.givesR io = true := by rw [hgr, hready]; rfl
      rw [hyes, if_pos rfl, List.length_append, hreads]
      rfl

/-- A response is taken, or it waits. -/
theorem Traffic.respond (h : Traffic j .responding) (hok : ShellOk j.state j.launch j.completed .responding)
    (ht : j.state.Turn io .responding next (j.state.step io))
    (hok' : ShellOk (j.state.step io) (launchNext j.state j.launch)
      (completedSince j.state j.launch j.completed) next) : Traffic (j.step io) next := by
  obtain ⟨haw, hw, har, hb, hgr⟩ := @Shell.At.crossing io _ j.state hok.at_moment (by decide)
  have haws : (j.step io).aw = j.aw := if_neg (by rw [haw]; exact Bool.false_ne_true)
  have hws : (j.step io).w = j.w := if_neg (by rw [hw]; exact Bool.false_ne_true)
  have hreads : (j.step io).ar.length = (j.step io).r.length := by
    have hars : (j.step io).ar = j.ar := if_neg (by rw [har]; exact Bool.false_ne_true)
    have hrs : (j.step io).r = j.r := if_neg (by rw [hgr]; exact Bool.false_ne_true)
    rw [hars, hrs]
    exact h.reads
  have hgiven : io.bready = true → (j.step io).b = j.b ++ [j.state.savedBresp] := fun hready =>
    if_pos (by rw [hb, hready]; rfl)
  have hanswering := h.answering rfl
  obtain ⟨ha, hd⟩ := hok.at_moment.collected (by decide)
  generalize heq : j.state.step io = t at ht
  cases ht with
  | holdB hready =>
    refine h.keep haws hws (if_neg (by rw [hb, hready]; exact Bool.false_ne_true)) ?_ ?_
      (hok'.applied_calm (by decide) (by decide) (by decide) (by decide)) (fun _ => ?_) hreads
    · rw [heq]
      rfl
    · rw [heq]
      rfl
    · rw [heq]
      exact ⟨hanswering.okay, hanswering.reset, hanswering.mutation⟩
  | refuse hready hpr hpm =>
    obtain ⟨hopen, hopen'⟩ := @open_free { j.state.drift with haveB := false } ha hd
    refine h.grant (by decide) (by rw [heq]; exact hopen) (by rw [heq]; exact hopen') haws hws (hgiven hready) ?_ hreads
    have hrefused : j.state.savedBresp ≠ .okay := by
      rw [Ne, hanswering.okay, hpr, hpm]
      exact Bool.false_ne_true
    rw [if_neg hrefused, hok'.applied_calm (by decide) (by decide) (by decide) (by decide)]
    rfl
  | reset hready hpr hpm =>
    refine h.grant (by decide) (openAw_none (by decide) (by decide)) (openW_none (by decide) (by decide)) haws hws
      (hgiven hready) ?_ hreads
    rw [if_pos (hanswering.okay.mpr (by rw [hpr]; rfl)), hanswering.reset hpr, hok'.applied_resetting]
    rfl
  | stage hready hpr hpm hk =>
    refine h.grant (by decide) (openAw_none (by decide) (by decide)) (openW_none (by decide) (by decide)) haws hws
      (hgiven hready) ?_ hreads
    rw [if_pos (hanswering.okay.mpr (by rw [hpm, Bool.or_true])), ← hanswering.mutation hpm, hok'.applied_staging, heq, hk]
    rfl
  | release hready hpr hpm hk =>
    refine h.grant (by decide) (openAw_none (by decide) (by decide)) (openW_none (by decide) (by decide)) haws hws
      (hgiven hready) ?_ hreads
    obtain ⟨op, hop, happlied⟩ := hok'.applied_applying
    rw [heq] at hop
    rw [if_pos (hanswering.okay.mpr (by rw [hpm, Bool.or_true])), ← hanswering.mutation hpm, happlied]
    change j.state.mutationKind.operation j.state.mutationAddress j.state.mutationData = some op at hop
    rw [hop]
    rfl

/-- A read is taken while nothing is open. -/
theorem Traffic.read (h : Traffic j .collecting) (hok : ShellOk j.state j.launch j.completed .collecting)
    (hat : (j.state.step io).At next) (hn : next = .fetching ∨ next = .answering) (hr : j.state.takesAr io = true)
    (happlied : (j.state.step io).applied = []) : Traffic (j.step io) next := by
  have hfree := hr
  simp only [Shell.takesAr, Shell.arready, hok.at_moment.busy, Bool.and_eq_true, Bool.not_eq_true',
    Bool.or_eq_false_iff] at hfree
  obtain ⟨-, ⟨⟨⟨-, ha⟩, hw⟩, hav⟩, hwv⟩ := hfree
  obtain ⟨hgb, hgr⟩ := @Shell.At.gives j.state io _ hok.at_moment
  have htaw : j.state.takesAw io = false := by rw [Shell.takesAw, hav]; rfl
  have htw : j.state.takesW io = false := by rw [Shell.takesW, hwv]; rfl
  have hopen := @open_free j.state ha hw
  have h1 : next ≠ .collecting := by rcases hn with rfl | rfl <;> decide
  have h2 : next ≠ .responding := by rcases hn with rfl | rfl <;> decide
  refine h.keep (if_neg (by rw [htaw]; exact Bool.false_ne_true)) (if_neg (by rw [htw]; exact Bool.false_ne_true))
    (if_neg (by rw [hgb]; exact Bool.false_ne_true)) ?_ ?_ happlied (fun hno => absurd hno h2) ?_
  · rw [openAw_none h1 h2, hopen.1]
  · rw [openW_none h1 h2, hopen.2]
  · have hars : (j.step io).ar = j.ar ++ [io.araddr] := if_pos hr
    have hrs : (j.step io).r = j.r := if_neg (by rw [hgr]; exact Bool.false_ne_true)
    rw [hars, hrs, List.length_append, h.reads, if_pos hn]
    rfl

/-- What one cycle does to what the journal says. -/
theorem Traffic.step (h : Traffic j moment) (hok : ShellOk j.state j.launch j.completed moment)
    (ht : j.state.Turn io moment next (j.state.step io))
    (hok' : ShellOk (j.state.step io) (launchNext j.state j.launch)
      (completedSince j.state j.launch j.completed) next) : Traffic (j.step io) next := by
  have hcalm := fun h1 h2 h3 h4 => hok'.applied_calm h1 h2 h3 h4
  have hat := hok'.at_moment
  have hpass := fun h1 h2 h3 hfree happlied hr => h.pass hok hat h1 h2 h3 hfree happlied hr
  generalize heq : j.state.step io = t at ht
  cases ht with
  | collect hd hr => exact h.collect hok heq hr (hcalm (by decide) (by decide) (by decide) (by decide))
  | decode ha hw =>
    have hread : j.state.takesAr io = false := by simp [Shell.takesAr, Shell.arready, Shell.busy, ha]
    obtain ⟨hgb, hgr⟩ := @Shell.At.gives j.state io _ hok.at_moment
    have htaw : j.state.takesAw io = false := by simp [Shell.takesAw, hok.at_moment.awready, ha]
    have htw : j.state.takesW io = false := by simp [Shell.takesW, hok.at_moment.wready, hw]
    refine h.keep (if_neg (by rw [htaw]; exact Bool.false_ne_true)) (if_neg (by rw [htw]; exact Bool.false_ne_true))
      (if_neg (by rw [hgb]; exact Bool.false_ne_true)) ?_ ?_
      (hcalm (by decide) (by decide) (by decide) (by decide)) (fun _ => ?_) ?_
    · rw [heq]
      simp [openAw, ha, Shell.decode, Shell.drift]
    · rw [heq]
      simp [openW, hw, Shell.decode, Shell.drift]
    · rw [heq]
      exact decode_answering j.state
    · change (if _ then _ else _ : List _).length = (if _ then _ else _ : List _).length + _
      rw [hread, hgr]
      exact h.reads
  | holdB hb => exact h.respond hok (heq ▸ .holdB hb) hok'
  | refuse hb hr hm => exact h.respond hok (heq ▸ .refuse hb hr hm) hok'
  | reset hb hr hm => exact h.respond hok (heq ▸ .reset hb hr hm) hok'
  | stage hb hr hm hk => exact h.respond hok (heq ▸ .stage hb hr hm hk) hok'
  | release hb hr hm hk => exact h.respond hok (heq ▸ .release hb hr hm hk) hok'
  | answer ha hw hr ho => exact h.read hok hat (Or.inr rfl) hr (hcalm (by decide) (by decide) (by decide) (by decide))
  | fetch ha hw hr ho => exact h.read hok hat (Or.inl rfl) hr hok'.applied_fetching
  | apply =>
    exact hpass (by decide) (by decide) (by decide) (by rw [heq]; exact hok.at_moment.collected (by decide))
      (hcalm (by decide) (by decide) (by decide) (by decide)) (Or.inl ⟨by decide, fun hno => (by cases hno)⟩)
  | clear =>
    exact hpass (by decide) (by decide) (by decide) (by rw [heq]; exact hok.at_moment.collected (by decide))
      (hcalm (by decide) (by decide) (by decide) (by decide)) (Or.inl ⟨by decide, fun hno => (by cases hno)⟩)
  | holdInput hi hc =>
    cases hissued : j.state.inputIssued with
    | false => rw [(hok.issues hissued).1] at hi; cases hi
    | true => rw [(hok.closes hissued).1] at hc; cases hc
  | issueInput hi =>
    exact hpass (by decide) (by decide) (by decide) (hat.collected (by decide))
      (by rw [hok'.applied_staging, heq]; rfl) (Or.inl ⟨by decide, fun hno => (by cases hno)⟩)
  | closeInput hc =>
    exact hpass (by decide) (by decide) (by decide) (by rw [heq]; exact hok.at_moment.collected (by decide))
      (hcalm (by decide) (by decide) (by decide) (by decide)) (Or.inl ⟨by decide, fun hno => (by cases hno)⟩)
  | holdOutput =>
    exact hpass (by decide) (by decide) (by decide) (hat.collected (by decide)) hok'.applied_fetching
      (Or.inl ⟨by decide, fun hno => (by cases hno)⟩)
  | issueOutput =>
    exact hpass (by decide) (by decide) (by decide) (hat.collected (by decide)) hok'.applied_fetching
      (Or.inl ⟨by decide, fun hno => (by cases hno)⟩)
  | closeOutput =>
    exact hpass (by decide) (by decide) (by decide) (hat.collected (by decide))
      (hcalm (by decide) (by decide) (by decide) (by decide)) (Or.inl ⟨by decide, fun hno => (by cases hno)⟩)
  | holdR hr =>
    exact hpass (by decide) (by decide) (by decide) (hat.collected (by decide))
      (hcalm (by decide) (by decide) (by decide) (by decide)) (Or.inl ⟨by decide, fun _ => hr⟩)
  | give hr =>
    exact hpass (by decide) (by decide) (by decide) (by rw [heq]; exact hok.at_moment.collected (by decide))
      (hcalm (by decide) (by decide) (by decide) (by decide)) (Or.inr ⟨rfl, rfl, hr⟩)

end Step

section Runs

/-- What holds of the journal after any cycles. -/
def JournalOk (j : Journal) : Prop := ∃ moment, ShellOk j.state j.launch j.completed moment ∧ Traffic j moment

theorem Journal.run_append (j : Journal) (ios : List Master) (io : Master) :
    j.run (ios ++ [io]) = (j.run ios).step io := by
  rw [Journal.run, List.foldl_append]
  rfl

theorem JournalOk.step {j : Journal} (h : JournalOk j) (io : Master) : JournalOk (j.step io) := by
  obtain ⟨moment, hok, htraffic⟩ := h
  obtain ⟨next, ht, hok'⟩ := hok.step io
  exact ⟨next, hok', htraffic.step hok ht hok'⟩

theorem journalOk_run (aw w : BitVec 32) (strb : BitVec 4) (ios : List Master) :
    JournalOk ((Journal.start aw w strb).run ios) := by
  induction ios using List.reverseRecOn with
  | nil => exact ⟨_, shellOk_reset aw w strb, ⟨[], [], rfl, rfl, rfl, rfl, rfl⟩, fun h => (by cases h), rfl⟩
  | append_singleton ios io ih =>
    rw [Journal.run_append]
    exact ih.step io

variable {j : Journal}

theorem Traffic.lengths {moment : Moment} (h : Traffic j moment) :
    j.aw.length = j.b.length + (openAw j.state moment).length ∧
      j.w.length = j.b.length + (openW j.state moment).length := by
  obtain ⟨aw, w, hla, hlw, hja, hjw, -⟩ := h.writes
  rw [hja, hjw, List.length_append, List.length_append, hla, hlw]
  exact ⟨rfl, rfl⟩

theorem openAw_le (s : Shell) (moment : Moment) : (openAw s moment).length ≤ 1 := by
  unfold openAw
  split
  · exact le_refl 1
  · exact Nat.zero_le 1

theorem openW_le (s : Shell) (moment : Moment) : (openW s moment).length ≤ 1 := by
  unfold openW
  split
  · exact le_refl 1
  · exact Nat.zero_le 1

/-- At most one transaction is in progress. -/
theorem JournalOk.inProgress_le (h : JournalOk j) : j.inProgress ≤ 1 := by
  obtain ⟨moment, hok, htraffic⟩ := h
  obtain ⟨haw, hw⟩ := htraffic.lengths
  have hreads := htraffic.reads
  have hle := openAw_le j.state moment
  have hle' := openW_le j.state moment
  have hcalm := fun h1 h2 h3 h4 => hok.applied_calm h1 h2 h3 h4
  have hnone := fun h1 h2 => @openAw_none moment j.state h1 h2
  have hnone' := fun h1 h2 => @openW_none moment j.state h1 h2
  rw [Journal.inProgress]
  cases moment with
  | collecting =>
    rw [if_neg (by decide)] at hreads
    rw [hcalm (by decide) (by decide) (by decide) (by decide), List.length_nil]
    omega
  | responding =>
    rw [if_neg (by decide)] at hreads
    rw [hcalm (by decide) (by decide) (by decide) (by decide), List.length_nil]
    omega
  | applying =>
    rw [if_neg (by decide)] at hreads
    rw [hnone (by decide) (by decide), List.length_nil] at haw
    rw [hnone' (by decide) (by decide), List.length_nil] at hw
    obtain ⟨op, -, happlied⟩ := hok.applied_applying
    rw [happlied, List.length_singleton]
    omega
  | resetting =>
    rw [if_neg (by decide)] at hreads
    rw [hnone (by decide) (by decide), List.length_nil] at haw
    rw [hnone' (by decide) (by decide), List.length_nil] at hw
    rw [hok.applied_resetting, List.length_singleton]
    omega
  | staging =>
    rw [if_neg (by decide)] at hreads
    rw [hnone (by decide) (by decide), List.length_nil] at haw
    rw [hnone' (by decide) (by decide), List.length_nil] at hw
    have happlied : j.state.applied.length ≤ 1 := by
      rw [hok.applied_staging]
      split
      · exact Nat.zero_le 1
      · exact le_refl 1
    omega
  | fetching =>
    rw [if_pos (by decide)] at hreads
    rw [hnone (by decide) (by decide), List.length_nil] at haw
    rw [hnone' (by decide) (by decide), List.length_nil] at hw
    rw [hok.applied_fetching, List.length_nil]
    omega
  | answering =>
    rw [if_pos (by decide)] at hreads
    rw [hnone (by decide) (by decide), List.length_nil] at haw
    rw [hnone' (by decide) (by decide), List.length_nil] at hw
    rw [hcalm (by decide) (by decide) (by decide) (by decide), List.length_nil]
    omega

/-- The operations that the answers grant are those that reached the core, and the one that is about to. -/
theorem JournalOk.granted_eq (h : JournalOk j) : j.granted = (j.applied ++ j.state.applied).map some := by
  obtain ⟨moment, -, htraffic⟩ := h
  obtain ⟨aw, w, hla, hlw, hja, hjw, hgrants⟩ := htraffic.writes
  rw [Journal.granted, hja, hjw, grants_open hla hlw]
  exact hgrants

/-- A channel is taken only when no operation has still to reach the core. -/
theorem JournalOk.takes (h : JournalOk j) (io : Master)
    (ht : (j.state.takesAw io || j.state.takesW io || j.state.takesAr io) = true) : j.state.applied = [] := by
  obtain ⟨moment, hok, -⟩ := h
  by_cases hm : moment = .collecting
  · rw [hm] at hok
    exact hok.applied_calm (by decide) (by decide) (by decide) (by decide)
  · obtain ⟨h1, h2, h3⟩ := @Shell.At.takes j.state io moment hok.at_moment hm
    rw [h1, h2, h3] at ht
    cases ht

/-- A response waits for the master as it is. -/
theorem JournalOk.stable (h : JournalOk j) (io : Master) :
    (j.state.haveB = true → io.bready = false →
      (j.state.step io).haveB = true ∧ (j.state.step io).savedBresp = j.state.savedBresp) ∧
    (j.state.haveR = true → io.rready = false → (j.state.step io).haveR = true ∧
      (j.state.step io).savedRdata = j.state.savedRdata ∧ (j.state.step io).savedRresp = j.state.savedRresp) := by
  obtain ⟨moment, hok, -⟩ := h
  obtain ⟨next, ht, -⟩ := hok.step io
  constructor
  · intro hb hready
    have hm : moment = .responding := by
      rw [hok.at_moment.haveB, decide_eq_true_iff] at hb
      exact hb
    subst hm
    generalize j.state.step io = t at ht
    cases ht with
    | holdB => exact ⟨hb, rfl⟩
    | refuse h1 => rw [hready] at h1; cases h1
    | reset h1 => rw [hready] at h1; cases h1
    | stage h1 => rw [hready] at h1; cases h1
    | release h1 => rw [hready] at h1; cases h1
  · intro hr hready
    have hm : moment = .answering := by
      rw [hok.at_moment.haveR, decide_eq_true_iff] at hr
      exact hr
    subst hm
    generalize j.state.step io = t at ht
    cases ht with
    | holdR => exact ⟨hr, rfl, rfl⟩
    | give h1 => rw [hready] at h1; cases h1

end Runs

end Journal

section Refused

/-- The installers, the staging and the execution: everything but the channels and the transport fault. -/
structure Effects where
  core : Region
  stagedWords : BitVec 10
  pendingReset : Bool
  resetBarrier : Bool
  pendingMutation : Bool
  mutationApply : Bool
  mutationBarrier : Bool
  mutationKind : Mutation
  mutationAddress : BitVec 9
  mutationData : BitVec 32
  inputActive : Bool
  inputIssued : Bool
  outputActive : Bool
  outputIssued : Bool
  completedSticky : Bool
  cancelledSticky : Bool
  outputSuppressed : Bool

def Shell.effects (s : Shell) : Effects where
  core := s.core
  stagedWords := s.stagedWords
  pendingReset := s.pendingReset
  resetBarrier := s.resetBarrier
  pendingMutation := s.pendingMutation
  mutationApply := s.mutationApply
  mutationBarrier := s.mutationBarrier
  mutationKind := s.mutationKind
  mutationAddress := s.mutationAddress
  mutationData := s.mutationData
  inputActive := s.inputActive
  inputIssued := s.inputIssued
  outputActive := s.outputActive
  outputIssued := s.outputIssued
  completedSticky := s.completedSticky
  cancelledSticky := s.cancelledSticky
  outputSuppressed := s.outputSuppressed

/-- One cycle in which the core is left alone. -/
def Effects.alone (e : Effects) : Effects :=
  { e with
    core := e.core.step restCycle
    completedSticky := if e.core.done then true else e.completedSticky
    cancelledSticky := if e.core.cancelled then true else e.cancelledSticky }

/-- A cycle of a write that is not answered OKAY: from the first of its channels to its response. -/
def Shell.Refusing (s : Shell) (io : Master) : Prop :=
  ((s.haveAw || s.haveW || s.takesAw io || s.takesW io) = true ∧ (s.decodes = true → s.writeResponse ≠ .okay)) ∨
    (s.haveB = true ∧ s.savedBresp ≠ .okay)

variable {j : Journal} {io : Master}

/-- A write that is not answered OKAY leaves the core alone. -/
theorem JournalOk.refused (h : JournalOk j) (hr : j.state.Refusing io) :
    (j.state.step io).effects = j.state.effects.alone := by
  obtain ⟨moment, hok, htraffic⟩ := h
  obtain ⟨next, ht, -⟩ := hok.step io
  have hdrift : ∀ (h1 : moment ≠ .applying) (h2 : moment ≠ .staging) (h3 : moment ≠ .fetching),
      j.state.core.step j.state.coreInput = j.state.core.step restCycle := fun h1 h2 h3 =>
    (hok.at_moment.still h1 h2 h3).step j.state.core
  rcases hr with ⟨hopen, hdecodes⟩ | ⟨hb, hresponse⟩
  · have hm : moment = .collecting := by
      by_contra hm
      obtain ⟨haw, hw, -⟩ := @Shell.At.takes j.state io moment hok.at_moment hm
      obtain ⟨ha, hd⟩ := hok.at_moment.collected hm
      rw [haw, hw, ha, hd] at hopen
      cases hopen
    subst hm
    have hcore := hdrift (by decide) (by decide) (by decide)
    have hread : j.state.takesAr io = false := by
      by_contra hno
      rw [Bool.not_eq_false] at hno
      simp only [Shell.takesAr, Shell.arready, hok.at_moment.busy, Bool.and_eq_true, Bool.not_eq_true',
        Bool.or_eq_false_iff] at hno
      obtain ⟨-, ⟨⟨⟨-, ha⟩, hw⟩, hav⟩, hwv⟩ := hno
      simp [ha, hw, Shell.takesAw, Shell.takesW, hav, hwv] at hopen
    generalize j.state.step io = t at ht
    cases ht with
    | collect =>
      change Effects.mk (j.state.core.step j.state.coreInput) _ _ _ _ _ _ _ _ _ _ _ _ _ _ _ _ = _
      rw [hcore]
      rfl
    | decode ha hw =>
      have hrefused : j.state.writeResponse ≠ .okay := hdecodes (by
        simp [Shell.decodes, ha, hw, hok.at_moment.haveB, hok.at_moment.resetting])
      rw [Ne, writeResponse_okay, Bool.or_eq_true, not_or, Bool.not_eq_true, Bool.not_eq_true] at hrefused
      obtain ⟨hpr, hpm⟩ := hok.at_moment.pending (by decide)
      simp [Shell.effects, Effects.alone, Shell.decode, Shell.drift, hcore, hrefused, hpr, hpm]
    | answer _ _ hno => rw [hread] at hno; cases hno
    | fetch _ _ hno => rw [hread] at hno; cases hno
  · have hm : moment = .responding := by
      rw [hok.at_moment.haveB, decide_eq_true_iff] at hb
      exact hb
    subst hm
    have hcore := hdrift (by decide) (by decide) (by decide)
    have hanswering := htraffic.answering rfl
    rw [Ne, hanswering.okay, Bool.or_eq_true, not_or, Bool.not_eq_true, Bool.not_eq_true] at hresponse
    generalize j.state.step io = t at ht
    cases ht with
    | holdB =>
      change Effects.mk (j.state.core.step j.state.coreInput) _ _ _ _ _ _ _ _ _ _ _ _ _ _ _ _ = _
      rw [hcore]
      rfl
    | refuse =>
      change Effects.mk (j.state.core.step j.state.coreInput) _ _ _ _ _ _ _ _ _ _ _ _ _ _ _ _ = _
      rw [hcore]
      rfl
    | reset _ hno => rw [hresponse.1] at hno; cases hno
    | stage _ _ hno => rw [hresponse.2] at hno; cases hno
    | release _ _ hno => rw [hresponse.2] at hno; cases hno

end Refused

/-- Whatever the master does, at every moment: at most one transaction is in progress; responses are stable until
they are accepted; a response follows its write, and an answer its read; what was granted is what reached the core
and at most one operation that is about to, which is applied before another channel is taken; and a write that is
not answered OKAY leaves everything but the transport fault alone. -/
theorem axi_protocol (aw w : BitVec 32) (strb : BitVec 4) (ios : List Master) :
    let j := (Journal.start aw w strb).run ios
    j.inProgress ≤ 1 ∧
    (∀ io, j.state.haveB = true → io.bready = false →
      (j.state.step io).haveB = true ∧ (j.state.step io).savedBresp = j.state.savedBresp) ∧
    (∀ io, j.state.haveR = true → io.rready = false → (j.state.step io).haveR = true ∧
      (j.state.step io).savedRdata = j.state.savedRdata ∧ (j.state.step io).savedRresp = j.state.savedRresp) ∧
    (j.b.length ≤ j.aw.length ∧ j.b.length ≤ j.w.length) ∧
    (j.r.length ≤ j.ar.length ∧ j.ar.length ≤ j.r.length + 1) ∧
    j.granted = (j.applied ++ j.state.applied).map some ∧
    (∀ io, (j.state.takesAw io || j.state.takesW io || j.state.takesAr io) = true → j.state.applied = []) ∧
    (∀ io, j.state.Refusing io → (j.state.step io).effects = j.state.effects.alone) := by
  intro j
  have h : JournalOk j := journalOk_run aw w strb ios
  refine ⟨h.inProgress_le, fun io => (h.stable io).1, fun io => (h.stable io).2, ?_, ?_, h.granted_eq, h.takes,
    fun io => h.refused⟩
  · obtain ⟨moment, -, htraffic⟩ := h
    obtain ⟨haw, hw⟩ := htraffic.lengths
    omega
  · obtain ⟨moment, -, htraffic⟩ := h
    have hreads := htraffic.reads
    split at hreads <;> omega

end Raveil.Device
