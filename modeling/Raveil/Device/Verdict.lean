import Raveil.Device.Protocol

/-! The status of a run: it is reported as completed or as cancelled, never as both. -/
namespace Raveil.Device

/-- The journal with the status words that were given since the last start or reset. -/
structure Account where
  journal : Journal
  reports : List (BitVec 32)

/-- The address of the status word. -/
def statusAddress : BitVec 32 := 0x0014

namespace Account

def step (c : Account) (io : Master) : Account where
  journal := c.journal.step io
  reports :=
    if .start ∈ c.journal.state.applied ∨ .reset ∈ c.journal.state.applied then []
    else if c.journal.state.givesR io = true ∧ c.journal.ar.getLast? = some statusAddress then
      c.reports ++ [c.journal.state.savedRdata]
    else c.reports

def start (aw w : BitVec 32) (strb : BitVec 4) : Account := ⟨.start aw w strb, []⟩

def run (c : Account) (ios : List Master) : Account := ios.foldl step c

theorem run_append (c : Account) (ios : List Master) (io : Master) : c.run (ios ++ [io]) = (c.run ios).step io := by
  rw [run, List.foldl_append]
  rfl

theorem run_journal (aw w : BitVec 32) (strb : BitVec 4) (ios : List Master) :
    ((start aw w strb).run ios).journal = (Journal.start aw w strb).run ios := by
  induction ios using List.reverseRecOn with
  | nil => rfl
  | append_singleton ios io ih =>
    rw [run_append, Journal.run_append, ← ih]
    rfl

end Account

section Pulses

variable {s : Region} {io : RegionInput}

/-- A pulse comes with the end of the run, and not with another. -/
theorem RegionOk.pulses (h : RegionOk s) :
    ((s.step io).core.busy = true → (s.step io).done = false ∧ (s.step io).cancelled = false) ∧
      ¬ ((s.step io).done = true ∧ (s.step io).cancelled = true) := by
  have hno : s.core.storeFailure (s.coreInput io.toControl) = false := by
    simp [Core.storeFailure, Region.coreInput, h.error]
  have hcancellation : (s.step io).cancelled = (s.core.busy && s.core.cancelling (s.coreInput io.toControl) &&
      !(s.coreInput io.toControl).pending) := by
    change s.core.cancellation (s.coreInput io.toControl) = _
    rw [Core.cancellation, hno, Bool.or_false]
  refine ⟨fun hbusy => ⟨?_, ?_⟩, ?_⟩
  · by_contra hdone
    rw [Bool.not_eq_false] at hdone
    have := Core.step_completion (show s.core.completion s.wiring (s.coreInput io.toControl) = true from hdone)
    change (s.core.step s.wiring (s.coreInput io.toControl)).busy = true at hbusy
    rw [this] at hbusy
    cases hbusy
  · by_contra hcancelled
    rw [hcancellation, Bool.not_eq_false, Bool.and_eq_true, Bool.and_eq_true] at hcancelled
    obtain ⟨⟨hb, hc⟩, hp⟩ := hcancelled
    change (s.core.step s.wiring (s.coreInput io.toControl)).busy = true at hbusy
    rw [Core.step, hb, hc, Bool.and_self, if_pos rfl, if_pos hp] at hbusy
    cases hbusy
  · rintro ⟨hdone, hcancelled⟩
    rw [hcancellation, Bool.and_eq_true, Bool.and_eq_true] at hcancelled
    have hcompletion : s.core.completion s.wiring (s.coreInput io.toControl) = true := hdone
    simp [Core.completion, hcancelled.1.2] at hcompletion

end Pulses

section Verdict

variable {s t : Shell} {io : Master} {launch completed : Option Region} {moment next : Moment}

def Shell.finished (s : Shell) : Bool := s.completedSticky || s.core.done
def Shell.aborted (s : Shell) : Bool := s.cancelledSticky || s.core.cancelled

/-- A run that is on has no verdict, and one that is over has at most one. -/
structure Verdict (s : Shell) : Prop where
  running : s.core.core.busy = true → s.finished = false ∧ s.aborted = false
  one : ¬ (s.finished = true ∧ s.aborted = true)

/-- A cycle that keeps the verdict: the core may come to its end, and its pulses are kept. -/
structure Passive (s t : Shell) : Prop where
  core : t.core = s.core.step s.coreInput
  start : s.core.graphStart s.coreInput.toControl = false
  finished : t.completedSticky = s.finished
  aborted : t.cancelledSticky = s.aborted

theorem Passive.idle (h : Passive s t) (hb : s.core.core.busy = false) :
    t.core.core.busy = false ∧ t.finished = s.finished ∧ t.aborted = s.aborted := by
  obtain ⟨hcore, hdone, hcancelled⟩ := @Region.idle_core s.core s.coreInput hb h.start
  rw [← h.core] at hcore hdone hcancelled
  refine ⟨by rw [hcore]; exact hb, ?_, ?_⟩
  · rw [Shell.finished, hdone, h.finished, Bool.or_false]
  · rw [Shell.aborted, hcancelled, h.aborted, Bool.or_false]

theorem Verdict.passive (h : Verdict s) (hp : Passive s t) (hr : RegionOk s.core) : Verdict t := by
  obtain ⟨hpulse, hone⟩ := @RegionOk.pulses s.core s.coreInput hr
  rw [← hp.core] at hpulse hone
  cases hb : s.core.core.busy with
  | false =>
    obtain ⟨hidle, hfinished, haborted⟩ := hp.idle hb
    refine ⟨fun hbusy => ?_, ?_⟩
    · rw [hidle] at hbusy
      cases hbusy
    · rw [hfinished, haborted]
      exact h.one
  | true =>
    obtain ⟨hfinished, haborted⟩ := h.running hb
    have hf : t.finished = t.core.done := by rw [Shell.finished, hp.finished, hfinished, Bool.false_or]
    have ha : t.aborted = t.core.cancelled := by rw [Shell.aborted, hp.aborted, haborted, Bool.false_or]
    rw [← hf, ← ha] at hpulse hone
    exact ⟨hpulse, hone⟩

/-- Every turn is passive but those that apply a start or a late cancel, and the reset. -/
theorem passive_turn (hok : ShellOk s launch completed moment) (hv : Verdict s) (ht : s.Turn io moment next t)
    (h1 : moment = .applying → s.mutationKind ≠ .start ∧ (s.mutationKind = .cancel → s.core.core.busy = true))
    (h2 : moment ≠ .resetting) : Passive s t := by
  have hkeep : ∀ a b : Bool, (if a then true else b) = (b || a) := by decide
  have hdrift : moment ≠ .applying → Passive s s.drift := fun hm => by
    refine ⟨rfl, hok.no_start hm, ?_, ?_⟩
    · exact hkeep _ _
    · exact hkeep _ _
  cases ht with
  | apply =>
    obtain ⟨hk, hcancel⟩ := h1 rfl
    have hno : s.coreInput.start = false := by simp [Shell.coreInput, Shell.applies, hk]
    refine ⟨rfl, hok.direct.graphStart_of_no_start hno, ?_, ?_⟩
    · change (if _ then _ else _) = _
      by_cases hc : s.mutationKind = .cancel
      · rw [if_pos (Or.inl hc), (hv.running (hcancel hc)).1]
      · rw [if_neg (by simp [hc, hk])]
        exact hkeep _ _
    · change (if _ then _ else if _ then _ else _) = _
      rw [if_neg, if_neg hk]
      · exact hkeep _ _
      · rintro ⟨hc, hb⟩
        rw [hcancel hc] at hb
        cases hb
  | clear => exact absurd rfl h2
  | _ =>
    obtain ⟨h3, h4, h5, h6⟩ := hdrift (by decide)
    exact ⟨h3, h4, h5, h6⟩

end Verdict

section Reports

variable {s t : Shell} {io : Master} {launch completed : Option Region} {moment next : Moment} {d : BitVec 32}

/-- No cancel waits for the core. -/
def NoCancel (s : Shell) : Prop := (s.pendingMutation = true ∨ s.mutationApply = true) → s.mutationKind ≠ .cancel

/-- A status word that says how the run ended is still right. -/
structure Said (s : Shell) (d : BitVec 32) : Prop where
  finished : d.getLsbD 1 = true → s.core.core.busy = false ∧ s.finished = true ∧ NoCancel s
  aborted : d.getLsbD 2 = true → s.core.core.busy = false ∧ s.aborted = true ∧ NoCancel s

/-- With the core idle no cancel gets in. -/
theorem NoCancel.turn (h : NoCancel s) (hb : s.core.core.busy = false) (hat : s.At moment)
    (ht : s.Turn io moment next t) : NoCancel t := by
  have hpending : moment ≠ .responding → s.pendingMutation = false := fun hm => (hat.pending hm).2
  have happly : moment ≠ .applying → s.mutationApply = false := fun hm => by rw [hat.applying, decide_eq_false hm]
  cases ht with
  | decode ha hw =>
    rintro (hm | hm)
    · have haccepted : s.acceptedMutation = true := hm
      have hdecoded := decoded_of_accepted haccepted
      change (if s.acceptedMutation then s.decodedKind else s.mutationKind) ≠ .cancel
      rw [if_pos haccepted]
      intro hk
      rw [hk] at hdecoded
      cases hdecoded with
      | cancel _ _ hbusy =>
        rw [hat.device (by decide), hb] at hbusy
        cases hbusy
    · have hno : s.mutationApply = true := hm
      rw [happly (by decide)] at hno
      cases hno
  | release hready hpr hpm hk => exact fun _ => h (Or.inl hpm)
  | apply =>
    rintro (hm | hm)
    · have hno : s.pendingMutation = true := hm
      rw [hpending (by decide)] at hno
      cases hno
    · cases hm
  | stage hready hpr hpm hk => exact fun _ => h (Or.inl hpm)
  | holdB => exact h
  | refuse hready hpr hpm => exact h
  | reset hready hpr hpm => exact h
  | _ => exact h

/-- What was said stays right until the next start or reset. -/
theorem Said.turn (h : Said s d) (hok : ShellOk s launch completed moment) (hv : Verdict s)
    (ht : s.Turn io moment next t) (h1 : moment = .applying → s.mutationKind ≠ .start) (h2 : moment ≠ .resetting) :
    Said t d := by
  have happly : moment = .applying → s.mutationApply = true := fun hm => by
    rw [hok.at_moment.applying, decide_eq_true hm]
  constructor
  · intro hd
    obtain ⟨hb, hfinished, hno⟩ := h.finished hd
    have hp := passive_turn hok hv ht (fun hm => ⟨h1 hm, fun hk => absurd hk (hno (Or.inr (happly hm)))⟩) h2
    obtain ⟨hidle, hsame, -⟩ := hp.idle hb
    exact ⟨hidle, hsame.trans hfinished, hno.turn hb hok.at_moment ht⟩
  · intro hd
    obtain ⟨hb, haborted, hno⟩ := h.aborted hd
    have hp := passive_turn hok hv ht (fun hm => ⟨h1 hm, fun hk => absurd hk (hno (Or.inr (happly hm)))⟩) h2
    obtain ⟨hidle, -, hsame⟩ := hp.idle hb
    exact ⟨hidle, hsame.trans haborted, hno.turn hb hok.at_moment ht⟩

/-- The status word says what is. -/
theorem said_status (hat : s.At .collecting) (hv : Verdict s) : Said s (s.readData statusAddress) := by
  have hword : wordOf statusAddress = 5 := by decide
  have hexec : execution statusAddress = true := by decide
  have hdevice := hat.device (by decide)
  have hdata : s.readData statusAddress = (BitVec.ofBool s.authorizedOutput ++ BitVec.ofBool s.executionFault ++
      BitVec.ofBool s.aborted ++ BitVec.ofBool s.finished ++ BitVec.ofBool s.core.core.busy).setWidth 32 := by
    rw [Shell.readData, hword, Shell.status, hexec, Shell.cancelledStatus, Shell.completedStatus, hdevice]
    rfl
  have hfinished : (s.readData statusAddress).getLsbD 1 = s.finished := by
    rw [hdata]
    cases s.authorizedOutput <;> cases s.executionFault <;> cases s.aborted <;> cases s.finished <;>
      cases s.core.core.busy <;> rfl
  have haborted : (s.readData statusAddress).getLsbD 2 = s.aborted := by
    rw [hdata]
    cases s.authorizedOutput <;> cases s.executionFault <;> cases s.aborted <;> cases s.finished <;>
      cases s.core.core.busy <;> rfl
  have hnone : NoCancel s := by
    rintro (hm | hm)
    · rw [(hat.pending (by decide)).2] at hm
      cases hm
    · rw [hat.applying] at hm
      cases hm
  constructor
  · intro hd
    rw [hfinished] at hd
    refine ⟨?_, hd, hnone⟩
    by_contra hb
    rw [Bool.not_eq_false] at hb
    rw [(hv.running hb).1] at hd
    cases hd
  · intro hd
    rw [haborted] at hd
    refine ⟨?_, hd, hnone⟩
    by_contra hb
    rw [Bool.not_eq_false] at hb
    rw [(hv.running hb).2] at hd
    cases hd

/-- Every turn leaves at most one verdict. -/
theorem Verdict.turn (h : Verdict s) (hok : ShellOk s launch completed moment) (ht : s.Turn io moment next t) :
    Verdict t := by
  by_cases hpassive : (moment = .applying → s.mutationKind ≠ .start ∧
      (s.mutationKind = .cancel → s.core.core.busy = true)) ∧ moment ≠ .resetting
  · exact h.passive (passive_turn hok h ht hpassive.1 hpassive.2) hok.region
  · have hm : moment = .applying ∨ moment = .resetting := by
      by_contra hno
      rw [not_or] at hno
      exact hpassive ⟨fun heq => absurd heq hno.1, hno.2⟩
    cases ht with
    | clear => exact ⟨fun hb => (by cases hb), fun hboth => (by cases hboth.1)⟩
    | apply =>
      have hidle : s.core.core.busy = false ∧ (s.mutationKind = .start ∨ s.mutationKind = .cancel) := by
        by_cases hk : s.mutationKind = .start
        · exact ⟨(hok.holding.1.start hk).1, Or.inl hk⟩
        · by_contra hno
          refine hpassive ⟨fun _ => ⟨hk, fun hc => ?_⟩, by decide⟩
          by_contra hb
          rw [Bool.not_eq_true] at hb
          exact hno ⟨hb, Or.inr hc⟩
      obtain ⟨hb, hkind⟩ := hidle
      obtain ⟨hcompletion, hcancellation⟩ := Region.idle_signals hb s.coreInput.toControl
      have hsticky : s.apply.completedSticky = false := if_pos hkind.symm
      have hfinished : s.apply.finished = false := by
        rw [Shell.finished, hsticky]
        exact hcompletion
      refine ⟨fun hbusy => ⟨hfinished, ?_⟩, fun hboth => by rw [hfinished] at hboth; cases hboth.1⟩
      rcases hkind with hk | hk
      · have hnot : s.apply.cancelledSticky = false := by
          change (if _ then _ else if _ then _ else _) = _
          rw [if_neg (by simp [hk]), if_pos hk]
        rw [Shell.aborted, hnot]
        exact hcancellation
      · -- a late cancel starts nothing
        have hno : s.coreInput.start = false := by simp [Shell.coreInput, Shell.applies, hk]
        have hcore := (@Region.idle_core s.core s.coreInput hb (hok.direct.graphStart_of_no_start hno)).1
        change (s.core.step s.coreInput).core.busy = true at hbusy
        rw [hcore, hb] at hbusy
        cases hbusy
    | _ => simp at hm

/-- What holds of the status words that were given. -/
structure VerdictOk (c : Account) (moment : Moment) : Prop where
  verdict : Verdict c.journal.state
  said : ∀ d ∈ c.reports, Said c.journal.state d
  fetching : moment = .fetching → c.journal.ar.getLast? ≠ some statusAddress
  answering : moment = .answering → c.journal.ar.getLast? = some statusAddress →
    Said c.journal.state c.journal.state.savedRdata

variable {c : Account}

/-- What reaches the core in the moment of applying is a start only when the mutation is one. -/
theorem ShellOk.start_mem (hok : ShellOk s launch completed moment) (hk : moment = .applying → s.mutationKind ≠ .start)
    (hm : moment ≠ .resetting) : ¬ (.start ∈ s.applied ∨ .reset ∈ s.applied) := by
  have hcalm := fun h1 h2 h3 => hok.applied_calm h1 h2 h3 hm
  cases moment with
  | resetting => exact absurd rfl hm
  | fetching => simp [hok.applied_fetching]
  | staging =>
    rw [hok.applied_staging]
    split <;> simp
  | applying =>
    obtain ⟨op, hop, happlied⟩ := hok.applied_applying
    rw [happlied]
    cases hmutation : s.mutationKind with
    | start => exact absurd hmutation (hk rfl)
    | none => exact absurd hmutation hok.holding.1.kind
    | inputStage => exact absurd hmutation hok.holding.2
    | _ =>
      rw [hmutation] at hop
      obtain rfl := Option.some.inj hop
      simp
  | _ => simp [hcalm]

theorem VerdictOk.step (h : VerdictOk c moment)
    (hok : ShellOk c.journal.state c.journal.launch c.journal.completed moment)
    (ht : c.journal.state.Turn io moment next (c.journal.state.step io)) : VerdictOk (c.step io) next := by
  have hverdict := h.verdict.turn hok ht
  by_cases hnew : (moment = .applying ∧ c.journal.state.mutationKind = .start) ∨ moment = .resetting
  · have hnext : next = .collecting := by
      generalize c.journal.state.step io = t at ht
      rcases hnew with ⟨rfl, -⟩ | rfl <;> cases ht <;> rfl
    have hops : .start ∈ c.journal.state.applied ∨ .reset ∈ c.journal.state.applied := by
      rcases hnew with ⟨rfl, hk⟩ | rfl
      · obtain ⟨op, hop, happlied⟩ := hok.applied_applying
        rw [hk] at hop
        obtain rfl := Option.some.inj hop
        rw [happlied]
        exact Or.inl (List.mem_singleton.mpr rfl)
      · rw [hok.applied_resetting]
        exact Or.inr (List.mem_singleton.mpr rfl)
    have hreports : (c.step io).reports = [] := if_pos hops
    subst hnext
    exact ⟨hverdict, fun d hd => (by rw [hreports] at hd; cases hd), fun hno => (by cases hno),
      fun hno => (by cases hno)⟩
  · rw [not_or, not_and] at hnew
    have hturn : ∀ d, Said c.journal.state d → Said (c.journal.state.step io) d := fun d hd =>
      hd.turn hok h.verdict ht hnew.1 hnew.2
    have hreports : (c.step io).reports = if c.journal.state.givesR io = true ∧
        c.journal.ar.getLast? = some statusAddress then c.reports ++ [c.journal.state.savedRdata] else c.reports :=
      if_neg (hok.start_mem hnew.1 hnew.2)
    have hnone : moment ≠ .collecting → (c.step io).journal.ar = c.journal.ar := fun hm =>
      if_neg (by rw [(@Shell.At.takes c.journal.state io moment hok.at_moment hm).2.2]; exact Bool.false_ne_true)
    refine ⟨hverdict, fun d hd => ?_, fun hn => ?_, fun hn hlast => ?_⟩
    · rw [hreports] at hd
      split at hd
      · next hgiven =>
        have hm : moment = .answering := by
          have hgives := hgiven.1
          rw [(@Shell.At.gives c.journal.state io moment hok.at_moment).2, Bool.and_eq_true, decide_eq_true_iff] at hgives
          exact hgives.1
        rcases List.mem_append.mp hd with hd | hd
        · exact hturn d (h.said d hd)
        · rw [List.mem_singleton.mp hd]
          exact hturn _ (h.answering hm hgiven.2)
      · exact hturn d (h.said d hd)
    · subst hn
      generalize c.journal.state.step io = t at ht
      cases ht with
      | fetch ha hw hr ho =>
        have hars : (c.step io).journal.ar = c.journal.ar ++ [io.araddr] := if_pos hr
        rw [hars, List.getLast?_append, List.getLast?_singleton]
        intro heq
        have haddress : io.araddr = statusAddress := Option.some.inj heq
        rw [haddress] at ho
        have hword : Shell.outputWord statusAddress = false := by decide
        simp [Shell.readsOutput, hword] at ho
      | holdOutput =>
        rw [hnone (by decide)]
        exact h.fetching rfl
      | issueOutput =>
        rw [hnone (by decide)]
        exact h.fetching rfl
    · subst hn
      change Said (c.journal.state.step io) (c.journal.state.step io).savedRdata
      generalize heq : c.journal.state.step io = t at ht
      rw [heq] at hturn
      cases ht with
      | answer ha hw hr ho =>
        have hars : (c.step io).journal.ar = c.journal.ar ++ [io.araddr] := if_pos hr
        rw [hars, List.getLast?_append, List.getLast?_singleton] at hlast
        have haddress : io.araddr = statusAddress := Option.some.inj hlast
        have hstatus := hturn _ (said_status hok.at_moment h.verdict)
        rw [← haddress] at hstatus
        exact hstatus
      | closeOutput =>
        rw [hnone (by decide)] at hlast
        exact absurd hlast (h.fetching rfl)
      | holdR =>
        rw [hnone (by decide)] at hlast
        exact hturn _ (h.answering rfl hlast)

theorem verdictOk_start (aw w : BitVec 32) (strb : BitVec 4) : VerdictOk (.start aw w strb) .collecting :=
  ⟨⟨fun hb => (by cases hb), fun hboth => (by cases hboth.1)⟩, fun d hd => (by cases hd), fun hno => (by cases hno),
    fun hno => (by cases hno)⟩

/-- The words that were said never name both ends. -/
theorem VerdictOk.reports (h : VerdictOk c moment) {d e : BitVec 32} (hd : d ∈ c.reports) (he : e ∈ c.reports) :
    ¬ (d.getLsbD 1 = true ∧ e.getLsbD 2 = true) := by
  rintro ⟨hfinished, haborted⟩
  exact h.verdict.one ⟨((h.said d hd).finished hfinished).2.1, ((h.said e he).aborted haborted).2.1⟩

end Reports

end Raveil.Device
