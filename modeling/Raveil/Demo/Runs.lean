import Raveil.Demo.Lifecycle

/-! Runs of demo commands. -/
namespace Raveil.Demo

open Lib Authority

section Step

variable {S : Setup} {m : Machine} {r : Round}

/-- The two checks of a command, under the capabilities of the setup. -/
def Setup.permits (S : Setup) (consoleCap brokerCap : ℕ) : Bool :=
  ((capResolve S.table S.owner brokerCap CAP_OBJECT_DEMO_AUTHORITY CAP_RIGHT_CONTROL).any fun view =>
    view.objectId == SONATINE_DEMO_AUTHORITY_OBJECT) &&
  (capResolve S.table S.owner consoleCap CAP_OBJECT_CONSOLE CAP_RIGHT_WRITE).isSome

theorem permitted_eq (hc : Common S m r) (consoleCap brokerCap : ℕ) :
    permitted m S.owner consoleCap brokerCap = S.permits consoleCap brokerCap := by
  unfold permitted brokerAuthorized Setup.permits
  rw [hc.table, hc.initialized, hc.owner, beq_self_eq_true, Bool.true_and, Bool.true_and]

theorem terminal_eq (hc : Common S m r) : terminalStatus m = Round.terminal r.state := by
  unfold terminalStatus
  rw [hc.state]
  cases r.state <;> rfl

theorem finish_state (r : Round) (cancelled : Bool) :
    (r.finish cancelled).state = .completed ∨ (r.finish cancelled).state = .cancelled ∨ (r.finish cancelled).state = .fault := by
  unfold Round.finish
  split_ifs
  · exact Or.inr (Or.inr rfl)
  · exact Or.inr (Or.inl rfl)
  · exact Or.inl rfl

/-- The answer in a terminal state. -/
theorem terminal_answer (h : Rel S m r) (hend : r.state = .completed ∨ r.state = .cancelled ∨ r.state = .fault) :
    Answered S r .result (Round.terminal r.state)
      (if m.demo.state = .completed ∨ m.demo.state = .cancelled ∨ m.demo.state = .fault then
        answer m .result (terminalStatus m) (if m.demo.state = .fault then 1 else 0)
      else answer m .result .fault 1) := by
  rw [h.common.state, if_pos hend, terminal_eq h.common]
  exact h.answer _ _ _

theorem run_step (h : Rel S m r) : ∃ status, (r.step .run).2 = some status ∧
    Answered S (r.step .run).1 .run status (runDemo m S.owner) := by
  obtain ⟨hc, hphase⟩ := h
  have hidle : Idle m r → r.state ≠ .dispatched → r.state ≠ .cancelRequested → r.state ≠ .fault →
      Answered S { r with state := .dispatched } .run .ok (runDemo m S.owner) :=
    fun hi h1 h2 h3 => run_spec hc hi ⟨h1, h2, h3⟩
  unfold Round.step
  rcases hstate : r.state with _ | _ | _ | _ | _ | _ <;> rw [hstate] at hphase hidle
  · exact ⟨_, rfl, hidle hphase (by decide) (by decide) (by decide)⟩
  · refine ⟨_, rfl, ?_⟩
    rw [runDemo, hc.state, if_pos (Or.inl hstate)]
    exact Rel.answer ⟨hc, by rwa [hstate]⟩ _ _ _
  · refine ⟨_, rfl, ?_⟩
    rw [runDemo, hc.state, if_pos (Or.inr hstate)]
    exact Rel.answer ⟨hc, by rwa [hstate]⟩ _ _ _
  · exact ⟨_, rfl, hidle hphase (by decide) (by decide) (by decide)⟩
  · exact ⟨_, rfl, hidle hphase (by decide) (by decide) (by decide)⟩
  · refine ⟨_, rfl, ?_⟩
    rw [runDemo, hc.state, hstate, if_neg (by decide), if_pos rfl]
    exact Rel.answer ⟨hc, by rwa [hstate]⟩ _ _ _

theorem cancel_step (h : Rel S m r) : ∃ status, (r.step .cancel).2 = some status ∧
    Answered S (r.step .cancel).1 .cancel status (cancelDemo m) := by
  have hrel := h
  obtain ⟨hc, hphase⟩ := h
  have hlate : r.state ≠ .empty → r.state ≠ .dispatched → Answered S r .cancel .tooLate (cancelDemo m) := by
    intro h1 h2
    rw [cancelDemo, hc.state, if_neg h1, if_pos h2]
    exact hrel.answer _ _ _
  unfold Round.step
  rcases hstate : r.state with _ | _ | _ | _ | _ | _ <;> rw [hstate] at hphase hlate
  · refine ⟨_, rfl, ?_⟩
    rw [cancelDemo, hc.state, if_pos hstate]
    exact hrel.answer _ _ _
  · exact ⟨_, rfl, cancelDemo_spec hc hphase hstate⟩
  · exact ⟨_, rfl, hlate (by decide) (by decide)⟩
  · exact ⟨_, rfl, hlate (by decide) (by decide)⟩
  · exact ⟨_, rfl, hlate (by decide) (by decide)⟩
  · exact ⟨_, rfl, hlate (by decide) (by decide)⟩

theorem result_step (h : Rel S m r) : ∃ status, (r.step .result).2 = some status ∧
    Answered S (r.step .result).1 .result status (resultDemo m S.owner) := by
  have hrel := h
  obtain ⟨hc, hphase⟩ := h
  have hroom : ∀ {x : Submission} {cancelled : Bool}, Working m.authority x cancelled →
      ¬ jobCompletionCount m.authority = 4 := by
    intro x cancelled hw
    rw [jobCompletionCount, hw.completions.used]
    decide
  have hdone : r.state = .completed ∨ r.state = .cancelled ∨ r.state = .fault →
      Answered S r .result (Round.terminal r.state) (resultDemo m S.owner) := by
    intro hend
    have hidle : ¬ r.state = .empty ∧ ¬ r.state = .dispatched ∧ ¬ r.state = .cancelRequested := by
      rcases hend with h | h | h <;> rw [h] <;> decide
    rw [resultDemo, hc.state, if_neg hidle.1, if_neg (fun h => (not_or.mpr hidle.2) h.1)]
    dsimp only
    rw [if_neg hidle.2.1, if_neg hidle.2.2]
    exact terminal_answer hrel hend
  unfold Round.step
  rcases hstate : r.state with _ | _ | _ | _ | _ | _ <;> rw [hstate] at hphase
  · refine ⟨_, rfl, ?_⟩
    rw [resultDemo, hc.state, if_pos hstate]
    exact hrel.answer _ _ _
  · refine ⟨_, rfl, ?_⟩
    rw [resultDemo, hc.state, hstate, if_neg (by decide), if_neg (fun h => hroom hphase.working h.2)]
    dsimp only
    rw [if_pos rfl]
    exact terminal_answer (finish_executed hc hphase) (finish_state r false)
  · refine ⟨_, rfl, ?_⟩
    rw [resultDemo, hc.state, hstate, if_neg (by decide), if_neg (fun h => hroom hphase.working h.2)]
    dsimp only
    rw [if_neg (show ¬ DemoState.cancelRequested = .dispatched by decide), if_pos rfl]
    exact terminal_answer (finish_cancelled hc hphase) (finish_state r true)
  · rw [hstate] at hdone
    exact ⟨_, rfl, hdone (Or.inl rfl)⟩
  · rw [hstate] at hdone
    exact ⟨_, rfl, hdone (Or.inr (Or.inl rfl))⟩
  · rw [hstate] at hdone
    exact ⟨_, rfl, hdone (Or.inr (Or.inr rfl))⟩

theorem write_step (h : Rel S m r) : ∃ status, Answered S r .write status (writeDemo m S.owner) := by
  have hvfs : Rel S { m with vfs := (appendDemoValue m.vfs).1 } r := h.frame _ _
  unfold writeDemo
  split
  · exact ⟨_, h.answer _ _ _⟩
  · dsimp only
    split
    · exact ⟨_, hvfs.answer _ _ _⟩
    · exact ⟨_, hvfs.answer _ _ _⟩

/-- A call of the owner is a step of the round, or is denied. -/
theorem command_step (h : Rel S m r) (consoleCap brokerCap : ℕ) (command : Command) :
    (S.permits consoleCap brokerCap = false ∧
      Answered S r command .denied (sonatineDemoCommandRun m S.owner consoleCap brokerCap command)) ∨
    (S.permits consoleCap brokerCap = true ∧ ∃ status, (∀ s, (r.step command).2 = some s → status = s) ∧
      Answered S (r.step command).1 command status (sonatineDemoCommandRun m S.owner consoleCap brokerCap command)) := by
  have hpermitted := permitted_eq h.common consoleCap brokerCap
  unfold sonatineDemoCommandRun
  rw [hpermitted]
  cases S.permits consoleCap brokerCap with
  | false => exact Or.inl ⟨rfl, h.answer _ _ _⟩
  | true =>
    refine Or.inr ⟨rfl, ?_⟩
    rw [Bool.not_true, if_neg Bool.false_ne_true]
    have hother : ∀ {out : Machine × Frame × ℕ}, (∃ status, Answered S r command status out) →
        ∃ status, (∀ s, (none : Option Status) = some s → status = s) ∧ Answered S r command status out := by
      rintro out ⟨status, hout⟩
      refine ⟨status, ?_, hout⟩
      intro s hs
      cases hs
    have hjob : ∀ {r' : Round × Option Status} {out : Machine × Frame × ℕ},
        (∃ status, r'.2 = some status ∧ Answered S r'.1 command status out) →
        ∃ status, (∀ s, r'.2 = some s → status = s) ∧ Answered S r'.1 command status out := by
      rintro r' out ⟨status, hstatus, hout⟩
      exact ⟨status, fun s hs => Option.some.inj (hstatus.symm.trans hs), hout⟩
    cases command with
    | ls | stat | cat =>
      apply hother
      dsimp only
      split
      · exact ⟨_, h.answer _ _ _⟩
      · exact ⟨_, h.answer _ _ _⟩
    | echo | jobs | invalid => exact hother ⟨_, h.answer _ _ _⟩
    | write => exact hother (write_step h)
    | run => exact hjob (run_step h)
    | cancel => exact hjob (cancel_step h)
    | result => exact hjob (result_step h)

end Step

section Init

variable {s t : State} {task cap : ℕ}

theorem programInstall_true {value : Identity} (h : planeProgramInstall s task cap (some value) = (t, true)) :
    planeCapAuthorized s task cap CAP_OBJECT_PROGRAM_AUTHORITY CAP_RIGHT_CONTROL = true ∧
      ∃ programs, t = { s with planePrograms := programs } := by
  unfold planeProgramInstall at h
  dsimp only at h
  split at h
  · cases h
  rename_i hopen
  split at h
  · cases h
  split at h
  · cases h
  simp only [Prod.mk.injEq, and_true] at h
  refine ⟨?_, _, h.symm⟩
  rw [not_or, Bool.not_eq_true', Bool.not_eq_false] at hopen
  exact hopen.1

theorem graphInstall_true {program graph : Identity}
    (h : planeGraphInstall s task cap (some program) (some graph) = (t, true)) :
    ∃ i, t = { s with planeGraphs := Function.update s.planeGraphs i ⟨true, program, graph⟩ } := by
  unfold planeGraphInstall at h
  dsimp only at h
  split at h
  · cases h
  split at h
  · cases h
  split at h
  · cases h
  split at h
  · cases h
  simp only [Prod.mk.injEq, and_true] at h
  exact ⟨_, h.symm⟩

theorem objectRegister_true (h : planeDataObjectRegister s task cap (some demoObject) = (t, true))
    (hempty : s.objects = fun _ => default) :
    dataAuthorized s task cap = true ∧ t = { s with objects := objectsAt 1 fun _ => 0 } := by
  unfold planeDataObjectRegister at h
  split at h
  · rename_i hdata
    refine ⟨hdata, ?_⟩
    have hslot : firstSlot (fun i => !(s.objects i).active) = some 0 := firstSlot_free (by rw [hempty]; rfl)
    unfold jobObjectRegisterCore jobObjectRegisterBytesCore at h
    dsimp only at h
    split at h
    · cases h
    split at h
    · cases h
    rw [hslot] at h
    simp only [Prod.mk.injEq, and_true] at h
    rw [← h, hempty]
    rfl
  · cases h

/-- The authority that nobody has used, over the capabilities of a machine. -/
def fresh (m : Machine) (executionEpoch : ℕ) : Machine :=
  { m with authority := planeAuthorityInit (jobAuthorityInit m.authority executionEpoch) }

theorem init_rel {m m₀ : Machine} {executionEpoch brokerCap programCap graphCap dataCap experienceCap filesystemCap : ℕ}
    (h : sonatineDemoInit (fresh m executionEpoch) task brokerCap programCap graphCap dataCap experienceCap filesystemCap =
      (m₀, true))
    (hexperience : (capResolve m.authority.capTable task experienceCap CAP_OBJECT_EXPERIENCE_AUTHORITY
      CAP_RIGHT_WRITE).any fun view => view.objectId == 1) :
    ∃ S : Setup, S.owner = task ∧ S.table = m.authority.capTable ∧ Rel S m₀ Round.initial := by
  unfold sonatineDemoInit at h
  dsimp only at h
  split at h
  · cases h
  split at h
  · cases h
  rename_i installed hprogram
  split at h
  · cases h
  rename_i graphed hgraph
  rcases hregister : planeDataObjectRegister graphed task dataCap (some demoObject) with ⟨registered, ok⟩
  rw [hregister] at h
  simp only [Prod.mk.injEq] at h
  obtain ⟨rfl, rfl⟩ := h
  obtain ⟨hprogramAuthorized, programs, rfl⟩ := programInstall_true hprogram
  obtain ⟨i, rfl⟩ := graphInstall_true hgraph
  obtain ⟨hdata, rfl⟩ := objectRegister_true hregister rfl
  have hview : ∀ {right type cap : ℕ} {s : State}, planeCapAuthorized s task cap type right = true →
      s.capTable = m.authority.capTable →
      ((capResolve m.authority.capTable task cap type right).any fun view => view.objectId == 1) = true := by
    intro right type cap s hs htable
    unfold planeCapAuthorized at hs
    rw [htable] at hs
    split at hs
    · cases hs
    · rename_i view hview
      rw [hview, Option.any_some]
      simpa using hs
  refine ⟨⟨m.authority.capTable, task, programCap, dataCap, experienceCap, if executionEpoch = 0 then 1 else executionEpoch,
    hview hprogramAuthorized rfl, hview hdata rfl, hexperience, ?_⟩, rfl, rfl, ?_, ?_⟩
  · split <;> omega
  · refine ⟨rfl, rfl, rfl, rfl, rfl, rfl, ⟨i, ?_⟩, rfl, ⟨fun _ => 0, rfl, ?_⟩, rfl, rfl, rfl, ?_, ?_, ?_⟩
    · dsimp only
      rw [Function.update_self]
      exact ⟨rfl, rfl, rfl⟩
    · intro byte _
      rfl
    · decide
    · decide
    · decide
  · refine ⟨⟨rfl, rfl, ⟨RingBuffer.ok_empty (by decide), rfl⟩, ⟨RingBuffer.ok_empty (by decide), rfl⟩⟩, rfl, rfl, rfl, ?_⟩
    intro i hi
    exact absurd hi (Nat.not_lt_zero _)

end Init

/-- One command of the owner. -/
structure Call where
  consoleCap : ℕ
  brokerCap : ℕ
  command : Command
  deriving DecidableEq

section Runs

variable (m : Machine) (task : ℕ)

def reply (c : Call) : Machine × Frame × ℕ := sonatineDemoCommandRun m task c.consoleCap c.brokerCap c.command

def runCalls : Machine → List Call → Machine
  | m, [] => m
  | m, c :: calls => runCalls (reply m task c).1 calls

/-- The frames of a sequence of calls. -/
def frames : Machine → List Call → List Frame
  | _, [] => []
  | m, c :: calls => (reply m task c).2.1 :: frames (reply m task c).1 calls

/-- A frame that accepts a new job. -/
def Frame.started (f : Frame) : Bool := f.command = .run ∧ f.status = .ok

def Frame.cancelled (f : Frame) : Bool := f.command = .cancel ∧ f.status = .ok

/-- The version and the bytes of the demo object. -/
def objectVersion : Option ℕ := (jobObjectLookup m.authority DEMO_OBJECT_ID).map fun manifest => manifest.version

def objectBytes : Option (List UInt8) := jobObjectRead m.authority DEMO_OBJECT_ID 0 32

end Runs

section Rounds

variable {S : Setup} {m : Machine} {r : Round}

/-- The jobs that were started in a round. -/
def Round.started (r : Round) : ℕ :=
  match r.state with
  | .dispatched | .cancelRequested | .fault => r.observed + 1
  | _ => r.observed

theorem started_finish (r : Round) (cancelled : Bool) (hbusy : r.state = .dispatched ∨ r.state = .cancelRequested) :
    (r.finish cancelled).started = r.started := by
  have hstarted : r.started = r.observed + 1 := by
    unfold Round.started
    rcases hbusy with h | h <;> rw [h]
  rw [hstarted]
  unfold Round.finish Round.started
  split_ifs <;> rfl

/-- A step starts a job exactly when it accepts a run. -/
theorem started_step (r : Round) (command : Command) :
    (r.step command).1.started = r.started + if command = .run ∧ (r.step command).2 = some .ok then 1 else 0 := by
  unfold Round.step
  cases command with
  | run => rcases hstate : r.state <;> simp [Round.started, hstate]
  | cancel => rcases hstate : r.state <;> simp [Round.started, hstate]
  | result =>
    rcases hstate : r.state with _ | _ | _ | _ | _ | _
    · simp
    · simpa using started_finish r false (Or.inl hstate)
    · simpa using started_finish r true (Or.inr hstate)
    · simp
    · simp
    · simp
  | _ => simp

/-- Every run stays in a round, and the round counts the jobs that were accepted. -/
theorem runCalls_rel (calls : List Call) {n : ℕ} (h : Rel S m r) (hn : r.started = n) :
    ∃ r', Rel S (runCalls S.owner m calls) r' ∧
      r'.started = n + (frames S.owner m calls).countP Frame.started := by
  induction calls generalizing m r n with
  | nil => exact ⟨r, h, hn⟩
  | cons c calls ih =>
    rw [runCalls, frames, List.countP_cons]
    rcases command_step h c.consoleCap c.brokerCap c.command with ⟨-, hout⟩ | ⟨-, status, hstatus, hout⟩
    · have hidle : Frame.started (reply m S.owner c).2.1 = false := by
        unfold Frame.started reply
        rw [hout.status]
        simp
      rw [hidle, if_neg Bool.false_ne_true, Nat.add_zero]
      exact ih hout.rel hn
    · have hcount := started_step r c.command
      have hstarted : Frame.started (reply m S.owner c).2.1 = true ↔
          c.command = .run ∧ (r.step c.command).2 = some .ok := by
        unfold Frame.started reply
        rw [hout.status, hout.command, decide_eq_true_iff]
        constructor
        · rintro ⟨hrun, hok⟩
          refine ⟨hrun, ?_⟩
          obtain ⟨s, hs⟩ : ∃ s, (r.step c.command).2 = some s := by
            rw [hrun]
            exact (run_step h).imp fun _ hs => hs.1
          rw [hs, ← hstatus s hs, hok]
        · rintro ⟨hrun, hok⟩
          exact ⟨hrun, hstatus _ hok⟩
      have hnext : Rel S (reply m S.owner c).1 (r.step c.command).1 := hout.rel
      have hn' : (r.step c.command).1.started = n + if Frame.started (reply m S.owner c).2.1 = true then 1 else 0 := by
        rw [hcount, hn, if_congr hstarted.symm rfl rfl]
      obtain ⟨r', hrel, hr'⟩ := ih hnext hn'
      exact ⟨r', hrel, by rw [hr']; omega⟩

theorem objectVersion_eq (hc : Common S m r) : objectVersion m = some r.version := by
  obtain ⟨visible, hobjects, -⟩ := hc.objects
  rw [objectVersion, lookup_object hobjects]
  rfl

theorem objectBytes_eq (hc : Common S m r) :
    objectBytes m = some ((List.range 32).map fun byte => if r.written then product byte else 0) := by
  obtain ⟨visible, hobjects, hholds⟩ := hc.objects
  have hslot : m.authority.objects 0 = ⟨true, objectAt r.version, visible⟩ := by
    rw [hobjects]
    exact Function.update_self ..
  have hfind : findObject m.authority.objects DEMO_OBJECT_ID = some 0 := by
    rw [hobjects]
    exact find_object _ _
  rw [objectBytes, jobObjectRead, hfind]
  dsimp only
  rw [hslot, if_neg (by simp [objectAt, demoObject])]
  congr 1
  apply List.map_congr_left
  intro byte hbyte
  rw [Nat.zero_add]
  exact hholds byte (List.mem_range.mp hbyte)

/-- The tables hold nothing but the job in flight. -/
theorem nothing_left (h : Rel S m r) :
    jobSubmissionCount m.authority = 0 ∧ jobCompletionCount m.authority = 0 ∧ jobShadowCount m.authority = 0 ∧
      ∀ i, (m.authority.inflight i).active = true →
        (m.demo.state = .dispatched ∨ m.demo.state = .cancelRequested) ∧
          bindingFromSubmission (m.authority.inflight i).submission = m.demo.binding := by
  have hshadows : ∀ {s : State}, s.shadows = (fun _ => default) → jobShadowCount s = 0 := by
    intro s hs
    rw [jobShadowCount, hs]
    rfl
  have hquiet : Quiet m.authority → jobSubmissionCount m.authority = 0 ∧ jobCompletionCount m.authority = 0 ∧
      jobShadowCount m.authority = 0 ∧ ∀ i, (m.authority.inflight i).active = true →
        (m.demo.state = .dispatched ∨ m.demo.state = .cancelRequested) ∧
          bindingFromSubmission (m.authority.inflight i).submission = m.demo.binding := by
    intro hq
    refine ⟨hq.submissions.used, hq.completions.used, hshadows hq.shadows, ?_⟩
    intro i hi
    rw [hq.inflight] at hi
    cases hi
  have hbusy : ∀ {cancelled : Bool}, (m.demo.state = .dispatched ∨ m.demo.state = .cancelRequested) →
      Busy S m r cancelled → jobSubmissionCount m.authority = 0 ∧ jobCompletionCount m.authority = 0 ∧
      jobShadowCount m.authority = 0 ∧ ∀ i, (m.authority.inflight i).active = true →
        (m.demo.state = .dispatched ∨ m.demo.state = .cancelRequested) ∧
          bindingFromSubmission (m.authority.inflight i).submission = m.demo.binding := by
    intro cancelled hstate hb
    obtain ⟨snapshot, hinflight⟩ := hb.working.inflight
    refine ⟨hb.working.submissions.used, hb.working.completions.used, hshadows hb.working.shadows, ?_⟩
    intro i hi
    refine ⟨hstate, ?_⟩
    by_cases hzero : i = 0
    · rw [hzero, hinflight, Function.update_self]
      exact hb.binding.symm
    · rw [hinflight, Function.update_of_ne hzero] at hi
      cases hi
  obtain ⟨hc, hphase⟩ := h
  have hstate := hc.state
  rcases hround : r.state with _ | _ | _ | _ | _ | _ <;> rw [hround] at hphase hstate
  · exact hquiet hphase.quiet
  · exact hbusy (Or.inl hstate) hphase
  · exact hbusy (Or.inr hstate) hphase
  · exact hquiet hphase.quiet
  · exact hquiet hphase.quiet
  · exact hquiet hphase

/-- The round of a job in flight. -/
def Round.busy (r : Round) (cancelled : Bool) : Round :=
  { r with state := if cancelled then .cancelRequested else .dispatched }

theorem busy_step (r : Round) (cancelled : Bool) (command : Command) (hresult : command ≠ .result) :
    ((r.busy cancelled).step command).1 =
      r.busy (cancelled || decide (command = .cancel ∧ ((r.busy cancelled).step command).2 = some .ok)) := by
  cases command with
  | result => exact absurd rfl hresult
  | cancel => cases cancelled <;> rfl
  | run => cases cancelled <;> rfl
  | _ => simp [Round.step]

theorem terminal_ne_denied (state : DemoState) : Round.terminal state ≠ .denied := by
  cases state <;> decide

/-- Permitted commands follow the rounds. -/
theorem runCalls_permitted (calls : List Call) (h : Rel S m r)
    (hpermits : ∀ c ∈ calls, S.permits c.consoleCap c.brokerCap = true) :
    Rel S (runCalls S.owner m calls) (calls.foldl (fun r c => (r.step c.command).1) r) := by
  induction calls generalizing m r with
  | nil => exact h
  | cons c calls ih =>
    have hhead := hpermits c List.mem_cons_self
    have hrest : ∀ c ∈ calls, S.permits c.consoleCap c.brokerCap = true :=
      fun c hc => hpermits c (List.mem_cons_of_mem _ hc)
    rcases command_step h c.consoleCap c.brokerCap c.command with ⟨hdenied, -⟩ | ⟨-, status, -, hout⟩
    · rw [hhead] at hdenied
      cases hdenied
    · exact ih hout.rel hrest

/-- Until its result is asked for, a job stays in flight and remembers a cancellation. -/
theorem between_rel (calls : List Call) (cancelled : Bool) (h : Rel S m (r.busy cancelled))
    (hresult : ∀ f ∈ frames S.owner m calls, f.command = .result → f.status = .denied) :
    Rel S (runCalls S.owner m calls) (r.busy (cancelled || (frames S.owner m calls).any Frame.cancelled)) := by
  induction calls generalizing m cancelled with
  | nil => rwa [frames, List.any_nil, Bool.or_false]
  | cons c calls ih =>
    have hrest : ∀ f ∈ frames S.owner (reply m S.owner c).1 calls, f.command = .result → f.status = .denied :=
      fun f hf => hresult f (List.mem_cons_of_mem _ hf)
    have hhead : (reply m S.owner c).2.1.command = .result → (reply m S.owner c).2.1.status = .denied :=
      hresult _ List.mem_cons_self
    rw [frames, List.any_cons, ← Bool.or_assoc]
    rcases command_step h c.consoleCap c.brokerCap c.command with ⟨-, hout⟩ | ⟨-, status, hstatus, hout⟩
    · have hidle : Frame.cancelled (reply m S.owner c).2.1 = false := by
        unfold Frame.cancelled reply
        rw [hout.status]
        simp
      rw [hidle, Bool.or_false]
      exact ih cancelled hout.rel hrest
    · have hframe : (reply m S.owner c).2.1.command = c.command ∧ (reply m S.owner c).2.1.status = status :=
        ⟨hout.command, hout.status⟩
      have hcommand : c.command ≠ .result := by
        intro hc
        rw [hframe.1, hframe.2] at hhead
        obtain ⟨s, hs⟩ : ∃ s : DemoState, ((r.busy cancelled).step c.command).2 = some (Round.terminal s) := by
          rw [hc]
          cases cancelled
          · exact ⟨_, rfl⟩
          · exact ⟨_, rfl⟩
        exact terminal_ne_denied s ((hstatus _ hs).symm.trans (hhead hc))
      have hflag : Frame.cancelled (reply m S.owner c).2.1 =
          decide (c.command = .cancel ∧ ((r.busy cancelled).step c.command).2 = some .ok) := by
        unfold Frame.cancelled
        rw [hframe.1, hframe.2]
        apply decide_eq_decide.mpr
        constructor
        · rintro ⟨hcancel, hok⟩
          refine ⟨hcancel, ?_⟩
          rw [hcancel] at hstatus ⊢
          obtain ⟨s, hs⟩ : ∃ s, ((r.busy cancelled).step .cancel).2 = some s := (cancel_step h).imp fun _ hs => hs.1
          rw [hs, ← hstatus s hs, hok]
        · rintro ⟨hcancel, hok⟩
          exact ⟨hcancel, hstatus _ hok⟩
      have hrel : Rel S (reply m S.owner c).1 ((r.busy cancelled).step c.command).1 := hout.rel
      rw [busy_step r cancelled c.command hcommand, ← hflag] at hrel
      exact ih _ hrel hrest

/-- A run that is accepted finds no job and starts one. -/
theorem accepted_run (h : Rel S m r) {c : Call} (hc : c.command = .run) (hok : (reply m S.owner c).2.1.status = .ok) :
    r.started = r.observed ∧ Rel S (reply m S.owner c).1 (r.busy false) := by
  rcases command_step h c.consoleCap c.brokerCap c.command with ⟨-, hout⟩ | ⟨-, status, hstatus, hout⟩
  · have hdenied : (reply m S.owner c).2.1.status = .denied := hout.status
    rw [hdenied] at hok
    cases hok
  · have hframe : (reply m S.owner c).2.1.status = status := hout.status
    have hrel : Rel S (reply m S.owner c).1 (r.step c.command).1 := hout.rel
    rw [hc] at hstatus hrel
    rw [hframe] at hok
    subst hok
    unfold Round.step at hstatus hrel
    unfold Round.started
    rcases hstate : r.state with _ | _ | _ | _ | _ | _ <;> rw [hstate] at hstatus hrel
    · exact ⟨rfl, hrel⟩
    · cases hstatus _ rfl
    · cases hstatus _ rfl
    · exact ⟨rfl, hrel⟩
    · exact ⟨rfl, hrel⟩
    · cases hstatus _ rfl

/-- A result that is not denied ends the job in flight. -/
theorem asked_result {cancelled : Bool} (h : Rel S m (r.busy cancelled)) {c : Call} (hc : c.command = .result)
    (hanswered : (reply m S.owner c).2.1.status ≠ .denied) :
    Answered S ((r.busy cancelled).finish cancelled) .result
      (Round.terminal ((r.busy cancelled).finish cancelled).state) (reply m S.owner c) := by
  rcases command_step h c.consoleCap c.brokerCap c.command with ⟨-, hout⟩ | ⟨-, status, hstatus, hout⟩
  · exact absurd hout.status hanswered
  · rw [hc] at hstatus hout
    have hstep : (r.busy cancelled).step .result =
        ((r.busy cancelled).finish cancelled, some (Round.terminal ((r.busy cancelled).finish cancelled).state)) := by
      cases cancelled <;> rfl
    rw [hstep] at hstatus hout
    rw [hstatus _ rfl] at hout
    unfold reply
    rw [hc]
    exact hout

end Rounds

section LifeCycle

variable {m m₀ : Machine} {executionEpoch task brokerCap programCap graphCap dataCap experienceCap filesystemCap : ℕ}

/-- The demo object has the same version and bytes. -/
def Unchanged (m m' : Machine) : Prop := objectVersion m' = objectVersion m ∧ objectBytes m' = objectBytes m

/-- Every accepted job ends at the next result, in one way: the first eight are completed, or cancelled if a
cancellation was accepted, and the ninth finds the ledger full and is a fault. Nothing of an ended job is left. -/
theorem demo_life_cycle
    (hinit : sonatineDemoInit (fresh m executionEpoch) task brokerCap programCap graphCap dataCap experienceCap
      filesystemCap = (m₀, true))
    (hexperience : (capResolve m.authority.capTable task experienceCap CAP_OBJECT_EXPERIENCE_AUTHORITY
      CAP_RIGHT_WRITE).any fun view => view.objectId == 1) :
    (∀ before between start finish, start.command = .run → finish.command = .result →
      (reply (runCalls task m₀ before) task start).2.1.status = .ok →
      (∀ f ∈ frames task (reply (runCalls task m₀ before) task start).1 between,
        f.command = .result → f.status = .denied) →
      (reply (runCalls task (reply (runCalls task m₀ before) task start).1 between) task finish).2.1.status ≠ .denied →
      let m₁ := runCalls task m₀ before
      let earlier := (frames task m₀ before).countP Frame.started
      let cancelled := (frames task (reply m₁ task start).1 between).any Frame.cancelled
      let finished := reply (runCalls task (reply m₁ task start).1 between) task finish
      earlier ≤ 8 ∧
      (earlier < 8 → cancelled = false → finished.2.1.status = .completed ∧ finished.2.1.state = .completed ∧
        finished.2.1.semantic = true ∧ finished.2.1.checksum = valuesChecksum expectedDemoGemm ∧
        (∃ version, objectVersion m₁ = some version ∧ objectVersion finished.1 = some (version + 1)) ∧
        objectBytes finished.1 = some ((List.range 32).map product)) ∧
      (earlier < 8 → cancelled = true → finished.2.1.status = .cancelled ∧ finished.2.1.state = .cancelled ∧
        finished.2.1.semantic = false ∧ Unchanged m₁ finished.1) ∧
      (earlier = 8 → finished.2.1.status = .fault ∧ finished.2.1.state = .fault ∧ finished.2.1.semantic = false ∧
        Unchanged m₁ finished.1)) ∧
    ∀ calls,
      ((runCalls task m₀ calls).demo.state = .fault → (frames task m₀ calls).countP Frame.started = 9) ∧
      jobSubmissionCount (runCalls task m₀ calls).authority = 0 ∧
      jobCompletionCount (runCalls task m₀ calls).authority = 0 ∧
      jobShadowCount (runCalls task m₀ calls).authority = 0 ∧
      ∀ i, ((runCalls task m₀ calls).authority.inflight i).active = true →
        ((runCalls task m₀ calls).demo.state = .dispatched ∨ (runCalls task m₀ calls).demo.state = .cancelRequested) ∧
        bindingFromSubmission ((runCalls task m₀ calls).authority.inflight i).submission =
          (runCalls task m₀ calls).demo.binding := by
  obtain ⟨S, rfl, -, hrel⟩ := init_rel hinit hexperience
  constructor
  · intro before between start finish hstart hfinish hok hresult hanswered
    obtain ⟨r, hr, hearlier⟩ := runCalls_rel before hrel (n := 0) rfl
    obtain ⟨hstarted, hbusy⟩ := accepted_run hr hstart hok
    have hbetween := between_rel between false hbusy hresult
    have hout := asked_result hbetween hfinish hanswered
    rw [Bool.false_or] at hout
    rw [Nat.zero_add, hstarted] at hearlier
    have hobserved : r.observed ≤ 8 := hr.common.observed
    intro m₁ earlier cancelled finished
    have hcount : earlier = r.observed := hearlier.symm
    have hversion : objectVersion m₁ = some r.version := objectVersion_eq hr.common
    have hbytes := objectBytes_eq hr.common
    have hout' : Answered S ((r.busy cancelled).finish cancelled) .result
        (Round.terminal ((r.busy cancelled).finish cancelled).state) finished := hout
    have hversion' := objectVersion_eq hout'.rel.common
    have hbytes' := objectBytes_eq hout'.rel.common
    rw [hcount]
    refine ⟨hobserved, ?_, ?_, ?_⟩
    · intro hlt hcancelled
      have hround : (r.busy cancelled).finish cancelled = ⟨.completed, r.observed + 1, r.version + 1, true⟩ := by
        unfold Round.finish
        rw [if_neg (show ¬ (r.busy cancelled).observed = 8 from hlt.ne), hcancelled, if_neg Bool.false_ne_true]
        rfl
      rw [hround] at hout' hversion' hbytes'
      exact ⟨hout'.status, hout'.state, hout'.semantic, hout'.checksum, ⟨_, hversion, hversion'⟩, hbytes'⟩
    · intro hlt hcancelled
      have hround : (r.busy cancelled).finish cancelled = ⟨.cancelled, r.observed + 1, r.version, r.written⟩ := by
        unfold Round.finish
        rw [if_neg (show ¬ (r.busy cancelled).observed = 8 from hlt.ne), hcancelled, if_pos rfl]
        rfl
      rw [hround] at hout' hversion' hbytes'
      exact ⟨hout'.status, hout'.state, hout'.semantic, hversion'.trans hversion.symm, hbytes'.trans hbytes.symm⟩
    · intro hfull
      have hround : (r.busy cancelled).finish cancelled = ⟨.fault, r.observed, r.version, r.written⟩ := by
        unfold Round.finish
        rw [if_pos (show (r.busy cancelled).observed = 8 from hfull)]
        rfl
      rw [hround] at hout' hversion' hbytes'
      exact ⟨hout'.status, hout'.state, hout'.semantic, hversion'.trans hversion.symm, hbytes'.trans hbytes.symm⟩
  · intro calls
    obtain ⟨r, hr, hcount⟩ := runCalls_rel calls hrel (n := 0) rfl
    refine ⟨?_, nothing_left hr⟩
    intro hfault
    have hstate : r.state = .fault := hr.common.state.symm.trans hfault
    have hstarted : r.started = r.observed + 1 := by
      unfold Round.started
      rw [hstate]
    rw [← Nat.zero_add (List.countP _ _), ← hcount, hstarted, hr.common.full hstate]

/-- The capabilities of the demo, created in the order of the start of the system. -/
def demoTable : CapTable × List ℕ :=
  [(CAP_OBJECT_CONSOLE, 1, CAP_RIGHT_WRITE), (CAP_OBJECT_FILESYSTEM, VFS_ROOT_OBJECT, CAP_RIGHT_READ ||| CAP_RIGHT_WRITE),
    (CAP_OBJECT_PROGRAM_AUTHORITY, 1, CAP_RIGHT_CONTROL), (CAP_OBJECT_GRAPH_AUTHORITY, 1, CAP_RIGHT_CONTROL),
    (CAP_OBJECT_DATA_AUTHORITY, 1, CAP_RIGHT_WRITE ||| CAP_RIGHT_CONTROL),
    (CAP_OBJECT_EXPERIENCE_AUTHORITY, 1, CAP_RIGHT_WRITE ||| CAP_RIGHT_CONTROL),
    (CAP_OBJECT_DEMO_AUTHORITY, SONATINE_DEMO_AUTHORITY_OBJECT, CAP_RIGHT_CONTROL)].foldl
    (fun s c =>
      let created := capCreate s.1 1 c.1 c.2.1 c.2.2
      (created.1, s.2 ++ [created.2])) (capInit default, [])

/-- A system of which task 1 holds these capabilities. -/
def demoMachine : Machine where
  authority := ⟨default, .empty, .empty, default, default, 0, 0, default, default, default, 0, demoTable.1⟩
  demo := ⟨false, 0, 0, 0, 0, 0, .empty, 0, 0, 0, false, false, default, default⟩
  vfs := fun _ => ⟨fun _ => 0, 0, true⟩

def demoInit : Machine × Bool := sonatineDemoInit (fresh demoMachine 7) 1 65543 65539 65540 65541 65542 65538

def demoCall (command : Command) : Call := ⟨65537, 65543, command⟩

theorem demoInit_true : demoInit = (demoInit.1, true) := by
  have h : demoInit.2 = true := by decide +kernel
  rw [← h]

theorem demo_life_cycle_completed :
    (reply (reply demoInit.1 1 (demoCall .run)).1 1 (demoCall .result)).2.1.status = .completed := by
  have hexperience : ((capResolve demoMachine.authority.capTable 1 65542 CAP_OBJECT_EXPERIENCE_AUTHORITY
      CAP_RIGHT_WRITE).any fun view => view.objectId == 1) = true := by decide +kernel
  obtain ⟨h, -⟩ := demo_life_cycle demoInit_true hexperience
  have hround := h [] [] (demoCall .run) (demoCall .result) rfl rfl (by decide +kernel)
    (fun f hf => absurd hf List.not_mem_nil) (by decide +kernel)
  simp only [runCalls, frames, List.countP_nil, List.any_nil, Nat.zero_lt_succ, true_imp_iff] at hround
  exact hround.2.1.1

theorem demo_fault :
    ¬ ∀ (m m₀ : Machine) (executionEpoch task brokerCap programCap graphCap dataCap experienceCap filesystemCap : ℕ),
      sonatineDemoInit (fresh m executionEpoch) task brokerCap programCap graphCap dataCap experienceCap filesystemCap =
        (m₀, true) →
      ((capResolve m.authority.capTable task experienceCap CAP_OBJECT_EXPERIENCE_AUTHORITY CAP_RIGHT_WRITE).any
        fun view => view.objectId == 1) = true →
      ∀ calls, (runCalls task m₀ calls).demo.state ≠ .fault := by
  intro h
  have hexperience : ((capResolve demoMachine.authority.capTable 1 65542 CAP_OBJECT_EXPERIENCE_AUTHORITY
      CAP_RIGHT_WRITE).any fun view => view.objectId == 1) = true := by decide +kernel
  obtain ⟨S, howner, htable, hrel⟩ := init_rel demoInit_true hexperience
  have hpermits : S.permits 65537 65543 = true := by
    unfold Setup.permits
    rw [howner, htable]
    decide +kernel
  have hrun := runCalls_permitted (List.replicate 9 [demoCall .run, demoCall .result]).flatten hrel (by
    intro c hc
    rcases List.mem_flatten.mp hc with ⟨l, hl, hcl⟩
    rw [List.eq_of_mem_replicate hl] at hcl
    rcases List.mem_pair.mp hcl with rfl | rfl
    · exact hpermits
    · exact hpermits)
  rw [howner] at hrun
  exact h _ _ _ _ _ _ _ _ _ _ demoInit_true hexperience _ (hrun.common.state.trans (by decide))

end LifeCycle

end Raveil.Demo
