import Raveil.Demo.Round

/-! The life cycle of the demo job, as a machine of its own and as what the broker does. -/
namespace Raveil.Demo

open Lib Authority

/-- What the demo is for: one job at a time, observed in a ledger of eight, that raises a version or leaves it. -/
structure Round where
  state : DemoState
  observed : ℕ
  version : ℕ
  written : Bool
  deriving DecidableEq

namespace Round

def initial : Round := ⟨.empty, 0, 1, false⟩

/-- The end of a job: a full ledger is a fault, a cancelled job leaves the object, the others publish. -/
def finish (r : Round) (cancelled : Bool) : Round :=
  if r.observed = 8 then { r with state := .fault }
  else if cancelled then { r with state := .cancelled, observed := r.observed + 1 }
  else ⟨.completed, r.observed + 1, r.version + 1, true⟩

def terminal : DemoState → Status
  | .completed => .completed
  | .cancelled => .cancelled
  | _ => .fault

/-- A permitted command: the round after it and, for the commands of the job, the status. -/
def step (r : Round) : Command → Round × Option Status
  | .run =>
    match r.state with
    | .dispatched | .cancelRequested => (r, some .busy)
    | .fault => (r, some .fault)
    | _ => ({ r with state := .dispatched }, some .ok)
  | .cancel =>
    match r.state with
    | .empty => (r, some .empty)
    | .dispatched => ({ r with state := .cancelRequested }, some .ok)
    | _ => (r, some .tooLate)
  | .result =>
    match r.state with
    | .empty => (r, some .empty)
    | .dispatched => (r.finish false, some (terminal (r.finish false).state))
    | .cancelRequested => (r.finish true, some (terminal (r.finish true).state))
    | state => (r, some (terminal state))
  | _ => (r, none)

end Round

/-- The capabilities the broker was initialised with. -/
structure Setup where
  table : CapTable
  owner : ℕ
  programCap : ℕ
  dataCap : ℕ
  experienceCap : ℕ
  epoch : ℕ
  program : (capResolve table owner programCap CAP_OBJECT_PROGRAM_AUTHORITY CAP_RIGHT_CONTROL).any
    fun view => view.objectId == 1
  data : (capResolve table owner dataCap CAP_OBJECT_DATA_AUTHORITY CAP_RIGHT_WRITE).any fun view => view.objectId == 1
  experience : (capResolve table owner experienceCap CAP_OBJECT_EXPERIENCE_AUTHORITY CAP_RIGHT_WRITE).any
    fun view => view.objectId == 1
  epoch_ne : epoch ≠ 0

/-- The product as bytes of the object. -/
def product : ℕ → UInt8 := valuesBytes expectedDemoGemm

/-- The object holds the product, or what it held at the start. -/
def Holds (visible : ℕ → UInt8) (written : Bool) : Prop := ∀ byte < 32, visible byte = if written then product byte else 0

structure Common (S : Setup) (m : Machine) (r : Round) : Prop where
  table : m.authority.capTable = S.table
  initialized : m.demo.initialized = true
  owner : m.demo.owner = S.owner
  programCap : m.demo.programCap = S.programCap
  dataCap : m.demo.dataCap = S.dataCap
  experienceCap : m.demo.experienceCap = S.experienceCap
  pair : ∃ i, (m.authority.planeGraphs i).active ∧ (m.authority.planeGraphs i).programIdentity = identity 0x92 1 ∧
    (m.authority.planeGraphs i).graphIdentity = identity 0x92 2
  epoch : m.authority.authorityEpoch = S.epoch
  objects : ∃ visible, m.authority.objects = objectsAt r.version visible ∧ Holds visible r.written
  state : m.demo.state = r.state
  semantic : m.demo.semantic = decide (r.state = .completed)
  checksum : m.demo.checksum = if r.state = .completed then valuesChecksum expectedDemoGemm else 0
  version : 1 ≤ r.version ∧ r.version ≤ r.observed + 1
  observed : r.observed ≤ 8
  full : r.state = .fault → r.observed = 8

/-- The counters before job number `next`, and a ledger of older jobs. -/
structure Counters (m : Machine) (r : Round) (next : ℕ) : Prop where
  sequence : m.authority.nextSequence = next + 1
  jobId : m.demo.nextJobId = 0x9200 + next
  used : m.authority.planeExperienceUsed = r.observed
  ledger : ∀ i : Fin 8, i.val < r.observed →
    (m.authority.planeExperience i).completion.executionSequence ≤ r.observed

structure Idle (m : Machine) (r : Round) : Prop where
  quiet : Quiet m.authority
  counters : Counters m r r.observed

structure Busy (S : Setup) (m : Machine) (r : Round) (cancelled : Bool) : Prop where
  working : Working m.authority m.demo.issued cancelled
  issued : m.demo.issued = submissionOf S.epoch r.observed r.version
  binding : m.demo.binding = bindingFromSubmission m.demo.issued
  counters : Counters m r (r.observed + 1)

/-- The broker is in the round. -/
structure Rel (S : Setup) (m : Machine) (r : Round) : Prop where
  common : Common S m r
  phase : match r.state with
    | .dispatched => Busy S m r false
    | .cancelRequested => Busy S m r true
    | .fault => Quiet m.authority
    | _ => Idle m r

section Authority

variable {S : Setup} {s : State}

theorem authorized {table : CapTable} {task cap type right : ℕ} (h : s.capTable = table)
    (hview : (capResolve table task cap type right).any fun view => view.objectId == 1) :
    planeCapAuthorized s task cap type right = true := by
  unfold planeCapAuthorized
  rw [h]
  cases hresolve : capResolve table task cap type right with
  | none => simp [hresolve] at hview
  | some view => simpa [hresolve] using hview

theorem data_authorized (h : s.capTable = S.table) : dataAuthorized s S.owner S.dataCap = true := authorized h S.data

theorem lookup_object {version : ℕ} {visible : ℕ → UInt8} (h : s.objects = objectsAt version visible) :
    jobObjectLookup s DEMO_OBJECT_ID = some (objectAt version) := by
  rw [jobObjectLookup, if_neg (by decide), h, find_object, Option.map_some]
  rfl

theorem job_admitted {version jobId : ℕ} {visible : ℕ → UInt8} (h : s.objects = objectsAt version visible)
    (hjob : jobId ≠ 0) (hversion : 1 ≤ version ∧ version ≤ 9) :
    admitted s (demoJob jobId (objectAt version)) = true := by
  have hvalid : raveilJobDescriptorValidate (demoJob jobId (objectAt version)) = true := job_valid hjob (by omega)
  have hmax : version ≠ UINT64_MAX := by
    unfold UINT64_MAX
    omega
  have hcount : (demoJob jobId (objectAt version)).objectCount = 1 := rfl
  have hid : ((demoJob jobId (objectAt version)).objects 0).objectId = DEMO_OBJECT_ID := rfl
  rw [admitted, hvalid, Bool.true_and, hcount, indices_one]
  simp only [List.all_cons, List.all_nil, Bool.and_true, admittedRef, hid, lookup_object h]
  simp [demoJob, objectAt, demoObject, hmax, RAVEIL_OBJECT_READ, RAVEIL_OBJECT_WRITE]

/-- A completion of another job is refused while the job runs. -/
theorem post_stale {x : Submission} {cancelled : Bool} (h : Working s x cancelled) {c : CompletionRecord}
    (hstale : completionBinding c ≠ bindingFromSubmission x) : jobCompletionPost s (some c) = (s, false) := by
  obtain ⟨snapshot, hinflight⟩ := h.inflight
  have hslot : firstSlot (fun i => (s.inflight i).active && (s.inflight i).dispatched &&
      !(s.inflight i).completionPosted && completionMatches c (s.inflight i).submission &&
      raveilCompletionRecordValidate (s.inflight i).submission.job c) = none := by
    rw [firstSlot_eq_none]
    intro i
    by_cases hi : i = 0
    · subst hi
      have hother : completionMatches c x = false := by
        rw [Bool.eq_false_iff]
        intro hmatches
        exact hstale (completionMatches_iff.mp hmatches)
      simp [hinflight, hother]
    · simp [hinflight, hi]
  have hempty : s.completions.used ≠ 4 := by simp [h.completions.used]
  rw [jobCompletionPost]
  simp only [if_neg hempty, hslot]

theorem cancel_spec {x : Submission} (h : Working s x false) :
    ∃ t, jobCancel s (some (bindingFromSubmission x)) = (t, true) ∧ Working t x true ∧ SameRest s t ∧
      t.nextSequence = s.nextSequence := by
  obtain ⟨snapshot, hinflight⟩ := h.inflight
  have hslot : firstSlot (fun i => (s.inflight i).active &&
      bindingMatches (bindingFromSubmission x) (s.inflight i).submission) = some 0 :=
    firstSlot_free (by simp [hinflight, bindingMatches_iff])
  refine ⟨{ s with inflight := Function.update s.inflight 0 ⟨true, true, false, true, x, default⟩ }, ?_,
    ⟨⟨default, ?_⟩, h.shadows, h.submissions, h.completions⟩, ⟨⟨rfl, rfl, rfl, rfl⟩, rfl, rfl⟩, rfl⟩
  · simp only [jobCancel, hslot]
    simp [hinflight]
  · change Function.update s.inflight 0 _ = _
    rw [hinflight, Function.update_idem]

theorem record_spec {shadow : ShadowSlot} {observed : ℕ} (h : Held s shadow) (hactive : shadow.active = true)
    (hmatches : completionBinding shadow.completion = bindingFromSubmission shadow.submission)
    (htable : s.capTable = S.table) (hused : s.planeExperienceUsed = observed) (hroom : observed ≠ 8)
    (hledger : ∀ i : Fin 8, i.val < observed →
      (s.planeExperience i).completion.executionSequence ≠ shadow.completion.executionSequence) :
    planeExperienceRecord s S.owner S.experienceCap (some shadow.completion) =
      ({ s with
        planeExperience := fun index => if index.val = observed then ⟨true, shadow.completion⟩
          else s.planeExperience index
        planeExperienceUsed := observed + 1 }, true) := by
  have hfind : findShadow s (some (completionBinding shadow.completion)) = some 0 := by
    rw [hmatches]
    exact h.find hactive
  have hnew : ¬ ∃ index : Fin 8, index.val < s.planeExperienceUsed ∧
      (s.planeExperience index).completion = shadow.completion := by
    rintro ⟨index, hindex, heq⟩
    exact hledger index (hused ▸ hindex) (by rw [heq])
  have hopen : ¬ ((!planeCapAuthorized s S.owner S.experienceCap CAP_OBJECT_EXPERIENCE_AUTHORITY CAP_RIGHT_WRITE) = true ∨
      s.planeExperienceUsed = 8) := by
    simp [authorized htable S.experience, hused, hroom]
  change findShadow s (some ⟨_, _, _, _⟩) = some 0 at hfind
  simp only [planeExperienceRecord]
  rw [if_neg hopen, hfind]
  dsimp only
  rw [h.slot, if_neg (not_not.mpr rfl), if_neg hnew, hused]

theorem record_full {c : CompletionRecord} (hused : s.planeExperienceUsed = 8) (task cap : ℕ) :
    planeExperienceRecord s task cap (some c) = (s, false) := by
  rw [planeExperienceRecord]
  exact if_pos (Or.inr hused)

end Authority

section Machine

variable {S : Setup} {m : Machine} {r : Round}

/-- The job of an idle broker is submitted and dispatched. -/
theorem submitDemo_spec (hc : Common S m r) (hi : Idle m r) :
    ∃ authority, submitDemo m S.owner =
        ({ m with
          authority
          demo.nextJobId := 0x9200 + (r.observed + 1)
          demo.binding := bindingFromSubmission (submissionOf S.epoch r.observed r.version)
          demo.issued := submissionOf S.epoch r.observed r.version }, true) ∧
      Working authority (submissionOf S.epoch r.observed r.version) false ∧ SameRest m.authority authority ∧
      authority.nextSequence = r.observed + 1 + 1 := by
  obtain ⟨visible, hobjects, -⟩ := hc.objects
  have hobserved := hc.observed
  have hversion := hc.version
  have hadmitted : admitted m.authority (demoJob m.demo.nextJobId (objectAt r.version)) = true :=
    job_admitted hobjects (by rw [hi.counters.jobId]; omega) (by omega)
  have hsequence : m.authority.nextSequence ≠ 0 := by
    rw [hi.counters.sequence]
    omega
  obtain ⟨t, u, hsubmit, htake, hworking, hsame, hnext⟩ := submit_take hi.quiet hadmitted hsequence
  have hissued : newSubmission m.authority (demoJob m.demo.nextJobId (objectAt r.version)) =
      submissionOf S.epoch r.observed r.version := by
    rw [newSubmission, hc.epoch, hi.counters.sequence, hi.counters.jobId]
    rfl
  have hpair : planeJobPairInstalled m.authority (demoJob m.demo.nextJobId (objectAt r.version)) = true :=
    decide_eq_true hc.pair
  have hjob : (m.demo.nextJobId + 1) % 2 ^ 64 = 0x9200 + (r.observed + 1) := by
    rw [hi.counters.jobId, Nat.mod_eq_of_lt (by omega)]
    omega
  rw [hissued] at hsubmit htake hworking
  have hsequence' : u.nextSequence = r.observed + 1 + 1 := by
    rw [hnext, hi.counters.sequence, Nat.mod_eq_of_lt (by omega)]
  refine ⟨u, ?_, hworking, hsame, hsequence'⟩
  have hbound : planeJobSubmitBound m.authority S.owner m.demo.dataCap
      (some (demoJob m.demo.nextJobId (objectAt r.version))) true =
      (t, some (bindingFromSubmission (submissionOf S.epoch r.observed r.version))) := by
    rw [planeJobSubmitBound, hc.dataCap, data_authorized hc.table, Option.any_some, hpair, Bool.and_self,
      if_pos rfl, hsubmit]
  simp only [submitDemo, lookup_object hobjects, hbound, htake, hjob]

theorem Common.same {authority : State} (hc : Common S m r) (h : SameBase m.authority authority)
    {demo : DemoContext} {vfs : Vfs} {r' : Round} (hdemo : demo.initialized = m.demo.initialized ∧
      demo.owner = m.demo.owner ∧ demo.programCap = m.demo.programCap ∧ demo.dataCap = m.demo.dataCap ∧
      demo.experienceCap = m.demo.experienceCap) (hround : r'.version = r.version ∧ r'.written = r.written)
    (hobserved : r.observed ≤ r'.observed ∧ r'.observed ≤ 8) (hstate : demo.state = r'.state)
    (hsemantic : demo.semantic = decide (r'.state = .completed))
    (hchecksum : demo.checksum = if r'.state = .completed then valuesChecksum expectedDemoGemm else 0)
    (hfull : r'.state = .fault → r'.observed = 8) :
    Common S ⟨authority, demo, vfs⟩ r' := by
  obtain ⟨hinitialized, howner, hprogram, hdata, hexperience⟩ := hdemo
  obtain ⟨visible, hobjects, hholds⟩ := hc.objects
  have hversion := hc.version
  refine ⟨h.capTable.trans hc.table, hinitialized.trans hc.initialized, howner.trans hc.owner,
    hprogram.trans hc.programCap, hdata.trans hc.dataCap, hexperience.trans hc.experienceCap, ?_,
    h.authorityEpoch.trans hc.epoch, ⟨visible, ?_, ?_⟩, hstate, hsemantic, hchecksum, by omega, hobserved.2, hfull⟩
  · change ∃ i, (authority.planeGraphs i).active = true ∧ _
    rw [h.planeGraphs]
    exact hc.pair
  · rw [hround.1]
    exact h.objects.trans hobjects
  · rw [hround.2]
    exact hholds

/-- A frame is emitted. -/
structure Answered (S : Setup) (r : Round) (command : Command) (status : Status) (out : Machine × Frame × ℕ) : Prop where
  rel : Rel S out.1 r
  command : out.2.1.command = command
  status : out.2.1.status = status
  state : out.2.1.state = r.state
  semantic : out.2.1.semantic = decide (r.state = .completed)
  checksum : out.2.1.checksum = if r.state = .completed then valuesChecksum expectedDemoGemm else 0

theorem Rel.frame (h : Rel S m r) (n : ℕ) (vfs : Vfs) : Rel S { m with demo.frameSequence := n, vfs } r := by
  obtain ⟨hc, hphase⟩ := h
  refine ⟨⟨hc.table, hc.initialized, hc.owner, hc.programCap, hc.dataCap, hc.experienceCap, hc.pair, hc.epoch,
    hc.objects, hc.state, hc.semantic, hc.checksum, hc.version, hc.observed, hc.full⟩, ?_⟩
  have hidle : Idle m r → Idle { m with demo.frameSequence := n, vfs } r := fun h =>
    ⟨h.quiet, h.counters.sequence, h.counters.jobId, h.counters.used, h.counters.ledger⟩
  have hbusy : ∀ cancelled, Busy S m r cancelled → Busy S { m with demo.frameSequence := n, vfs } r cancelled :=
    fun _ h => ⟨h.working, h.issued, h.binding, h.counters.sequence, h.counters.jobId, h.counters.used, h.counters.ledger⟩
  rcases hstate : r.state with _ | _ | _ | _ | _ | _ <;> rw [hstate] at hphase
  · exact hidle hphase
  · exact hbusy false hphase
  · exact hbusy true hphase
  · exact hidle hphase
  · exact hidle hphase
  · exact hphase

theorem Rel.answer (h : Rel S m r) (command : Command) (status : Status) (value : ℕ) :
    Answered S r command status (answer m command status value) :=
  ⟨h.frame _ _, rfl, rfl, h.common.state, h.common.semantic, h.common.checksum⟩

theorem xor_one_ne (a : ℕ) : a ^^^ 1 ≠ a := by
  intro h
  have hone : a ^^^ (a ^^^ 1) = 1 := by rw [← Nat.xor_assoc, Nat.xor_self, Nat.zero_xor]
  rw [h, Nat.xor_self] at hone
  cases hone

theorem stale_rejected {x : Submission} {cancelled : Bool} (h : Working m.authority x cancelled)
    (hissued : m.demo.issued = x) : staleCompletionRejected m = (m, true) := by
  have hstale : completionBinding { fillCompletion m RAVEIL_COMPLETION_EXECUTED with
      executionSequence := (fillCompletion m RAVEIL_COMPLETION_EXECUTED).executionSequence ^^^ 1 } ≠
      bindingFromSubmission x := by
    intro heq
    have hsequence : m.demo.issued.executionSequence ^^^ 1 = x.executionSequence :=
      congrArg Binding.executionSequence heq
    rw [hissued] at hsequence
    exact xor_one_ne _ hsequence
  rw [staleCompletionRejected, post_stale h hstale]
  rfl

theorem run_spec (hc : Common S m r) (hi : Idle m r)
    (hstate : r.state ≠ .dispatched ∧ r.state ≠ .cancelRequested ∧ r.state ≠ .fault) :
    Answered S { r with state := .dispatched } .run .ok (runDemo m S.owner) := by
  obtain ⟨authority, hsubmit, hworking, hsame, hnext⟩ := submitDemo_spec hc hi
  have hbusy : ¬ (m.demo.state = .dispatched ∨ m.demo.state = .cancelRequested) := by
    rw [hc.state]
    exact not_or.mpr ⟨hstate.1, hstate.2.1⟩
  have hfault : ¬ m.demo.state = .fault := by
    rw [hc.state]
    exact hstate.2.2
  rw [runDemo, if_neg hbusy, if_neg hfault, hsubmit]
  dsimp only
  rw [stale_rejected hworking rfl]
  apply Rel.answer
  constructor
  · apply hc.same hsame.toSameBase
    · exact ⟨rfl, rfl, rfl, rfl, rfl⟩
    · exact ⟨rfl, rfl⟩
    · exact ⟨le_rfl, hc.observed⟩
    · rfl
    · rfl
    · rfl
    · intro hfault
      cases hfault
  · refine ⟨hworking, rfl, rfl, ⟨hnext, rfl, hsame.planeExperienceUsed.trans hi.counters.used, ?_⟩⟩
    intro i hlt
    change (authority.planeExperience i).completion.executionSequence ≤ r.observed
    rw [hsame.planeExperience]
    exact hi.counters.ledger i hlt

theorem cancelDemo_spec (hc : Common S m r) (hb : Busy S m r false) (hstate : r.state = .dispatched) :
    Answered S { r with state := .cancelRequested } .cancel .ok (cancelDemo m) := by
  obtain ⟨authority, hcancel, hworking, hsame, hnext⟩ := cancel_spec hb.working
  have hdispatched : m.demo.state = .dispatched := hc.state.trans hstate
  rw [cancelDemo, hdispatched, if_neg (by decide), if_neg (by decide), hb.binding, hcancel]
  apply Rel.answer
  constructor
  · apply hc.same hsame.toSameBase
    · exact ⟨rfl, rfl, rfl, rfl, rfl⟩
    · exact ⟨rfl, rfl⟩
    · exact ⟨le_rfl, hc.observed⟩
    · rfl
    · rw [hc.semantic, hstate]
      rfl
    · rw [hc.checksum, hstate]
      rfl
    · intro hfault
      cases hfault
  · refine ⟨hworking, hb.issued, hb.binding, ⟨hnext.trans hb.counters.sequence, hb.counters.jobId,
      hsame.planeExperienceUsed.trans hb.counters.used, ?_⟩⟩
    intro i hlt
    change (authority.planeExperience i).completion.executionSequence ≤ r.observed
    rw [hsame.planeExperience]
    exact hb.counters.ledger i hlt

/-- The completion of the running job is posted and consumed at the first try. -/
theorem takeCompletion_spec {cancelled : Bool} (hc : Common S m r) (hb : Busy S m r cancelled) :
    ∃ authority, takeCompletion m cancelled = ({ m with authority }, some (fillCompletion m
        (if cancelled then RAVEIL_COMPLETION_CANCELLED else RAVEIL_COMPLETION_EXECUTED))) ∧
      Held authority ⟨true, false, cancelled, m.demo.issued, fillCompletion m
        (if cancelled then RAVEIL_COMPLETION_CANCELLED else RAVEIL_COMPLETION_EXECUTED), default, default⟩ ∧
      SameRest m.authority authority ∧ authority.nextSequence = m.authority.nextSequence := by
  have hversion : 1 ≤ r.version ∧ r.version ≤ 9 := by
    have := hc.version
    have := hc.observed
    omega
  have hvalid : raveilCompletionRecordValidate m.demo.issued.job (fillCompletion m
      (if cancelled then RAVEIL_COMPLETION_CANCELLED else RAVEIL_COMPLETION_EXECUTED)) = true := by
    cases cancelled with
    | true =>
      have := cancelled_valid hb.issued S.epoch_ne hc.observed hversion
      rwa [← hb.issued] at this
    | false =>
      have := executed_valid hb.issued S.epoch_ne hc.observed hversion
      rwa [← hb.issued] at this
  obtain ⟨t, u, hpost, htake, hheld, hsame, hnext⟩ := post_take hb.working (completion_binding _) hvalid
  have hpending : jobCompletionPending m.authority m.demo.binding = false := by
    rw [jobCompletionPending, hb.working.completions.used]
    rfl
  refine ⟨u, ?_, hheld, hsame, hnext⟩
  rw [takeCompletion, hpending, if_neg Bool.false_ne_true]
  simp only [hpost, hb.binding, htake]

/-- A fault leaves nothing of the job. -/
theorem terminalFault_spec {shadow : ShadowSlot} {authority : State} (hc : Common S m r)
    (hsame : SameBase m.authority authority) (hheld : Held authority shadow) (hactive : shadow.active = true)
    (hbinding : m.demo.binding = bindingFromSubmission shadow.submission) (hfull : r.observed = 8) :
    Rel S (terminalFault { m with authority } S.owner) { r with state := .fault } := by
  have hfinalize : planeDataFinalize authority S.owner m.demo.dataCap (some m.demo.binding) false =
      (cleared authority, .rolledBack) := by
    rw [planeDataFinalize, hc.dataCap, data_authorized (hsame.capTable.trans hc.table), if_pos rfl, hbinding,
      finalize_false hheld hactive]
  have hend : SameBase m.authority (cleared authority) :=
    ⟨hsame.objects, hsame.authorityEpoch, hsame.planeGraphs, hsame.capTable⟩
  unfold terminalFault
  dsimp only
  rw [hfinalize]
  constructor
  · apply hc.same hend
    · exact ⟨rfl, rfl, rfl, rfl, rfl⟩
    · exact ⟨rfl, rfl⟩
    · exact ⟨le_rfl, hc.observed⟩
    · rfl
    · rfl
    · rfl
    · exact fun _ => hfull
  · exact hheld.quiet

/-- The authority after the completion of the running job is observed. -/
def observed (authority : State) (number : ℕ) (c : CompletionRecord) : State :=
  { authority with
    planeExperience := fun index => if index.val = number then ⟨true, c⟩ else authority.planeExperience index
    planeExperienceUsed := number + 1 }

/-- With room in the ledger the completion is observed, and the next job may start from there. -/
theorem observe_spec {cancelled : Bool} {status : ℕ} {authority : State} (hc : Common S m r) (hb : Busy S m r cancelled)
    (hsame : SameRest m.authority authority) (hnext : authority.nextSequence = m.authority.nextSequence)
    (hheld : Held authority ⟨true, false, cancelled, m.demo.issued, fillCompletion m status, default, default⟩)
    (hroom : r.observed ≠ 8) :
    planeExperienceRecord authority S.owner m.demo.experienceCap (some (fillCompletion m status)) =
        (observed authority r.observed (fillCompletion m status), true) ∧
      ∀ t : State, t.nextSequence = authority.nextSequence →
        t.planeExperience = (observed authority r.observed (fillCompletion m status)).planeExperience →
        t.planeExperienceUsed = r.observed + 1 → ∀ demo vfs r', demo.nextJobId = m.demo.nextJobId →
        r'.observed = r.observed + 1 → Counters ⟨t, demo, vfs⟩ r' (r.observed + 1) := by
  have hsequence : (fillCompletion m status).executionSequence = r.observed + 1 := by
    change m.demo.issued.executionSequence = _
    rw [hb.issued]
    rfl
  have hused : authority.planeExperienceUsed = r.observed := hsame.planeExperienceUsed.trans hb.counters.used
  have hledger : ∀ i : Fin 8, i.val < r.observed →
      (authority.planeExperience i).completion.executionSequence ≤ r.observed := by
    rw [hsame.planeExperience]
    exact hb.counters.ledger
  constructor
  · rw [hc.experienceCap]
    apply record_spec hheld rfl (completion_binding status) (hsame.capTable.trans hc.table) hused hroom
    intro i hi
    have hold := hledger i hi
    dsimp only
    omega
  · intro t hsequence' hexperience hused' demo vfs r' hjob hr'
    refine ⟨hsequence'.trans (hnext.trans hb.counters.sequence), hjob.trans hb.counters.jobId, hused'.trans hr'.symm, ?_⟩
    intro i hi
    change (t.planeExperience i).completion.executionSequence ≤ r'.observed
    rw [hexperience, hr']
    change (if i.val = r.observed then (⟨true, fillCompletion m status⟩ : ExperienceEntry)
      else authority.planeExperience i).completion.executionSequence ≤ r.observed + 1
    by_cases hlast : i.val = r.observed
    · rw [if_pos hlast]
      exact hsequence.le
    · rw [if_neg hlast]
      exact (hledger i (by omega)).trans (Nat.le_succ _)

theorem finish_cancelled (hc : Common S m r) (hb : Busy S m r true) :
    Rel S (finishDemo m S.owner true) (r.finish true) := by
  obtain ⟨authority, htake, hheld, hsame, hnext⟩ := takeCompletion_spec hc hb
  rw [finishDemo, htake]
  dsimp only
  rw [if_pos rfl] at hheld ⊢
  unfold Round.finish
  by_cases hfull : r.observed = 8
  · rw [record_full ((hsame.planeExperienceUsed.trans hb.counters.used).trans hfull), if_pos hfull]
    exact terminalFault_spec hc hsame.toSameBase hheld rfl hb.binding hfull
  · obtain ⟨hrecord, hcounters⟩ := observe_spec hc hb hsame hnext hheld hfull
    have hheld' : Held (observed authority r.observed (fillCompletion m RAVEIL_COMPLETION_CANCELLED)) _ :=
      ⟨hheld.inflight, hheld.shadows, hheld.submissions, hheld.completions⟩
    have hfinalize : planeDataFinalize (observed authority r.observed (fillCompletion m RAVEIL_COMPLETION_CANCELLED))
        S.owner m.demo.dataCap (some m.demo.binding) false =
        (cleared (observed authority r.observed (fillCompletion m RAVEIL_COMPLETION_CANCELLED)), .rolledBack) := by
      have htable : (observed authority r.observed (fillCompletion m RAVEIL_COMPLETION_CANCELLED)).capTable = S.table :=
        hsame.capTable.trans hc.table
      rw [planeDataFinalize, hc.dataCap, data_authorized htable, if_pos rfl, hb.binding, finalize_false hheld' rfl]
    have hend : SameBase m.authority
        (cleared (observed authority r.observed (fillCompletion m RAVEIL_COMPLETION_CANCELLED))) :=
      ⟨hsame.objects, hsame.authorityEpoch, hsame.planeGraphs, hsame.capTable⟩
    rw [hrecord, if_neg hfull]
    dsimp only
    rw [if_pos rfl, if_pos rfl, hfinalize]
    constructor
    · apply hc.same hend
      · exact ⟨rfl, rfl, rfl, rfl, rfl⟩
      · exact ⟨rfl, rfl⟩
      · have := hc.observed
        constructor <;> dsimp only <;> omega
      · rfl
      · rfl
      · rfl
      · intro hfault
        cases hfault
    · exact ⟨hheld'.quiet, hcounters
        (cleared (observed authority r.observed (fillCompletion m RAVEIL_COMPLETION_CANCELLED))) rfl rfl rfl _ _ _ rfl rfl⟩

theorem gemm_eq : computeDemoGemm = expectedDemoGemm := by decide

/-- The observed product is staged, approved and committed. -/
theorem publish_spec {seen : State} {c : CompletionRecord} (hc : Common S m r)
    (hissued : m.demo.issued = submissionOf S.epoch r.observed r.version)
    (hbinding : m.demo.binding = bindingFromSubmission m.demo.issued) (hseen : SameBase m.authority seen)
    (hheld : Held seen (unstaged S.epoch r.observed r.version c)) (hstatus : c.status = RAVEIL_COMPLETION_EXECUTED)
    (hcount : c.outputCount = 1) (hout : c.outputs 0 = ⟨DEMO_OBJECT_ID, 1, r.version + 1⟩) :
    ∃ authority visible, publishDemo { m with authority := seen } S.owner =
        { m with authority, demo.state := .completed, demo.checksum := valuesChecksum expectedDemoGemm,
                 demo.semantic := true } ∧ Quiet authority ∧
      authority.objects = objectsAt (r.version + 1) visible ∧ Holds visible true ∧
      authority.authorityEpoch = seen.authorityEpoch ∧ authority.planeGraphs = seen.planeGraphs ∧
      authority.capTable = seen.capTable ∧ authority.nextSequence = seen.nextSequence ∧
      authority.planeExperience = seen.planeExperience ∧ authority.planeExperienceUsed = seen.planeExperienceUsed := by
  obtain ⟨visible, hobjects, -⟩ := hc.objects
  have hversion : r.version ≤ 9 := by
    have := hc.version
    have := hc.observed
    omega
  have htable : seen.capTable = S.table := hseen.capTable.trans hc.table
  obtain ⟨written, hwritten⟩ : ∃ t, t = withShadow seen (staged S.epoch r.observed r.version c product false) := ⟨_, rfl⟩
  have hwrite : planeDataShadowWrite seen S.owner m.demo.dataCap (some m.demo.binding) DEMO_OBJECT_ID 0
      (some (valuesBytes computeDemoGemm)) 32 = (written, true) := by
    rw [planeDataShadowWrite, hc.dataCap, data_authorized htable, if_pos rfl, hbinding, hissued, gemm_eq, hwritten]
    exact write_spec hheld hstatus
  have hheldWritten : Held written (staged S.epoch r.observed r.version c product false) := by
    rw [hwritten]
    exact hheld.replace _
  have htableWritten : written.capTable = S.table := by
    rw [hwritten]
    exact htable
  obtain ⟨approved, happroved⟩ : ∃ t, t = withShadow written (staged S.epoch r.observed r.version c product true) :=
    ⟨_, rfl⟩
  have happrove : planeProgramApprove written S.owner m.demo.programCap (some m.demo.binding) = (approved, true) := by
    rw [planeProgramApprove, hc.programCap, authorized htableWritten S.program, if_pos rfl, hbinding, hissued, happroved]
    exact approve_spec hheldWritten hstatus
  have hheldApproved : Held approved (staged S.epoch r.observed r.version c product true) := by
    rw [happroved]
    exact hheldWritten.replace _
  have htableApproved : approved.capTable = S.table := by
    rw [happroved]
    exact htableWritten
  have hobjectsApproved : approved.objects = objectsAt r.version visible := by
    rw [happroved, hwritten]
    exact hseen.objects.trans hobjects
  have hcommit : planeDataFinalize approved S.owner m.demo.dataCap (some m.demo.binding) true =
      ({ cleared approved with objects := objectsAt (r.version + 1) (published product visible) }, .committed) := by
    rw [planeDataFinalize, hc.dataCap, data_authorized htableApproved, if_pos rfl, hbinding, hissued]
    exact commit_spec hheldApproved hcount hout hobjectsApproved hversion
  have hquiet := hheldApproved.quiet
  refine ⟨{ cleared approved with objects := objectsAt (r.version + 1) (published product visible) },
    published product visible, ?_, ⟨hquiet.inflight, hquiet.shadows, hquiet.submissions, hquiet.completions⟩, rfl, ?_, ?_⟩
  · rw [publishDemo, if_neg (by rw [gemm_eq]; exact not_or.mpr ⟨not_not.mpr rfl, not_not.mpr rfl⟩)]
    dsimp only
    simp only [hwrite, happrove, hcommit]
    rw [gemm_eq]
  · intro byte hbyte
    rw [if_pos rfl, published, if_pos hbyte]
  · subst happroved hwritten
    exact ⟨rfl, rfl, rfl, rfl, rfl, rfl⟩

theorem finish_executed (hc : Common S m r) (hb : Busy S m r false) :
    Rel S (finishDemo m S.owner false) (r.finish false) := by
  obtain ⟨authority, htake, hheld, hsame, hnext⟩ := takeCompletion_spec hc hb
  rw [finishDemo, htake]
  dsimp only
  rw [if_neg Bool.false_ne_true] at hheld ⊢
  unfold Round.finish
  by_cases hfull : r.observed = 8
  · rw [record_full ((hsame.planeExperienceUsed.trans hb.counters.used).trans hfull), if_pos hfull]
    exact terminalFault_spec hc hsame.toSameBase hheld rfl hb.binding hfull
  · obtain ⟨hrecord, hcounters⟩ := observe_spec hc hb hsame hnext hheld hfull
    have hbase : SameBase m.authority (observed authority r.observed (fillCompletion m RAVEIL_COMPLETION_EXECUTED)) :=
      ⟨hsame.objects, hsame.authorityEpoch, hsame.planeGraphs, hsame.capTable⟩
    have hheld' : Held (observed authority r.observed (fillCompletion m RAVEIL_COMPLETION_EXECUTED))
        (unstaged S.epoch r.observed r.version (fillCompletion m RAVEIL_COMPLETION_EXECUTED)) := by
      rw [hb.issued] at hheld
      exact ⟨hheld.inflight, hheld.shadows, hheld.submissions, hheld.completions⟩
    have hversion := hc.version
    have hobserved := hc.observed
    have hout : (fillCompletion m RAVEIL_COMPLETION_EXECUTED).outputs 0 = ⟨DEMO_OBJECT_ID, 1, r.version + 1⟩ := by
      have hnextVersion : ((m.demo.issued.job.objects 0).expectedVersion + 1) % 2 ^ 64 = r.version + 1 := by
        rw [hb.issued]
        exact Nat.mod_eq_of_lt (show r.version + 1 < 2 ^ 64 by omega)
      rw [← hnextVersion]
      rfl
    obtain ⟨final, visible, hpublish, hquiet, hobjects, hholds, hepoch, hgraphs, htable, hsequence, hexperience, hused⟩ :=
      publish_spec hc hb.issued hb.binding hbase hheld' rfl rfl hout
    rw [hrecord, if_neg hfull, if_neg Bool.false_ne_true]
    dsimp only
    rw [if_neg Bool.false_ne_true, hpublish]
    constructor
    · refine ⟨htable.trans (hsame.capTable.trans hc.table), hc.initialized, hc.owner, hc.programCap, hc.dataCap,
        hc.experienceCap, ?_, hepoch.trans (hsame.authorityEpoch.trans hc.epoch), ⟨visible, hobjects, hholds⟩, rfl, rfl,
        rfl, ?_, ?_, ?_⟩
      · change ∃ i, (final.planeGraphs i).active = true ∧ _
        have hgraphs' : final.planeGraphs = m.authority.planeGraphs := hgraphs.trans hsame.planeGraphs
        rw [hgraphs']
        exact hc.pair
      · dsimp only
        omega
      · dsimp only
        omega
      · intro hfault
        cases hfault
    · exact ⟨hquiet, hcounters final hsequence hexperience hused _ _ _ rfl rfl⟩

end Machine

end Raveil.Demo
