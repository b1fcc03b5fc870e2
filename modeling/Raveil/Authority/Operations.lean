import Raveil.Authority.JobAuthority

/-! The operations of the authority as one alphabet, and runs over it. -/
namespace Raveil.Authority
open Raveil.Lib

/-- The functions that can change the tables, the hooks of the test build included; the remaining
ones are functions of the state. -/
inductive Op
  | capInit
  | capCreate (ownerTask objectType objectId rights : ℕ)
  | capDelegate (sourceOwner source targetOwner rights : ℕ)
  | capRevoke (handle : ℕ)
  | planeAuthorityInit
  | planeProgramInstall (task cap : ℕ) (identity : Option Identity)
  | planeGraphInstall (task cap : ℕ) (program graph : Option Identity)
  | planeDataObjectRegister (task cap : ℕ) (manifest : Option ObjectManifest)
  | planeDataObjectRegisterBytes (task cap : ℕ) (manifest : Option ObjectManifest)
      (initialBytes : Option (ℕ → UInt8)) (length : ℕ)
  | planeJobSubmitBound (task dataCap : ℕ) (job : Option JobDescriptor) (binding : Bool)
  | planeProgramApprove (task programCap : ℕ) (binding : Option Binding)
  | planeDataShadowWrite (task dataCap : ℕ) (binding : Option Binding) (objectId offset : ℕ)
      (source : Option (ℕ → UInt8)) (length : ℕ)
  | planeDataFinalize (task dataCap : ℕ) (binding : Option Binding) (commit : Bool)
  | planeExperienceRecord (task experienceCap : ℕ) (completion : Option CompletionRecord)
  | jobSubmissionTake (submission : Bool)
  | jobCompletionPost (completion : Option CompletionRecord)
  | jobCompletionTake (completion : Bool)
  | jobCompletionTakeBound (binding : Option Binding) (completion : Bool)
  | jobCancel (binding : Option Binding)
  | jobObjectRegisterTest (manifest : Option ObjectManifest)
  | jobSubmitTest (job : Option JobDescriptor)
  | jobSubmitBoundTest (job : Option JobDescriptor) (binding : Bool)
  | jobShadowApproveTest (binding : Option Binding)
  | jobShadowStageZeroTest (binding : Option Binding)
  | jobShadowWriteTest (binding : Option Binding) (objectId offset : ℕ)
      (source : Option (ℕ → UInt8)) (length : ℕ)
  | jobShadowFinalizeTest (binding : Option Binding) (commit : Bool)

/-- What a call returns, with the value behind its output pointer; `job_submit_test` only returns
whether there is a binding. -/
inductive Reply
  | done
  | handle (value : ℕ)
  | bool (value : Bool)
  | binding (value : Option Binding)
  | submission (value : Option Submission)
  | completion (value : Option CompletionRecord)
  | finalize (value : FinalizeResult)

/-- The calls into the job tables, after the capability checks. -/
inductive Call
  | register (manifest : Option ObjectManifest) (initialBytes : Option (ℕ → UInt8)) (length : ℕ)
      (zeroInitial : Bool)
  | submit (job : Option JobDescriptor) (binding : Bool)
  | take (submission : Bool)
  | post (completion : Option CompletionRecord)
  | takeCompletion (completion : Bool)
  | takeBound (binding : Option Binding) (completion : Bool)
  | cancel (binding : Option Binding)
  | approve (binding : Option Binding)
  | stageZero (binding : Option Binding)
  | write (binding : Option Binding) (objectId offset : ℕ) (source : Option (ℕ → UInt8)) (length : ℕ)
  | finalize (binding : Option Binding) (commit : Bool)

def reply {α : Type} (f : α → Reply) (r : State × α) : State × Reply := (r.1, f r.2)

def perform (s : State) : Op → State × Reply
  | .capInit => ({ s with capTable := capInit s.capTable }, .done)
  | .capCreate ownerTask objectType objectId rights =>
    let r := capCreate s.capTable ownerTask objectType objectId rights
    ({ s with capTable := r.1 }, .handle r.2)
  | .capDelegate sourceOwner source targetOwner rights =>
    let r := capDelegate s.capTable sourceOwner source targetOwner rights
    ({ s with capTable := r.1 }, .handle r.2)
  | .capRevoke handle =>
    let r := capRevoke s.capTable handle
    ({ s with capTable := r.1 }, .bool r.2)
  | .planeAuthorityInit => (planeAuthorityInit s, .done)
  | .planeProgramInstall task cap identity => reply .bool (planeProgramInstall s task cap identity)
  | .planeGraphInstall task cap program graph => reply .bool (planeGraphInstall s task cap program graph)
  | .planeDataObjectRegister task cap manifest =>
    reply .bool (planeDataObjectRegister s task cap manifest)
  | .planeDataObjectRegisterBytes task cap manifest initialBytes length =>
    reply .bool (planeDataObjectRegisterBytes s task cap manifest initialBytes length)
  | .planeJobSubmitBound task dataCap job binding =>
    reply .binding (planeJobSubmitBound s task dataCap job binding)
  | .planeProgramApprove task programCap binding =>
    reply .bool (planeProgramApprove s task programCap binding)
  | .planeDataShadowWrite task dataCap binding objectId offset source length =>
    reply .bool (planeDataShadowWrite s task dataCap binding objectId offset source length)
  | .planeDataFinalize task dataCap binding commit =>
    reply .finalize (planeDataFinalize s task dataCap binding commit)
  | .planeExperienceRecord task experienceCap completion =>
    reply .bool (planeExperienceRecord s task experienceCap completion)
  | .jobSubmissionTake submission => reply .submission (jobSubmissionTake s submission)
  | .jobCompletionPost completion => reply .bool (jobCompletionPost s completion)
  | .jobCompletionTake completion => reply .completion (jobCompletionTake s completion)
  | .jobCompletionTakeBound binding completion =>
    reply .completion (jobCompletionTakeBound s binding completion)
  | .jobCancel binding => reply .bool (jobCancel s binding)
  | .jobObjectRegisterTest manifest => reply .bool (jobObjectRegisterCore s manifest)
  | .jobSubmitTest job => reply .binding (jobSubmitBoundCore s job true)
  | .jobSubmitBoundTest job binding => reply .binding (jobSubmitBoundCore s job binding)
  | .jobShadowApproveTest binding => reply .bool (jobShadowApproveCore s binding)
  | .jobShadowStageZeroTest binding => reply .bool (jobShadowStageZeroTest s binding)
  | .jobShadowWriteTest binding objectId offset source length =>
    reply .bool (jobShadowWriteCore s binding objectId offset source length)
  | .jobShadowFinalizeTest binding commit => reply .finalize (jobShadowFinalizeCore s binding commit)

/-- The job-table call an operation makes, if its capability checks pass. -/
def call (s : State) : Op → Option Call
  | .capInit | .capCreate .. | .capDelegate .. | .capRevoke .. | .planeAuthorityInit
  | .planeProgramInstall .. | .planeGraphInstall .. | .planeExperienceRecord .. => none
  | .planeDataObjectRegister task cap manifest =>
    if dataAuthorized s task cap then some (.register manifest none 0 true) else none
  | .planeDataObjectRegisterBytes task cap manifest initialBytes length =>
    if dataAuthorized s task cap then some (.register manifest initialBytes length false) else none
  | .planeJobSubmitBound task dataCap job binding =>
    if dataAuthorized s task dataCap && job.any (planeJobPairInstalled s) then some (.submit job binding)
    else none
  | .planeProgramApprove task programCap binding =>
    if planeCapAuthorized s task programCap CAP_OBJECT_PROGRAM_AUTHORITY CAP_RIGHT_CONTROL then
      some (.approve binding)
    else none
  | .planeDataShadowWrite task dataCap binding objectId offset source length =>
    if dataAuthorized s task dataCap then some (.write binding objectId offset source length) else none
  | .planeDataFinalize task dataCap binding commit =>
    if dataAuthorized s task dataCap then some (.finalize binding commit) else none
  | .jobSubmissionTake submission => some (.take submission)
  | .jobCompletionPost completion => some (.post completion)
  | .jobCompletionTake completion => some (.takeCompletion completion)
  | .jobCompletionTakeBound binding completion => some (.takeBound binding completion)
  | .jobCancel binding => some (.cancel binding)
  | .jobObjectRegisterTest manifest => some (.register manifest none 0 true)
  | .jobSubmitTest job => some (.submit job true)
  | .jobSubmitBoundTest job binding => some (.submit job binding)
  | .jobShadowApproveTest binding => some (.approve binding)
  | .jobShadowStageZeroTest binding => some (.stageZero binding)
  | .jobShadowWriteTest binding objectId offset source length =>
    some (.write binding objectId offset source length)
  | .jobShadowFinalizeTest binding commit => some (.finalize binding commit)

def performCall (s : State) : Call → State × Reply
  | .register manifest initialBytes length zeroInitial =>
    reply .bool (jobObjectRegisterBytesCore s manifest initialBytes length zeroInitial)
  | .submit job binding => reply .binding (jobSubmitBoundCore s job binding)
  | .take submission => reply .submission (jobSubmissionTake s submission)
  | .post completion => reply .bool (jobCompletionPost s completion)
  | .takeCompletion completion => reply .completion (jobCompletionTake s completion)
  | .takeBound binding completion => reply .completion (jobCompletionTakeBound s binding completion)
  | .cancel binding => reply .bool (jobCancel s binding)
  | .approve binding => reply .bool (jobShadowApproveCore s binding)
  | .stageZero binding => reply .bool (jobShadowStageZeroTest s binding)
  | .write binding objectId offset source length =>
    reply .bool (jobShadowWriteCore s binding objectId offset source length)
  | .finalize binding commit => reply .finalize (jobShadowFinalizeCore s binding commit)

/-- The job tables of two states agree. -/
structure SameTables (s t : State) : Prop where
  objects : t.objects = s.objects
  submissions : t.submissions = s.submissions
  completions : t.completions = s.completions
  inflight : t.inflight = s.inflight
  shadows : t.shadows = s.shadows
  authorityEpoch : t.authorityEpoch = s.authorityEpoch
  nextSequence : t.nextSequence = s.nextSequence

theorem sameTables_refl (s : State) : SameTables s s := ⟨rfl, rfl, rfl, rfl, rfl, rfl, rfl⟩

theorem sameTables_programInstall (s : State) (task cap : ℕ) (identity : Option Identity) :
    SameTables s (planeProgramInstall s task cap identity).1 := by
  unfold planeProgramInstall
  repeat' split
  all_goals exact ⟨rfl, rfl, rfl, rfl, rfl, rfl, rfl⟩

theorem sameTables_graphInstall (s : State) (task cap : ℕ) (program graph : Option Identity) :
    SameTables s (planeGraphInstall s task cap program graph).1 := by
  unfold planeGraphInstall
  repeat' split
  all_goals exact ⟨rfl, rfl, rfl, rfl, rfl, rfl, rfl⟩

theorem sameTables_experienceRecord (s : State) (task cap : ℕ) (completion : Option CompletionRecord) :
    SameTables s (planeExperienceRecord s task cap completion).1 := by
  unfold planeExperienceRecord
  dsimp only
  repeat' split
  all_goals exact ⟨rfl, rfl, rfl, rfl, rfl, rfl, rfl⟩

/-- An operation is its call into the job tables, or leaves them alone. -/
theorem perform_call (s : State) (op : Op) :
    (∃ c, call s op = some c ∧ perform s op = performCall s c) ∨
      (call s op = none ∧ SameTables s (perform s op).1) := by
  cases op with
  | capInit | capCreate | capDelegate | capRevoke | planeAuthorityInit =>
    exact Or.inr ⟨rfl, rfl, rfl, rfl, rfl, rfl, rfl, rfl⟩
  | planeProgramInstall => exact Or.inr ⟨rfl, sameTables_programInstall ..⟩
  | planeGraphInstall => exact Or.inr ⟨rfl, sameTables_graphInstall ..⟩
  | planeExperienceRecord => exact Or.inr ⟨rfl, sameTables_experienceRecord ..⟩
  | planeDataObjectRegister =>
    simp only [call, perform, planeDataObjectRegister]
    split
    · exact Or.inl ⟨_, rfl, rfl⟩
    · exact Or.inr ⟨rfl, sameTables_refl s⟩
  | planeDataObjectRegisterBytes =>
    simp only [call, perform, planeDataObjectRegisterBytes]
    split
    · exact Or.inl ⟨_, rfl, rfl⟩
    · exact Or.inr ⟨rfl, sameTables_refl s⟩
  | planeJobSubmitBound =>
    simp only [call, perform, planeJobSubmitBound]
    split
    · exact Or.inl ⟨_, rfl, rfl⟩
    · exact Or.inr ⟨rfl, sameTables_refl s⟩
  | planeProgramApprove =>
    simp only [call, perform, planeProgramApprove]
    split
    · exact Or.inl ⟨_, rfl, rfl⟩
    · exact Or.inr ⟨rfl, sameTables_refl s⟩
  | planeDataShadowWrite =>
    simp only [call, perform, planeDataShadowWrite]
    split
    · exact Or.inl ⟨_, rfl, rfl⟩
    · exact Or.inr ⟨rfl, sameTables_refl s⟩
  | planeDataFinalize =>
    simp only [call, perform, planeDataFinalize]
    split
    · exact Or.inl ⟨_, rfl, rfl⟩
    · exact Or.inr ⟨rfl, sameTables_refl s⟩
  | _ => exact Or.inl ⟨_, rfl, rfl⟩

/-- The state after `n` operations. -/
def run (s : State) (ops : ℕ → Op) : ℕ → State
  | 0 => s
  | n + 1 => (perform (run s ops n) (ops n)).1

/-- Operation `n` of a run makes this call and gets this reply. -/
def Did (s : State) (ops : ℕ → Op) (n : ℕ) (c : Call) (r : Reply) : Prop :=
  call (run s ops n) (ops n) = some c ∧ (perform (run s ops n) (ops n)).2 = r

theorem Did.performs {s : State} {ops : ℕ → Op} {n : ℕ} {c : Call} {r : Reply} (h : Did s ops n c r) :
    performCall (run s ops n) c = (run s ops (n + 1), r) := by
  obtain ⟨c', hc, hp⟩ | ⟨hc, -⟩ := perform_call (run s ops n) (ops n)
  · obtain rfl : c' = c := Option.some.inj (hc.symm.trans h.1)
    rw [← hp, ← h.2]
    rfl
  · simp [Did, hc] at h

/-- Every operation of a run is a call with its reply, or leaves the job tables alone. -/
theorem run_cases (s : State) (ops : ℕ → Op) (n : ℕ) :
    (∃ c r, Did s ops n c r ∧ performCall (run s ops n) c = (run s ops (n + 1), r)) ∨
      ((∀ c r, ¬ Did s ops n c r) ∧ SameTables (run s ops n) (run s ops (n + 1))) := by
  obtain ⟨c, hc, hp⟩ | ⟨hc, hsame⟩ := perform_call (run s ops n) (ops n)
  · have hd : Did s ops n c (perform (run s ops n) (ops n)).2 := ⟨hc, rfl⟩
    exact Or.inl ⟨c, _, hd, hd.performs⟩
  · exact Or.inr ⟨fun c r hd => by simp [Did, hc] at hd, hsame⟩

end Raveil.Authority
