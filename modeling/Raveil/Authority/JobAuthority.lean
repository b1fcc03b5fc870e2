import Raveil.Authority.Capability
import Raveil.Lib.RingBuffer

/-! The job authority: its tables and every operation that reads or changes them. -/
namespace Raveil.Authority
open Raveil.Lib

structure Submission where
  job : JobDescriptor
  executionEpoch : ℕ
  executionSequence : ℕ
  completionCookie : Identity
  deriving DecidableEq, Inhabited

structure Binding where
  jobId : ℕ
  executionEpoch : ℕ
  executionSequence : ℕ
  completionCookie : Identity
  deriving DecidableEq, Inhabited

structure ObjectSlot where
  active : Bool
  value : ObjectManifest
  visible : ℕ → UInt8
  deriving Inhabited

structure InflightSlot where
  active : Bool
  dispatched : Bool
  completionPosted : Bool
  cancelRequested : Bool
  submission : Submission
  snapshot : Fin 4 → ℕ → UInt8
  deriving Inhabited

structure ShadowSlot where
  active : Bool
  approved : Bool
  cancelRequested : Bool
  submission : Submission
  completion : CompletionRecord
  bytes : Fin 4 → ℕ → UInt8
  staged : Fin 4 → ℕ → Bool
  deriving Inhabited

structure ProgramEntry where
  active : Bool
  identity : Identity
  deriving Inhabited

structure GraphEntry where
  active : Bool
  programIdentity : Identity
  graphIdentity : Identity
  deriving Inhabited

structure ExperienceEntry where
  active : Bool
  completion : CompletionRecord
  deriving Inhabited

structure State where
  objects : Fin 8 → ObjectSlot
  submissions : RingBuffer Submission
  completions : RingBuffer CompletionRecord
  inflight : Fin 4 → InflightSlot
  shadows : Fin 4 → ShadowSlot
  authorityEpoch : ℕ
  nextSequence : ℕ
  planePrograms : Fin 4 → ProgramEntry
  planeGraphs : Fin 4 → GraphEntry
  planeExperience : Fin 8 → ExperienceEntry
  planeExperienceUsed : ℕ
  capTable : CapTable

inductive FinalizeResult
  | invalid | committed | rolledBack | conflict
  deriving DecidableEq, Repr

def jobAuthorityInit (s : State) (executionEpoch : ℕ) : State :=
  { s with
    objects := default
    submissions := RingBuffer.empty
    completions := RingBuffer.empty
    inflight := default
    shadows := default
    authorityEpoch := if executionEpoch = 0 then 1 else executionEpoch
    nextSequence := 1 }

def findObject (objects : Fin 8 → ObjectSlot) (id : ℕ) : Option (Fin 8) :=
  firstSlot fun i => (objects i).active && (objects i).value.objectId == id

/-- `job_object_register_bytes_core`; without bytes the object starts at zero. -/
def jobObjectRegisterBytesCore (s : State) (manifest : Option ObjectManifest)
    (initialBytes : Option (ℕ → UInt8)) (length : ℕ) (zeroInitial : Bool) : State × Bool :=
  match manifest with
  | none => (s, false)
  | some manifest =>
    if !raveilObjectManifestValidate manifest ∨ manifest.byteLength > 512 ∨
        (!zeroInitial ∧ (initialBytes.isNone ∨ length ≠ manifest.byteLength)) then (s, false)
    else if (findObject s.objects manifest.objectId).isSome then (s, false)
    else match firstSlot fun i => !(s.objects i).active with
      | none => (s, false)
      | some i =>
        let visible : ℕ → UInt8 := fun byte =>
          if !zeroInitial ∧ byte < length then (initialBytes.getD default) byte else 0
        ({ s with objects := Function.update s.objects i ⟨true, manifest, visible⟩ }, true)

def jobObjectRegisterCore (s : State) (manifest : Option ObjectManifest) : State × Bool :=
  jobObjectRegisterBytesCore s manifest none 0 true

def jobObjectLookup (s : State) (objectId : ℕ) : Option ObjectManifest :=
  if objectId = 0 then none else (findObject s.objects objectId).map fun i => (s.objects i).value

def jobObjectRead (s : State) (objectId offset length : ℕ) : Option (List UInt8) :=
  match findObject s.objects objectId with
  | none => none
  | some i =>
    if offset > (s.objects i).value.byteLength ∨
        length > (s.objects i).value.byteLength - offset then none
    else some ((List.range length).map fun index => (s.objects i).visible (offset + index))

/-- The check of one reference in `admitted`. -/
def admittedRef (s : State) (ref : ObjectRef) : Bool :=
  match jobObjectLookup s ref.objectId with
  | none => false
  | some manifest =>
    !(manifest.generation ≠ ref.generation ∨ manifest.version ≠ ref.expectedVersion ∨
      manifest.permittedAccess &&& ref.access ≠ ref.access ∨ ref.offset > manifest.byteLength ∨
      ref.length > manifest.byteLength - ref.offset ∨
      (ref.access = RAVEIL_OBJECT_WRITE ∧ ref.expectedVersion = UINT64_MAX))

def admitted (s : State) (job : JobDescriptor) : Bool :=
  raveilJobDescriptorValidate job && (indices 4 job.objectCount).all fun i => admittedRef s (job.objects i)

def makeCookie (authorityEpoch jobId sequence : ℕ) : Identity := fun index =>
  let first := jobId ^^^ authorityEpoch ^^^ 0x72617665696c6a31
  let second := sequence ^^^ 0x736f6e6174696e65
  if index.val < 8 then UInt8.ofNat (first >>> (index.val * 8))
  else UInt8.ofNat (second >>> ((index.val - 8) * 8))

def bindingFromSubmission (submission : Submission) : Binding where
  jobId := submission.job.jobId
  executionEpoch := submission.executionEpoch
  executionSequence := submission.executionSequence
  completionCookie := submission.completionCookie

def bindingMatches (binding : Binding) (submission : Submission) : Bool :=
  binding.jobId = submission.job.jobId ∧ binding.executionEpoch = submission.executionEpoch ∧
    binding.executionSequence = submission.executionSequence ∧
    binding.completionCookie = submission.completionCookie

def submissionMatches (left right : Submission) : Bool :=
  left.job.jobId = right.job.jobId ∧ left.executionEpoch = right.executionEpoch ∧
    left.executionSequence = right.executionSequence ∧
    left.completionCookie = right.completionCookie

/-- The comparison of a completion with a submission that the completion functions spell out. -/
def completionMatches (completion : CompletionRecord) (submission : Submission) : Bool :=
  completion.jobId = submission.job.jobId ∧
    completion.executionEpoch = submission.executionEpoch ∧
    completion.executionSequence = submission.executionSequence ∧
    completion.completionCookie = submission.completionCookie

def completionBound (completion : CompletionRecord) (binding : Binding) : Bool :=
  completion.jobId = binding.jobId ∧ completion.executionEpoch = binding.executionEpoch ∧
    completion.executionSequence = binding.executionSequence ∧
    completion.completionCookie = binding.completionCookie

/-- The snapshots taken at submission, over what the slot held before. -/
def takeSnapshot (s : State) (job : JobDescriptor) (old : Fin 4 → ℕ → UInt8) :
    Fin 4 → ℕ → UInt8 := fun ref byte =>
  match findObject s.objects (job.objects ref).objectId with
  | some i =>
    if ref.val < job.objectCount ∧ byte < (s.objects i).value.byteLength then (s.objects i).visible byte
    else old ref byte
  | none => old ref byte

/-- The submission that `job_submit_bound_core` builds. -/
def newSubmission (s : State) (job : JobDescriptor) : Submission where
  job := job
  executionEpoch := s.authorityEpoch
  executionSequence := s.nextSequence
  completionCookie := makeCookie s.authorityEpoch job.jobId s.nextSequence

/-- `job_submit_bound_core`; `binding` says whether the output pointer is given. -/
def jobSubmitBoundCore (s : State) (job : Option JobDescriptor) (binding : Bool) :
    State × Option Binding :=
  match job with
  | none => (s, none)
  | some job =>
    if !binding then (s, none)
    else if !admitted s job ∨ s.submissions.used = 4 ∨ s.nextSequence = 0 then (s, none)
    else match firstSlot fun i => !(s.inflight i).active && !(s.shadows i).active with
      | none => (s, none)
      | some slot =>
        if (∃ i, (s.inflight i).active ∧ (s.inflight i).submission.job.jobId = job.jobId) ∨
            ∃ i, (s.shadows i).active ∧ (s.shadows i).submission.job.jobId = job.jobId then (s, none)
        else
          let value := newSubmission s job
          ({ s with
            nextSequence := (s.nextSequence + 1) % 2 ^ 64
            submissions := s.submissions.push 4 value
            inflight := Function.update s.inflight slot
              { active := true
                dispatched := false
                completionPosted := false
                cancelRequested := false
                submission := value
                snapshot := takeSnapshot s job (s.inflight slot).snapshot } },
            some (bindingFromSubmission value))

/-- The reference of `job_submission_read` that covers the range. -/
def readRef (entry : InflightSlot) (objectId offset length : ℕ) (ref : Fin 4) : Bool :=
  let r := entry.submission.job.objects ref
  r.access = RAVEIL_OBJECT_READ ∧ r.objectId = objectId ∧ r.offset ≤ offset ∧
    offset ≤ r.offset + r.length ∧ length ≤ r.offset + r.length - offset

def jobSubmissionRead (s : State) (submission : Submission) (objectId offset length : ℕ) :
    Option (List UInt8) :=
  (List.finRange 4).findSome? fun slot =>
    let entry := s.inflight slot
    if !entry.active ∨ !entry.dispatched ∨ entry.completionPosted ∨ entry.cancelRequested ∨
        !submissionMatches entry.submission submission then none
    else ((indices 4 entry.submission.job.objectCount).find? (readRef entry objectId offset length)).map
      fun ref => (List.range length).map fun byte => entry.snapshot ref (offset + byte)

/-- The loop of `job_submission_take`, which pops until an entry belongs to a waiting slot. -/
def takeLoop : ℕ → State → State × Option Submission
  | 0, s => (s, none)
  | k + 1, s =>
    let submission := s.submissions.buf s.submissions.read
    let s := { s with submissions := s.submissions.pop 4 }
    match firstSlot fun i => (s.inflight i).active && !(s.inflight i).dispatched &&
        submissionMatches (s.inflight i).submission submission with
    | some i =>
      ({ s with inflight := Function.update s.inflight i { s.inflight i with dispatched := true } },
        some submission)
    | none => takeLoop k s

def jobSubmissionTake (s : State) (submission : Bool) : State × Option Submission :=
  if !submission then (s, none) else takeLoop s.submissions.used s

def jobCompletionPost (s : State) (completion : Option CompletionRecord) : State × Bool :=
  match completion with
  | none => (s, false)
  | some completion =>
    if s.completions.used = 4 then (s, false)
    else match firstSlot fun i => (s.inflight i).active && (s.inflight i).dispatched &&
        !(s.inflight i).completionPosted && completionMatches completion (s.inflight i).submission &&
        raveilCompletionRecordValidate (s.inflight i).submission.job completion with
      | none => (s, false)
      | some i =>
        ({ s with
          completions := s.completions.push 4 completion
          inflight := Function.update s.inflight i { s.inflight i with completionPosted := true } },
          true)

def completionMoveToShadow (s : State) (completion : CompletionRecord) : State :=
  match firstSlot fun i => (s.inflight i).active && (s.inflight i).completionPosted &&
      completionMatches completion (s.inflight i).submission with
  | none => s
  | some i =>
    { s with
      shadows := Function.update s.shadows i
        { (default : ShadowSlot) with
          active := true
          approved := false
          cancelRequested := (s.inflight i).cancelRequested
          submission := (s.inflight i).submission
          completion := completion }
      inflight := Function.update s.inflight i default }

/-- `completion_take_offset`; `completion` says whether the output pointer is given. -/
def completionTakeOffset (s : State) (offset : ℕ) (completion : Bool) :
    State × Option CompletionRecord :=
  if !completion ∨ offset ≥ s.completions.used then (s, none)
  else
    let taken := s.completions.buf ((s.completions.read + offset) % 4)
    (completionMoveToShadow { s with completions := s.completions.removeAt 4 offset } taken, some taken)

def jobCompletionTake (s : State) (completion : Bool) : State × Option CompletionRecord :=
  completionTakeOffset s 0 completion

def jobCompletionPending (s : State) (binding : Binding) : Bool :=
  (List.range s.completions.used).any fun index =>
    completionBound (s.completions.buf ((s.completions.read + index) % 4)) binding

def jobCompletionTakeBound (s : State) (binding : Option Binding) (completion : Bool) :
    State × Option CompletionRecord :=
  match binding with
  | none => (s, none)
  | some binding =>
    match (List.range s.completions.used).find? fun index =>
        completionBound (s.completions.buf ((s.completions.read + index) % 4)) binding with
    | none => (s, none)
    | some index => completionTakeOffset s index completion

def findShadow (s : State) (binding : Option Binding) : Option (Fin 4) :=
  match binding with
  | none => none
  | some binding => firstSlot fun i => (s.shadows i).active && bindingMatches binding (s.shadows i).submission

/-- Every byte of every write range is staged. -/
def allStaged (shadow : ShadowSlot) : Prop :=
  ∀ ref : Fin 4, ref.val < shadow.submission.job.objectCount →
    (shadow.submission.job.objects ref).access = RAVEIL_OBJECT_WRITE →
    ∀ k ∈ List.range (shadow.submission.job.objects ref).length,
      shadow.staged ref ((shadow.submission.job.objects ref).offset + k) = true

instance (shadow : ShadowSlot) : Decidable (allStaged shadow) := by
  unfold allStaged
  infer_instance

def jobShadowApproveCore (s : State) (binding : Option Binding) : State × Bool :=
  match findShadow s binding with
  | none => (s, false)
  | some i =>
    if (s.shadows i).cancelRequested ∨
        (s.shadows i).completion.status ≠ RAVEIL_COMPLETION_EXECUTED then (s, false)
    else if ¬ allStaged (s.shadows i) then (s, false)
    else
      ({ s with shadows := Function.update s.shadows i { s.shadows i with approved := true } }, true)

def jobCancel (s : State) (binding : Option Binding) : State × Bool :=
  match binding with
  | none => (s, false)
  | some b =>
    match firstSlot fun i => (s.inflight i).active && bindingMatches b (s.inflight i).submission with
    | some i =>
      if (s.inflight i).cancelRequested then (s, false)
      else if !(s.inflight i).dispatched then
        let drained := s.submissions.drain 4 s.submissions.used
        let kept := drained.1.filter fun value => !bindingMatches b value
        ({ s with
          submissions := drained.2.refill 4 kept
          inflight := Function.update s.inflight i default }, true)
      else
        let entry := { s.inflight i with cancelRequested := true, snapshot := default }
        ({ s with inflight := Function.update s.inflight i entry }, true)
    | none =>
      match findShadow s binding with
      | none => (s, false)
      | some i =>
        if (s.shadows i).cancelRequested then (s, false)
        else
          let shadow := { s.shadows i with
            cancelRequested := true
            approved := false
            bytes := default
            staged := default }
          ({ s with shadows := Function.update s.shadows i shadow }, true)

/-- The version and range check of one reference at finalize. -/
def refCurrent (objects : Fin 8 → ObjectSlot) (ref : ObjectRef) : Bool :=
  match findObject objects ref.objectId with
  | none => false
  | some i =>
    let value := (objects i).value
    !(value.generation ≠ ref.generation ∨ value.version ≠ ref.expectedVersion ∨
      value.byteLength < ref.offset ∨ value.byteLength - ref.offset < ref.length)

def outputCurrent (objects : Fin 8 → ObjectSlot) (output : ObjectVersion) : Bool :=
  match findObject objects output.objectId with
  | none => false
  | some i =>
    let value := (objects i).value
    !(value.generation ≠ output.generation ∨ value.version = UINT64_MAX ∨
      output.version ≠ value.version + 1)

/-- Copy the shadow bytes of one reference into the visible object. -/
def publishRef (shadow : ShadowSlot) (objects : Fin 8 → ObjectSlot) (ref : Fin 4) :
    Fin 8 → ObjectSlot :=
  let r := shadow.submission.job.objects ref
  if r.access ≠ RAVEIL_OBJECT_WRITE then objects
  else match findObject objects r.objectId with
    | none => objects
    | some i => Function.update objects i { objects i with
        visible := fun byte => if r.offset ≤ byte ∧ byte < r.offset + r.length then shadow.bytes ref byte
          else (objects i).visible byte }

def publishOutput (shadow : ShadowSlot) (objects : Fin 8 → ObjectSlot) (index : Fin 4) :
    Fin 8 → ObjectSlot :=
  match findObject objects (shadow.completion.outputs index).objectId with
  | none => objects
  | some i => Function.update objects i { objects i with
      value := { (objects i).value with version := (shadow.completion.outputs index).version } }

def publish (shadow : ShadowSlot) (objects : Fin 8 → ObjectSlot) : Fin 8 → ObjectSlot :=
  (indices 4 shadow.completion.outputCount).foldl (publishOutput shadow)
    ((indices 4 shadow.submission.job.objectCount).foldl (publishRef shadow) objects)

def jobShadowFinalizeCore (s : State) (binding : Option Binding) (commit : Bool) :
    State × FinalizeResult :=
  match findShadow s binding with
  | none => (s, .invalid)
  | some i =>
    let shadow := s.shadows i
    let cleared := { s with shadows := Function.update s.shadows i default }
    if !commit ∨ shadow.cancelRequested ∨ !shadow.approved then (cleared, .rolledBack)
    else if !(indices 4 shadow.submission.job.objectCount).all
        fun ref => refCurrent s.objects (shadow.submission.job.objects ref) then (cleared, .conflict)
    else if !(indices 4 shadow.completion.outputCount).all
        fun index => outputCurrent s.objects (shadow.completion.outputs index) then (cleared, .conflict)
    else ({ cleared with objects := publish shadow s.objects }, .committed)

/-- The reference of `job_shadow_write_core` that covers the range. -/
def writeTarget (shadow : ShadowSlot) (objectId offset length : ℕ) : Option (Fin 4) :=
  (indices 4 shadow.submission.job.objectCount).find? fun ref =>
    let r := shadow.submission.job.objects ref
    r.objectId = objectId ∧ r.access = RAVEIL_OBJECT_WRITE ∧ r.offset ≤ offset ∧
      offset ≤ r.offset + r.length ∧ length ≤ r.offset + r.length - offset

def jobShadowWriteCore (s : State) (binding : Option Binding) (objectId offset : ℕ)
    (source : Option (ℕ → UInt8)) (length : ℕ) : State × Bool :=
  match source with
  | none => (s, false)
  | some input =>
    if length = 0 then (s, false)
    else match findShadow s binding with
      | none => (s, false)
      | some i =>
        let shadow := s.shadows i
        if shadow.approved ∨ shadow.cancelRequested ∨
            shadow.completion.status ≠ RAVEIL_COMPLETION_EXECUTED then (s, false)
        else match writeTarget shadow objectId offset length with
          | none => (s, false)
          | some ref =>
            if (List.range length).any fun byte => shadow.staged ref (offset + byte) then (s, false)
            else
              let covered (byte : ℕ) : Bool := offset ≤ byte ∧ byte < offset + length
              let written := { shadow with
                bytes := Function.update shadow.bytes ref fun byte =>
                  if covered byte then input (byte - offset) else shadow.bytes ref byte
                staged := Function.update shadow.staged ref fun byte =>
                  covered byte || shadow.staged ref byte }
              ({ s with shadows := Function.update s.shadows i written }, true)

/-- `job_shadow_stage_zero_test`, a hook of the test build. -/
def jobShadowStageZeroTest (s : State) (binding : Option Binding) : State × Bool :=
  match findShadow s binding with
  | none => (s, false)
  | some i =>
    let shadow := s.shadows i
    if shadow.approved then (s, false)
    else
      let covered (ref : Fin 4) (byte : ℕ) : Bool :=
        ref.val < shadow.submission.job.objectCount ∧
          (shadow.submission.job.objects ref).access = RAVEIL_OBJECT_WRITE ∧
          (shadow.submission.job.objects ref).offset ≤ byte ∧
          byte < (shadow.submission.job.objects ref).offset + (shadow.submission.job.objects ref).length
      let written := { shadow with
        bytes := fun ref byte => if covered ref byte then 0 else shadow.bytes ref byte
        staged := fun ref byte => covered ref byte || shadow.staged ref byte }
      ({ s with shadows := Function.update s.shadows i written }, true)

def planeCapAuthorized (s : State) (task cap type right : ℕ) : Bool :=
  match capResolve s.capTable task cap type right with
  | none => false
  | some view => view.objectId = 1

def planeAuthorityInit (s : State) : State :=
  { s with
    planePrograms := default
    planeGraphs := default
    planeExperience := default
    planeExperienceUsed := 0 }

def planeProgramInstall (s : State) (task cap : ℕ) (identity : Option Identity) : State × Bool :=
  match identity with
  | none => (s, false)
  | some identity =>
    if !planeCapAuthorized s task cap CAP_OBJECT_PROGRAM_AUTHORITY CAP_RIGHT_CONTROL ∨
        !nonzeroIdentity identity then (s, false)
    else if ∃ i, (s.planePrograms i).active ∧ (s.planePrograms i).identity = identity then (s, false)
    else match firstSlot fun i => !(s.planePrograms i).active with
      | none => (s, false)
      | some i => ({ s with planePrograms := Function.update s.planePrograms i ⟨true, identity⟩ }, true)

def planeGraphInstall (s : State) (task cap : ℕ) (program graph : Option Identity) : State × Bool :=
  match program, graph with
  | some program, some graph =>
    if !planeCapAuthorized s task cap CAP_OBJECT_GRAPH_AUTHORITY CAP_RIGHT_CONTROL ∨
        !nonzeroIdentity program ∨ !nonzeroIdentity graph then (s, false)
    else if ¬ ∃ i, (s.planePrograms i).active ∧ (s.planePrograms i).identity = program then (s, false)
    else if ∃ i, (s.planeGraphs i).active ∧ (s.planeGraphs i).graphIdentity = graph then (s, false)
    else match firstSlot fun i => !(s.planeGraphs i).active with
      | none => (s, false)
      | some i => ({ s with planeGraphs := Function.update s.planeGraphs i ⟨true, program, graph⟩ }, true)
  | _, _ => (s, false)

def planeJobPairInstalled (s : State) (job : JobDescriptor) : Bool :=
  ∃ i, (s.planeGraphs i).active ∧ (s.planeGraphs i).programIdentity = job.programIdentity ∧
    (s.planeGraphs i).graphIdentity = job.graphVariantIdentity

/-- A data operation behind the data-authority capability. -/
def dataAuthorized (s : State) (task cap : ℕ) : Bool :=
  planeCapAuthorized s task cap CAP_OBJECT_DATA_AUTHORITY CAP_RIGHT_WRITE

def planeDataObjectRegister (s : State) (task cap : ℕ) (manifest : Option ObjectManifest) :
    State × Bool :=
  if dataAuthorized s task cap then jobObjectRegisterCore s manifest else (s, false)

def planeDataObjectRegisterBytes (s : State) (task cap : ℕ) (manifest : Option ObjectManifest)
    (initialBytes : Option (ℕ → UInt8)) (length : ℕ) : State × Bool :=
  if dataAuthorized s task cap then jobObjectRegisterBytesCore s manifest initialBytes length false
  else (s, false)

def planeJobSubmitBound (s : State) (task dataCap : ℕ) (job : Option JobDescriptor)
    (binding : Bool) : State × Option Binding :=
  if dataAuthorized s task dataCap && job.any (planeJobPairInstalled s) then
    jobSubmitBoundCore s job binding
  else (s, none)

def planeProgramApprove (s : State) (task programCap : ℕ) (binding : Option Binding) : State × Bool :=
  if planeCapAuthorized s task programCap CAP_OBJECT_PROGRAM_AUTHORITY CAP_RIGHT_CONTROL then
    jobShadowApproveCore s binding
  else (s, false)

def planeDataShadowWrite (s : State) (task dataCap : ℕ) (binding : Option Binding)
    (objectId offset : ℕ) (source : Option (ℕ → UInt8)) (length : ℕ) : State × Bool :=
  if dataAuthorized s task dataCap then jobShadowWriteCore s binding objectId offset source length
  else (s, false)

def planeDataFinalize (s : State) (task dataCap : ℕ) (binding : Option Binding) (commit : Bool) :
    State × FinalizeResult :=
  if dataAuthorized s task dataCap then jobShadowFinalizeCore s binding commit else (s, .invalid)

def planeExperienceRecord (s : State) (task experienceCap : ℕ) (completion : Option CompletionRecord) :
    State × Bool :=
  match completion with
  | none => (s, false)
  | some completion =>
    if !planeCapAuthorized s task experienceCap CAP_OBJECT_EXPERIENCE_AUTHORITY CAP_RIGHT_WRITE ∨
        s.planeExperienceUsed = 8 then (s, false)
    else
      let binding : Binding := ⟨completion.jobId, completion.executionEpoch,
        completion.executionSequence, completion.completionCookie⟩
      match findShadow s (some binding) with
      | none => (s, false)
      | some i =>
        if (s.shadows i).completion ≠ completion then (s, false)
        else if ∃ index : Fin 8, index.val < s.planeExperienceUsed ∧
            (s.planeExperience index).completion = completion then (s, false)
        else
          ({ s with
            planeExperience := fun index => if index.val = s.planeExperienceUsed then ⟨true, completion⟩
              else s.planeExperience index
            planeExperienceUsed := s.planeExperienceUsed + 1 }, true)

def jobSubmissionCount (s : State) : ℕ := s.submissions.used
def jobCompletionCount (s : State) : ℕ := s.completions.used
def jobInflightCount (s : State) : ℕ := (List.finRange 4).countP fun i => (s.inflight i).active
def jobShadowCount (s : State) : ℕ := (List.finRange 4).countP fun i => (s.shadows i).active

end Raveil.Authority
