import Mathlib.Algebra.Order.Ring.Nat
import Mathlib.Algebra.Order.Sub.Basic
import Mathlib.Data.List.Find
import Mathlib.Data.Nat.SuccPred
import Raveil.Authority.Structure

/-! One job through an authority that holds no other: what each call returns and leaves behind. -/
namespace Raveil.Authority
open Raveil.Lib RingBuffer

/-- No job is queued, running or waiting for its result. -/
structure Idle (s : State) : Prop where
  submissions : s.submissions.Ok 4 ∧ s.submissions.used = 0
  completions : s.completions.Ok 4 ∧ s.completions.used = 0
  inflight : ∀ i, (s.inflight i).active = false
  shadows : ∀ i, (s.shadows i).active = false
  sequence : s.nextSequence ≠ 0

theorem firstSlot_head {n : ℕ} {p : Fin (n + 1) → Bool} (h : p 0 = true) : firstSlot p = some 0 := by
  simp [firstSlot, List.finRange_succ, h]

/-- The queue after one submission was pushed and popped. -/
def usedQueue (s : State) (job : JobDescriptor) : RingBuffer Submission :=
  (s.submissions.push 4 (newSubmission s job)).pop 4

local instance flightIndex : NeZero 4 := ⟨by decide⟩

/-- The state while the job is in flight. -/
def flying (s : State) (queue : RingBuffer Submission) (ring : RingBuffer CompletionRecord)
    (slot : InflightSlot) : State :=
  { s with
    nextSequence := (s.nextSequence + 1) % 2 ^ 64
    submissions := queue
    completions := ring
    inflight := Function.update s.inflight 0 slot }

/-- The state while the job has a shadow. -/
def shadowing (s : State) (queue : RingBuffer Submission) (ring : RingBuffer CompletionRecord)
    (shadow : ShadowSlot) : State :=
  { s with
    nextSequence := (s.nextSequence + 1) % 2 ^ 64
    submissions := queue
    completions := ring
    inflight := Function.update s.inflight 0 default
    shadows := Function.update s.shadows 0 shadow }

def dispatchedSlot (s : State) (job : JobDescriptor) : InflightSlot :=
  { submitted s job 0 with dispatched := true }

def postedSlot (s : State) (job : JobDescriptor) : InflightSlot :=
  { dispatchedSlot s job with completionPosted := true }

/-- The shadow that an undisturbed completion fills. -/
def freshShadow (s : State) (job : JobDescriptor) (c : CompletionRecord) : ShadowSlot :=
  { (default : ShadowSlot) with
    active := true
    approved := false
    cancelRequested := false
    submission := newSubmission s job
    completion := c }

variable {s : State} {job : JobDescriptor} {c : CompletionRecord} {queue : RingBuffer Submission}
  {ring : RingBuffer CompletionRecord} {shadow : ShadowSlot} {b : Binding}

theorem submit_idle (h : Idle s) (hadm : admitted s job = true) :
    jobSubmitBoundCore s (some job) true =
      (flying s (s.submissions.push 4 (newSubmission s job)) s.completions (submitted s job 0),
        some (bindingFromSubmission (newSubmission s job))) := by
  have hslot : (firstSlot fun i => !(s.inflight i).active && !(s.shadows i).active) = some 0 :=
    firstSlot_head (by simp [h.inflight, h.shadows])
  have hids : ¬ ((∃ i, (s.inflight i).active ∧ (s.inflight i).submission.job.jobId = job.jobId) ∨
      ∃ i, (s.shadows i).active ∧ (s.shadows i).submission.job.jobId = job.jobId) := by
    simp [h.inflight, h.shadows]
  simp only [jobSubmitBoundCore, hslot]
  rw [if_neg (by simp), if_neg (by simp [hadm, h.submissions.2, h.sequence]), if_neg hids]
  rfl

theorem take_idle (h : Idle s) :
    jobSubmissionTake
      (flying s (s.submissions.push 4 (newSubmission s job)) s.completions (submitted s job 0)) true =
      (flying s (usedQueue s job) s.completions (dispatchedSlot s job), some (newSubmission s job)) := by
  have hread : (s.submissions.push 4 (newSubmission s job)).buf
      (s.submissions.push 4 (newSubmission s job)).read = newSubmission s job := by
    have hw := h.submissions.1.write
    have hr := h.submissions.1.read
    rw [h.submissions.2, Nat.add_zero, Nat.mod_eq_of_lt hr] at hw
    simp [push, hw]
  have hused : (s.submissions.push 4 (newSubmission s job)).used = 1 := by
    simp [push, h.submissions.2]
  have hslot : (firstSlot fun i =>
      (Function.update s.inflight 0 (submitted s job 0) i).active &&
        !(Function.update s.inflight 0 (submitted s job 0) i).dispatched &&
        submissionMatches (Function.update s.inflight 0 (submitted s job 0) i).submission
          (newSubmission s job)) = some 0 :=
    firstSlot_head (by simp [submitted, submissionMatches])
  simp only [jobSubmissionTake, flying, Bool.not_true, Bool.false_eq_true, if_false, hused, takeLoop, hread,
    hslot, Function.update_self, Function.update_idem]
  rfl

theorem post_idle (h : Idle s) (hb : completionBinding c = bindingFromSubmission (newSubmission s job))
    (hv : raveilCompletionRecordValidate job c = true) :
    jobCompletionPost (flying s queue s.completions (dispatchedSlot s job)) (some c) =
      (flying s queue (s.completions.push 4 c) (postedSlot s job), true) := by
  have hslot : (firstSlot fun i =>
      (Function.update s.inflight 0 (dispatchedSlot s job) i).active &&
        (Function.update s.inflight 0 (dispatchedSlot s job) i).dispatched &&
        !(Function.update s.inflight 0 (dispatchedSlot s job) i).completionPosted &&
        completionMatches c (Function.update s.inflight 0 (dispatchedSlot s job) i).submission &&
        raveilCompletionRecordValidate
          (Function.update s.inflight 0 (dispatchedSlot s job) i).submission.job c) = some 0 := by
    refine firstSlot_head ?_
    have hm : completionMatches c (newSubmission s job) = true := completionMatches_iff.mpr hb
    have hv' : raveilCompletionRecordValidate (newSubmission s job).job c = true := hv
    simp [dispatchedSlot, submitted, hm, hv']
  simp only [jobCompletionPost, flying, hslot, Function.update_self, Function.update_idem]
  rw [if_neg (by simp [h.completions.2])]
  rfl

theorem takeCompletion_idle (h : Idle s)
    (hb : completionBinding c = bindingFromSubmission (newSubmission s job)) :
    jobCompletionTake (flying s queue (s.completions.push 4 c) (postedSlot s job)) true =
      (shadowing s queue ((s.completions.push 4 c).removeAt 4 0) (freshShadow s job c), some c) := by
  have hread : (s.completions.push 4 c).buf (((s.completions.push 4 c).read + 0) % 4) = c := by
    have hw := h.completions.1.write
    have hr := h.completions.1.read
    rw [h.completions.2, Nat.add_zero] at hw
    simp [push, ← hw]
  have hused : (s.completions.push 4 c).used = 1 := by
    simp [push, h.completions.2]
  have hslot : (firstSlot fun i =>
      (Function.update s.inflight 0 (postedSlot s job) i).active &&
        (Function.update s.inflight 0 (postedSlot s job) i).completionPosted &&
        completionMatches c (Function.update s.inflight 0 (postedSlot s job) i).submission) = some 0 := by
    refine firstSlot_head ?_
    have hm : completionMatches c (newSubmission s job) = true := completionMatches_iff.mpr hb
    simp [postedSlot, dispatchedSlot, submitted, hm]
  simp only [jobCompletionTake, completionTakeOffset, flying, hused, hread]
  rw [if_neg (by simp)]
  simp only [completionMoveToShadow, hslot, Function.update_self, Function.update_idem]
  rfl

/-- Reading a whole-object reference gives the visible bytes of the submission time. -/
theorem read_idle (queue : RingBuffer Submission) {ref : Fin 4} {o : Fin 8} (offset length : ℕ) (hr : ref.val < job.objectCount)
    (hread : readRef (dispatchedSlot s job) (job.objects ref).objectId offset length ref = true)
    (hone : ∀ r : Fin 4, r.val < job.objectCount →
      (job.objects r).objectId = (job.objects ref).objectId → r = ref)
    (ho : findObject s.objects (job.objects ref).objectId = some o)
    (hlen : offset + length ≤ (s.objects o).value.byteLength) :
    jobSubmissionRead (flying s queue s.completions (dispatchedSlot s job)) (newSubmission s job)
      (job.objects ref).objectId offset length =
      some ((List.range length).map fun byte => (s.objects o).visible (offset + byte)) := by
  have hfind : (indices 4 job.objectCount).find?
      (readRef (dispatchedSlot s job) (job.objects ref).objectId offset length) = some ref := by
    cases hf : (indices 4 job.objectCount).find?
        (readRef (dispatchedSlot s job) (job.objects ref).objectId offset length) with
    | none =>
      have := List.find?_eq_none.mp hf ref (mem_indices.mpr hr)
      exact absurd hread this
    | some r =>
      have hp := List.find?_some hf
      simp only [readRef, decide_eq_true_iff] at hp
      exact congrArg some (hone r (mem_indices.mp (List.mem_of_find?_eq_some hf)) hp.2.1)
  have hfirst : ∀ (f : Fin 4 → Option (List UInt8)) (v : List UInt8), f 0 = some v →
      (List.finRange 4).findSome? f = some v := by
    intro f v hf
    simp [List.finRange_succ, hf]
  refine hfirst _ _ ?_
  have hm : submissionMatches (newSubmission s job) (newSubmission s job) = true :=
    submissionMatches_iff.mpr rfl
  simp only [flying, Function.update_self]
  rw [if_neg (by simp [dispatchedSlot, submitted, hm])]
  change (Option.map _ ((indices 4 job.objectCount).find? _)) = _
  rw [hfind, Option.map_some]
  refine congrArg some (List.map_congr_left fun byte hbyte => ?_)
  have hlt := List.mem_range.mp hbyte
  simp only [dispatchedSlot, submitted, takeSnapshot, ho]
  rw [if_pos ⟨hr, by omega⟩]

theorem findShadow_shadowing (ha : shadow.active = true)
    (hb : b = bindingFromSubmission shadow.submission) :
    findShadow (shadowing s queue ring shadow) (some b) = some 0 := by
  refine firstSlot_head ?_
  simp [shadowing, ha, bindingMatches_iff, hb]

/-- The table of experiences after one more record. -/
def withExperience (s : State) (c : CompletionRecord) : State :=
  { s with
    planeExperience := fun index => if index.val = s.planeExperienceUsed then ⟨true, c⟩
      else s.planeExperience index
    planeExperienceUsed := s.planeExperienceUsed + 1 }

theorem record_shadowing {task cap : ℕ}
    (hcap : planeCapAuthorized s task cap CAP_OBJECT_EXPERIENCE_AUTHORITY CAP_RIGHT_WRITE = true)
    (hused : s.planeExperienceUsed < 8) (ha : shadow.active = true)
    (hb : completionBinding shadow.completion = bindingFromSubmission shadow.submission)
    (hnew : ∀ index : Fin 8, index.val < s.planeExperienceUsed →
      (s.planeExperience index).completion ≠ shadow.completion) :
    planeExperienceRecord (shadowing s queue ring shadow) task cap (some shadow.completion) =
      (shadowing (withExperience s shadow.completion) queue ring shadow, true) := by
  have hcap' : planeCapAuthorized (shadowing s queue ring shadow) task cap
      CAP_OBJECT_EXPERIENCE_AUTHORITY CAP_RIGHT_WRITE = true := hcap
  have hfind : findShadow (shadowing s queue ring shadow) (some ⟨shadow.completion.jobId,
      shadow.completion.executionEpoch, shadow.completion.executionSequence,
      shadow.completion.completionCookie⟩) = some 0 := findShadow_shadowing ha hb
  have hnew' : ¬ ∃ index : Fin 8, index.val < (shadowing s queue ring shadow).planeExperienceUsed ∧
      ((shadowing s queue ring shadow).planeExperience index).completion = shadow.completion := by
    rintro ⟨index, hlt, he⟩
    exact hnew index hlt he
  have hused' : (shadowing s queue ring shadow).planeExperienceUsed ≠ 8 := hused.ne
  simp only [planeExperienceRecord, hfind]
  rw [if_neg (by simp [hcap', hused']), if_neg (by simp [shadowing]), if_neg hnew']
  rfl

/-- The shadow after a write of `length` bytes at `offset` of reference `ref`. -/
def writtenShadow (shadow : ShadowSlot) (ref : Fin 4) (offset length : ℕ) (input : ℕ → UInt8) : ShadowSlot :=
  { shadow with
    bytes := Function.update shadow.bytes ref fun byte =>
      if decide (offset ≤ byte ∧ byte < offset + length) then input (byte - offset)
      else shadow.bytes ref byte
    staged := Function.update shadow.staged ref fun byte =>
      decide (offset ≤ byte ∧ byte < offset + length) || shadow.staged ref byte }

theorem write_shadowing (s : State) (queue : RingBuffer Submission) (ring : RingBuffer CompletionRecord)
    {ref : Fin 4} {objectId offset length : ℕ} (input : ℕ → UInt8)
    (ha : shadow.active = true) (hb : b = bindingFromSubmission shadow.submission)
    (hnot : shadow.approved = false ∧ shadow.cancelRequested = false)
    (hx : shadow.completion.status = RAVEIL_COMPLETION_EXECUTED) (hlen : length ≠ 0)
    (htarget : writeTarget shadow objectId offset length = some ref)
    (hclear : ∀ byte, byte < length → shadow.staged ref (offset + byte) = false) :
    jobShadowWriteCore (shadowing s queue ring shadow) (some b) objectId offset (some input) length =
      (shadowing s queue ring (writtenShadow shadow ref offset length input), true) := by
  have hslot : (shadowing s queue ring shadow).shadows 0 = shadow := by simp [shadowing]
  simp only [jobShadowWriteCore, findShadow_shadowing ha hb, hslot, htarget]
  rw [if_neg hlen, if_neg (by simp [hnot, hx]), if_neg (by simpa using hclear)]
  simp only [shadowing, Function.update_idem]
  rfl

theorem approve_shadowing (s : State) (queue : RingBuffer Submission) (ring : RingBuffer CompletionRecord)
    (ha : shadow.active = true) (hb : b = bindingFromSubmission shadow.submission)
    (hc : shadow.cancelRequested = false) (hx : shadow.completion.status = RAVEIL_COMPLETION_EXECUTED)
    (hst : allStaged shadow) :
    jobShadowApproveCore (shadowing s queue ring shadow) (some b) =
      (shadowing s queue ring { shadow with approved := true }, true) := by
  have hslot : (shadowing s queue ring shadow).shadows 0 = shadow := by simp [shadowing]
  simp only [jobShadowApproveCore, findShadow_shadowing ha hb, hslot]
  rw [if_neg (by simp [hc, hx]), if_neg (not_not.mpr hst)]
  simp only [shadowing, Function.update_idem]

/-- The state after the job left the authority. -/
def settled (s : State) (queue : RingBuffer Submission) (ring : RingBuffer CompletionRecord)
    (objects : Fin 8 → ObjectSlot) : State :=
  { shadowing s queue ring default with objects := objects }

theorem commit_shadowing (queue : RingBuffer Submission) (ring : RingBuffer CompletionRecord)
    (ha : shadow.active = true) (hb : b = bindingFromSubmission shadow.submission)
    (hc : shadow.cancelRequested = false) (happ : shadow.approved = true)
    (hrefs : ∀ ref : Fin 4, ref.val < shadow.submission.job.objectCount →
      refCurrent s.objects (shadow.submission.job.objects ref) = true)
    (houts : ∀ index : Fin 4, index.val < shadow.completion.outputCount →
      outputCurrent s.objects (shadow.completion.outputs index) = true) :
    jobShadowFinalizeCore (shadowing s queue ring shadow) (some b) true =
      (settled s queue ring (publish shadow s.objects), .committed) := by
  have hslot : (shadowing s queue ring shadow).shadows 0 = shadow := by simp [shadowing]
  have hobjects : (shadowing s queue ring shadow).objects = s.objects := rfl
  simp only [jobShadowFinalizeCore, findShadow_shadowing ha hb, hslot, hobjects]
  rw [if_neg (by simp [hc, happ]), if_neg, if_neg]
  · simp only [shadowing, settled, Function.update_idem]
  · simp only [Bool.not_eq_true', Bool.not_eq_false, List.all_eq_true]
    exact fun index hi => houts index (mem_indices.mp hi)
  · simp only [Bool.not_eq_true', Bool.not_eq_false, List.all_eq_true]
    exact fun ref hr => hrefs ref (mem_indices.mp hr)

theorem rollback_shadowing (ha : shadow.active = true) (hb : b = bindingFromSubmission shadow.submission) :
    jobShadowFinalizeCore (shadowing s queue ring shadow) (some b) false =
      (settled s queue ring s.objects, .rolledBack) := by
  simp only [jobShadowFinalizeCore, findShadow_shadowing ha hb]
  rw [if_pos (by simp)]
  simp only [shadowing, settled, Function.update_idem]

/-- A settled authority is idle again. -/
theorem idle_settled (h : Idle s) (hseq : s.nextSequence + 1 < 2 ^ 64) (objects : Fin 8 → ObjectSlot)
    (job : JobDescriptor) (c : CompletionRecord) :
    Idle (settled s (usedQueue s job) ((s.completions.push 4 c).removeAt 4 0) objects) where
  submissions := by
    have hpush := ok_push (x := newSubmission s job) h.submissions.1 (by rw [h.submissions.2]; omega)
    refine ⟨ok_pop hpush (by simp [push]), ?_⟩
    simp [settled, shadowing, usedQueue, push, pop, h.submissions.2]
  completions := by
    have hpush := ok_push (x := c) h.completions.1 (by rw [h.completions.2]; omega)
    refine ⟨ok_removeAt hpush (by simp [push]), ?_⟩
    simp [settled, shadowing, push, removeAt, h.completions.2]
  inflight := by
    intro i
    by_cases hi : i = 0
    · subst hi
      simp [settled, shadowing]
    · simp [settled, shadowing, hi, h.inflight]
  shadows := by
    intro i
    by_cases hi : i = 0
    · subst hi
      simp [settled, shadowing]
    · simp [settled, shadowing, hi, h.shadows]
  sequence := by
    change (s.nextSequence + 1) % 2 ^ 64 ≠ 0
    rw [Nat.mod_eq_of_lt hseq]
    omega

end Raveil.Authority
