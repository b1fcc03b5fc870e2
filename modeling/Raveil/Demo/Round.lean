import Raveil.Demo.Job

/-! One job of the demo, from its descriptor to its end. -/
namespace Raveil.Demo

open Lib Authority

/-- The manifest of the demo object at a version. -/
def objectAt (version : ℕ) : ObjectManifest := { demoObject with version }

/-- The submission of job number `number`, counted from zero. -/
def submissionOf (epoch number version : ℕ) : Submission where
  job := demoJob (0x9200 + number) (objectAt version)
  executionEpoch := epoch
  executionSequence := number + 1
  completionCookie := makeCookie epoch (0x9200 + number) (number + 1)

section Contract

variable {jobId version : ℕ}

theorem indices_one : indices 4 1 = [0] := by decide

theorem job_valid (hjob : jobId ≠ 0) (hversion : version ≠ 0) :
    raveilJobDescriptorValidate (demoJob jobId (objectAt version)) = true := by
  have hloop : (indices 4 (demoJob jobId (objectAt version)).objectCount).foldlM
      (validateObject (demoJob jobId (objectAt version))) (0, 0) = some (0, 32) := by
    change (indices 4 1).foldlM _ _ = _
    rw [indices_one]
    simp [validateObject, demoJob, objectAt, demoObject, validObject, addBytes, DEMO_OBJECT_ID, UINT64_MAX,
      RAVEIL_OBJECT_WRITE, RAVEIL_OBJECT_READ, hversion]
  have htail : ∀ i : Fin 4, (demoJob jobId (objectAt version)).objectCount ≤ i →
      (demoJob jobId (objectAt version)).objects i = default := by
    intro i hi
    have hne : i ≠ 0 := by
      rintro rfl
      exact Nat.not_succ_le_zero 0 hi
    exact if_neg hne
  have h1 : nonzeroIdentity (identity 0x92 1) = true := by decide
  have h2 : nonzeroIdentity (identity 0x92 2) = true := by decide
  have h3 : nonzeroIdentity (identity 0x92 3) = true := by decide
  have h4 : nonzeroIdentity (identity 1 0) = true := by decide
  unfold raveilJobDescriptorValidate
  rw [hloop]
  simp only [decide_eq_true htail, Bool.and_true]
  simp [demoJob, hjob, h1, h2, h3, h4]

theorem cookie_nonzero {epoch sequence : ℕ} (hsequence : sequence < 2 ^ 56) :
    nonzeroIdentity (makeCookie epoch jobId sequence) = true := by
  have hhigh : (sequence ^^^ 0x736f6e6174696e65) >>> 56 = 0x73 := by
    rw [Nat.shiftRight_xor_distrib, Nat.shiftRight_eq_div_pow, Nat.div_eq_of_lt hsequence]
    rfl
  simp only [nonzeroIdentity, decide_eq_true_eq]
  refine ⟨15, ?_⟩
  have hbyte : makeCookie epoch jobId sequence 15 = UInt8.ofNat ((sequence ^^^ 0x736f6e6174696e65) >>> 56) := rfl
  rw [hbyte, hhigh]
  decide

end Contract

section Completion

variable {m : Machine} {epoch number version : ℕ}

theorem completion_binding (status : ℕ) :
    completionBinding (fillCompletion m status) = bindingFromSubmission m.demo.issued := by
  rfl

variable (hissued : m.demo.issued = submissionOf epoch number version) (hepoch : epoch ≠ 0) (hnumber : number ≤ 8)
  (hversion : 1 ≤ version ∧ version ≤ 9)
include hissued hepoch hnumber hversion

theorem completion_head (status : ℕ) (hlow : 1 ≤ status) (hhigh : status ≤ 4) :
    ¬ ((!raveilJobDescriptorValidate (submissionOf epoch number version).job) = true ∨
      (fillCompletion m status).magic ≠ RAVEIL_COMPLETION_MAGIC ∨ (fillCompletion m status).schemaVersion ≠ 1 ∨
      (fillCompletion m status).structSize ≠ 176 ∨ (fillCompletion m status).flags ≠ 0 ∨
      (fillCompletion m status).reserved0 ≠ 0 ∨ (fillCompletion m status).reserved1 ≠ 0 ∨
      (fillCompletion m status).reserved2 ≠ (fun _ => 0) ∨
      (fillCompletion m status).jobId ≠ (submissionOf epoch number version).job.jobId ∨
      (fillCompletion m status).executionEpoch = 0 ∨ (fillCompletion m status).executionSequence = 0 ∨
      (!nonzeroIdentity (fillCompletion m status).completionCookie) = true ∨
      (fillCompletion m status).status < RAVEIL_COMPLETION_EXECUTED ∨
      (fillCompletion m status).status > RAVEIL_COMPLETION_FAULT ∨ (fillCompletion m status).outputCount > 4) := by
  have hjob : raveilJobDescriptorValidate (submissionOf epoch number version).job = true :=
    job_valid (by omega) (by omega)
  have hcookie : nonzeroIdentity (fillCompletion m status).completionCookie = true := by
    change nonzeroIdentity m.demo.issued.completionCookie = true
    rw [hissued]
    exact cookie_nonzero (by omega)
  have hid : (fillCompletion m status).jobId = (submissionOf epoch number version).job.jobId := by
    change m.demo.issued.job.jobId = _
    rw [hissued]
  have hfill : (fillCompletion m status).executionEpoch = epoch ∧
      (fillCompletion m status).executionSequence = number + 1 := by
    change m.demo.issued.executionEpoch = _ ∧ m.demo.issued.executionSequence = _
    rw [hissued]
    exact ⟨rfl, rfl⟩
  rw [hjob, hcookie, hid, hfill.1, hfill.2]
  have hstatus : ¬ status < 1 ∧ ¬ status > 4 := by omega
  have hcount : (fillCompletion m status).outputCount ≤ 4 := by
    unfold fillCompletion
    dsimp only
    by_cases hexecuted : status = RAVEIL_COMPLETION_EXECUTED
    · rw [if_pos hexecuted]
      decide
    · rw [if_neg hexecuted]
      decide
  have hcount' : ¬ (fillCompletion m status).outputCount > 4 := Nat.not_lt.mpr hcount
  simp only [hcount', or_false]
  simp [fillCompletion, hepoch, RAVEIL_COMPLETION_EXECUTED, RAVEIL_COMPLETION_FAULT, hstatus.1, hstatus.2]

theorem cancelled_valid :
    raveilCompletionRecordValidate (submissionOf epoch number version).job
      (fillCompletion m RAVEIL_COMPLETION_CANCELLED) = true := by
  have hhead := completion_head hissued hepoch hnumber hversion RAVEIL_COMPLETION_CANCELLED (by decide) (by decide)
  unfold raveilCompletionRecordValidate
  rw [if_neg hhead]
  rfl

theorem executed_valid :
    raveilCompletionRecordValidate (submissionOf epoch number version).job
      (fillCompletion m RAVEIL_COMPLETION_EXECUTED) = true := by
  have hhead := completion_head hissued hepoch hnumber hversion RAVEIL_COMPLETION_EXECUTED (by decide) (by decide)
  have hversion' : ((m.demo.issued.job.objects 0).expectedVersion + 1) % 2 ^ 64 = version + 1 := by
    rw [hissued]
    exact Nat.mod_eq_of_lt (show version + 1 < 2 ^ 64 by omega)
  unfold raveilCompletionRecordValidate
  have hstatus : ¬ (fillCompletion m RAVEIL_COMPLETION_EXECUTED).status ≠ RAVEIL_COMPLETION_EXECUTED :=
    not_not.mpr rfl
  rw [if_neg hhead, if_neg hstatus, decide_eq_true_iff]
  have houtputs : ∀ i : Fin 4, i.val < 1 → i = 0 := by
    intro i hi
    exact Fin.ext (by simpa using hi)
  have hcount : (submissionOf epoch number version).job.objectCount = 1 := rfl
  have haccess : ((submissionOf epoch number version).job.objects 0).access = RAVEIL_OBJECT_WRITE := rfl
  refine ⟨rfl, ?_, fun i hi => ?_, fun i hi => ?_⟩
  · rw [hcount, indices_one, List.filter_singleton, haccess]
    rfl
  · obtain rfl := houtputs i hi
    refine ⟨?_, fun j hj => absurd hj (Fin.not_lt_zero j)⟩
    have hout : (fillCompletion m RAVEIL_COMPLETION_EXECUTED).outputs 0 = ⟨DEMO_OBJECT_ID, 1, version + 1⟩ := by
      rw [← hversion']
      rfl
    rw [hout, writeRef, hcount, indices_one]
    simp [submissionOf, demoJob, objectAt, demoObject, RAVEIL_OBJECT_WRITE]
  · have hne : i ≠ 0 := by
      rintro rfl
      exact Nat.not_succ_le_zero 0 hi
    simp [fillCompletion, hne]

end Completion

/-- The object table of the demo. -/
def objectsAt (version : ℕ) (visible : ℕ → UInt8) : Fin 8 → ObjectSlot :=
  Function.update (fun _ => default) 0 ⟨true, objectAt version, visible⟩

theorem find_object (version : ℕ) (visible : ℕ → UInt8) : findObject (objectsAt version visible) DEMO_OBJECT_ID = some 0 := by
  unfold findObject
  apply firstSlot_free
  simp [objectsAt, objectAt, demoObject]

section Publish

variable {s : State} {epoch number version : ℕ} {visible input : ℕ → UInt8} {c : CompletionRecord}

/-- The shadow of an executed job before a byte is staged. -/
def unstaged (epoch number version : ℕ) (c : CompletionRecord) : ShadowSlot :=
  ⟨true, false, false, submissionOf epoch number version, c, default, default⟩

local instance bytesIndex : NeZero 4 := ⟨by decide⟩

/-- The shadow once all bytes are staged. -/
def staged (epoch number version : ℕ) (c : CompletionRecord) (input : ℕ → UInt8) (approved : Bool) : ShadowSlot :=
  { unstaged epoch number version c with
    approved
    bytes := Function.update default 0 fun byte => if decide (0 ≤ byte ∧ byte < 0 + 32) then input (byte - 0) else default
    staged := Function.update default 0 fun byte => decide (0 ≤ byte ∧ byte < 0 + 32) || default }

theorem write_spec (h : Held s (unstaged epoch number version c)) (hstatus : c.status = RAVEIL_COMPLETION_EXECUTED) :
    jobShadowWriteCore s (some (bindingFromSubmission (submissionOf epoch number version))) DEMO_OBJECT_ID 0
        (some input) 32 =
      (withShadow s (staged epoch number version c input false), true) := by
  have hfind : findShadow s (some (bindingFromSubmission (submissionOf epoch number version))) = some 0 := h.find rfl
  have htarget : writeTarget (unstaged epoch number version c) DEMO_OBJECT_ID 0 32 = some 0 := by
    have hcount : (unstaged epoch number version c).submission.job.objectCount = 1 := rfl
    rw [writeTarget, hcount, indices_one]
    rfl
  have hfree : ((List.range 32).any fun byte => (unstaged epoch number version c).staged 0 (0 + byte)) = false := by
    rw [List.any_eq_false]
    intro byte _
    exact Bool.false_ne_true
  have hopen : ¬ ((unstaged epoch number version c).approved ∨ (unstaged epoch number version c).cancelRequested ∨
      (unstaged epoch number version c).completion.status ≠ RAVEIL_COMPLETION_EXECUTED) := by
    simp [unstaged, hstatus]
  rw [jobShadowWriteCore]
  simp only [if_neg (show ¬ (32 = 0) by decide), hfind, h.slot, if_neg hopen, htarget, hfree, Bool.false_eq_true, if_false]
  rfl

theorem approve_spec (h : Held s (staged epoch number version c input false))
    (hstatus : c.status = RAVEIL_COMPLETION_EXECUTED) :
    jobShadowApproveCore s (some (bindingFromSubmission (submissionOf epoch number version))) =
      (withShadow s (staged epoch number version c input true), true) := by
  have hfind : findShadow s (some (bindingFromSubmission (submissionOf epoch number version))) = some 0 := h.find rfl
  have hopen : ¬ ((staged epoch number version c input false).cancelRequested ∨
      (staged epoch number version c input false).completion.status ≠ RAVEIL_COMPLETION_EXECUTED) := by
    simp [staged, unstaged, hstatus]
  have hall : allStaged (staged epoch number version c input false) := by
    intro ref href _ k hk
    obtain rfl : ref = 0 := Fin.ext (by simpa [staged, unstaged, submissionOf, demoJob] using href)
    have hlt : k < 32 := List.mem_range.mp hk
    change (decide (0 ≤ 0 + k ∧ 0 + k < 0 + 32) || default) = true
    rw [decide_eq_true (by omega), Bool.true_or]
  rw [jobShadowApproveCore]
  simp only [hfind, h.slot, if_neg hopen, if_neg (not_not.mpr hall)]
  rfl

/-- The visible bytes after the commit. -/
def published (input visible : ℕ → UInt8) (byte : ℕ) : UInt8 := if byte < 32 then input byte else visible byte

theorem commit_spec (h : Held s (staged epoch number version c input true)) (hcount : c.outputCount = 1)
    (hout : c.outputs 0 = ⟨DEMO_OBJECT_ID, 1, version + 1⟩) (hobjects : s.objects = objectsAt version visible)
    (hversion : version ≤ 9) :
    jobShadowFinalizeCore s (some (bindingFromSubmission (submissionOf epoch number version))) true =
      ({ cleared s with objects := objectsAt (version + 1) (published input visible) }, .committed) := by
  have hfind : findShadow s (some (bindingFromSubmission (submissionOf epoch number version))) = some 0 := h.find rfl
  have hobject : ∀ v w, (objectsAt v w) 0 = ⟨true, objectAt v, w⟩ := fun v w => Function.update_self ..
  have hrefs : ((indices 4 (staged epoch number version c input true).submission.job.objectCount).all fun ref =>
      refCurrent s.objects ((staged epoch number version c input true).submission.job.objects ref)) = true := by
    change ((indices 4 1).all _) = true
    rw [indices_one, hobjects]
    have hfindRef : findObject (objectsAt version visible)
        ((staged epoch number version c input true).submission.job.objects 0).objectId = some 0 := find_object version visible
    simp only [List.all_cons, List.all_nil, Bool.and_true, refCurrent, hfindRef, hobject]
    simp [staged, unstaged, submissionOf, demoJob, objectAt, demoObject]
  have houts : ((indices 4 (staged epoch number version c input true).completion.outputCount).all fun index =>
      outputCurrent s.objects ((staged epoch number version c input true).completion.outputs index)) = true := by
    change ((indices 4 c.outputCount).all fun index => outputCurrent s.objects (c.outputs index)) = true
    rw [hcount, indices_one, hobjects]
    have hmax : version ≠ UINT64_MAX := by
      unfold UINT64_MAX
      omega
    simp only [List.all_cons, List.all_nil, Bool.and_true, outputCurrent, hout, find_object, hobject]
    simp [objectAt, demoObject, hmax]
  have hpublish : publish (staged epoch number version c input true) s.objects =
      objectsAt (version + 1) (published input visible) := by
    have hrange : (indices 4 (staged epoch number version c input true).submission.job.objectCount) = [0] := indices_one
    have hrange' : (indices 4 (staged epoch number version c input true).completion.outputCount) = [0] := by
      change indices 4 c.outputCount = [0]
      rw [hcount, indices_one]
    have hfindRef : findObject (objectsAt version visible)
        ((staged epoch number version c input true).submission.job.objects 0).objectId = some 0 := find_object version visible
    have href : publishRef (staged epoch number version c input true) (objectsAt version visible) 0 =
        objectsAt version (published input visible) := by
      have hwrite : ¬ ((staged epoch number version c input true).submission.job.objects 0).access ≠ RAVEIL_OBJECT_WRITE :=
        not_not.mpr rfl
      simp only [publishRef, if_neg hwrite, hfindRef, hobject]
      rw [objectsAt, Function.update_idem, objectsAt]
      congr 2
      funext byte
      change (if 0 ≤ byte ∧ byte < 0 + 32 then
        (if decide (0 ≤ byte ∧ byte < 0 + 32) then input (byte - 0) else default) else visible byte) = _
      unfold published
      by_cases hbyte : byte < 32
      · rw [if_pos (by omega), if_pos (decide_eq_true (by omega)), if_pos hbyte, Nat.sub_zero]
      · rw [if_neg (by omega), if_neg hbyte]
    have hfindOut : findObject (objectsAt version (published input visible))
        ((staged epoch number version c input true).completion.outputs 0).objectId = some 0 := by
      change findObject _ (c.outputs 0).objectId = some 0
      rw [hout]
      exact find_object _ _
    rw [publish, hrange, hrange', hobjects]
    simp only [List.foldl_cons, List.foldl_nil, href, publishOutput, hfindOut, hobject]
    rw [objectsAt, Function.update_idem, objectsAt]
    have hnext : (staged epoch number version c input true).completion.outputs 0 = ⟨DEMO_OBJECT_ID, 1, version + 1⟩ :=
      hout
    rw [hnext]
    rfl
  have hopen : ¬ ((!true) = true ∨ (staged epoch number version c input true).cancelRequested ∨
      (!(staged epoch number version c input true).approved) = true) := by
    simp [staged, unstaged]
  rw [jobShadowFinalizeCore, hfind]
  dsimp only
  rw [h.slot, if_neg hopen, hrefs, houts, hpublish]
  rfl

end Publish

end Raveil.Demo
