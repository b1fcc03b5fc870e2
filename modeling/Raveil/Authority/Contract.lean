import Mathlib.Data.Fintype.Basic
import Mathlib.Data.Fintype.Pi
import Mathlib.Data.Fintype.Card
import Mathlib.Data.List.FinRange
import Mathlib.Data.UInt
import Raveil.Lib.Loops

/-! The job, completion and object contracts: their records and their validators. -/
namespace Raveil.Authority
open Raveil.Lib

def UINT64_MAX : ℕ := 2 ^ 64 - 1

def RAVEIL_JOB_MAGIC : ℕ := 0x524a4f42
def RAVEIL_COMPLETION_MAGIC : ℕ := 0x52434d50
def RAVEIL_OBJECT_MANIFEST_MAGIC : ℕ := 0x524f424a
def RAVEIL_OBJECT_READ : ℕ := 1
def RAVEIL_OBJECT_WRITE : ℕ := 2
def RAVEIL_COMPLETION_EXECUTED : ℕ := 1
def RAVEIL_COMPLETION_REJECTED : ℕ := 2
def RAVEIL_COMPLETION_CANCELLED : ℕ := 3
def RAVEIL_COMPLETION_FAULT : ℕ := 4
def RAVEIL_DETAIL_INVALID_CONTRACT : ℕ := 1
def RAVEIL_DETAIL_CANCEL_REQUESTED : ℕ := 2
def RAVEIL_DETAIL_EXECUTION_FAULT : ℕ := 3
def RAVEIL_OBJECT_BACKING_VOLATILE : ℕ := 1
def RAVEIL_OBJECT_BACKING_IMMUTABLE : ℕ := 2

/-- `uint8_t identity[16]`. -/
abbrev Identity := Fin 16 → UInt8

structure ObjectRef where
  objectId : ℕ
  generation : ℕ
  expectedVersion : ℕ
  offset : ℕ
  length : ℕ
  access : ℕ
  flags : ℕ
  deriving DecidableEq, Inhabited

structure ResourceBounds where
  maxRuntimeTicks : ℕ
  maxInputBytes : ℕ
  maxOutputBytes : ℕ
  maxScratchBytes : ℕ
  deriving DecidableEq, Inhabited

structure JobDescriptor where
  magic : ℕ
  schemaVersion : ℕ
  structSize : ℕ
  flags : ℕ
  objectCount : ℕ
  reserved0 : ℕ
  jobId : ℕ
  programIdentity : Identity
  graphVariantIdentity : Identity
  executionContractIdentity : Identity
  targetSignature : Identity
  resources : ResourceBounds
  reserved1 : ℕ
  objects : Fin 4 → ObjectRef
  deriving DecidableEq, Inhabited

structure ObjectVersion where
  objectId : ℕ
  generation : ℕ
  version : ℕ
  deriving DecidableEq, Inhabited

structure CompletionRecord where
  magic : ℕ
  schemaVersion : ℕ
  structSize : ℕ
  flags : ℕ
  status : ℕ
  detail : ℕ
  reserved0 : ℕ
  jobId : ℕ
  executionEpoch : ℕ
  executionSequence : ℕ
  completionCookie : Identity
  outputCount : ℕ
  reserved1 : ℕ
  reserved2 : Fin 12 → UInt8
  outputs : Fin 4 → ObjectVersion
  deriving DecidableEq, Inhabited

structure ObjectManifest where
  magic : ℕ
  schemaVersion : ℕ
  structSize : ℕ
  flags : ℕ
  permittedAccess : ℕ
  objectId : ℕ
  generation : ℕ
  version : ℕ
  byteLength : ℕ
  backing : ℕ
  reserved0 : ℕ
  reserved1 : Fin 8 → UInt8
  deriving DecidableEq, Inhabited

/-- The indices of `for(i=0;i<count;++i)` over an array of `n`. -/
def indices (n count : ℕ) : List (Fin n) := (List.finRange n).filter fun i => i.val < count

theorem mem_indices {n count : ℕ} {i : Fin n} : i ∈ indices n count ↔ i.val < count := by
  simp [indices]

def nonzeroIdentity (identity : Identity) : Bool := ∃ i, identity i ≠ 0

def validObject (object : ObjectRef) : Bool :=
  object.objectId ≠ 0 ∧ object.generation ≠ 0 ∧ object.expectedVersion ≠ 0 ∧ object.length ≠ 0 ∧
    object.offset ≤ UINT64_MAX - object.length ∧ object.flags = 0 ∧
    (object.access = RAVEIL_OBJECT_READ ∨ object.access = RAVEIL_OBJECT_WRITE)

/-- One sum of the object loop; `none` is the overflow that returns false. -/
def addBytes (job : JobDescriptor) (access : ℕ) (i : Fin 4) (bytes : ℕ) : Option ℕ :=
  if (job.objects i).access &&& access ≠ 0 then
    if bytes > UINT64_MAX - (job.objects i).length then none
    else some ((bytes + (job.objects i).length) % 2 ^ 64)
  else some bytes

/-- The body of the object loop of `raveil_job_descriptor_validate_v1`. -/
def validateObject (job : JobDescriptor) (bytes : ℕ × ℕ) (i : Fin 4) : Option (ℕ × ℕ) :=
  if !validObject (job.objects i) then none
  else do
    let input ← addBytes job RAVEIL_OBJECT_READ i bytes.1
    let output ← addBytes job RAVEIL_OBJECT_WRITE i bytes.2
    if ∃ j, j < i ∧ (job.objects i).objectId = (job.objects j).objectId ∧
        (job.objects i).generation = (job.objects j).generation then none
    else some (input, output)

/-- `raveil_job_descriptor_validate_v1`. -/
def raveilJobDescriptorValidate (job : JobDescriptor) : Bool :=
  if job.magic ≠ RAVEIL_JOB_MAGIC ∨ job.schemaVersion ≠ 1 ∨ job.structSize ≠ 320 ∨ job.flags ≠ 0 ∨
      job.reserved0 ≠ 0 ∨ job.reserved1 ≠ 0 ∨ job.jobId = 0 ∨ job.objectCount = 0 ∨
      job.objectCount > 4 ∨ !nonzeroIdentity job.programIdentity ∨
      !nonzeroIdentity job.graphVariantIdentity ∨ !nonzeroIdentity job.executionContractIdentity ∨
      !nonzeroIdentity job.targetSignature ∨ job.resources.maxRuntimeTicks = 0 ∨
      job.resources.maxInputBytes = 0 ∨ job.resources.maxOutputBytes = 0 ∨
      job.resources.maxScratchBytes = 0 then false
  else match (indices 4 job.objectCount).foldlM (validateObject job) (0, 0) with
    | none => false
    | some (input, output) =>
      !(input > job.resources.maxInputBytes ∨ output > job.resources.maxOutputBytes) &&
        ∀ i : Fin 4, job.objectCount ≤ i → job.objects i = default

def writeRef (job : JobDescriptor) (id generation : ℕ) : Option ObjectRef :=
  ((indices 4 job.objectCount).find? fun i => (job.objects i).objectId = id ∧
    (job.objects i).generation = generation ∧
    (job.objects i).access &&& RAVEIL_OBJECT_WRITE ≠ 0).map job.objects

/-- `raveil_completion_record_validate_v1`. -/
def raveilCompletionRecordValidate (job : JobDescriptor) (completion : CompletionRecord) : Bool :=
  if !raveilJobDescriptorValidate job ∨ completion.magic ≠ RAVEIL_COMPLETION_MAGIC ∨
      completion.schemaVersion ≠ 1 ∨ completion.structSize ≠ 176 ∨ completion.flags ≠ 0 ∨
      completion.reserved0 ≠ 0 ∨ completion.reserved1 ≠ 0 ∨ completion.reserved2 ≠ (fun _ => 0) ∨
      completion.jobId ≠ job.jobId ∨ completion.executionEpoch = 0 ∨
      completion.executionSequence = 0 ∨ !nonzeroIdentity completion.completionCookie ∨
      completion.status < RAVEIL_COMPLETION_EXECUTED ∨ completion.status > RAVEIL_COMPLETION_FAULT ∨
      completion.outputCount > 4 then false
  else if completion.status ≠ RAVEIL_COMPLETION_EXECUTED then
    let expectedDetail :=
      if completion.status = RAVEIL_COMPLETION_REJECTED then RAVEIL_DETAIL_INVALID_CONTRACT
      else if completion.status = RAVEIL_COMPLETION_CANCELLED then RAVEIL_DETAIL_CANCEL_REQUESTED
      else RAVEIL_DETAIL_EXECUTION_FAULT
    completion.detail = expectedDetail ∧ completion.outputCount = 0 ∧
      completion.outputs = fun _ => default
  else
    completion.detail = 0 ∧
    completion.outputCount = ((indices 4 job.objectCount).filter fun i =>
      (job.objects i).access &&& RAVEIL_OBJECT_WRITE ≠ 0).length ∧
    (∀ i : Fin 4, i.val < completion.outputCount →
      ((writeRef job (completion.outputs i).objectId (completion.outputs i).generation).any fun source =>
        !((completion.outputs i).version ≤ source.expectedVersion)) = true ∧
      ∀ j : Fin 4, j < i → ¬ ((completion.outputs i).objectId = (completion.outputs j).objectId ∧
        (completion.outputs i).generation = (completion.outputs j).generation)) ∧
    ∀ i : Fin 4, completion.outputCount ≤ i → completion.outputs i = default

/-- `raveil_object_manifest_validate_v1`. -/
def raveilObjectManifestValidate (manifest : ObjectManifest) : Bool :=
  if manifest.magic ≠ RAVEIL_OBJECT_MANIFEST_MAGIC ∨ manifest.schemaVersion ≠ 1 ∨
      manifest.structSize ≠ 64 ∨ manifest.flags ≠ 0 ∨ manifest.objectId = 0 ∨
      manifest.generation = 0 ∨ manifest.version = 0 ∨ manifest.byteLength = 0 ∨
      (manifest.permittedAccess ≠ RAVEIL_OBJECT_READ ∧
        manifest.permittedAccess ≠ RAVEIL_OBJECT_READ ||| RAVEIL_OBJECT_WRITE) ∨
      (manifest.backing ≠ RAVEIL_OBJECT_BACKING_VOLATILE ∧
        manifest.backing ≠ RAVEIL_OBJECT_BACKING_IMMUTABLE) ∨ manifest.reserved0 ≠ 0 then false
  else if manifest.reserved1 ≠ (fun _ => 0) then false
  else manifest.backing ≠ RAVEIL_OBJECT_BACKING_IMMUTABLE ∨
    manifest.permittedAccess = RAVEIL_OBJECT_READ

/-- What the authority relies on in a descriptor that passed its check. -/
structure JobOk (job : JobDescriptor) : Prop where
  count : 0 < job.objectCount ∧ job.objectCount ≤ 4
  object : ∀ i : Fin 4, i.val < job.objectCount → validObject (job.objects i) = true
  distinct : ∀ i j : Fin 4, i.val < job.objectCount → j.val < job.objectCount →
    (job.objects i).objectId = (job.objects j).objectId →
    (job.objects i).generation = (job.objects j).generation → i = j

theorem validateObject_loop {job : JobDescriptor} {l : List (Fin 4)} {a b : ℕ × ℕ}
    (h : l.foldlM (validateObject job) a = some b) :
    ∀ i ∈ l, validObject (job.objects i) = true ∧
      ¬ ∃ j, j < i ∧ (job.objects i).objectId = (job.objects j).objectId ∧
        (job.objects i).generation = (job.objects j).generation := by
  induction l generalizing a with
  | nil => simp
  | cons i l ih =>
    simp only [List.foldlM_cons, Option.bind_eq_bind, Option.bind_eq_some_iff] at h
    obtain ⟨c, hc, hl⟩ := h
    rw [List.forall_mem_cons]
    refine ⟨?_, ih hl⟩
    unfold validateObject at hc
    cases hv : validObject (job.objects i) with
    | false => simp [hv] at hc
    | true =>
      refine ⟨rfl, fun hdup => ?_⟩
      simp [hv, hdup] at hc

theorem jobOk_of_validate {job : JobDescriptor} (h : raveilJobDescriptorValidate job = true) :
    JobOk job := by
  unfold raveilJobDescriptorValidate at h
  split at h
  · simp at h
  rename_i hhead
  simp only [not_or] at hhead
  split at h
  · simp at h
  rename_i hloop
  have hall := validateObject_loop hloop
  have hlt : ∀ i j : Fin 4, i.val < job.objectCount → j < i →
      (job.objects i).objectId = (job.objects j).objectId →
      (job.objects i).generation ≠ (job.objects j).generation := by
    intro i j hi hj hid hgen
    exact (hall i (mem_indices.mpr hi)).2 ⟨j, hj, hid, hgen⟩
  refine ⟨by omega, fun i hi => (hall i (mem_indices.mpr hi)).1, fun i j hi hj hid hgen => ?_⟩
  obtain hij | rfl | hij := lt_trichotomy i j
  · exact absurd hgen.symm (hlt j i hj hij hid.symm)
  · rfl
  · exact absurd hgen (hlt i j hi hij hid)

theorem validObject_access {object : ObjectRef} (h : validObject object = true) :
    object.access = RAVEIL_OBJECT_READ ∨ object.access = RAVEIL_OBJECT_WRITE := by
  simp only [validObject, decide_eq_true_iff] at h
  exact h.2.2.2.2.2.2

/-- In a valid descriptor the write bit of an access is the write access. -/
theorem write_bit {object : ObjectRef} (h : validObject object = true) :
    object.access &&& RAVEIL_OBJECT_WRITE ≠ 0 ↔ object.access = RAVEIL_OBJECT_WRITE := by
  obtain ha | ha := validObject_access h
  · simp [ha, RAVEIL_OBJECT_READ, RAVEIL_OBJECT_WRITE]
  · simp [ha, RAVEIL_OBJECT_WRITE]

/-- The declared outputs of an executed completion. -/
structure OutputsOk (job : JobDescriptor) (completion : CompletionRecord) : Prop where
  count : completion.outputCount = ((indices 4 job.objectCount).filter fun i =>
    (job.objects i).access &&& RAVEIL_OBJECT_WRITE ≠ 0).length
  bound : completion.outputCount ≤ 4
  source : ∀ i : Fin 4, i.val < completion.outputCount → ∃ r : Fin 4, r.val < job.objectCount ∧
    (job.objects r).access = RAVEIL_OBJECT_WRITE ∧
    (job.objects r).objectId = (completion.outputs i).objectId ∧
    (job.objects r).generation = (completion.outputs i).generation
  distinct : ∀ i j : Fin 4, i.val < completion.outputCount → j.val < completion.outputCount →
    (completion.outputs i).objectId = (completion.outputs j).objectId →
    (completion.outputs i).generation = (completion.outputs j).generation → i = j

theorem writeRef_eq_some {job : JobDescriptor} (hj : JobOk job) {id generation : ℕ} {ref : ObjectRef}
    (h : writeRef job id generation = some ref) : ∃ r : Fin 4, r.val < job.objectCount ∧
      job.objects r = ref ∧ ref.access = RAVEIL_OBJECT_WRITE ∧ ref.objectId = id ∧
      ref.generation = generation := by
  unfold writeRef at h
  obtain ⟨r, hr, rfl⟩ := Option.map_eq_some_iff.mp h
  have hlt := mem_indices.mp (List.mem_of_find?_eq_some hr)
  have hp := List.find?_some hr
  simp only [decide_eq_true_iff] at hp
  exact ⟨r, hlt, rfl, (write_bit (hj.object r hlt)).mp hp.2.2, hp.1, hp.2.1⟩

theorem jobOk_of_completion {job : JobDescriptor} {completion : CompletionRecord}
    (h : raveilCompletionRecordValidate job completion = true) : JobOk job := by
  unfold raveilCompletionRecordValidate at h
  split at h
  · simp at h
  rename_i hhead
  refine jobOk_of_validate ?_
  by_contra hv
  exact hhead (Or.inl (by simp [hv]))

theorem outputsOk_of_completion {job : JobDescriptor} {completion : CompletionRecord}
    (h : raveilCompletionRecordValidate job completion = true)
    (hs : completion.status = RAVEIL_COMPLETION_EXECUTED) : OutputsOk job completion := by
  have hj := jobOk_of_completion h
  unfold raveilCompletionRecordValidate at h
  split at h
  · simp at h
  rename_i hhead
  simp only [not_or] at hhead
  rw [if_neg (by simp [hs]), decide_eq_true_iff] at h
  obtain ⟨-, hcount, hout, -⟩ := h
  have hlt : ∀ i j : Fin 4, i.val < completion.outputCount → j < i →
      (completion.outputs i).objectId = (completion.outputs j).objectId →
      (completion.outputs i).generation ≠ (completion.outputs j).generation :=
    fun i j hi hij hid hgen => (hout i hi).2 j hij ⟨hid, hgen⟩
  refine ⟨hcount, by omega, fun i hi => ?_, fun i j hi hj hid hgen => ?_⟩
  · obtain ⟨hsource, -⟩ := hout i hi
    rw [Option.any_eq_true] at hsource
    obtain ⟨ref, href, -⟩ := hsource
    obtain ⟨r, hr, rfl, ha, hid, hgen⟩ := writeRef_eq_some hj href
    exact ⟨r, hr, ha, hid, hgen⟩
  · obtain hij | rfl | hij := lt_trichotomy i j
    · exact absurd hgen.symm (hlt j i hj hij hid.symm)
    · rfl
    · exact absurd hgen (hlt i j hi hij hid)

/-- By counting, every written object has exactly one declared output. -/
theorem OutputsOk.covers {job : JobDescriptor} {completion : CompletionRecord} (hj : JobOk job)
    (h : OutputsOk job completion) {r : Fin 4} (hr : r.val < job.objectCount)
    (ha : (job.objects r).access = RAVEIL_OBJECT_WRITE) :
    ∃ i : Fin 4, i.val < completion.outputCount ∧
      (completion.outputs i).objectId = (job.objects r).objectId ∧
      (completion.outputs i).generation = (job.objects r).generation := by
  choose! source hsource using h.source
  let outs : Finset (Fin 4) := Finset.univ.filter fun i => i.val < completion.outputCount
  let refs : Finset (Fin 4) := Finset.univ.filter fun r =>
    r.val < job.objectCount ∧ (job.objects r).access = RAVEIL_OBJECT_WRITE
  have hcard : refs.card ≤ outs.card := by
    have hprefix : ∀ c, c ≤ 4 → (Finset.univ.filter fun i : Fin 4 => i.val < c).card = c := by decide
    have hrefs : refs = ((indices 4 job.objectCount).filter fun i =>
        (job.objects i).access &&& RAVEIL_OBJECT_WRITE ≠ 0).toFinset := by
      ext r
      simp only [refs, Finset.mem_filter, Finset.mem_univ, true_and, List.mem_toFinset,
        List.mem_filter, mem_indices, decide_eq_true_iff]
      exact and_congr_right fun hr => (write_bit (hj.object r hr)).symm
    rw [hrefs, hprefix _ h.bound, h.count]
    exact List.toFinset_card_le _
  have hmaps : ∀ i ∈ outs, source i ∈ refs := by
    intro i hi
    obtain ⟨h1, h2, -⟩ := hsource i (by simpa [outs] using hi)
    simp [refs, h1, h2]
  have hinj : ∀ i ∈ outs, ∀ j ∈ outs, source i = source j → i = j := by
    intro i hi j hj hij
    have hi' : i.val < completion.outputCount := by simpa [outs] using hi
    have hj' : j.val < completion.outputCount := by simpa [outs] using hj
    obtain ⟨-, -, hid, hgen⟩ := hsource i hi'
    obtain ⟨-, -, hid', hgen'⟩ := hsource j hj'
    rw [hij] at hid hgen
    exact h.distinct i j hi' hj' (hid.symm.trans hid') (hgen.symm.trans hgen')
  obtain ⟨i, hi, rfl⟩ := Finset.surj_on_of_inj_on_of_card_le (fun i _ => source i) hmaps
    (fun i j hi hj hij => hinj i hi j hj hij) hcard r (by simp [refs, hr, ha])
  have hi' : i.val < completion.outputCount := by simpa [outs] using hi
  obtain ⟨-, -, hid, hgen⟩ := hsource i hi'
  exact ⟨i, hi', hid.symm, hgen.symm⟩

end Raveil.Authority
