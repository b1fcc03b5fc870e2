import Mathlib.Algebra.BigOperators.Fin
import Mathlib.Algebra.Order.BigOperators.Group.List
import Mathlib.Tactic.Ring
import Raveil.Authority.Contract

/-! The rules that a job descriptor and a completion record declare, with exact sums. -/
namespace Raveil.Authority
open Raveil.Lib

variable {job : JobDescriptor}

/-- The bytes that reference `i` adds to the sum of this access. -/
def refBytes (job : JobDescriptor) (access : ℕ) (i : Fin 4) : ℕ :=
  if (job.objects i).access = access then (job.objects i).length else 0

/-- The exact number of bytes that the job reads or writes. -/
def totalBytes (job : JobDescriptor) (access : ℕ) : ℕ :=
  ∑ i : Fin 4, if i.val < job.objectCount then refBytes job access i else 0

/-- The fields that the sums and their bounds are made of hold 64-bit values. -/
structure Words64 (job : JobDescriptor) : Prop where
  length : ∀ i, (job.objects i).length ≤ UINT64_MAX
  input : job.resources.maxInputBytes ≤ UINT64_MAX
  output : job.resources.maxOutputBytes ≤ UINT64_MAX

/-- The declared rules of a job descriptor. -/
structure JobRules (job : JobDescriptor) : Prop where
  header : job.magic = RAVEIL_JOB_MAGIC ∧ job.schemaVersion = 1 ∧ job.structSize = 320 ∧ job.flags = 0 ∧
    job.reserved0 = 0 ∧ job.reserved1 = 0
  jobId : job.jobId ≠ 0
  count : job.objectCount ≠ 0 ∧ job.objectCount ≤ 4
  identities : (∃ i, job.programIdentity i ≠ 0) ∧ (∃ i, job.graphVariantIdentity i ≠ 0) ∧
    (∃ i, job.executionContractIdentity i ≠ 0) ∧ ∃ i, job.targetSignature i ≠ 0
  resources : job.resources.maxRuntimeTicks ≠ 0 ∧ job.resources.maxInputBytes ≠ 0 ∧
    job.resources.maxOutputBytes ≠ 0 ∧ job.resources.maxScratchBytes ≠ 0
  named : ∀ i : Fin 4, i.val < job.objectCount → (job.objects i).objectId ≠ 0 ∧
    (job.objects i).generation ≠ 0 ∧ (job.objects i).expectedVersion ≠ 0
  range : ∀ i : Fin 4, i.val < job.objectCount → (job.objects i).length ≠ 0 ∧
    (job.objects i).offset + (job.objects i).length ≤ UINT64_MAX
  access : ∀ i : Fin 4, i.val < job.objectCount → (job.objects i).flags = 0 ∧
    ((job.objects i).access = RAVEIL_OBJECT_READ ∨ (job.objects i).access = RAVEIL_OBJECT_WRITE)
  distinct : ∀ i j : Fin 4, i.val < job.objectCount → j.val < job.objectCount →
    (job.objects i).objectId = (job.objects j).objectId →
    (job.objects i).generation = (job.objects j).generation → i = j
  input : totalBytes job RAVEIL_OBJECT_READ ≤ job.resources.maxInputBytes
  output : totalBytes job RAVEIL_OBJECT_WRITE ≤ job.resources.maxOutputBytes
  unused : ∀ i : Fin 4, job.objectCount ≤ i → job.objects i = default

section Sums

/-- The guarded sum is the exact one, or overflows. -/
theorem addBytes_eq {access : ℕ} {i : Fin 4} {bytes : ℕ}
    (ha : (job.objects i).access &&& access ≠ 0 ↔ (job.objects i).access = access)
    (hlen : (job.objects i).length ≤ UINT64_MAX) (hb : bytes ≤ UINT64_MAX) :
    addBytes job access i bytes =
      if bytes + refBytes job access i ≤ UINT64_MAX then some (bytes + refBytes job access i) else none := by
  unfold addBytes refBytes
  by_cases hacc : (job.objects i).access = access
  · rw [if_pos (ha.mpr hacc), if_pos hacc]
    by_cases hover : bytes + (job.objects i).length ≤ UINT64_MAX
    · rw [if_neg (by omega), if_pos hover, Nat.mod_eq_of_lt]
      unfold UINT64_MAX at hover
      omega
    · rw [if_pos (by omega), if_neg hover]
  · rw [if_neg (ha.not.mpr hacc), if_neg hacc, Nat.add_zero, if_pos hb]

/-- No earlier reference names the same object and generation. -/
def Fresh (job : JobDescriptor) (i : Fin 4) : Prop :=
  ¬ ∃ j, j < i ∧ (job.objects i).objectId = (job.objects j).objectId ∧
    (job.objects i).generation = (job.objects j).generation

theorem read_bit {object : ObjectRef} (h : validObject object = true) :
    object.access &&& RAVEIL_OBJECT_READ ≠ 0 ↔ object.access = RAVEIL_OBJECT_READ := by
  obtain ha | ha := validObject_access h
  · simp [ha, RAVEIL_OBJECT_READ]
  · simp [ha, RAVEIL_OBJECT_READ, RAVEIL_OBJECT_WRITE]

theorem validateObject_eq_some {i : Fin 4} (hlen : (job.objects i).length ≤ UINT64_MAX)
    {bytes out : ℕ × ℕ} (hb : bytes.1 ≤ UINT64_MAX ∧ bytes.2 ≤ UINT64_MAX) :
    validateObject job bytes i = some out ↔
      validObject (job.objects i) = true ∧ Fresh job i ∧
      out = (bytes.1 + refBytes job RAVEIL_OBJECT_READ i, bytes.2 + refBytes job RAVEIL_OBJECT_WRITE i) ∧
      out.1 ≤ UINT64_MAX ∧ out.2 ≤ UINT64_MAX := by
  unfold validateObject
  cases hv : validObject (job.objects i) with
  | false => simp
  | true =>
    rw [addBytes_eq (read_bit hv) hlen hb.1, addBytes_eq (write_bit hv) hlen hb.2]
    by_cases hin : bytes.1 + refBytes job RAVEIL_OBJECT_READ i ≤ UINT64_MAX
    · by_cases hout : bytes.2 + refBytes job RAVEIL_OBJECT_WRITE i ≤ UINT64_MAX
      · by_cases hf : Fresh job i
        · have hdup := hf
          unfold Fresh at hdup
          simp only [hin, hout, hdup, hf, Bool.not_true, Bool.false_eq_true, if_true, if_false,
            Option.bind_eq_bind, Option.bind_some, Option.some.injEq, true_and]
          constructor
          · rintro rfl
            exact ⟨rfl, hin, hout⟩
          · rintro ⟨rfl, -⟩
            rfl
        · have hdup := not_not.mp hf
          simp [hin, hout, hdup, hf]
      · simp only [hin, hout, Bool.not_true, Bool.false_eq_true, if_true, if_false,
          Option.bind_eq_bind, Option.bind_some, Option.bind_none]
        constructor
        · exact fun h => by cases h
        · rintro ⟨-, -, rfl, -, h⟩
          exact absurd h hout
    · simp only [hin, Bool.not_true, Bool.false_eq_true, if_false, Option.bind_eq_bind, Option.bind_none]
      constructor
      · exact fun h => by cases h
      · rintro ⟨-, -, rfl, h, -⟩
        exact absurd h hin

/-- The loop accepts when every reference is valid and new and the exact sums do not overflow. -/
theorem validateObjects_eq_some {l : List (Fin 4)} (hlen : ∀ i ∈ l, (job.objects i).length ≤ UINT64_MAX)
    {bytes out : ℕ × ℕ} (hb : bytes.1 ≤ UINT64_MAX ∧ bytes.2 ≤ UINT64_MAX) :
    l.foldlM (validateObject job) bytes = some out ↔
      (∀ i ∈ l, validObject (job.objects i) = true ∧ Fresh job i) ∧
      out = (bytes.1 + (l.map (refBytes job RAVEIL_OBJECT_READ)).sum,
        bytes.2 + (l.map (refBytes job RAVEIL_OBJECT_WRITE)).sum) ∧
      out.1 ≤ UINT64_MAX ∧ out.2 ≤ UINT64_MAX := by
  induction l generalizing bytes with
  | nil =>
    simp only [List.foldlM_nil, Option.pure_def, Option.some.injEq, List.not_mem_nil, false_implies,
      implies_true, List.map_nil, List.sum_nil, Nat.add_zero, true_and]
    constructor
    · rintro rfl
      exact ⟨rfl, hb⟩
    · rintro ⟨rfl, -⟩
      rfl
  | cons i l ih =>
    rw [List.forall_mem_cons] at hlen
    rw [List.foldlM_cons, Option.bind_eq_bind, Option.bind_eq_some_iff, List.forall_mem_cons]
    constructor
    · rintro ⟨mid, hmid, hl⟩
      obtain ⟨hv, hf, rfl, hm⟩ := (validateObject_eq_some hlen.1 hb).mp hmid
      obtain ⟨hall, rfl, hout⟩ := (ih hlen.2 hm).mp hl
      refine ⟨⟨⟨hv, hf⟩, hall⟩, ?_, hout⟩
      simp only [List.map_cons, List.sum_cons, Nat.add_assoc]
    · rintro ⟨⟨⟨hv, hf⟩, hall⟩, rfl, hout⟩
      simp only [List.map_cons, List.sum_cons] at hout
      have hm : bytes.1 + refBytes job RAVEIL_OBJECT_READ i ≤ UINT64_MAX ∧
          bytes.2 + refBytes job RAVEIL_OBJECT_WRITE i ≤ UINT64_MAX := by omega
      refine ⟨_, (validateObject_eq_some hlen.1 hb).mpr ⟨hv, hf, rfl, hm⟩, (ih hlen.2 hm).mpr ⟨hall, ?_, hout⟩⟩
      simp only [List.map_cons, List.sum_cons, Nat.add_assoc]

theorem sum_refBytes (access : ℕ) :
    ((indices 4 job.objectCount).map (refBytes job access)).sum = totalBytes job access := by
  have hnodup : (indices 4 job.objectCount).Nodup := (List.nodup_finRange 4).filter _
  rw [← List.sum_toFinset _ hnodup, totalBytes, ← Finset.sum_filter]
  congr 1
  ext i
  simp [mem_indices]

end Sums

theorem nonzeroIdentity_iff {identity : Identity} : nonzeroIdentity identity = true ↔ ∃ i, identity i ≠ 0 := by
  simp [nonzeroIdentity]

/-- A descriptor passes the validator exactly when its declared rules hold. -/
theorem validate_iff (hw : Words64 job) : raveilJobDescriptorValidate job = true ↔ JobRules job := by
  have hloop := fun out : ℕ × ℕ => @validateObjects_eq_some job (indices 4 job.objectCount)
    (fun i _ => hw.length i) (0, 0) out ⟨Nat.zero_le _, Nat.zero_le _⟩
  simp only [sum_refBytes, Nat.zero_add] at hloop
  constructor
  · intro h
    have hok := jobOk_of_validate h
    unfold raveilJobDescriptorValidate at h
    split at h
    · cases h
    rename_i hhead
    simp only [not_or, not_not, Bool.not_eq_true', Bool.not_eq_false, nonzeroIdentity_iff] at hhead
    obtain ⟨h1, h2, h3, h4, h5, h6, h7, h8, h9, h10, h11, h12, h13, h14, h15, h16, h17⟩ := hhead
    split at h
    · cases h
    rename_i input output hfold
    obtain ⟨hall, hsum, -⟩ := (hloop _).mp hfold
    obtain ⟨rfl, rfl⟩ := Prod.mk.inj hsum
    simp only [Bool.and_eq_true, Bool.not_eq_true', decide_eq_false_iff_not, not_or, not_lt,
      decide_eq_true_eq] at h
    have hobj := fun i hi => (hall i (mem_indices.mpr hi)).1
    simp only [validObject, decide_eq_true_eq] at hobj
    refine ⟨⟨h1, h2, h3, h4, h5, h6⟩, h7, ⟨h8, by omega⟩, ⟨h10, h11, h12, h13⟩, ⟨h14, h15, h16, h17⟩,
      fun i hi => ?_, fun i hi => ?_, fun i hi => ?_, hok.distinct, h.1.1, h.1.2, h.2⟩
    · obtain ⟨hid, hgen, hver, -⟩ := hobj i hi
      exact ⟨hid, hgen, hver⟩
    · obtain ⟨-, -, -, hlen, hoff, -⟩ := hobj i hi
      have := hw.length i
      exact ⟨hlen, by omega⟩
    · obtain ⟨-, -, -, -, -, hflags, hacc⟩ := hobj i hi
      exact ⟨hflags, hacc⟩
  · intro h
    have hfold := (hloop (totalBytes job RAVEIL_OBJECT_READ, totalBytes job RAVEIL_OBJECT_WRITE)).mpr
      ⟨fun i hi => ?_, rfl, h.input.trans hw.input, h.output.trans hw.output⟩
    · unfold raveilJobDescriptorValidate
      rw [if_neg, hfold]
      · simpa using ⟨⟨h.input, h.output⟩, h.unused⟩
      · obtain ⟨h1, h2, h3, h4, h5, h6⟩ := h.header
        obtain ⟨h8, h9⟩ := h.count
        obtain ⟨h10, h11, h12, h13⟩ := h.identities
        obtain ⟨h14, h15, h16, h17⟩ := h.resources
        simp only [not_or, not_not, Bool.not_eq_true', Bool.not_eq_false, nonzeroIdentity_iff]
        exact ⟨h1, h2, h3, h4, h5, h6, h.jobId, h8, by omega, h10, h11, h12, h13, h14, h15, h16, h17⟩
    · have hlt := mem_indices.mp hi
      obtain ⟨hid, hgen, hver⟩ := h.named i hlt
      obtain ⟨hlen, hend⟩ := h.range i hlt
      obtain ⟨hflags, hacc⟩ := h.access i hlt
      constructor
      · simp only [validObject, decide_eq_true_eq]
        exact ⟨hid, hgen, hver, hlen, by omega, hflags, hacc⟩
      · rintro ⟨j, hj, hid', hgen'⟩
        exact absurd (h.distinct i j hlt (lt_trans hj hlt) hid' hgen') hj.ne'

/-- The outputs of a completion and the WRITE references of its job correspond one to one, and every
output has a later version than its reference. -/
def OutputsMatch (job : JobDescriptor) (completion : CompletionRecord) : Prop :=
  ∃ source : {i : Fin 4 // i.val < completion.outputCount} ≃
      {r : Fin 4 // r.val < job.objectCount ∧ (job.objects r).access = RAVEIL_OBJECT_WRITE},
    ∀ i : {i : Fin 4 // i.val < completion.outputCount},
      (completion.outputs i).objectId = (job.objects (source i)).objectId ∧
      (completion.outputs i).generation = (job.objects (source i)).generation ∧
      (job.objects (source i)).expectedVersion < (completion.outputs i).version

section Completion

variable {completion : CompletionRecord}

theorem output_source (h : raveilCompletionRecordValidate job completion = true)
    (hs : completion.status = RAVEIL_COMPLETION_EXECUTED) {i : Fin 4}
    (hi : i.val < completion.outputCount) :
    ∃ r : Fin 4, r.val < job.objectCount ∧ (job.objects r).access = RAVEIL_OBJECT_WRITE ∧
      (completion.outputs i).objectId = (job.objects r).objectId ∧
      (completion.outputs i).generation = (job.objects r).generation ∧
      (job.objects r).expectedVersion < (completion.outputs i).version := by
  have hj := jobOk_of_completion h
  unfold raveilCompletionRecordValidate at h
  split at h
  · cases h
  rw [if_neg (by simp [hs]), decide_eq_true_iff] at h
  obtain ⟨-, -, hout, -⟩ := h
  obtain ⟨ref, href, hversion⟩ := Option.any_eq_true _ _ |>.mp (hout i hi).1
  obtain ⟨r, hr, rfl, ha, hid, hgen⟩ := writeRef_eq_some hj href
  exact ⟨r, hr, ha, hid.symm, hgen.symm, by simpa using hversion⟩

/-- Distinct outputs name distinct references, and by counting they name all of them. -/
theorem outputsMatch_of_completion (h : raveilCompletionRecordValidate job completion = true)
    (hs : completion.status = RAVEIL_COMPLETION_EXECUTED) : OutputsMatch job completion := by
  have hj := jobOk_of_completion h
  have hout := outputsOk_of_completion h hs
  choose! source hlt hacc hid hgen hversion using fun (i : Fin 4) => output_source (i := i) h hs
  let f : {i : Fin 4 // i.val < completion.outputCount} →
      {r : Fin 4 // r.val < job.objectCount ∧ (job.objects r).access = RAVEIL_OBJECT_WRITE} :=
    fun i => ⟨source i, hlt i i.2, hacc i i.2⟩
  have hinj : Function.Injective f := by
    rintro ⟨i, hi⟩ ⟨j, hj'⟩ he
    have hr : source i = source j := congrArg Subtype.val he
    refine Subtype.ext (hout.distinct i j hi hj' ?_ ?_)
    · rw [hid i hi, hid j hj', hr]
    · rw [hgen i hi, hgen j hj', hr]
  have hsurj : Function.Surjective f := by
    rintro ⟨r, hr, ha⟩
    obtain ⟨i, hi, hid', hgen'⟩ := hout.covers hj hr ha
    refine ⟨⟨i, hi⟩, Subtype.ext (hj.distinct _ _ (hlt i hi) hr ?_ ?_)⟩
    · exact (hid i hi).symm.trans hid'
    · exact (hgen i hi).symm.trans hgen'
  exact ⟨Equiv.ofBijective f ⟨hinj, hsurj⟩, fun i => ⟨hid i i.2, hgen i i.2, hversion i i.2⟩⟩

theorem no_outputs (h : raveilCompletionRecordValidate job completion = true)
    (hs : completion.status ≠ RAVEIL_COMPLETION_EXECUTED) :
    completion.outputCount = 0 ∧ ∀ i, completion.outputs i = default := by
  unfold raveilCompletionRecordValidate at h
  split at h
  · cases h
  dsimp only at h
  rw [decide_eq_true_iff] at h
  exact ⟨h.2.1, fun i => congrFun h.2.2 i⟩

end Completion

/-- The job contract is its declared rules over exact sums, and accepted completions declare the
outputs of the job. -/
theorem contract_exact (hw : Words64 job) :
    (raveilJobDescriptorValidate job = true ↔ JobRules job) ∧
    ∀ completion, raveilCompletionRecordValidate job completion = true →
      (completion.status = RAVEIL_COMPLETION_EXECUTED → OutputsMatch job completion) ∧
      (completion.status ≠ RAVEIL_COMPLETION_EXECUTED →
        completion.outputCount = 0 ∧ ∀ i, completion.outputs i = default) :=
  ⟨validate_iff hw, fun _ h => ⟨outputsMatch_of_completion h, no_outputs h⟩⟩

/-- A job with one byte of output. -/
def oneByteJob : JobDescriptor where
  magic := RAVEIL_JOB_MAGIC
  schemaVersion := 1
  structSize := 320
  flags := 0
  objectCount := 1
  reserved0 := 0
  jobId := 1
  programIdentity := fun _ => 1
  graphVariantIdentity := fun _ => 1
  executionContractIdentity := fun _ => 1
  targetSignature := fun _ => 1
  resources := ⟨1, 1, 1, 1⟩
  reserved1 := 0
  objects := fun i => if i = 0 then ⟨1, 1, 1, 0, 1, RAVEIL_OBJECT_WRITE, 0⟩ else default

theorem contract_exact_oneByteJob :
    (raveilJobDescriptorValidate oneByteJob = true ↔ JobRules oneByteJob) ∧
    ∀ completion, raveilCompletionRecordValidate oneByteJob completion = true →
      (completion.status = RAVEIL_COMPLETION_EXECUTED → OutputsMatch oneByteJob completion) ∧
      (completion.status ≠ RAVEIL_COMPLETION_EXECUTED →
        completion.outputCount = 0 ∧ ∀ i, completion.outputs i = default) :=
  contract_exact ⟨by decide, by decide, by decide⟩

end Raveil.Authority
