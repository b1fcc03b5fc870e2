import Raveil.Authority.ContractRules
import Raveil.Authority.Publication
import Raveil.Authority.Idle
import Raveil.Dispatch.Guest

/-! Jobs over whole objects of 512 bytes: their descriptors and completions pass the authority. -/
namespace Raveil.Dispatch
open Raveil.Lib Raveil.Fold Raveil.Authority

/-- A reference to all of object `slot`. -/
def wholeRef (versions : ℕ → ℕ) (reads : List ℕ) (slot : ℕ) : ObjectRef where
  objectId := slot + 1
  generation := 1
  expectedVersion := versions slot
  offset := 0
  length := 512
  access := if slot ∈ reads then RAVEIL_OBJECT_READ else RAVEIL_OBJECT_WRITE
  flags := 0

/-- The slots a job refers to, in order: those it reads and those it writes. -/
structure SlotsOk (n : ℕ) (reads dests slots : List ℕ) : Prop where
  bound : n ≤ 8
  nodup : slots.Nodup
  mem : ∀ s, s ∈ slots ↔ s ∈ reads ∨ s ∈ dests
  lt : ∀ s ∈ slots, s < n
  unique : dests.Nodup
  disjoint : ∀ s ∈ reads, s ∉ dests
  pos : 0 < dests.length
  refs : slots.length ≤ 4

/-- The references of a descriptor. -/
structure Refers (versions : ℕ → ℕ) (n : ℕ) (reads dests slots : List ℕ) (job : JobDescriptor) : Prop where
  ok : SlotsOk n reads dests slots
  count : job.objectCount = slots.length
  objects : ∀ r : Fin 4, job.objects r = (slots.map (wholeRef versions reads)).getD r default

/-- The authority's objects of `n` slots that hold these versions and words. -/
def slotObjects (n : ℕ) (versions : ℕ → ℕ) (words : ℕ → ℕ → ℕ) (o : Fin 8) : ObjectSlot :=
  if o.val < n then
    ⟨true, { objectManifest o with version := versions o }, memory ((List.range 128).map (words o))⟩
  else default

section Slots

variable {n : ℕ} {reads dests slots : List ℕ}

theorem getD_mem {j : ℕ} (hj : j < dests.length) : dests.getD j 0 ∈ dests := by
  rw [List.getD_eq_getElem _ _ hj]
  exact List.getElem_mem hj

theorem SlotsOk.dest_lt (h : SlotsOk n reads dests slots) {s : ℕ} (hs : s ∈ dests) : s < n :=
  h.lt s ((h.mem s).mpr (Or.inr hs))

theorem SlotsOk.read_lt (h : SlotsOk n reads dests slots) {s : ℕ} (hs : s ∈ reads) : s < n :=
  h.lt s ((h.mem s).mpr (Or.inl hs))

/-- The slots that are not read are the destinations, each once. -/
theorem SlotsOk.countP_writes (h : SlotsOk n reads dests slots) :
    slots.countP (fun s => decide (s ∉ reads)) = dests.length := by
  rw [List.countP_eq_length_filter, ← List.toFinset_card_of_nodup (h.nodup.filter _),
    ← List.toFinset_card_of_nodup h.unique]
  congr 1
  ext s
  simp only [List.mem_toFinset, List.mem_filter, h.mem, decide_eq_true_iff]
  constructor
  · rintro ⟨hs | hs, hn⟩
    · exact absurd hs hn
    · exact hs
  · exact fun hs => ⟨Or.inr hs, fun hr => h.disjoint s hr hs⟩

theorem SlotsOk.length_dests (h : SlotsOk n reads dests slots) : dests.length ≤ 4 := by
  rw [← h.countP_writes]
  exact List.countP_le_length.trans h.refs

end Slots

/-- Looping over the references of a table is looping over the list behind it. -/
theorem map_indices {α : Type} (l : List α) (z : α) (hl : l.length ≤ 4) :
    (indices 4 l.length).map (fun i => l.getD i.val z) = l := by
  have hval : ∀ m, m ≤ 4 → (indices 4 m).map Fin.val = List.range m := by decide
  have hmap : (indices 4 l.length).map (fun i => l.getD i.val z) =
      ((indices 4 l.length).map Fin.val).map fun i => l.getD i z := by
    rw [List.map_map]
    rfl
  rw [hmap, hval _ hl]
  refine List.ext_getElem (by simp) fun i hi hi' => ?_
  rw [List.getElem_map, List.getElem_range, List.getD_eq_getElem _ _ hi']

section Validate

variable {job : JobDescriptor}

/-- References of 512 bytes add 512 bytes each to the sum of their access. -/
theorem validateObjects_eq {l : List (Fin 4)}
    (hv : ∀ i ∈ l, validObject (job.objects i) = true ∧ (job.objects i).length = 512)
    (hl : l.length ≤ 4) (hf : ∀ i ∈ l, Fresh job i) :
    l.foldlM (validateObject job) (0, 0) =
      some (512 * l.countP (fun i => (job.objects i).access = RAVEIL_OBJECT_READ),
        512 * l.countP (fun i => ¬ (job.objects i).access = RAVEIL_OBJECT_READ)) := by
  have hsum : ∀ access, (l.map (refBytes job access)).sum =
      512 * l.countP fun i => (job.objects i).access = access := by
    intro access
    have hmap : l.map (refBytes job access) =
        l.map fun i => if (job.objects i).access = access then 512 else 0 :=
      List.map_congr_left fun i hi => by rw [refBytes, (hv i hi).2]
    rw [hmap]
    clear hmap hv hl hf
    induction l with
    | nil => rfl
    | cons i l ih =>
      rw [List.map_cons, List.sum_cons, ih, List.countP_cons]
      by_cases ha : (job.objects i).access = access
      · simp [ha]
        omega
      · simp [ha]
  have hwrite : l.countP (fun i => (job.objects i).access = RAVEIL_OBJECT_WRITE) =
      l.countP fun i => ¬ (job.objects i).access = RAVEIL_OBJECT_READ := by
    refine List.countP_congr fun i hi => ?_
    obtain ha | ha := validObject_access (hv i hi).1 <;>
      simp [ha, RAVEIL_OBJECT_READ, RAVEIL_OBJECT_WRITE]
  have hle : ∀ p : Fin 4 → Bool, 512 * l.countP p ≤ UINT64_MAX := by
    intro p
    have : l.countP p ≤ l.length := List.countP_le_length
    unfold UINT64_MAX
    omega
  have hlen : ∀ i ∈ l, (job.objects i).length ≤ UINT64_MAX := by
    intro i hi
    rw [(hv i hi).2]
    decide
  rw [validateObjects_eq_some hlen ⟨Nat.zero_le _, Nat.zero_le _⟩]
  exact ⟨fun i hi => ⟨(hv i hi).1, hf i hi⟩, by simp only [hsum, hwrite, Nat.zero_add], hle _, hle _⟩

end Validate

theorem wholeRef_cases (versions : ℕ → ℕ) (reads : List ℕ) (slot : ℕ) :
    (wholeRef versions reads slot).access = RAVEIL_OBJECT_READ ∨
      (wholeRef versions reads slot).access = RAVEIL_OBJECT_WRITE := by
  unfold wholeRef
  dsimp only
  split
  · exact Or.inl rfl
  · exact Or.inr rfl

namespace Refers

variable {versions : ℕ → ℕ} {n : ℕ} {reads dests slots : List ℕ} {job : JobDescriptor}
  (h : Refers versions n reads dests slots job)

include h

theorem object {r : Fin 4} (hr : r.val < slots.length) :
    job.objects r = wholeRef versions reads slots[r.val] := by
  rw [h.objects, List.getD_eq_getElem _ _ (by simpa using hr), List.getElem_map]

theorem exists_ref {s : ℕ} (hs : s ∈ slots) : ∃ r : Fin 4, r.val < job.objectCount ∧
    job.objects r = wholeRef versions reads s := by
  obtain ⟨k, hk, rfl⟩ := List.mem_iff_getElem.mp hs
  have := h.ok.refs
  refine ⟨⟨k, by omega⟩, by rw [h.count]; exact hk, h.object hk⟩

theorem ref {r : Fin 4} (hr : r.val < job.objectCount) :
    ∃ s ∈ slots, job.objects r = wholeRef versions reads s := by
  rw [h.count] at hr
  exact ⟨_, List.getElem_mem hr, h.object hr⟩

/-- Two references to one object are one reference. -/
theorem distinct {r r' : Fin 4} (hr : r.val < job.objectCount) (hr' : r'.val < job.objectCount)
    (hid : (job.objects r).objectId = (job.objects r').objectId) : r = r' := by
  rw [h.count] at hr hr'
  rw [h.object hr, h.object hr'] at hid
  exact Fin.ext (h.ok.nodup.getElem_inj_iff.mp (Nat.succ.inj hid))

/-- Counting references is counting slots. -/
theorem countP_refs (q : ObjectRef → Bool) : (indices 4 job.objectCount).countP (fun i => q (job.objects i)) =
    slots.countP fun s => q (wholeRef versions reads s) := by
  have hlen : (slots.map (wholeRef versions reads)).length = slots.length := List.length_map _
  have hmap := map_indices (slots.map (wholeRef versions reads)) default (by rw [hlen]; exact h.ok.refs)
  have hcount := List.countP_map (p := q)
    (f := fun i : Fin 4 => (slots.map (wholeRef versions reads)).getD i.val default)
    (l := indices 4 (slots.map (wholeRef versions reads)).length)
  rw [hmap, hlen, List.countP_map] at hcount
  rw [h.count]
  simp only [h.objects]
  exact hcount.symm

theorem length_indices : (indices 4 job.objectCount).length = slots.length := by
  have hcount := h.countP_refs fun _ => true
  simpa using hcount

theorem countP_reads : (indices 4 job.objectCount).countP
    (fun i => (job.objects i).access = RAVEIL_OBJECT_READ) = slots.countP fun s => s ∈ reads := by
  rw [h.countP_refs fun r => r.access = RAVEIL_OBJECT_READ]
  refine List.countP_congr fun s _ => ?_
  rw [decide_eq_true_iff, decide_eq_true_iff, wholeRef]
  dsimp only
  split <;> simp_all [RAVEIL_OBJECT_READ, RAVEIL_OBJECT_WRITE]

theorem countP_writes : (indices 4 job.objectCount).countP
    (fun i => ¬ (job.objects i).access = RAVEIL_OBJECT_READ) = dests.length := by
  rw [h.countP_refs fun r => ¬ r.access = RAVEIL_OBJECT_READ, ← h.ok.countP_writes]
  refine List.countP_congr fun s _ => ?_
  rw [decide_eq_true_iff, decide_eq_true_iff, wholeRef]
  dsimp only
  split <;> simp_all [RAVEIL_OBJECT_READ, RAVEIL_OBJECT_WRITE]

theorem validObject_ref (hver : ∀ s, s < n → versions s ≠ 0) {r : Fin 4} (hr : r.val < job.objectCount) :
    validObject (job.objects r) = true ∧ (job.objects r).length = 512 := by
  obtain ⟨s, hs, he⟩ := h.ref hr
  rw [he]
  refine ⟨?_, rfl⟩
  have := hver s (h.ok.lt s hs)
  have haccess := wholeRef_cases versions reads s
  simp only [validObject, haccess, decide_eq_true_iff]
  simp [wholeRef, this, UINT64_MAX]

/-- The two sums of the object loop. -/
theorem validateObjects (hver : ∀ s, s < n → versions s ≠ 0) :
    (indices 4 job.objectCount).foldlM (validateObject job) (0, 0) =
      some (512 * slots.countP (fun s => s ∈ reads), 512 * dests.length) := by
  rw [validateObjects_eq, h.countP_reads, h.countP_writes]
  · exact fun i hi => h.validObject_ref hver (mem_indices.mp hi)
  · rw [h.length_indices]
    exact h.ok.refs
  · rintro i hi ⟨j, hj, hid, -⟩
    have hi' := mem_indices.mp hi
    have := h.distinct hi' ((Fin.lt_def.mp hj).trans hi') hid
    exact absurd this (Fin.ne_of_gt hj)

end Refers

/-- What a valid descriptor says besides its references. -/
structure FieldsOk (job : JobDescriptor) : Prop where
  magic : job.magic = RAVEIL_JOB_MAGIC
  schema : job.schemaVersion = 1 ∧ job.structSize = 320
  zero : job.flags = 0 ∧ job.reserved0 = 0 ∧ job.reserved1 = 0
  id : job.jobId ≠ 0
  identities : nonzeroIdentity job.programIdentity = true ∧ nonzeroIdentity job.graphVariantIdentity = true ∧
    nonzeroIdentity job.executionContractIdentity = true ∧ nonzeroIdentity job.targetSignature = true
  resources : job.resources.maxRuntimeTicks ≠ 0 ∧ job.resources.maxInputBytes ≠ 0 ∧
    job.resources.maxScratchBytes ≠ 0

theorem nonzeroIdentity_head {x : UInt8} (hx : x ≠ 0) :
    nonzeroIdentity (fun i => if i = 0 then x else 0) = true := by
  simp only [nonzeroIdentity, decide_eq_true_iff]
  exact ⟨0, by simpa using hx⟩

theorem makeCookie_nonzero {epoch id sequence : ℕ} (hs : sequence < 2 ^ 56) :
    nonzeroIdentity (makeCookie epoch id sequence) = true := by
  simp only [nonzeroIdentity, decide_eq_true_iff]
  refine ⟨15, ?_⟩
  have hzero : sequence >>> 56 = 0 := by
    rw [Nat.shiftRight_eq_div_pow]
    exact Nat.div_eq_of_lt hs
  have hbyte : (sequence ^^^ 0x736f6e6174696e65) >>> 56 = 0x73 := by
    rw [Nat.shiftRight_xor_distrib, hzero]
    rfl
  have hval : makeCookie epoch id sequence 15 = UInt8.ofNat ((sequence ^^^ 0x736f6e6174696e65) >>> 56) := rfl
  rw [hval, hbyte]
  decide

section Admit

variable {versions : ℕ → ℕ} {n : ℕ} {reads dests slots : List ℕ} {job : JobDescriptor} {words : ℕ → ℕ → ℕ}
  {s : State}

/-- A job over whole objects within its byte bounds is valid. -/
theorem Refers.validate (h : Refers versions n reads dests slots job) (hf : FieldsOk job)
    (hver : ∀ s, s < n → versions s ≠ 0)
    (hin : 512 * slots.countP (fun s => s ∈ reads) ≤ job.resources.maxInputBytes)
    (hout : 512 * dests.length ≤ job.resources.maxOutputBytes) :
    raveilJobDescriptorValidate job = true := by
  have hcount := h.count
  have hle := h.ok.refs
  have hpos := h.ok.pos
  have hslots : 0 < slots.length := by
    have hwrites := h.ok.countP_writes
    have : slots.countP (fun s => decide (s ∉ reads)) ≤ slots.length := List.countP_le_length
    omega
  obtain ⟨hprogram, hgraph, hcontract, htarget⟩ := hf.identities
  obtain ⟨hticks, hin0, hscratch⟩ := hf.resources
  unfold raveilJobDescriptorValidate
  rw [if_neg, h.validateObjects hver]
  · simp only [Bool.and_eq_true, Bool.not_eq_true', decide_eq_false_iff_not, decide_eq_true_iff, not_or,
      not_lt]
    refine ⟨⟨hin, hout⟩, fun i hi => ?_⟩
    rw [h.objects, List.getD_eq_default _ _ (by rw [List.length_map]; omega)]
  · have hout0 : job.resources.maxOutputBytes ≠ 0 := by omega
    simp only [hf.magic, hf.schema, hf.zero, hf.id, hprogram, hgraph, hcontract, htarget, hticks, hin0, hscratch,
      hout0]
    simp only [ne_eq, not_true_eq_false, Bool.not_true, Bool.false_eq_true, false_or, or_false]
    omega

theorem objectsOk_slotObjects (n : ℕ) (versions : ℕ → ℕ) (words : ℕ → ℕ → ℕ) :
    ObjectsOk (slotObjects n versions words) := by
  intro i j hi hj hid
  unfold slotObjects at hi hj hid
  split at hi
  · split at hj
    · rename_i h1 h2
      rw [if_pos h1, if_pos h2] at hid
      exact Fin.ext (Nat.succ.inj hid)
    · cases hj
  · cases hi

theorem findObject_slotObjects (hn : n ≤ 8) {slot : ℕ} (hs : slot < n) :
    findObject (slotObjects n versions words) (slot + 1) = some ⟨slot, by omega⟩ := by
  have hactive : (slotObjects n versions words ⟨slot, by omega⟩).active = true := by
    rw [slotObjects, if_pos hs]
  have hid : (slotObjects n versions words ⟨slot, by omega⟩).value.objectId = slot + 1 := by
    rw [slotObjects, if_pos hs]
    rfl
  rw [← hid]
  exact findObject_of_active (objectsOk_slotObjects n versions words) hactive

/-- The authority admits the descriptor when the guest knows its versions. -/
theorem Refers.admitted (h : Refers versions n reads dests slots job)
    (hv : raveilJobDescriptorValidate job = true) (ho : s.objects = slotObjects n versions words)
    (hmax : ∀ slot, slot < n → versions slot < UINT64_MAX) : admitted s job = true := by
  simp only [Authority.admitted, hv, Bool.true_and, List.all_eq_true]
  intro r hr
  obtain ⟨slot, hslot, he⟩ := h.ref (mem_indices.mp hr)
  have hlt := h.ok.lt slot hslot
  have hmanifest : jobObjectLookup s (slot + 1) = some { objectManifest slot with version := versions slot } := by
    rw [jobObjectLookup, if_neg (by omega), ho, findObject_slotObjects h.ok.bound hlt, Option.map_some,
      slotObjects, if_pos hlt]
  have hbound := hmax slot hlt
  rw [he]
  have hlookup : jobObjectLookup s (wholeRef versions reads slot).objectId =
      some { objectManifest slot with version := versions slot } := hmanifest
  simp only [admittedRef, hlookup]
  have hpermitted : (RAVEIL_OBJECT_READ ||| RAVEIL_OBJECT_WRITE) &&& (wholeRef versions reads slot).access =
      (wholeRef versions reads slot).access := by
    obtain ha | ha := wholeRef_cases versions reads slot
    · rw [ha]
      decide
    · rw [ha]
      decide
  simp only [objectManifest, hpermitted]
  simp only [wholeRef]
  simp
  omega

/-- The references are current as long as the objects are. -/
theorem Refers.refCurrent (h : Refers versions n reads dests slots job) {r : Fin 4}
    (hr : r.val < job.objectCount) :
    refCurrent (slotObjects n versions words) (job.objects r) = true := by
  obtain ⟨slot, hslot, he⟩ := h.ref hr
  have hlt := h.ok.lt slot hslot
  rw [he]
  have hfind : findObject (slotObjects n versions words) (wholeRef versions reads slot).objectId = some _ :=
    findObject_slotObjects h.ok.bound hlt
  simp only [Authority.refCurrent, hfind]
  simp [slotObjects, hlt, objectManifest, wholeRef]

end Admit

section Completion

variable {versions : ℕ → ℕ} {n : ℕ} {reads dests slots : List ℕ} {job : JobDescriptor} {words : ℕ → ℕ → ℕ}
  {issued : Submission}

/-- The completion record of a job: on success every destination moves to its next version. -/
def report (versions : ℕ → ℕ) (dests : List ℕ) (job : JobDescriptor) (issued : Submission) (ok : Bool) :
    CompletionRecord where
  magic := RAVEIL_COMPLETION_MAGIC
  schemaVersion := 1
  structSize := 176
  flags := 0
  status := if ok then RAVEIL_COMPLETION_EXECUTED else RAVEIL_COMPLETION_FAULT
  detail := if ok then 0 else RAVEIL_DETAIL_EXECUTION_FAULT
  reserved0 := 0
  jobId := job.jobId
  executionEpoch := issued.executionEpoch
  executionSequence := issued.executionSequence
  completionCookie := issued.completionCookie
  outputCount := if ok then dests.length else 0
  reserved1 := 0
  reserved2 := fun _ => 0
  outputs := fun j =>
    if ok ∧ j.val < dests.length then ⟨dests.getD j 0 + 1, 1, versions (dests.getD j 0) + 1⟩ else default

/-- Destination `j` has one reference, which writes it. -/
theorem Refers.dest_ref (h : Refers versions n reads dests slots job) {j : ℕ} (hj : j < dests.length) :
    ∃ r : Fin 4, r.val < job.objectCount ∧ job.objects r = wholeRef versions reads (dests.getD j 0) ∧
      (job.objects r).access = RAVEIL_OBJECT_WRITE := by
  have hmem := getD_mem hj
  obtain ⟨r, hr, he⟩ := h.exists_ref ((h.ok.mem _).mpr (Or.inr hmem))
  refine ⟨r, hr, he, ?_⟩
  rw [he, wholeRef]
  exact if_neg fun hread => h.ok.disjoint _ hread hmem

theorem Refers.write_slot (h : Refers versions n reads dests slots job) {r : Fin 4}
    (hr : r.val < job.objectCount) (ha : (job.objects r).access = RAVEIL_OBJECT_WRITE) :
    ∃ j, j < dests.length ∧ job.objects r = wholeRef versions reads (dests.getD j 0) := by
  obtain ⟨s, hs, he⟩ := h.ref hr
  rw [he, wholeRef] at ha
  dsimp only at ha
  split at ha
  · cases ha
  · rename_i hn
    obtain hread | hdest := (h.ok.mem s).mp hs
    · exact absurd hread hn
    · obtain ⟨j, hj, rfl⟩ := List.mem_iff_getElem.mp hdest
      exact ⟨j, hj, by rw [he, List.getD_eq_getElem]⟩

theorem report_output {j : Fin 4} (hj : j.val < dests.length) :
    (report versions dests job issued true).outputs j =
      ⟨dests.getD j 0 + 1, 1, versions (dests.getD j 0) + 1⟩ := by
  simp [report, hj]

theorem Refers.writeRef_eq (h : Refers versions n reads dests slots job) {j : ℕ} (hj : j < dests.length) :
    writeRef job (dests.getD j 0 + 1) 1 = some (wholeRef versions reads (dests.getD j 0)) := by
  obtain ⟨r, hr, he, ha⟩ := h.dest_ref hj
  have hfind : ((indices 4 job.objectCount).find? fun i => (job.objects i).objectId = dests.getD j 0 + 1 ∧
      (job.objects i).generation = 1 ∧ (job.objects i).access &&& RAVEIL_OBJECT_WRITE ≠ 0) = some r := by
    cases hf : (indices 4 job.objectCount).find? fun i => (job.objects i).objectId = dests.getD j 0 + 1 ∧
        (job.objects i).generation = 1 ∧ (job.objects i).access &&& RAVEIL_OBJECT_WRITE ≠ 0 with
    | none =>
      have hno := List.find?_eq_none.mp hf r (mem_indices.mpr hr)
      rw [decide_eq_true_iff, ha, he] at hno
      exact absurd ⟨rfl, rfl, by decide⟩ hno
    | some r' =>
      have hp := List.find?_some hf
      rw [decide_eq_true_iff] at hp
      refine congrArg some (h.distinct (mem_indices.mp (List.mem_of_find?_eq_some hf)) hr ?_)
      rw [hp.1, he]
      rfl
  rw [writeRef, hfind, Option.map_some, he]

/-- The completion of a job is valid, whether it succeeded or not. -/
theorem Refers.validate_report (h : Refers versions n reads dests slots job)
    (hv : raveilJobDescriptorValidate job = true) (hepoch : issued.executionEpoch ≠ 0)
    (hseq : issued.executionSequence ≠ 0) (hcookie : nonzeroIdentity issued.completionCookie = true)
    (ok : Bool) : raveilCompletionRecordValidate job (report versions dests job issued ok) = true := by
  have hlen := h.ok.length_dests
  unfold raveilCompletionRecordValidate
  rw [if_neg]
  · cases ok with
    | false =>
      rw [if_pos (by simp [report, RAVEIL_COMPLETION_FAULT, RAVEIL_COMPLETION_EXECUTED]), decide_eq_true_iff]
      refine ⟨rfl, rfl, ?_⟩
      funext j
      simp [report]
    | true =>
      have hcount : (report versions dests job issued true).outputCount = dests.length := rfl
      rw [if_neg (by simp [report]), decide_eq_true_iff, hcount]
      refine ⟨rfl, ?_, fun i hi => ⟨?_, fun j hji => ?_⟩, fun i hi => ?_⟩
      · rw [← List.countP_eq_length_filter, ← h.countP_writes]
        refine List.countP_congr fun r hr => ?_
        obtain ⟨s, -, he⟩ := h.ref (mem_indices.mp hr)
        rw [decide_eq_true_iff, decide_eq_true_iff, he]
        obtain ha | ha := wholeRef_cases versions reads s
        · simp [ha, RAVEIL_OBJECT_READ, RAVEIL_OBJECT_WRITE]
        · simp [ha, RAVEIL_OBJECT_READ, RAVEIL_OBJECT_WRITE]
      · rw [report_output hi]
        simp only [h.writeRef_eq hi, Option.any_some]
        simp [wholeRef]
      · have hj : j.val < dests.length := (Fin.lt_def.mp hji).trans hi
        rw [report_output hi, report_output hj]
        rintro ⟨hid, -⟩
        have hslot := Nat.succ.inj hid
        rw [List.getD_eq_getElem _ _ hi, List.getD_eq_getElem _ _ hj, h.ok.unique.getElem_inj_iff] at hslot
        have := Fin.lt_def.mp hji
        omega
      · simp only [report]
        rw [if_neg (by omega)]
  · have hcount : (report versions dests job issued ok).outputCount ≤ 4 := by
      simp only [report]
      split <;> omega
    have hstatus : RAVEIL_COMPLETION_EXECUTED ≤ (report versions dests job issued ok).status ∧
        (report versions dests job issued ok).status ≤ RAVEIL_COMPLETION_FAULT := by
      simp only [report]
      split <;> decide
    simp only [hv, Bool.not_true, Bool.false_eq_true, false_or]
    simp only [not_or]
    refine ⟨?_, ?_, ?_, ?_, ?_, ?_, ?_, ?_, hepoch, hseq, ?_, ?_, ?_, ?_⟩
    · simp [report]
    · simp [report]
    · simp [report]
    · simp [report]
    · simp [report]
    · simp [report]
    · simp [report]
    · simp [report]
    · simp [report, hcookie]
    · omega
    · omega
    · omega

/-- The declared versions are the next ones. -/
theorem Refers.outputCurrent (h : Refers versions n reads dests slots job)
    (hmax : ∀ slot, slot < n → versions slot < UINT64_MAX) {j : Fin 4} (hj : j.val < dests.length) :
    outputCurrent (slotObjects n versions words) ((report versions dests job issued true).outputs j) = true := by
  have hlt := h.ok.dest_lt (getD_mem hj)
  have hbound := hmax _ hlt
  rw [report_output hj]
  unfold Authority.outputCurrent
  dsimp only
  rw [findObject_slotObjects h.ok.bound hlt]
  simp only [slotObjects, if_pos hlt, objectManifest, Bool.not_eq_true', decide_eq_false_iff_not]
  omega

end Completion

end Raveil.Dispatch
