import Raveil.Dispatch.Exchange

/-! An executed job writes its chunks, is approved and commits the next versions of its objects. -/
namespace Raveil.Dispatch
open Raveil.Lib Raveil.Fold Raveil.Authority

/-- The capabilities are those the planes ask for. -/
structure Authorized (caps : Caps) (s : State) : Prop where
  program : planeCapAuthorized s caps.task caps.programCap CAP_OBJECT_PROGRAM_AUTHORITY CAP_RIGHT_CONTROL = true
  graph : planeCapAuthorized s caps.task caps.graphCap CAP_OBJECT_GRAPH_AUTHORITY CAP_RIGHT_CONTROL = true
  data : planeCapAuthorized s caps.task caps.dataCap CAP_OBJECT_DATA_AUTHORITY CAP_RIGHT_WRITE = true
  experience : planeCapAuthorized s caps.task caps.experienceCap CAP_OBJECT_EXPERIENCE_AUTHORITY
    CAP_RIGHT_WRITE = true

/-- Only the capability table decides. -/
theorem Authorized.of_table {caps : Caps} {s t : State} (h : Authorized caps s)
    (ht : t.capTable = s.capTable) : Authorized caps t := by
  obtain ⟨h1, h2, h3, h4⟩ := h
  unfold planeCapAuthorized at h1 h2 h3 h4
  constructor
  all_goals
    unfold planeCapAuthorized
    rw [ht]
    assumption

theorem authorized_boot : Authorized bootCaps bootState := by
  refine ⟨?_, ?_, ?_, ?_⟩
  · decide +kernel
  · decide +kernel
  · decide +kernel
  · decide +kernel

/-- The shadow of a completion `c` of `job` that nothing was written to yet. -/
structure Fresh (job : JobDescriptor) (c : CompletionRecord) (b : Binding) (shadow : ShadowSlot) : Prop where
  active : shadow.active = true
  approved : shadow.approved = false
  cancel : shadow.cancelRequested = false
  job : shadow.submission.job = job
  binding : b = bindingFromSubmission shadow.submission
  completion : shadow.completion = c
  clear : ∀ ref k, shadow.staged ref k = false

theorem fresh_freshShadow (s : State) (job : JobDescriptor) (c : CompletionRecord) :
    Fresh job c (bindingFromSubmission (newSubmission s job)) (freshShadow s job c) :=
  ⟨rfl, rfl, rfl, rfl, rfl, rfl, fun _ _ => rfl⟩

/-- The shadow after the first `m` chunks were written, reference `refOf j` holding chunk `j`. -/
structure Staged (shadow : ShadowSlot) (refOf : ℕ → Fin 4) (actual : List ℕ) (m : ℕ) (t : ShadowSlot) :
    Prop where
  active : t.active = shadow.active
  approved : t.approved = shadow.approved
  cancel : t.cancelRequested = shadow.cancelRequested
  submission : t.submission = shadow.submission
  completion : t.completion = shadow.completion
  bytes : ∀ j, j < m → ∀ k, k < 512 → t.bytes (refOf j) k = memory (actual.drop (128 * j)) k
  staged : ∀ j, j < m → ∀ k, k < 512 → t.staged (refOf j) k = true
  clear : ∀ ref, (∀ j, j < m → ref ≠ refOf j) → t.staged ref = shadow.staged ref

section Write

variable {shadow t : ShadowSlot} {refOf : ℕ → Fin 4} {actual : List ℕ} {m : ℕ}

theorem Staged.zero : Staged shadow refOf actual 0 shadow :=
  ⟨rfl, rfl, rfl, rfl, rfl, fun _ h => absurd h (Nat.not_lt_zero _), fun _ h => absurd h (Nat.not_lt_zero _),
    fun _ _ => rfl⟩

theorem Staged.succ (h : Staged shadow refOf actual m t) (hnew : ∀ j, j < m → refOf m ≠ refOf j) :
    Staged shadow refOf actual (m + 1)
      (writtenShadow t (refOf m) 0 512 (memory (actual.drop (128 * m)))) where
  active := h.active
  approved := h.approved
  cancel := h.cancel
  submission := h.submission
  completion := h.completion
  bytes j hj k hk := by
    obtain hlt | rfl : j < m ∨ j = m := by omega
    · simp only [writtenShadow, Function.update_of_ne (hnew j hlt).symm]
      exact h.bytes j hlt k hk
    · simp [writtenShadow, hk]
  staged j hj k hk := by
    obtain hlt | rfl : j < m ∨ j = m := by omega
    · simp only [writtenShadow, Function.update_of_ne (hnew j hlt).symm]
      exact h.staged j hlt k hk
    · simp [writtenShadow, hk]
  clear ref hr := by
    simp only [writtenShadow, Function.update_of_ne (hr m (by omega))]
    exact h.clear ref fun j hj => hr j (by omega)

end Write

/-- Reference `refOf j` writes destination `j`. -/
structure RefsOf (versions : ℕ → ℕ) (reads dests : List ℕ) (job : JobDescriptor) (refOf : ℕ → Fin 4) :
    Prop where
  lt : ∀ j, j < dests.length → (refOf j).val < job.objectCount
  object : ∀ j, j < dests.length → job.objects (refOf j) = wholeRef versions reads (dests.getD j 0)
  access : ∀ j, j < dests.length → (job.objects (refOf j)).access = RAVEIL_OBJECT_WRITE

section Commit

variable {versions : ℕ → ℕ} {n : ℕ} {reads dests slots : List ℕ} {job : JobDescriptor}
  {words : ℕ → ℕ → ℕ} {issued : Submission} {s : State} {caps : Caps} {shadow t : ShadowSlot} {b : Binding}
  {refOf : ℕ → Fin 4} {actual expected : List ℕ} {c : CompletionRecord}

theorem Refers.refsOf (h : Refers versions n reads dests slots job) :
    ∃ refOf, RefsOf versions reads dests job refOf := by
  have hex : ∀ j, ∃ r : Fin 4, j < dests.length → r.val < job.objectCount ∧
      job.objects r = wholeRef versions reads (dests.getD j 0) ∧
      (job.objects r).access = RAVEIL_OBJECT_WRITE := by
    intro j
    by_cases hj : j < dests.length
    · obtain ⟨r, hr⟩ := h.dest_ref hj
      exact ⟨r, fun _ => hr⟩
    · exact ⟨0, fun hlt => absurd hlt hj⟩
  choose refOf hrefs using hex
  exact ⟨refOf, fun j hj => (hrefs j hj).1, fun j hj => (hrefs j hj).2.1, fun j hj => (hrefs j hj).2.2⟩

theorem RefsOf.inj (h : Refers versions n reads dests slots job) (hr : RefsOf versions reads dests job refOf)
    {j k : ℕ} (hj : j < dests.length) (hk : k < dests.length) (he : refOf j = refOf k) : j = k := by
  have hobj := (hr.object j hj).symm.trans ((congrArg job.objects he).trans (hr.object k hk))
  have hslot := Nat.succ.inj (congrArg ObjectRef.objectId hobj)
  rw [List.getD_eq_getElem _ _ hj, List.getD_eq_getElem _ _ hk] at hslot
  exact h.ok.unique.getElem_inj_iff.mp hslot

theorem writeTarget_eq (h : Refers versions n reads dests slots job)
    (hr : RefsOf versions reads dests job refOf) (hjob : t.submission.job = job) {j : ℕ}
    (hj : j < dests.length) : writeTarget t (dests.getD j 0 + 1) 0 512 = some (refOf j) := by
  unfold writeTarget
  rw [hjob]
  cases hf : (indices 4 job.objectCount).find? fun ref =>
      let r := job.objects ref
      r.objectId = dests.getD j 0 + 1 ∧ r.access = RAVEIL_OBJECT_WRITE ∧ r.offset ≤ 0 ∧
        0 ≤ r.offset + r.length ∧ 512 ≤ r.offset + r.length - 0 with
  | none =>
    have hno := List.find?_eq_none.mp hf (refOf j) (mem_indices.mpr (hr.lt j hj))
    rw [decide_eq_true_iff] at hno
    have ha := hr.access j hj
    rw [hr.object j hj] at hno ha
    exact absurd ⟨rfl, ha, le_rfl, Nat.zero_le _, le_rfl⟩ hno
  | some r =>
    have hp := List.find?_some hf
    rw [decide_eq_true_iff] at hp
    refine congrArg some (h.distinct (mem_indices.mp (List.mem_of_find?_eq_some hf)) (hr.lt j hj) ?_)
    rw [hp.1, hr.object j hj]
    rfl

/-- One more chunk is written. -/
theorem Staged.write (h : Refers versions n reads dests slots job) (hr : RefsOf versions reads dests job refOf)
    (hcaps : Authorized caps s) (hf : Fresh job c b shadow) (hx : c.status = RAVEIL_COMPLETION_EXECUTED)
    (queue : RingBuffer Submission) (ring : RingBuffer CompletionRecord) {m : ℕ}
    (hst : Staged shadow refOf actual m t) (hm : m < dests.length) :
    ∃ t', planeDataShadowWrite (shadowing s queue ring t) caps.task caps.dataCap (some b)
      (dests.getD m 0 + 1) 0 (some (memory (actual.drop (128 * m)))) 512 = (shadowing s queue ring t', true) ∧
      Staged shadow refOf actual (m + 1) t' := by
  have hnew : ∀ j, j < m → refOf m ≠ refOf j := by
    intro j hj he
    have := hr.inj h hm (by omega) he
    omega
  have hwrite := write_shadowing s queue ring (memory (actual.drop (128 * m)))
    (show t.active = true by rw [hst.active, hf.active]) (show b = _ by rw [hst.submission]; exact hf.binding)
    (by rw [hst.approved, hst.cancel]; exact ⟨hf.approved, hf.cancel⟩)
    (by rw [hst.completion, hf.completion, hx]) (by omega)
    (writeTarget_eq h hr (by rw [hst.submission, hf.job]) hm)
    (fun k hk => by rw [hst.clear (refOf m) hnew]; exact hf.clear _ _)
  have hauth : dataAuthorized (shadowing s queue ring t) caps.task caps.dataCap = true := hcaps.data
  refine ⟨_, ?_, hst.succ hnew⟩
  rw [planeDataShadowWrite, if_pos hauth, hwrite]

theorem Staged.allStaged (h : Refers versions n reads dests slots job)
    (hr : RefsOf versions reads dests job refOf) (hst : Staged shadow refOf actual dests.length t)
    (hjob : shadow.submission.job = job) : allStaged t := by
  intro ref hlt ha k hk
  rw [hst.submission, hjob] at hlt ha hk ⊢
  obtain ⟨j, hj, he⟩ := h.write_slot hlt ha
  obtain rfl : ref = refOf j := by
    refine h.distinct hlt (hr.lt j hj) ?_
    rw [he, hr.object j hj]
  rw [hr.object j hj] at hk ⊢
  have hk' : k < 512 := List.mem_range.mp hk
  rw [show (wholeRef versions reads (dests.getD j 0)).offset = 0 from rfl, Nat.zero_add]
  exact hst.staged j hj k hk'

/-- The versions after a commit. -/
def nextVersions (dests : List ℕ) (versions : ℕ → ℕ) : ℕ → ℕ := fun slot =>
  if slot ∈ dests then versions slot + 1 else versions slot

/-- The words after a commit of `expected`. -/
def nextWords (dests expected : List ℕ) (words : ℕ → ℕ → ℕ) : ℕ → ℕ → ℕ := fun slot =>
  if slot ∈ dests then chunkWords expected (dests.idxOf slot) else words slot

theorem chunkWords_lt {out : List ℕ} (h : ∀ w ∈ out, w < 2 ^ 32) (j k : ℕ) : chunkWords out j k < 2 ^ 32 := by
  unfold chunkWords
  split
  · rw [List.getD_eq_getElem?_getD]
    cases hw : out[128 * j + k]? with
    | none => exact Nat.two_pow_pos 32
    | some w => exact h w (List.mem_of_getElem? hw)
  · exact Nat.two_pow_pos 32

/-- The published objects hold the next versions and words. -/
theorem publish_slotObjects (h : Refers versions n reads dests slots job)
    (hr : RefsOf versions reads dests job refOf) (hst : Staged shadow refOf actual dests.length t)
    (hjob : shadow.submission.job = job) (hc : Commits (slotObjects n versions words) t)
    (hactual : ∀ i, actual.getD i 0 = expected.getD i 0) :
    publish t (slotObjects n versions words) =
      slotObjects n (nextVersions dests versions) (nextWords dests expected words) := by
  have hbound := h.ok.bound
  funext o
  by_cases ho : o.val ∈ dests
  · obtain ⟨j, hj, he⟩ := List.mem_iff_getElem.mp ho
    have hlt := h.ok.dest_lt ho
    have hslot : dests.getD j 0 = o.val := by rw [List.getD_eq_getElem _ _ hj, he]
    have hidx : dests.idxOf o.val = j := by rw [← he, h.ok.unique.idxOf_getElem]
    have hobject := hr.object j hj
    rw [hslot] at hobject
    have hw : Writes (slotObjects n versions words) t.submission.job (refOf j) o := by
      rw [hst.submission, hjob]
      refine ⟨hr.lt j hj, hr.access j hj, ?_⟩
      rw [hobject]
      exact findObject_slotObjects hbound hlt
    rw [publish_written hc hw]
    simp only [copyRef, slotObjects, if_pos hlt, hst.submission, hjob, hobject, nextVersions, nextWords,
      if_pos ho, hidx]
    congr 1
    funext k
    change (if 0 ≤ k ∧ k < 0 + 512 then _ else _) = _
    by_cases hk : k < 512
    · rw [if_pos ⟨Nat.zero_le _, by omega⟩, hst.bytes j hj k hk]
      have hword : (actual.drop (128 * j)).getD (k / 4) 0 =
          ((List.range 128).map (chunkWords expected j)).getD (k / 4) 0 := by
        rw [List.getD_eq_getElem _ _ (show k / 4 < ((List.range 128).map (chunkWords expected j)).length by
          simp; omega), List.getElem_map, List.getElem_range, chunkWords, if_pos (by omega), ← hactual]
        simp only [List.getD_eq_getElem?_getD, List.getElem?_drop]
      rw [memory, memory, hword]
    · rw [if_neg (by omega), memory_of_le (by simp; omega), memory_of_le (by simp; omega)]
  · have hno : ∀ ref, ¬ Writes (slotObjects n versions words) t.submission.job ref o := by
      rw [hst.submission, hjob]
      intro ref hw
      obtain ⟨j, hj, he⟩ := h.write_slot hw.lt hw.access
      have hfind := hw.object
      have hmem := getD_mem hj
      rw [he, show (wholeRef versions reads (dests.getD j 0)).objectId = dests.getD j 0 + 1 from rfl,
        findObject_slotObjects hbound (h.ok.dest_lt hmem)] at hfind
      obtain rfl := Option.some.inj hfind
      exact ho hmem
    rw [publish_other hc hno]
    simp only [slotObjects, nextVersions, nextWords, if_neg ho]

/-- An executed job whose chunks are written is approved and commits. -/
theorem Staged.commit (h : Refers versions n reads dests slots job) (hr : RefsOf versions reads dests job refOf)
    (hv : raveilJobDescriptorValidate job = true) (hcaps : Authorized caps s)
    (ho : s.objects = slotObjects n versions words)
    (hmax : ∀ slot, slot < n → versions slot < UINT64_MAX)
    (hf : Fresh job (report versions dests job issued true) b shadow)
    (hvalid : raveilCompletionRecordValidate job (report versions dests job issued true) = true)
    (queue : RingBuffer Submission) (ring : RingBuffer CompletionRecord)
    (hst : Staged shadow refOf actual dests.length t) (hactual : ∀ i, actual.getD i 0 = expected.getD i 0) :
    ∃ approved, planeProgramApprove (shadowing s queue ring t) caps.task caps.programCap (some b) =
      (approved, true) ∧ planeDataFinalize approved caps.task caps.dataCap (some b) true =
      (settled s queue ring (slotObjects n (nextVersions dests versions) (nextWords dests expected words)),
        .committed) := by
  have hstaged : Staged { shadow with approved := true } refOf actual dests.length
      { t with approved := true } :=
    ⟨hst.active, rfl, hst.cancel, hst.submission, hst.completion, hst.bytes, hst.staged, hst.clear⟩
  have hbinding : b = bindingFromSubmission t.submission := by
    rw [hst.submission]
    exact hf.binding
  have hactive : t.active = true := by rw [hst.active, hf.active]
  have hcancel : t.cancelRequested = false := by rw [hst.cancel, hf.cancel]
  have hcompletion : t.completion = report versions dests job issued true := by
    rw [hst.completion, hf.completion]
  have hjob : t.submission.job = job := by rw [hst.submission, hf.job]
  have hrefs : ∀ ref : Fin 4, ref.val < t.submission.job.objectCount →
      refCurrent s.objects (t.submission.job.objects ref) = true := by
    rw [hjob, ho]
    exact fun ref hlt => h.refCurrent hlt
  have houts : ∀ j : Fin 4, j.val < t.completion.outputCount →
      outputCurrent s.objects (t.completion.outputs j) = true := by
    rw [hcompletion, ho]
    exact fun j hj => h.outputCurrent hmax hj
  have happrove := approve_shadowing s queue ring hactive hbinding hcancel (by rw [hcompletion]; rfl)
    (hst.allStaged h hr hf.job)
  have hcommit := @commit_shadowing _ { t with approved := true } _ queue ring hactive hbinding hcancel
    rfl hrefs houts
  have hcommits : Commits (slotObjects n versions words) { t with approved := true } := by
    refine ⟨?_, ?_, ?_, ?_⟩
    · change Authority.JobOk t.submission.job
      rw [hjob]
      exact jobOk_of_validate hv
    · change OutputsOk t.submission.job t.completion
      rw [hjob, hcompletion]
      exact outputsOk_of_completion hvalid rfl
    · rw [← ho]
      exact hrefs
    · rw [← ho]
      exact houts
  have hpublish := publish_slotObjects h hr hstaged hf.job hcommits hactual
  have hprogram : planeCapAuthorized (shadowing s queue ring t) caps.task caps.programCap
      CAP_OBJECT_PROGRAM_AUTHORITY CAP_RIGHT_CONTROL = true := hcaps.program
  have hdata : dataAuthorized (shadowing s queue ring { t with approved := true }) caps.task caps.dataCap =
      true := hcaps.data
  refine ⟨shadowing s queue ring { t with approved := true }, ?_, ?_⟩
  · rw [planeProgramApprove, if_pos hprogram, happrove]
  · rw [planeDataFinalize, if_pos hdata, hcommit, ho, hpublish]

end Commit

end Raveil.Dispatch
