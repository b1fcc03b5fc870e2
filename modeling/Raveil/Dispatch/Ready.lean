import Raveil.Dispatch.Commit

/-! The authority between two jobs of a guest, and one job through it. -/
namespace Raveil.Dispatch
open Raveil.Lib Raveil.Fold Raveil.Authority

/-- After `k` jobs the authority is idle and holds these versions and words. -/
structure Ready (caps : Caps) (epoch n : ℕ) (versions : ℕ → ℕ) (words : ℕ → ℕ → ℕ) (k : ℕ) (s : State) :
    Prop where
  idle : Idle s
  authorized : Authorized caps s
  pair : ∃ i, (s.planeGraphs i).active = true ∧ (s.planeGraphs i).programIdentity = program ∧
    (s.planeGraphs i).graphIdentity = graph
  objects : s.objects = slotObjects n versions words
  versions : ∀ slot, slot < n → 0 < versions slot ∧ versions slot ≤ k + 1
  words : ∀ slot, slot < n → ∀ j, words slot j < 2 ^ 32
  epoch : s.authorityEpoch = epoch ∧ 0 < epoch ∧ epoch < 2 ^ 64
  sequence : s.nextSequence = k + 1
  used : s.planeExperienceUsed = k
  earlier : ∀ i : Fin 8, i.val < k → (s.planeExperience i).completion.executionSequence ≤ k

/-- What a guest's descriptor says besides its references. -/
structure Fields (n : ℕ) (reads dests slots : List ℕ) (job : JobDescriptor) : Prop extends FieldsOk job where
  program : job.programIdentity = program
  graph : job.graphVariantIdentity = graph
  inputs : 512 * slots.countP (fun s => s ∈ reads) ≤ job.resources.maxInputBytes
  outputs : 512 * dests.length ≤ job.resources.maxOutputBytes

section Job

variable {caps : Caps} {epoch n k : ℕ} {versions : ℕ → ℕ} {words : ℕ → ℕ → ℕ} {s : State}
  {reads dests slots : List ℕ} {job : JobDescriptor} {expected actual : List ℕ}

/-- The authority while the job is with the device. -/
def running (s : State) (job : JobDescriptor) : State :=
  flying s (usedQueue s job) s.completions (dispatchedSlot s job)

/-- The completion that the guest reports. -/
def reported (versions : ℕ → ℕ) (dests : List ℕ) (s : State) (job : JobDescriptor) (ok : Bool) :
    CompletionRecord :=
  report versions dests job (newSubmission s job) ok

/-- The authority with a shadow for the reported completion. -/
def shadowed (s : State) (job : JobDescriptor) (c : CompletionRecord) (shadow : ShadowSlot) : State :=
  shadowing (withExperience s c) (usedQueue s job) ((s.completions.push 4 c).removeAt 4 0) shadow

/-- The authority after the job, with the objects it left. -/
def after (s : State) (job : JobDescriptor) (c : CompletionRecord) (objects : Fin 8 → ObjectSlot) : State :=
  settled (withExperience s c) (usedQueue s job) ((s.completions.push 4 c).removeAt 4 0) objects

variable (h : Ready caps epoch n versions words k s) (hr : Refers versions n reads dests slots job)
  (hf : Fields n reads dests slots job) (hk : k < 8)

include h hk in
theorem Ready.version_lt : ∀ slot, slot < n → versions slot < UINT64_MAX := by
  intro slot hslot
  have := (h.versions slot hslot).2
  unfold UINT64_MAX
  omega

include h hr hf in
theorem Ready.validate : raveilJobDescriptorValidate job = true :=
  hr.validate hf.toFieldsOk (fun slot hslot => (h.versions slot hslot).1.ne') hf.inputs hf.outputs

include h hr hf hk in
/-- A job that knows the versions is submitted and taken at once. -/
theorem Ready.submit :
    planeJobSubmitBound s caps.task caps.dataCap (some job) true =
      (flying s (s.submissions.push 4 (newSubmission s job)) s.completions (submitted s job 0),
        some (bindingFromSubmission (newSubmission s job))) ∧
    jobSubmissionTake
      (flying s (s.submissions.push 4 (newSubmission s job)) s.completions (submitted s job 0)) true =
      (running s job, some (newSubmission s job)) := by
  have hadmitted := hr.admitted (h.validate hr hf) h.objects (h.version_lt hk)
  have hpair : planeJobPairInstalled s job = true := by
    simp only [planeJobPairInstalled, decide_eq_true_iff, hf.program, hf.graph]
    exact h.pair
  have hdata : dataAuthorized s caps.task caps.dataCap = true := h.authorized.data
  refine ⟨?_, take_idle h.idle⟩
  rw [planeJobSubmitBound, if_pos (by simp [hdata, hpair]), submit_idle h.idle hadmitted]

include h hr hf hk in
theorem Ready.validate_reported (ok : Bool) :
    raveilCompletionRecordValidate job (reported versions dests s job ok) = true := by
  have hseq : (newSubmission s job).executionSequence = k + 1 := h.sequence
  refine hr.validate_report (h.validate hr hf) ?_ (by omega) (makeCookie_nonzero ?_) ok
  · change s.authorityEpoch ≠ 0
    rw [h.epoch.1]
    exact h.epoch.2.1.ne'
  · rw [h.sequence]
    omega

include h hr hf hk in
/-- The completion is posted, taken and recorded. -/
theorem Ready.complete (ok : Bool) :
    complete caps (running s job) (reported versions dests s job ok) =
      (shadowed s job (reported versions dests s job ok)
        (freshShadow s job (reported versions dests s job ok)), true) := by
  set c := reported versions dests s job ok with hc
  have hb : completionBinding c = bindingFromSubmission (newSubmission s job) := rfl
  have hpost := @post_idle _ _ _ (usedQueue s job) h.idle hb (h.validate_reported hr hf hk ok)
  have htake := @takeCompletion_idle _ _ _ (usedQueue s job) h.idle hb
  have hnew : ∀ index : Fin 8, index.val < s.planeExperienceUsed →
      (s.planeExperience index).completion ≠ (freshShadow s job c).completion := by
    intro index hlt he
    rw [h.used] at hlt
    have hle := h.earlier index hlt
    have hseq : (freshShadow s job c).completion.executionSequence = k + 1 := h.sequence
    rw [he, hseq] at hle
    omega
  have hrecord := @record_shadowing _ (usedQueue s job) ((s.completions.push 4 c).removeAt 4 0)
    (freshShadow s job c) _ _ h.authorized.experience
    (by rw [h.used]; exact hk) rfl hb hnew
  have hcompletion : (freshShadow s job c).completion = c := rfl
  rw [hcompletion] at hrecord
  simp only [Dispatch.complete, running, hpost, htake, hrecord, Bool.not_true, Bool.false_eq_true, if_false]
  rfl

include h in
/-- The settled authority is ready for the next job. -/
theorem Ready.next (job : JobDescriptor) (hk : k < 8) (ok : Bool) {versions' : ℕ → ℕ} {words' : ℕ → ℕ → ℕ}
    (hversions : ∀ slot, slot < n → 0 < versions' slot ∧ versions' slot ≤ k + 1 + 1)
    (hwords : ∀ slot, slot < n → ∀ j, words' slot j < 2 ^ 32) :
    Ready caps epoch n versions' words' (k + 1)
      (after s job (reported versions dests s job ok) (slotObjects n versions' words')) := by
  set c := reported versions dests s job ok with hc
  have hseq : c.executionSequence = k + 1 := h.sequence
  have hidle : Idle (withExperience s c) :=
    ⟨h.idle.submissions, h.idle.completions, h.idle.inflight, h.idle.shadows, h.idle.sequence⟩
  refine ⟨?_, h.authorized.of_table rfl, h.pair, rfl, hversions, hwords, h.epoch, ?_, ?_, ?_⟩
  · exact idle_settled hidle (by change s.nextSequence + 1 < 2 ^ 64; rw [h.sequence]; omega) _ job c
  · change (s.nextSequence + 1) % 2 ^ 64 = k + 1 + 1
    rw [h.sequence]
    omega
  · change s.planeExperienceUsed + 1 = k + 1
    rw [h.used]
  · intro i hi
    change (if i.val = s.planeExperienceUsed then (⟨true, c⟩ : ExperienceEntry)
      else s.planeExperience i).completion.executionSequence ≤ k + 1
    rw [h.used]
    split
    · exact hseq.le
    · have := h.earlier i (by omega)
      omega

include h hr hf hk in
/-- An executed job whose chunks are written commits. -/
theorem Ready.commit {t : ShadowSlot} {refOf : ℕ → Fin 4} (hrefs : RefsOf versions reads dests job refOf)
    (hst : Staged (freshShadow s job (reported versions dests s job true)) refOf actual dests.length t)
    (hactual : ∀ i, actual.getD i 0 = expected.getD i 0) :
    ∃ approved, planeProgramApprove (shadowed s job (reported versions dests s job true) t) caps.task
        caps.programCap (some (bindingFromSubmission (newSubmission s job))) = (approved, true) ∧
      planeDataFinalize approved caps.task caps.dataCap
        (some (bindingFromSubmission (newSubmission s job))) true =
      (after s job (reported versions dests s job true)
        (slotObjects n (nextVersions dests versions) (nextWords dests expected words)), .committed) := by
  have hcaps : Authorized caps (withExperience s (reported versions dests s job true)) :=
    h.authorized.of_table rfl
  exact hst.commit hr hrefs (h.validate hr hf) hcaps h.objects (h.version_lt hk) (fresh_freshShadow s job _)
    (h.validate_reported hr hf hk true) _ _ hactual

include h in
/-- A job that was not approved is rolled back. -/
theorem Ready.rollback (job : JobDescriptor) (c : CompletionRecord) :
    planeDataFinalize (shadowed s job c (freshShadow s job c)) caps.task caps.dataCap
      (some (bindingFromSubmission (newSubmission s job))) false =
      (after s job c (slotObjects n versions words), .rolledBack) := by
  have hdata : dataAuthorized (shadowed s job c (freshShadow s job c)) caps.task caps.dataCap = true :=
    h.authorized.data
  have hrollback := @rollback_shadowing (withExperience s c) (usedQueue s job)
    ((s.completions.push 4 c).removeAt 4 0) (freshShadow s job c) (bindingFromSubmission (newSubmission s job)) rfl rfl
  rw [planeDataFinalize, if_pos hdata, ← h.objects]
  exact hrollback

include h in
theorem Ready.versions_next (dests : List ℕ) :
    ∀ slot, slot < n → 0 < nextVersions dests versions slot ∧ nextVersions dests versions slot ≤ k + 1 + 1 := by
  intro slot hslot
  have := h.versions slot hslot
  unfold nextVersions
  split
  · omega
  · omega

include h in
theorem Ready.words_next (dests : List ℕ) (hexpected : ∀ w ∈ expected, w < 2 ^ 32) :
    ∀ slot, slot < n → ∀ j, nextWords dests expected words slot j < 2 ^ 32 := by
  intro slot hslot j
  unfold nextWords
  split
  · exact chunkWords_lt hexpected _ _
  · exact h.words slot hslot j

end Job

section Read

variable {caps : Caps} {epoch n k : ℕ} {versions : ℕ → ℕ} {words : ℕ → ℕ → ℕ} {s : State}
  (h : Ready caps epoch n versions words k s)

include h

/-- No job is anywhere in the authority. -/
theorem Ready.empty : jobSubmissionCount s = 0 ∧ jobInflightCount s = 0 ∧ jobCompletionCount s = 0 ∧
    jobShadowCount s = 0 := by
  refine ⟨h.idle.submissions.2, ?_, h.idle.completions.2, ?_⟩
  · simp [jobInflightCount, h.idle.inflight]
  · simp [jobShadowCount, h.idle.shadows]

theorem Ready.lookup (hn : n ≤ 8) {slot : ℕ} (hs : slot < n) :
    jobObjectLookup s (slot + 1) = some { objectManifest slot with version := versions slot } := by
  rw [jobObjectLookup, if_neg (by omega), h.objects, findObject_slotObjects hn hs, Option.map_some,
    slotObjects, if_pos hs]

theorem Ready.read (hn : n ≤ 8) {slot : ℕ} (hs : slot < n) :
    jobObjectRead s (slot + 1) 0 512 = some (packWords ((List.range 128).map (words slot))) := by
  have hobject : s.objects ⟨slot, by omega⟩ =
      ⟨true, { objectManifest slot with version := versions slot },
        memory ((List.range 128).map (words slot))⟩ := by
    rw [h.objects, slotObjects, if_pos hs]
  have hfind : findObject s.objects (slot + 1) = some ⟨slot, by omega⟩ := by
    rw [h.objects]
    exact findObject_slotObjects hn hs
  have hmap := @map_memory ((List.range 128).map (words slot)) 0 128 (by simp)
  have htake : (((List.range 128).map (words slot)).drop 0).take 128 = (List.range 128).map (words slot) :=
    List.take_of_length_le (by simp)
  rw [htake, Nat.mul_zero] at hmap
  unfold jobObjectRead
  rw [hfind]
  dsimp only
  rw [hobject, if_neg (by simp [objectManifest])]
  exact congrArg some hmap

/-- The words of an object as the guest reads them. -/
theorem Ready.word_read {slot : ℕ} (hs : slot < n) {j : ℕ} (hj : j < 128) :
    word (packWords ((List.range 128).map (words slot))) (4 * j) = words slot j := by
  refine word_packWords ?_ (h.words slot hs j)
  rw [List.getElem?_map, List.getElem?_range hj, Option.map_some]

end Read

section Start

variable {caps : Caps} {epoch n : ℕ} {s : State}

theorem slotObjects_zero : slotObjects 0 (fun _ => 1) (fun _ _ => 0) = default := by
  funext o
  exact if_neg (Nat.not_lt_zero _)

/-- Registering object `n` fills the next slot. -/
theorem register_next (hn : n < 8) (hcaps : Authorized caps s)
    (ho : s.objects = slotObjects n (fun _ => 1) (fun _ _ => 0)) :
    planeDataObjectRegister s caps.task caps.dataCap (some (objectManifest n)) =
      ({ s with objects := slotObjects (n + 1) (fun _ => 1) (fun _ _ => 0) }, true) := by
  have hdata : dataAuthorized s caps.task caps.dataCap = true := hcaps.data
  have hvalid : raveilObjectManifestValidate (objectManifest n) = true := by
    simp [raveilObjectManifestValidate, objectManifest, RAVEIL_OBJECT_BACKING_VOLATILE,
      RAVEIL_OBJECT_BACKING_IMMUTABLE]
  have hfind : findObject s.objects (n + 1) = none := by
    refine firstSlot_eq_none.mpr fun i => ?_
    rw [ho, slotObjects]
    split
    · rename_i hi
      have hne : i.val ≠ n := by omega
      simp [objectManifest, hne]
    · rfl
  have hslot : (firstSlot fun i => !(s.objects i).active) = some ⟨n, hn⟩ := by
    have hfree : ∀ i : Fin 8, (s.objects i).active = decide (i.val < n) := by
      intro i
      rw [ho, slotObjects]
      by_cases hi : i.val < n
      · rw [if_pos hi, decide_eq_true hi]
      · rw [if_neg hi, decide_eq_false hi]
        rfl
    have hfirst : ∀ m : Fin 8, (firstSlot fun i : Fin 8 => !decide (i.val < m.val)) = some m := by decide
    simp only [hfree]
    exact hfirst ⟨n, hn⟩
  have hobjects : Function.update s.objects ⟨n, hn⟩ ⟨true, objectManifest n, fun _ => 0⟩ =
      slotObjects (n + 1) (fun _ => 1) (fun _ _ => 0) := by
    funext i
    by_cases hi : i = ⟨n, hn⟩
    · rw [hi, Function.update_self, slotObjects, if_pos (Nat.lt_succ_self n)]
      refine congrArg (ObjectSlot.mk true _) (funext fun k => ?_)
      exact (memory_zeros k).symm
    · have hne : i.val ≠ n := fun he => hi (Fin.ext he)
      rw [Function.update_of_ne hi, ho, slotObjects, slotObjects]
      by_cases hlt : i.val < n
      · rw [if_pos hlt, if_pos (by omega)]
      · rw [if_neg hlt, if_neg (by omega)]
  have hid : (objectManifest n).objectId = n + 1 := rfl
  rw [planeDataObjectRegister, if_pos hdata]
  simp only [jobObjectRegisterCore, jobObjectRegisterBytesCore, hvalid, hid, hfind, hslot]
  rw [← hobjects]
  simp [objectManifest]

/-- The objects are registered in order. -/
theorem registerObjects_eq (hn : n ≤ 8) (hcaps : Authorized caps s) (ho : s.objects = default) :
    registerObjects caps n s = some { s with objects := slotObjects n (fun _ => 1) (fun _ _ => 0) } := by
  have hloop := foldlM_range_pure (m := Option)
    (f := fun (s : State) i =>
      let r := planeDataObjectRegister s caps.task caps.dataCap (some (objectManifest i))
      if r.2 then some r.1 else none)
    (g := fun i => { s with objects := slotObjects i (fun _ => 1) (fun _ _ => 0) }) (n := n)
    (fun i hi => by
      have hstep := register_next (s := { s with objects := slotObjects i (fun _ => 1) (fun _ _ => 0) })
        (show i < 8 by omega) (hcaps.of_table rfl) rfl
      simp only [hstep]
      rfl)
  rw [slotObjects_zero, ← ho] at hloop
  exact hloop

/-- With its capabilities a guest always gets a ready authority. -/
theorem ready_prepare (hn : n ≤ 8) (hcaps : Authorized caps s) (hepoch : 0 < epoch ∧ epoch < 2 ^ 64) :
    ∃ t, prepare caps epoch n s = some t ∧ Ready caps epoch n (fun _ => 1) (fun _ _ => 0) 0 t := by
  set s1 := planeAuthorityInit (jobAuthorityInit s epoch) with hs1
  set s2 := { s1 with planePrograms := Function.update s1.planePrograms 0 ⟨true, program⟩ } with hs2
  set s3 := { s2 with planeGraphs := Function.update s2.planeGraphs 0 ⟨true, program, graph⟩ } with hs3
  have hcaps1 : Authorized caps s1 := hcaps.of_table rfl
  have hcaps2 : Authorized caps s2 := hcaps.of_table rfl
  have hcaps3 : Authorized caps s3 := hcaps.of_table rfl
  have hprogram0 : nonzeroIdentity program = true := nonzeroIdentity_head (by decide)
  have hgraph0 : nonzeroIdentity graph = true := nonzeroIdentity_head (by decide)
  have hprogram : planeProgramInstall s1 caps.task caps.programCap (some program) = (s2, true) := by
    have hslot : (firstSlot fun i => !(s1.planePrograms i).active) = some 0 := firstSlot_head rfl
    have hno : ¬ ∃ i, (s1.planePrograms i).active = true ∧ (s1.planePrograms i).identity = program := by
      rintro ⟨i, ha, -⟩
      cases ha
    simp only [planeProgramInstall, hslot]
    rw [if_neg (by simp [hcaps1.program, hprogram0]), if_neg hno]
  have hgraph : planeGraphInstall s2 caps.task caps.graphCap (some program) (some graph) = (s3, true) := by
    have hslot : (firstSlot fun i => !(s2.planeGraphs i).active) = some 0 := firstSlot_head rfl
    have hyes : ∃ i, (s2.planePrograms i).active = true ∧ (s2.planePrograms i).identity = program :=
      ⟨0, by simp [hs2], by simp [hs2]⟩
    have hno : ¬ ∃ i, (s2.planeGraphs i).active = true ∧ (s2.planeGraphs i).graphIdentity = graph := by
      rintro ⟨i, ha, -⟩
      cases ha
    simp only [planeGraphInstall, hslot]
    rw [if_neg (by simp [hcaps2.graph, hprogram0, hgraph0]), if_neg (not_not.mpr hyes), if_neg hno]
  have hregister := registerObjects_eq hn hcaps3 rfl
  refine ⟨{ s3 with objects := slotObjects n (fun _ => 1) (fun _ _ => 0) }, ?_, ?_⟩
  · rw [prepare]
    simp only [← hs1, hprogram, hgraph, Bool.not_true, Bool.false_eq_true, if_false]
    exact hregister
  · refine ⟨⟨⟨RingBuffer.ok_empty (by decide), rfl⟩, ⟨RingBuffer.ok_empty (by decide), rfl⟩, fun _ => rfl,
      fun _ => rfl, Nat.one_ne_zero⟩, hcaps.of_table rfl, ⟨0, ?_⟩, rfl, fun _ _ => ⟨Nat.one_pos, le_rfl⟩,
      fun _ _ _ => Nat.two_pow_pos 32, ⟨if_neg hepoch.1.ne', hepoch⟩, rfl, rfl, fun i hi => ?_⟩
    · simp [hs3]
    · exact absurd hi (Nat.not_lt_zero _)

end Start

end Raveil.Dispatch
