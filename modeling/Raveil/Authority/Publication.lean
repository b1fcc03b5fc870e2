import Raveil.Lib.Table
import Raveil.Authority.History

/-! Publication: visible objects only change in a commit, and a commit is serialisable. -/
namespace Raveil.Authority
open Raveil.Lib RingBuffer

section Objects

variable {objects objects' : Fin 8 → ObjectSlot}

/-- No two registered objects share an id. -/
def ObjectsOk (objects : Fin 8 → ObjectSlot) : Prop :=
  ∀ i j, (objects i).active = true → (objects j).active = true →
    (objects i).value.objectId = (objects j).value.objectId → i = j

theorem findObject_eq_some {id : ℕ} {o : Fin 8} (h : findObject objects id = some o) :
    (objects o).active = true ∧ (objects o).value.objectId = id := by
  have := firstSlot_eq_some h
  simpa using this

theorem findObject_of_active (h : ObjectsOk objects) {o : Fin 8} (ha : (objects o).active = true) :
    findObject objects (objects o).value.objectId = some o := by
  refine firstSlot_eq_some_of_unique (by simp [ha]) fun j hj => ?_
  simp only [Bool.and_eq_true, beq_iff_eq] at hj
  exact h j o hj.1 ha hj.2

/-- The directory of the objects: which slots are used, under which id. -/
def SameIds (objects objects' : Fin 8 → ObjectSlot) : Prop :=
  ∀ o, (objects' o).active = (objects o).active ∧
    (objects' o).value.objectId = (objects o).value.objectId

theorem findObject_sameIds (h : SameIds objects objects') (id : ℕ) :
    findObject objects' id = findObject objects id := by
  unfold findObject
  congr 1
  funext o
  rw [(h o).1, (h o).2]

/-- The object a written reference names. -/
def writtenBy (objects : Fin 8 → ObjectSlot) (shadow : ShadowSlot) (ref : Fin 4) : Option (Fin 8) :=
  if (shadow.submission.job.objects ref).access ≠ RAVEIL_OBJECT_WRITE then none
  else findObject objects (shadow.submission.job.objects ref).objectId

/-- The visible object after the copy of one reference. -/
def copyRef (shadow : ShadowSlot) (ref : Fin 4) (o : ObjectSlot) : ObjectSlot :=
  { o with
    visible := fun byte =>
      if (shadow.submission.job.objects ref).offset ≤ byte ∧
          byte < (shadow.submission.job.objects ref).offset + (shadow.submission.job.objects ref).length
      then shadow.bytes ref byte else o.visible byte }

def setVersion (shadow : ShadowSlot) (index : Fin 4) (o : ObjectSlot) : ObjectSlot :=
  { o with value := { o.value with version := (shadow.completion.outputs index).version } }

theorem publishRef_eq (shadow : ShadowSlot) (h : SameIds objects objects') (ref : Fin 4) :
    publishRef shadow objects' ref =
      updateAt (writtenBy objects shadow) (copyRef shadow) objects' ref := by
  simp only [publishRef, updateAt, writtenBy, findObject_sameIds h]
  by_cases ha : (shadow.submission.job.objects ref).access = RAVEIL_OBJECT_WRITE
  · simp only [ha, ne_eq, not_true_eq_false, ↓reduceIte]
    cases findObject objects (shadow.submission.job.objects ref).objectId <;> rfl
  · simp only [ha, ne_eq, not_false_eq_true, ↓reduceIte]

theorem publishOutput_eq (shadow : ShadowSlot) (h : SameIds objects objects') (index : Fin 4) :
    publishOutput shadow objects' index =
      updateAt (fun i => findObject objects (shadow.completion.outputs i).objectId) (setVersion shadow)
        objects' index := by
  simp only [publishOutput, updateAt, findObject_sameIds h]
  cases findObject objects (shadow.completion.outputs index).objectId <;> rfl

theorem sameIds_updateAt {ι : Type} {target : ι → Option (Fin 8)} {change : ι → ObjectSlot → ObjectSlot}
    (hchange : ∀ a o, (change a o).active = o.active ∧ (change a o).value.objectId = o.value.objectId)
    (h : SameIds objects objects') (a : ι) : SameIds objects (updateAt target change objects' a) := by
  intro o
  unfold updateAt
  cases target a with
  | none => exact h o
  | some i =>
    by_cases ho : o = i
    · subst ho
      simp only [Function.update_self, (hchange a _).1, (hchange a _).2]
      exact h o
    · simp only [Function.update_of_ne ho]
      exact h o

/-- Publishing is two loops with fixed targets. -/
theorem publish_eq (shadow : ShadowSlot) (objects : Fin 8 → ObjectSlot) :
    publish shadow objects =
      (indices 4 shadow.completion.outputCount).foldl
        (updateAt (fun i => findObject objects (shadow.completion.outputs i).objectId) (setVersion shadow))
        ((indices 4 shadow.submission.job.objectCount).foldl
          (updateAt (writtenBy objects shadow) (copyRef shadow)) objects) := by
  have hcopy : ∀ a o, (copyRef shadow a o).active = o.active ∧
      (copyRef shadow a o).value.objectId = o.value.objectId := fun _ _ => ⟨rfl, rfl⟩
  have hversion : ∀ a o, (setVersion shadow a o).active = o.active ∧
      (setVersion shadow a o).value.objectId = o.value.objectId := fun _ _ => ⟨rfl, rfl⟩
  have hrefs : ∀ (l : List (Fin 4)) (objects' : Fin 8 → ObjectSlot), SameIds objects objects' →
      l.foldl (publishRef shadow) objects' =
        l.foldl (updateAt (writtenBy objects shadow) (copyRef shadow)) objects' ∧
      SameIds objects (l.foldl (publishRef shadow) objects') := by
    intro l
    induction l with
    | nil => exact fun objects' h => ⟨rfl, h⟩
    | cons a l ih =>
      intro objects' h
      rw [List.foldl_cons, List.foldl_cons, publishRef_eq shadow h]
      exact ih _ (sameIds_updateAt hcopy h a)
  have houts : ∀ (l : List (Fin 4)) (objects' : Fin 8 → ObjectSlot), SameIds objects objects' →
      l.foldl (publishOutput shadow) objects' =
        l.foldl (updateAt (fun i => findObject objects (shadow.completion.outputs i).objectId)
          (setVersion shadow)) objects' := by
    intro l
    induction l with
    | nil => exact fun _ _ => rfl
    | cons a l ih =>
      intro objects' h
      rw [List.foldl_cons, List.foldl_cons, publishOutput_eq shadow h]
      exact ih _ (sameIds_updateAt hversion h a)
  obtain ⟨heq, hsame⟩ := hrefs (indices 4 shadow.submission.job.objectCount) objects fun _ => ⟨rfl, rfl⟩
  rw [publish, houts _ _ hsame, heq]

end Objects

section Commit

variable {objects : Fin 8 → ObjectSlot} {shadow : ShadowSlot}

theorem refCurrent_eq_true {ref : ObjectRef} (h : refCurrent objects ref = true) :
    ∃ o, findObject objects ref.objectId = some o ∧ (objects o).value.generation = ref.generation ∧
      (objects o).value.version = ref.expectedVersion ∧
      ref.offset + ref.length ≤ (objects o).value.byteLength := by
  unfold refCurrent at h
  split at h
  · cases h
  · rename_i o ho
    simp only [Bool.not_eq_true', decide_eq_false_iff_not, not_or, not_not, not_lt] at h
    exact ⟨o, ho, h.1, h.2.1, by omega⟩

theorem outputCurrent_eq_true {output : ObjectVersion} (h : outputCurrent objects output = true) :
    ∃ o, findObject objects output.objectId = some o ∧
      (objects o).value.generation = output.generation ∧
      output.version = (objects o).value.version + 1 := by
  unfold outputCurrent at h
  split at h
  · cases h
  · rename_i o ho
    simp only [Bool.not_eq_true', decide_eq_false_iff_not, not_or, not_not] at h
    exact ⟨o, ho, h.1, h.2.2⟩

/-- The checks that a commit passes. -/
structure Commits (objects : Fin 8 → ObjectSlot) (shadow : ShadowSlot) : Prop where
  job : JobOk shadow.submission.job
  outputs : OutputsOk shadow.submission.job shadow.completion
  refs : ∀ ref : Fin 4, ref.val < shadow.submission.job.objectCount →
    refCurrent objects (shadow.submission.job.objects ref) = true
  outs : ∀ index : Fin 4, index.val < shadow.completion.outputCount →
    outputCurrent objects (shadow.completion.outputs index) = true

/-- Reference `ref` writes object `o`. -/
structure Writes (objects : Fin 8 → ObjectSlot) (job : JobDescriptor) (ref : Fin 4) (o : Fin 8) :
    Prop where
  lt : ref.val < job.objectCount
  access : (job.objects ref).access = RAVEIL_OBJECT_WRITE
  object : findObject objects (job.objects ref).objectId = some o

theorem nodup_indices (n count : ℕ) : (indices n count).Nodup :=
  (List.nodup_finRange n).filter _

theorem writtenBy_eq_some {ref : Fin 4} {o : Fin 8} (h : writtenBy objects shadow ref = some o) :
    (shadow.submission.job.objects ref).access = RAVEIL_OBJECT_WRITE ∧
      findObject objects (shadow.submission.job.objects ref).objectId = some o := by
  unfold writtenBy at h
  split at h
  · cases h
  · rename_i ha
    exact ⟨not_not.mp ha, h⟩

/-- The checked generations make the written reference of an object unique. -/
theorem Commits.ref_unique (h : Commits objects shadow) {ref ref' : Fin 4} {o : Fin 8}
    (hr : ref.val < shadow.submission.job.objectCount)
    (hr' : ref'.val < shadow.submission.job.objectCount)
    (ho : findObject objects (shadow.submission.job.objects ref).objectId = some o)
    (ho' : findObject objects (shadow.submission.job.objects ref').objectId = some o) : ref = ref' := by
  obtain ⟨p, hp, hg, -⟩ := refCurrent_eq_true (h.refs ref hr)
  obtain ⟨p', hp', hg', -⟩ := refCurrent_eq_true (h.refs ref' hr')
  obtain rfl : p = o := Option.some.inj (hp.symm.trans ho)
  obtain rfl : p' = p := Option.some.inj (hp'.symm.trans ho')
  refine h.job.distinct ref ref' hr hr' ?_ (hg.symm.trans hg')
  exact (findObject_eq_some ho).2.symm.trans (findObject_eq_some ho').2

theorem Commits.out_unique (h : Commits objects shadow) {i j : Fin 4} {o : Fin 8}
    (hi : i.val < shadow.completion.outputCount) (hj : j.val < shadow.completion.outputCount)
    (ho : findObject objects (shadow.completion.outputs i).objectId = some o)
    (ho' : findObject objects (shadow.completion.outputs j).objectId = some o) : i = j := by
  obtain ⟨p, hp, hg, -⟩ := outputCurrent_eq_true (h.outs i hi)
  obtain ⟨p', hp', hg', -⟩ := outputCurrent_eq_true (h.outs j hj)
  obtain rfl : p = o := Option.some.inj (hp.symm.trans ho)
  obtain rfl : p' = p := Option.some.inj (hp'.symm.trans ho')
  refine h.outputs.distinct i j hi hj ?_ (hg.symm.trans hg')
  exact (findObject_eq_some ho).2.symm.trans (findObject_eq_some ho').2

/-- A written object gets the staged bytes and the next version. -/
theorem publish_written (h : Commits objects shadow) {ref : Fin 4} {o : Fin 8}
    (hw : Writes objects shadow.submission.job ref o) :
    publish shadow objects o = { copyRef shadow ref (objects o) with
      value := { (objects o).value with version := (objects o).value.version + 1 } } := by
  obtain ⟨i, hi, hid, -⟩ := h.outputs.covers h.job hw.lt hw.access
  have hfind : findObject objects (shadow.completion.outputs i).objectId = some o := by
    rw [hid]
    exact hw.object
  obtain ⟨p, hp, -, hv⟩ := outputCurrent_eq_true (h.outs i hi)
  obtain rfl : p = o := Option.some.inj (hp.symm.trans hfind)
  rw [publish_eq, foldl_updateAt_of_eq (a := i) (nodup_indices 4 _) (mem_indices.mpr hi) hfind,
    foldl_updateAt_of_eq (a := ref) (nodup_indices 4 _) (mem_indices.mpr hw.lt)]
  · simp only [setVersion, copyRef, hv]
  · simp [writtenBy, hw.access, hw.object]
  · intro ref' hmem ht
    exact h.ref_unique (mem_indices.mp hmem) hw.lt (writtenBy_eq_some ht).2 hw.object
  · intro j hmem ht
    exact h.out_unique (mem_indices.mp hmem) hi ht hfind

theorem publish_other (h : Commits objects shadow) {o : Fin 8}
    (hno : ∀ ref, ¬ Writes objects shadow.submission.job ref o) :
    publish shadow objects o = objects o := by
  rw [publish_eq, foldl_updateAt_of_ne, foldl_updateAt_of_ne]
  · intro ref hmem ht
    obtain ⟨ha, ho⟩ := writtenBy_eq_some ht
    exact hno ref ⟨mem_indices.mp hmem, ha, ho⟩
  · intro i hmem ht
    obtain ⟨ref, hr, ha, hid, -⟩ := h.outputs.source i (mem_indices.mp hmem)
    refine hno ref ⟨hr, ha, ?_⟩
    rw [hid]
    exact ht

end Commit

section Runs

variable {s : State} {ops : ℕ → Op} {n m k : ℕ}

/-- Operation `n` commits the shadow in `slot`. -/
structure CommitAt (s : State) (ops : ℕ → Op) (n : ℕ) (slot : Fin 4) : Prop where
  did : Did s ops n (.finalize (some (bindingFromSubmission ((run s ops n).shadows slot).submission)) true)
    (.finalize .committed)
  active : ((run s ops n).shadows slot).active = true
  cancel : ((run s ops n).shadows slot).cancelRequested = false
  approved : ((run s ops n).shadows slot).approved = true
  commits : Commits (run s ops n).objects ((run s ops n).shadows slot)
  objects : (run s ops (n + 1)).objects = publish ((run s ops n).shadows slot) (run s ops n).objects

theorem commitAt_of_did (h0 : Inv s) (hh : History s ops n (run s ops n)) {binding : Option Binding}
    {commit : Bool} (hd : Did s ops n (.finalize binding commit) (.finalize .committed)) :
    ∃ slot, CommitAt s ops n slot ∧ commit = true ∧
      binding = some (bindingFromSubmission ((run s ops n).shadows slot).submission) := by
  have hstep := hd.step h0
  generalize hr : Reply.finalize .committed = r at hstep
  generalize hc : Call.finalize binding commit = c at hstep
  generalize ht : run s ops (n + 1) = t at hstep
  cases hstep with
  | refused c hr' =>
    subst hr
    cases hr'
  | rollback b commit slot h r hr' =>
    obtain rfl | rfl := hr' <;> simp at hr
  | commit b slot h hcancel ha hrefs houts =>
    obtain ⟨rfl, rfl⟩ : binding = some b ∧ commit = true := by simpa using hc
    obtain ⟨k, hk⟩ := hh.shadow slot h.active
    obtain ⟨-, hx, -, -⟩ := hk.approved ha
    have hb := h.binding
    subst hb
    refine ⟨slot, ⟨hd, h.active, hcancel, ha, ⟨jobOk_of_completion hk.valid,
      outputsOk_of_completion hk.valid hx, hrefs, houts⟩, ?_⟩, rfl, rfl⟩
    rw [ht]
  | takeCompletion call k c slot hcall => simp at hr
  | shadow => simp at hr
  | register | submit | take | post | cancelQueued | cancelRunning => simp at hc

/-- What one operation can do to the visible objects. -/
theorem objects_cases (h0 : Inv s) (hh : History s ops n (run s ops n)) :
    (run s ops (n + 1)).objects = (run s ops n).objects ∨
    (∃ i e, ((run s ops n).objects i).active = false ∧
      findObject (run s ops n).objects e.value.objectId = none ∧
      (run s ops (n + 1)).objects = Function.update (run s ops n).objects i e) ∨
    ∃ slot, CommitAt s ops n slot := by
  obtain ⟨c, r, hd, hstep⟩ | ⟨-, hsame⟩ := run_step h0 ops n
  · by_cases hfin : ∃ binding commit, c = .finalize binding commit ∧ r = .finalize .committed
    · obtain ⟨binding, commit, rfl, rfl⟩ := hfin
      obtain ⟨slot, hslot, -⟩ := commitAt_of_did h0 hh hd
      exact Or.inr (Or.inr ⟨slot, hslot⟩)
    · generalize run s ops (n + 1) = t at hstep ⊢
      cases hstep with
      | register i manifest initialBytes length zeroInitial visible hi hid =>
        exact Or.inr (Or.inl ⟨i, ⟨true, manifest, visible⟩, hi, hid, rfl⟩)
      | commit b slot => exact absurd ⟨_, _, rfl, rfl⟩ hfin
      | refused | submit | take | post | takeCompletion | cancelQueued | cancelRunning | shadow
      | rollback => exact Or.inl rfl
  · exact Or.inl hsame.objects

/-- An object that is registered stays so, and its version tells whether it changed. -/
structure Advances (a b : ObjectSlot) : Prop where
  active : b.active = true
  value : b.value = { a.value with version := b.value.version }
  version : a.value.version ≤ b.value.version
  same : a.value.version = b.value.version → b = a

theorem advances_refl {a : ObjectSlot} (h : a.active = true) : Advances a a :=
  ⟨h, rfl, le_rfl, fun _ => rfl⟩

theorem Advances.trans {a b c : ObjectSlot} (h : Advances a b) (h' : Advances b c) : Advances a c where
  active := h'.active
  value := by
    rw [h'.value, h.value]
  version := h.version.trans h'.version
  same := by
    intro hv
    have h1 := h.version
    have h2 := h'.version
    rw [h'.same (by omega), h.same (by omega)]

theorem publish_advances {objects : Fin 8 → ObjectSlot} {shadow : ShadowSlot}
    (h : Commits objects shadow) {o : Fin 8} (ha : (objects o).active = true) :
    Advances (objects o) (publish shadow objects o) := by
  by_cases hw : ∃ ref, Writes objects shadow.submission.job ref o
  · obtain ⟨ref, hw⟩ := hw
    rw [publish_written h hw]
    refine ⟨ha, rfl, Nat.le_succ _, fun hv => ?_⟩
    simp at hv
  · rw [publish_other h (not_exists.mp hw)]
    exact advances_refl ha

theorem advances_step (h0 : Inv s) (hh : History s ops n (run s ops n)) {o : Fin 8}
    (ha : ((run s ops n).objects o).active = true) :
    Advances ((run s ops n).objects o) ((run s ops (n + 1)).objects o) := by
  obtain hsame | ⟨i, e, hi, -, hset⟩ | ⟨slot, hslot⟩ := objects_cases h0 hh
  · rw [hsame]
    exact advances_refl ha
  · have hne : o ≠ i := by
      rintro rfl
      simp [hi] at ha
    rw [hset, Function.update_of_ne hne]
    exact advances_refl ha
  · rw [hslot.objects]
    exact publish_advances hslot.commits ha

theorem objectsOk_step (h0 : Inv s) (hh : History s ops n (run s ops n))
    (hok : ObjectsOk (run s ops n).objects) : ObjectsOk (run s ops (n + 1)).objects := by
  obtain hsame | ⟨i, e, hi, hid, hset⟩ | ⟨slot, hslot⟩ := objects_cases h0 hh
  · rw [hsame]
    exact hok
  · -- The new id is not in use, so a clash would be with an old object of that id.
    have hnew : ∀ j, ((run s ops n).objects j).active = true →
        ((run s ops n).objects j).value.objectId ≠ e.value.objectId := by
      intro j hj he
      have := findObject_of_active hok hj
      rw [he, hid] at this
      cases this
    rw [hset]
    intro a b ha hb hab
    by_cases hai : a = i
    · by_cases hbi : b = i
      · rw [hai, hbi]
      · subst hai
        rw [Function.update_self] at hab
        rw [Function.update_of_ne hbi] at hb hab
        exact absurd hab.symm (hnew b hb)
    · rw [Function.update_of_ne hai] at ha hab
      by_cases hbi : b = i
      · subst hbi
        rw [Function.update_self] at hab
        exact absurd hab (hnew a ha)
      · rw [Function.update_of_ne hbi] at hb hab
        exact hok a b ha hb hab
  · have hids : SameIds (run s ops n).objects (run s ops (n + 1)).objects := by
      intro o
      rw [hslot.objects]
      by_cases hw : ∃ ref, Writes (run s ops n).objects ((run s ops n).shadows slot).submission.job ref o
      · obtain ⟨ref, hw⟩ := hw
        rw [publish_written hslot.commits hw]
        exact ⟨rfl, rfl⟩
      · rw [publish_other hslot.commits (not_exists.mp hw)]
        exact ⟨rfl, rfl⟩
    intro a b ha hb hab
    rw [(hids a).1] at ha
    rw [(hids b).1] at hb
    rw [(hids a).2, (hids b).2] at hab
    exact hok a b ha hb hab

end Runs

section Main

variable (s₀ : State) (epoch : ℕ) (ops : ℕ → Op)

theorem objectsOk_run (n : ℕ) : ObjectsOk (run (jobAuthorityInit s₀ epoch) ops n).objects := by
  induction n with
  | zero =>
    intro i j hi
    cases hi
  | succ n ih => exact objectsOk_step (inv_init s₀ epoch) (history_run s₀ epoch ops n) ih

theorem advances_run {k n : ℕ} (hkn : k ≤ n) {o : Fin 8}
    (ha : ((run (jobAuthorityInit s₀ epoch) ops k).objects o).active = true) :
    Advances ((run (jobAuthorityInit s₀ epoch) ops k).objects o)
      ((run (jobAuthorityInit s₀ epoch) ops n).objects o) := by
  induction n, hkn using Nat.le_induction with
  | base => exact advances_refl ha
  | succ n hkn ih => exact ih.trans (advances_step (inv_init s₀ epoch) (history_run s₀ epoch ops n) ih.active)

/-- What a submit recorded about one of its references. -/
theorem admitted_ref {s : State} {job : JobDescriptor} (h : admitted s job = true) {ref : Fin 4}
    (hr : ref.val < job.objectCount) : ∃ o, findObject s.objects (job.objects ref).objectId = some o ∧
      (s.objects o).value.generation = (job.objects ref).generation ∧
      (s.objects o).value.version = (job.objects ref).expectedVersion ∧
      (job.objects ref).offset + (job.objects ref).length ≤ (s.objects o).value.byteLength := by
  simp only [admitted, Bool.and_eq_true, List.all_eq_true] at h
  have hadm := h.2 ref (mem_indices.mpr hr)
  unfold admittedRef jobObjectLookup at hadm
  split at hadm
  · cases hadm
  · rename_i manifest hm
    split at hm
    · cases hm
    · obtain ⟨o, ho, rfl⟩ := Option.map_eq_some_iff.mp hm
      simp only [Bool.not_eq_true', decide_eq_false_iff_not, not_or, not_not, not_lt] at hadm
      exact ⟨o, ho, hadm.1, hadm.2.1, by omega⟩

/-- A reference whose version still matches names an object that is what it was at submission. -/
theorem ref_unchanged {k n : ℕ} {x : Submission}
    (hx : Origin (jobAuthorityInit s₀ epoch) ops n k x) {ref : Fin 4}
    (hr : ref.val < x.job.objectCount)
    (hcur : refCurrent (run (jobAuthorityInit s₀ epoch) ops n).objects (x.job.objects ref) = true) :
    ∃ o, findObject (run (jobAuthorityInit s₀ epoch) ops k).objects (x.job.objects ref).objectId = some o ∧
      findObject (run (jobAuthorityInit s₀ epoch) ops n).objects (x.job.objects ref).objectId = some o ∧
      (run (jobAuthorityInit s₀ epoch) ops n).objects o =
        (run (jobAuthorityInit s₀ epoch) ops k).objects o := by
  obtain ⟨o, ho, -, hv, -⟩ := admitted_ref hx.admitted hr
  obtain ⟨p, hp, -, hv', -⟩ := refCurrent_eq_true hcur
  obtain ⟨hact, hid⟩ := findObject_eq_some ho
  have hadv := advances_run s₀ epoch ops hx.lt.le hact
  have hsame : findObject (run (jobAuthorityInit s₀ epoch) ops n).objects
      (x.job.objects ref).objectId = some o := by
    rw [← hid]
    have := findObject_of_active (objectsOk_run s₀ epoch ops n) hadv.active
    rw [hadv.value] at this
    exact this
  obtain rfl : p = o := Option.some.inj (hp.symm.trans hsame)
  exact ⟨p, ho, hp, hadv.same (hv.trans hv'.symm)⟩

end Main

section Reads

theorem jobSubmissionRead_eq_some {s : State} {y : Submission} {objectId offset length : ℕ}
    {bytes : List UInt8} (h : jobSubmissionRead s y objectId offset length = some bytes) :
    ∃ slot ref, (s.inflight slot).active = true ∧ (s.inflight slot).cancelRequested = false ∧
      bindingFromSubmission (s.inflight slot).submission = bindingFromSubmission y ∧
      ref.val < (s.inflight slot).submission.job.objectCount ∧
      readRef (s.inflight slot) objectId offset length ref = true ∧
      bytes = (List.range length).map fun byte => (s.inflight slot).snapshot ref (offset + byte) := by
  unfold jobSubmissionRead at h
  obtain ⟨slot, -, hslot⟩ := List.exists_of_findSome?_eq_some h
  dsimp only at hslot
  split at hslot
  · cases hslot
  · rename_i hguard
    simp only [not_or, Bool.not_eq_true', Bool.not_eq_false, Bool.not_eq_true] at hguard
    obtain ⟨ref, hfind, rfl⟩ := Option.map_eq_some_iff.mp hslot
    exact ⟨slot, ref, hguard.1, hguard.2.2.2.1, submissionMatches_iff.mp hguard.2.2.2.2,
      mem_indices.mp (List.mem_of_find?_eq_some hfind), List.find?_some hfind, rfl⟩

end Reads

/-- What is true of a job `x`, submitted by operation `k`, when operation `n` commits it. -/
structure Published (s : State) (ops : ℕ → Op) (n k : ℕ) (x : Submission) (c : CompletionRecord) :
    Prop where
  submitted : k < n ∧
    Did s ops k (.submit (some x.job) true) (.binding (some (bindingFromSubmission x)))
  dispatched : ∃ m, m < n ∧ Did s ops m (.take true) (.submission (some x))
  completed : completionBinding c = bindingFromSubmission x ∧ c.status = RAVEIL_COMPLETION_EXECUTED ∧
    ∃ m, m < n ∧ Did s ops m (.post (some c)) (.bool true) ∧
      ∀ m', m' < n → Posts s ops m' (bindingFromSubmission x) → m' = m
  staged : ∀ ref o, Writes (run s ops n).objects x.job ref o → ∀ byte,
    (x.job.objects ref).offset ≤ byte → byte < (x.job.objects ref).offset + (x.job.objects ref).length →
    ∃ m, m < n ∧ Stages s ops m (bindingFromSubmission x) (x.job.objects ref) byte
      (((run s ops (n + 1)).objects o).visible byte)
  approved : ∃ m, m < n ∧ Did s ops m (.approve (some (bindingFromSubmission x))) (.bool true)
  uncancelled : ∀ m, m < n → ¬ Cancels s ops m (bindingFromSubmission x)
  current : ∀ ref : Fin 4, ref.val < x.job.objectCount → ∃ o,
    findObject (run s ops k).objects (x.job.objects ref).objectId = some o ∧
    findObject (run s ops n).objects (x.job.objects ref).objectId = some o ∧
    (run s ops n).objects o = (run s ops k).objects o ∧
    ((run s ops n).objects o).value.generation = (x.job.objects ref).generation ∧
    ((run s ops n).objects o).value.version = (x.job.objects ref).expectedVersion
  reads : ∀ m y objectId offset length bytes, bindingFromSubmission y = bindingFromSubmission x →
    jobSubmissionRead (run s ops m) y objectId offset length = some bytes →
    jobObjectRead (run s ops n) objectId offset length = some bytes
  written : ∀ ref o, Writes (run s ops n).objects x.job ref o →
    ((run s ops (n + 1)).objects o).active = ((run s ops n).objects o).active ∧
    ((run s ops (n + 1)).objects o).value = { ((run s ops n).objects o).value with
      version := ((run s ops n).objects o).value.version + 1 } ∧
    ∀ byte, ¬ ((x.job.objects ref).offset ≤ byte ∧
        byte < (x.job.objects ref).offset + (x.job.objects ref).length) →
      ((run s ops (n + 1)).objects o).visible byte = ((run s ops n).objects o).visible byte
  others : ∀ o, (∀ ref, ¬ Writes (run s ops n).objects x.job ref o) →
    (run s ops (n + 1)).objects o = (run s ops n).objects o

theorem published (s₀ : State) (epoch : ℕ) (ops : ℕ → Op) {n : ℕ} {slot : Fin 4}
    (h : CommitAt (jobAuthorityInit s₀ epoch) ops n slot) :
    ∃ k, Published (jobAuthorityInit s₀ epoch) ops n k
      ((run (jobAuthorityInit s₀ epoch) ops n).shadows slot).submission
      ((run (jobAuthorityInit s₀ epoch) ops n).shadows slot).completion := by
  have h0 := inv_init s₀ epoch
  obtain ⟨k, hk⟩ := (history_run s₀ epoch ops n).shadow slot h.active
  obtain ⟨-, hexecuted, hall, happroved⟩ := hk.approved h.approved
  have hcurrent : ∀ ref : Fin 4,
      ref.val < ((run (jobAuthorityInit s₀ epoch) ops n).shadows slot).submission.job.objectCount →
      _ := fun ref hr => ref_unchanged s₀ epoch ops hk.origin hr (h.commits.refs ref hr)
  refine ⟨k, ⟨hk.origin.lt, hk.origin.did⟩, hk.taken, ⟨hk.binding, hexecuted, ?_⟩, ?_, happroved,
    hk.uncancelled h.cancel, ?_, ?_, ?_, ?_⟩
  · obtain ⟨m, hm, hd⟩ := hk.completed
    exact ⟨m, hm, hd, fun m' hm' hp => hk.once m' m hm' hm hp ⟨_, hk.binding, hd⟩⟩
  · intro ref o hw byte hle hlt
    have hst := hall ref hw.lt hw.access (byte - _)
      (List.mem_range.mpr (Nat.sub_lt_left_of_lt_add hle hlt))
    rw [Nat.add_sub_cancel' hle] at hst
    have hbyte : ((run (jobAuthorityInit s₀ epoch) ops (n + 1)).objects o).visible byte =
        ((run (jobAuthorityInit s₀ epoch) ops n).shadows slot).bytes ref byte := by
      rw [h.objects, publish_written h.commits hw]
      exact if_pos ⟨hle, hlt⟩
    rw [hbyte]
    exact hk.staged ref byte hst
  · intro ref hr
    obtain ⟨o, ho, ho', he⟩ := hcurrent ref hr
    obtain ⟨p, hp, hg, hv, -⟩ := refCurrent_eq_true (h.commits.refs ref hr)
    obtain rfl : p = o := Option.some.inj (hp.symm.trans ho')
    exact ⟨p, ho, ho', he, hg, hv⟩
  · intro m y objectId offset length bytes hy hread
    obtain ⟨i, ref, hact, hnc, hb, hr, href, rfl⟩ := jobSubmissionRead_eq_some hread
    obtain ⟨k', hk'⟩ := (history_run s₀ epoch ops m).inflight i hact
    -- The slot that was read belongs to the same submit, so its snapshot is of that state.
    obtain ⟨rfl, hx⟩ := origin_unique h0 hk'.origin hk.origin (hb.trans hy)
    simp only [readRef, decide_eq_true_iff] at href
    rw [hx] at hr href
    obtain ⟨o, ho, ho', he⟩ := hcurrent ref hr
    obtain ⟨p, hp, -, -, hlen⟩ := refCurrent_eq_true (h.commits.refs ref hr)
    obtain rfl : p = o := Option.some.inj (hp.symm.trans ho')
    obtain ⟨-, hid, hle, hle', hlength⟩ := href
    rw [hid] at ho'
    simp only [jobObjectRead, ho']
    rw [if_neg (by omega)]
    refine congrArg some (List.map_congr_left fun byte hbyte => ?_)
    have hlt := List.mem_range.mp hbyte
    rw [he, hk'.snapshot hnc ref (by rw [hx]; exact hr) p (by rw [hx]; exact ho)]
    rw [← he]
    omega
  · intro ref o hw
    rw [h.objects, publish_written h.commits hw]
    exact ⟨rfl, rfl, fun byte hb => if_neg hb⟩
  · intro o hno
    rw [h.objects]
    exact publish_other h.commits hno

/-- Visible objects change only in a commit, and a commit publishes a completed, approved job whose
inputs are still what it read. -/
theorem publication_safe (s₀ : State) (epoch : ℕ) (ops : ℕ → Op) (n : ℕ) :
    (∀ o, ((run (jobAuthorityInit s₀ epoch) ops n).objects o).active = true →
      (run (jobAuthorityInit s₀ epoch) ops (n + 1)).objects o ≠
        (run (jobAuthorityInit s₀ epoch) ops n).objects o →
      ∃ binding commit,
        Did (jobAuthorityInit s₀ epoch) ops n (.finalize binding commit) (.finalize .committed)) ∧
    ∀ binding commit,
      Did (jobAuthorityInit s₀ epoch) ops n (.finalize binding commit) (.finalize .committed) →
      ∃ k x c, binding = some (bindingFromSubmission x) ∧ commit = true ∧
        Published (jobAuthorityInit s₀ epoch) ops n k x c := by
  have h0 := inv_init s₀ epoch
  have hh := history_run s₀ epoch ops n
  constructor
  · intro o ha hne
    obtain hsame | ⟨i, e, hi, -, hset⟩ | ⟨slot, hslot⟩ := objects_cases h0 hh
    · exact absurd (congrFun hsame o) hne
    · have hoi : o ≠ i := by
        rintro rfl
        simp [hi] at ha
      rw [hset, Function.update_of_ne hoi] at hne
      exact absurd rfl hne
    · exact ⟨_, _, hslot.did⟩
  · intro binding commit hd
    obtain ⟨slot, hslot, hcommit, hbinding⟩ := commitAt_of_did h0 hh hd
    obtain ⟨k, hk⟩ := published s₀ epoch ops hslot
    exact ⟨k, _, _, hbinding, hcommit, hk⟩

end Raveil.Authority
