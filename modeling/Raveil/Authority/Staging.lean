import Raveil.Authority.Cancel
import Raveil.Authority.ContractRules
import Raveil.Authority.Idle

/-! Staging of the output bytes of a job in the shadow table, and its approval. -/
namespace Raveil.Authority
open Raveil.Lib RingBuffer

/-- `length` bytes at `offset` of an object lie in the range of a WRITE reference of the job. -/
structure InRange (job : JobDescriptor) (objectId offset length : ℕ) (ref : Fin 4) : Prop where
  lt : ref.val < job.objectCount
  object : (job.objects ref).objectId = objectId
  access : (job.objects ref).access = RAVEIL_OBJECT_WRITE
  start : (job.objects ref).offset ≤ offset
  stop : offset + length ≤ (job.objects ref).offset + (job.objects ref).length

/-- No two references of the job name one object. -/
def DistinctObjects (job : JobDescriptor) : Prop :=
  ∀ i j : Fin 4, i.val < job.objectCount → j.val < job.objectCount →
    (job.objects i).objectId = (job.objects j).objectId → i = j

section Calls

variable {s t : State} {b : Binding} {slot : Fin 4} {shadow : ShadowSlot}
  {objectId offset length : ℕ}

theorem distinctObjects_of_admitted {job : JobDescriptor} (h : admitted s job = true) :
    DistinctObjects job := by
  intro i j hi hj hid
  obtain ⟨o, ho, hg, -⟩ := admitted_ref h hi
  obtain ⟨p, hp, hg', -⟩ := admitted_ref h hj
  rw [hid] at ho
  obtain rfl : p = o := Option.some.inj (hp.symm.trans ho)
  have hjob : raveilJobDescriptorValidate job = true := by
    simp only [admitted, Bool.and_eq_true] at h
    exact h.1
  exact (jobOk_of_validate hjob).distinct i j hi hj hid (hg.symm.trans hg')

theorem inRange_of_writeTarget {ref : Fin 4}
    (h : writeTarget shadow objectId offset length = some ref) :
    InRange shadow.submission.job objectId offset length ref := by
  have hlt := mem_indices.mp (List.mem_of_find?_eq_some h)
  have hp := List.find?_some h
  simp only [decide_eq_true_iff] at hp
  obtain ⟨hid, ha, hstart, hin, hstop⟩ := hp
  exact ⟨hlt, hid, ha, hstart, by omega⟩

theorem findShadow_of_inShadow (hs : Inv s) (h : InShadow s b slot) :
    findShadow s (some b) = some slot := by
  refine firstSlot_eq_some_of_unique ?_ fun j hj => ?_
  · simp [h.active, bindingMatches_iff, h.binding]
  · simp only [Bool.and_eq_true, bindingMatches_iff] at hj
    exact shadow_unique hs hj.1 h.active (hj.2.symm.trans h.binding)

/-- The conditions under which a shadow write to `ref` is accepted. -/
structure Writable (shadow : ShadowSlot) (objectId offset length : ℕ) (ref : Fin 4) : Prop where
  nonempty : length ≠ 0
  unsealed : shadow.approved = false ∧ shadow.cancelRequested = false
  executed : shadow.completion.status = RAVEIL_COMPLETION_EXECUTED
  target : writeTarget shadow objectId offset length = some ref
  fresh : ∀ byte, offset ≤ byte → byte < offset + length → shadow.staged ref byte = false

/-- A shadow write is refused without a change, or stages its whole range. -/
theorem write_cases (hs : Inv s) (h : InShadow s b slot) {source : Option (ℕ → UInt8)} {r : Reply}
    (hc : performCall s (.write (some b) objectId offset source length) = (t, r)) :
    (r = .bool false ∧ t = s) ∨ ∃ input ref, r = .bool true ∧ source = some input ∧
      Writable (s.shadows slot) objectId offset length ref ∧
      t = { s with
        shadows := Function.update s.shadows slot
          (writtenShadow (s.shadows slot) ref offset length input) } := by
  simp only [performCall, reply, jobShadowWriteCore, findShadow_of_inShadow hs h] at hc
  split at hc
  · cases hc
    exact Or.inl ⟨rfl, rfl⟩
  rename_i input
  split_ifs at hc with hlen hclosed
  · cases hc
    exact Or.inl ⟨rfl, rfl⟩
  · cases hc
    exact Or.inl ⟨rfl, rfl⟩
  split at hc
  · cases hc
    exact Or.inl ⟨rfl, rfl⟩
  rename_i ref htarget
  split_ifs at hc with hstaged
  · cases hc
    exact Or.inl ⟨rfl, rfl⟩
  · cases hc
    simp only [not_or, Bool.not_eq_true, not_not] at hclosed
    refine Or.inr ⟨input, ref, rfl, rfl, ⟨hlen, ⟨hclosed.1, hclosed.2.1⟩, hclosed.2.2, htarget,
      fun byte hle hlt => ?_⟩, rfl⟩
    by_contra hst
    refine hstaged (List.any_eq_true.mpr ⟨byte - offset, List.mem_range.mpr (by omega), ?_⟩)
    rw [Nat.add_sub_cancel' hle]
    simpa using hst

theorem approve_cases (hs : Inv s) (h : InShadow s b slot) {r : Reply}
    (hc : performCall s (.approve (some b)) = (t, r)) :
    let ok := (s.shadows slot).cancelRequested = false ∧
      (s.shadows slot).completion.status = RAVEIL_COMPLETION_EXECUTED ∧ allStaged (s.shadows slot)
    (r = .bool false ∧ ¬ ok ∧ t = s) ∨ (r = .bool true ∧ ok ∧
      t = { s with shadows := Function.update s.shadows slot { s.shadows slot with approved := true } }) := by
  intro ok
  simp only [performCall, reply, jobShadowApproveCore, findShadow_of_inShadow hs h] at hc
  split_ifs at hc with hrefuse hst
  · cases hc
    refine Or.inl ⟨rfl, fun hok => ?_, rfl⟩
    simp [hok.1, hok.2.1] at hrefuse
  · cases hc
    simp only [not_or, Bool.not_eq_true, not_not] at hrefuse
    exact Or.inr ⟨rfl, ⟨hrefuse.1, hrefuse.2, hst⟩, rfl⟩
  · cases hc
    exact Or.inl ⟨rfl, fun hok => hst hok.2.2, rfl⟩

/-- The shadow after an accepted cancel. -/
def cancelledShadow (shadow : ShadowSlot) : ShadowSlot :=
  { shadow with
    cancelRequested := true
    approved := false
    bytes := default
    staged := default }

theorem cancel_cases (hs : Inv s) (h : InShadow s b slot) {r : Reply}
    (hc : performCall s (.cancel (some b)) = (t, r)) :
    (r = .bool false ∧ (s.shadows slot).cancelRequested = true ∧ t = s) ∨
      (r = .bool true ∧ t = { s with
        shadows := Function.update s.shadows slot (cancelledShadow (s.shadows slot)) }) := by
  have hin : (firstSlot fun i =>
      (s.inflight i).active && bindingMatches b (s.inflight i).submission) = none := by
    refine firstSlot_eq_none.mpr fun i => ?_
    by_contra hi
    simp only [Bool.not_eq_false, Bool.and_eq_true, bindingMatches_iff] at hi
    exact inflight_ne_shadow hs hi.1 h.active (hi.2.symm.trans h.binding)
  simp only [performCall, reply, jobCancel, hin, findShadow_of_inShadow hs h] at hc
  split_ifs at hc with hflag
  · cases hc
    exact Or.inl ⟨rfl, hflag, rfl⟩
  · cases hc
    exact Or.inr ⟨rfl, rfl⟩

/-- The calls that name the binding and reach its shadow. -/
inductive Touches (b : Binding) : Call → Prop
  | guarded {c : Call} (h : Guarded b c) : Touches b c
  | stageZero : Touches b (.stageZero (some b))
  | finalize (commit : Bool) : Touches b (.finalize (some b) commit)

/-- Every other call leaves the shadow alone. -/
theorem shadow_untouched (hs : Inv s) (h : InShadow s b slot) {c : Call} {r : Reply}
    (hstep : Step s c r t) (hc : ¬ Touches b c) : t.shadows slot = s.shadows slot := by
  have hother : ∀ {b' : Binding} {slot' : Fin 4} (e : ShadowSlot), InShadow s b' slot' → b ≠ b' →
      Function.update s.shadows slot' e slot = s.shadows slot := by
    intro b' slot' e h' hne
    refine Function.update_of_ne ?_ _ _
    rintro rfl
    exact hne (h.binding.trans h'.binding.symm)
  cases hstep with
  | refused | register | submit | take | post | cancelQueued | cancelRunning => rfl
  | takeCompletion call k c slot' hcall hk h' =>
    refine Function.update_of_ne ?_ _ _
    rintro rfl
    exact absurd h.active (by simp [hs.exclusive slot h'.active])
  | shadow call b' slot' shadow h' ha hsub hcall =>
    refine hother _ h' ?_
    rintro rfl
    cases hcall with
    | cancel => exact hc (.guarded .cancel)
    | approve => exact hc (.guarded .approve)
    | stageZero => exact hc .stageZero
    | write => exact hc (.guarded (.write _ _ _ _))
  | rollback b' commit slot' h' =>
    refine hother _ h' ?_
    rintro rfl
    exact hc (.finalize commit)
  | commit b' slot' h' =>
    refine hother _ h' ?_
    rintro rfl
    exact hc (.finalize true)

end Calls

section Cancelled

variable {s t : State} {ops : ℕ → Op} {n : ℕ}

/-- Every cancel flag of a slot comes from an accepted cancel. -/
structure Requested (s : State) (ops : ℕ → Op) (n : ℕ) (t : State) : Prop where
  inflight : ∀ i, (t.inflight i).active = true → (t.inflight i).cancelRequested = true →
    ∃ m, m < n ∧ Cancels s ops m (bindingFromSubmission (t.inflight i).submission)
  shadow : ∀ i, (t.shadows i).active = true → (t.shadows i).cancelRequested = true →
    ∃ m, m < n ∧ Cancels s ops m (bindingFromSubmission (t.shadows i).submission)

theorem Requested.same (h : Requested s ops n (run s ops n)) (hin : t.inflight = (run s ops n).inflight)
    (hsh : t.shadows = (run s ops n).shadows) : Requested s ops (n + 1) t where
  inflight := by
    rw [hin]
    exact fun i ha hf => exists_lt_succ (h.inflight i ha hf)
  shadow := by
    rw [hsh]
    exact fun i ha hf => exists_lt_succ (h.shadow i ha hf)

theorem Requested.replaceInflight (h : Requested s ops n (run s ops n)) {slot : Fin 4} {e : InflightSlot}
    (he : e.active = true → e.cancelRequested = true →
      ∃ m, m < n + 1 ∧ Cancels s ops m (bindingFromSubmission e.submission))
    (hin : t.inflight = Function.update (run s ops n).inflight slot e)
    (hsh : t.shadows = (run s ops n).shadows) : Requested s ops (n + 1) t where
  inflight := by
    intro i
    rw [hin]
    by_cases hi : i = slot
    · subst hi
      simpa using he
    · rw [Function.update_of_ne hi]
      exact fun ha hf => exists_lt_succ (h.inflight i ha hf)
  shadow := by
    rw [hsh]
    exact fun i ha hf => exists_lt_succ (h.shadow i ha hf)

theorem Requested.replaceShadow (h : Requested s ops n (run s ops n)) {slot : Fin 4} {e : ShadowSlot}
    (he : e.active = true → e.cancelRequested = true →
      ∃ m, m < n + 1 ∧ Cancels s ops m (bindingFromSubmission e.submission))
    (hin : ∀ i, (t.inflight i).active = true → t.inflight i = (run s ops n).inflight i)
    (hsh : t.shadows = Function.update (run s ops n).shadows slot e) : Requested s ops (n + 1) t where
  inflight := by
    intro i ha hf
    have he := hin i ha
    rw [he] at ha hf ⊢
    exact exists_lt_succ (h.inflight i ha hf)
  shadow := by
    intro i
    rw [hsh]
    by_cases hi : i = slot
    · subst hi
      simpa using he
    · rw [Function.update_of_ne hi]
      exact fun ha hf => exists_lt_succ (h.shadow i ha hf)

theorem requested_step (h : Requested s ops n (run s ops n)) {c : Call} {r : Reply}
    (hd : Did s ops n c r) (hstep : Step (run s ops n) c r t) : Requested s ops (n + 1) t := by
  cases hstep with
  | refused | register => exact h.same rfl rfl
  | submit job slot => exact h.replaceInflight (fun _ hf => by simp [submitted] at hf) rfl rfl
  | take slot q hq =>
    have ha := ((hq.mem slot).mp List.mem_cons_self).1
    refine h.replaceInflight ?_ rfl rfl
    exact fun _ hf => exists_lt_succ (h.inflight slot ha hf)
  | post c slot hf =>
    refine h.replaceInflight ?_ rfl rfl
    exact fun _ hflag => exists_lt_succ (h.inflight slot hf.active hflag)
  | takeCompletion call k c slot hcall hk hf =>
    refine h.replaceShadow ?_ (fun i ha => ?_) rfl
    · exact fun _ hflag => exists_lt_succ (h.inflight slot hf.active hflag)
    · by_cases hi : i = slot
      · subst hi
        simp at ha
      · exact Function.update_of_ne hi _ _
  | cancelQueued b slot => exact h.replaceInflight (fun ha => by simp at ha) rfl rfl
  | cancelRunning b slot hf =>
    refine h.replaceInflight (fun _ _ => ⟨n, Nat.lt_succ_self n, ?_⟩) rfl rfl
    rw [← hf.binding]
    exact hd
  | shadow _ b slot shadow hf ha hsub hcall =>
    refine h.replaceShadow (fun _ hflag => ?_) (fun _ _ => rfl) rfl
    cases hcall with
    | cancel =>
      refine ⟨n, Nat.lt_succ_self n, ?_⟩
      rw [← hf.binding]
      exact hd
    | approve | stageZero | write => exact exists_lt_succ (h.shadow slot hf.active hflag)
  | rollback b commit slot => exact h.replaceShadow (fun ha => by simp at ha) (fun _ _ => rfl) rfl
  | commit b slot => exact h.replaceShadow (fun ha => by simp at ha) (fun _ _ => rfl) rfl

theorem requested_run (s₀ : State) (epoch : ℕ) (ops : ℕ → Op) (n : ℕ) :
    Requested (jobAuthorityInit s₀ epoch) ops n (run (jobAuthorityInit s₀ epoch) ops n) := by
  have h0 := inv_init s₀ epoch
  induction n with
  | zero =>
    constructor
    · intro i ha
      cases ha
    · intro i ha
      cases ha
  | succ n ih =>
    obtain ⟨c, r, hd, hstep⟩ | ⟨-, hsame⟩ := run_step h0 ops n
    · exact requested_step ih hd hstep
    · exact ih.same hsame.inflight hsame.shadows

end Cancelled

section Runs

variable {s : State} {ops : ℕ → Op} {k n m : ℕ} {b : Binding} {slot : Fin 4}

/-- Operation `m` is an accepted write that stages this value for one byte of reference `ref`. -/
inductive WritesByte (s : State) (ops : ℕ → Op) (m : ℕ) (b : Binding) (job : JobDescriptor)
    (ref : Fin 4) (byte : ℕ) : UInt8 → Prop
  | intro (objectId offset length : ℕ) (input : ℕ → UInt8)
      (did : Did s ops m (.write (some b) objectId offset (some input) length) (.bool true))
      (range : InRange job objectId offset length ref) (start : offset ≤ byte)
      (stop : byte < offset + length) : WritesByte s ops m b job ref byte (input (byte - offset))

/-- Operation `k` moves the job of `b` into the shadow `slot`, and no operation before `n` finalizes
it or stages it through the hook of the test build. -/
structure Holding (s : State) (ops : ℕ → Op) (k n : ℕ) (b : Binding) (slot : Fin 4) : Prop where
  lt : k < n
  entered : ∃ c completion, Did s ops k c (.completion (some completion)) ∧
    completionBinding completion = b
  inShadow : InShadow (run s ops (k + 1)) b slot
  kept : ∀ m, k < m → m < n → ∀ r, ¬ Did s ops m (.stageZero (some b)) r ∧
    ∀ commit, ¬ Did s ops m (.finalize (some b) commit) r

/-- The job that operation `k` moved into the shadow. -/
def heldJob (s : State) (ops : ℕ → Op) (k : ℕ) (slot : Fin 4) : JobDescriptor :=
  ((run s ops (k + 1)).shadows slot).submission.job

/-- What the shadow says about the operations after `k`. -/
structure Staged (s : State) (ops : ℕ → Op) (k n : ℕ) (b : Binding) (slot : Fin 4) : Prop where
  inShadow : InShadow (run s ops n) b slot
  submission : ((run s ops n).shadows slot).submission = ((run s ops (k + 1)).shadows slot).submission
  completion : ((run s ops n).shadows slot).completion = ((run s ops (k + 1)).shadows slot).completion
  staged : ((run s ops n).shadows slot).cancelRequested = false → ∀ ref byte,
    ((run s ops n).shadows slot).staged ref byte = true ↔
      ∃ m v, k < m ∧ m < n ∧ WritesByte s ops m b (heldJob s ops k slot) ref byte v
  bytes : ((run s ops n).shadows slot).cancelRequested = false → ∀ m ref byte v, k < m → m < n →
    WritesByte s ops m b (heldJob s ops k slot) ref byte v →
    ((run s ops n).shadows slot).bytes ref byte = v
  cleared : ((run s ops n).shadows slot).cancelRequested = true →
    ((run s ops n).shadows slot).bytes = default ∧ ((run s ops n).shadows slot).staged = default
  sealed : ∀ m, k < m → m < n → Did s ops m (.approve (some b)) (.bool true) →
    ((run s ops n).shadows slot).approved = true ∨
      ((run s ops n).shadows slot).cancelRequested = true

theorem Holding.earlier (h : Holding s ops k n b slot) (hkm : k < m) (hmn : m ≤ n) :
    Holding s ops k m b slot :=
  ⟨hkm, h.entered, h.inShadow, fun m' hk hm => h.kept m' hk (hm.trans_le hmn)⟩

/-- The shadow a job starts with is empty. -/
theorem Holding.moved (h0 : Inv s) (h : Holding s ops k n b slot) :
    ∃ c, (run s ops (k + 1)).shadows slot = moved (run s ops k) slot c := by
  obtain ⟨c, completion, hd, rfl⟩ := h.entered
  have hi := inv_run s h0 ops k
  have hin := h.inShadow
  have hstep := hd.step h0
  generalize hr : Reply.completion (some completion) = r at hstep
  generalize run s ops (k + 1) = t at hstep hin ⊢
  cases hstep with
  | refused c hr' =>
    subst hr
    cases hr'
  | takeCompletion call j c slot' hcall hj hf =>
    obtain rfl : completion = c := by simpa using hr
    refine ⟨completion, ?_⟩
    by_cases he : slot = slot'
    · subst he
      simp
    · have hold : InShadow (run s ops k) (completionBinding completion) slot := by
        refine ⟨?_, ?_⟩
        · simpa [Function.update_of_ne he] using hin.active
        · simpa [Function.update_of_ne he] using hin.binding
      exact absurd (hf.binding.symm.trans hold.binding) (inflight_ne_shadow hi hf.active hold.active)
  | register | submit | take | post | cancelQueued | cancelRunning | shadow | rollback | commit =>
    simp at hr

theorem staged_start (h0 : Inv s) (h : Holding s ops k n b slot) : Staged s ops k (k + 1) b slot := by
  obtain ⟨c, hc⟩ := h.moved h0
  refine ⟨h.inShadow, rfl, rfl, fun _ ref byte => ?_, fun _ m ref byte v hm hm' => by omega,
    fun _ => ?_, fun m hm hm' => by omega⟩
  · rw [hc]
    constructor
    · intro hst
      simp [Authority.moved] at hst
    · rintro ⟨m, v, hm, hm', -⟩
      omega
  · rw [hc]
    exact ⟨rfl, rfl⟩

/-- An operation that stages nothing and changes at most the approval. -/
theorem Staged.keep (h : Staged s ops k n b slot) {approved : Bool}
    (hnew : (run s ops (n + 1)).shadows slot =
      { (run s ops n).shadows slot with approved := approved })
    (hwrite : ∀ objectId offset source length,
      ¬ Did s ops n (.write (some b) objectId offset source length) (.bool true))
    (happrove : ((run s ops n).shadows slot).approved = true ∨
      Did s ops n (.approve (some b)) (.bool true) → approved = true) : Staged s ops k (n + 1) b slot := by
  have hlt : ∀ {m job ref byte v}, m < n + 1 → WritesByte s ops m b job ref byte v → m < n := by
    intro m job ref byte v hm hw
    obtain hlt | rfl : m < n ∨ m = n := by omega
    · exact hlt
    · cases hw with
      | intro objectId offset length input did => exact absurd did (hwrite _ _ _ _)
  refine ⟨⟨?_, ?_⟩, ?_, ?_, ?_, ?_, ?_, ?_⟩
  · rw [hnew]
    exact h.inShadow.active
  · rw [hnew]
    exact h.inShadow.binding
  · rw [hnew]
    exact h.submission
  · rw [hnew]
    exact h.completion
  · rw [hnew]
    intro hc ref byte
    refine (h.staged hc ref byte).trans ?_
    constructor
    · rintro ⟨m, v, hk, hm, hw⟩
      exact ⟨m, v, hk, hm.trans (Nat.lt_succ_self n), hw⟩
    · rintro ⟨m, v, hk, hm, hw⟩
      exact ⟨m, v, hk, hlt hm hw, hw⟩
  · rw [hnew]
    exact fun hc m ref byte v hk hm hw => h.bytes hc m ref byte v hk (hlt hm hw) hw
  · rw [hnew]
    exact h.cleared
  · rw [hnew]
    intro m hk hm hd
    obtain hlt | rfl : m < n ∨ m = n := by omega
    · obtain ha | hc := h.sealed m hk hlt hd
      · exact Or.inl (happrove (Or.inl ha))
      · exact Or.inr hc
    · exact Or.inl (happrove (Or.inr hd))

theorem Staged.same (h : Staged s ops k n b slot)
    (hsame : (run s ops (n + 1)).shadows slot = (run s ops n).shadows slot)
    (hwrite : ∀ objectId offset source length,
      ¬ Did s ops n (.write (some b) objectId offset source length) (.bool true))
    (happrove : ¬ Did s ops n (.approve (some b)) (.bool true)) : Staged s ops k (n + 1) b slot :=
  h.keep hsame hwrite fun ha => ha.resolve_right happrove

/-- The bytes an accepted write stages. -/
theorem writesByte_iff {job : JobDescriptor} {ref r : Fin 4} {objectId offset length byte : ℕ}
    {input : ℕ → UInt8} {v : UInt8} (hj : DistinctObjects job)
    (hd : Did s ops m (.write (some b) objectId offset (some input) length) (.bool true))
    (hr : InRange job objectId offset length ref) :
    WritesByte s ops m b job r byte v ↔
      r = ref ∧ offset ≤ byte ∧ byte < offset + length ∧ v = input (byte - offset) := by
  constructor
  · intro hw
    cases hw with
    | intro objectId' offset' length' input' did range start stop =>
      obtain ⟨hid, rfl, rfl, rfl⟩ : objectId = objectId' ∧ offset = offset' ∧ input = input' ∧
          length = length' := by simpa using (hd.unique did).1
      exact ⟨hj r ref range.lt hr.lt (range.object.trans (hid.symm.trans hr.object.symm)), start, stop, rfl⟩
  · rintro ⟨rfl, hle, hlt, rfl⟩
    exact .intro objectId offset length input hd hr hle hlt

theorem Staged.write (h : Staged s ops k n b slot) (hk : k < n)
    (hj : DistinctObjects (heldJob s ops k slot)) {objectId offset length : ℕ} {input : ℕ → UInt8}
    {ref : Fin 4}
    (hd : Did s ops n (.write (some b) objectId offset (some input) length) (.bool true))
    (hw : Writable ((run s ops n).shadows slot) objectId offset length ref)
    (hnew : (run s ops (n + 1)).shadows slot =
      writtenShadow ((run s ops n).shadows slot) ref offset length input) :
    Staged s ops k (n + 1) b slot := by
  have hrange : InRange (heldJob s ops k slot) objectId offset length ref := by
    have := inRange_of_writeTarget hw.target
    rwa [h.submission] at this
  have hiff : ∀ r byte v, WritesByte s ops n b (heldJob s ops k slot) r byte v ↔
      r = ref ∧ offset ≤ byte ∧ byte < offset + length ∧ v = input (byte - offset) :=
    fun r byte v => writesByte_iff hj hd hrange
  have hopen := hw.unsealed.2
  refine ⟨⟨?_, ?_⟩, ?_, ?_, ?_, ?_, ?_, ?_⟩
  · rw [hnew]
    exact h.inShadow.active
  · rw [hnew]
    exact h.inShadow.binding
  · rw [hnew]
    exact h.submission
  · rw [hnew]
    exact h.completion
  · intro _ r byte
    have hold := h.staged hopen r byte
    have hflag : ((run s ops (n + 1)).shadows slot).staged r byte = true ↔
        (r = ref ∧ offset ≤ byte ∧ byte < offset + length) ∨
          ((run s ops n).shadows slot).staged r byte = true := by
      rw [hnew]
      by_cases hr : r = ref
      · subst hr
        simp [writtenShadow]
      · simp [writtenShadow, hr]
    rw [hflag, hold]
    constructor
    · rintro (⟨rfl, hle, hlt⟩ | ⟨m, v, hkm, hm, hwm⟩)
      · exact ⟨n, _, hk, Nat.lt_succ_self n, (hiff r byte _).mpr ⟨rfl, hle, hlt, rfl⟩⟩
      · exact ⟨m, v, hkm, hm.trans (Nat.lt_succ_self n), hwm⟩
    · rintro ⟨m, v, hkm, hm, hwm⟩
      obtain hlt | rfl : m < n ∨ m = n := by omega
      · exact Or.inr ⟨m, v, hkm, hlt, hwm⟩
      · obtain ⟨hr, hle, hlt, -⟩ := (hiff r byte v).mp hwm
        exact Or.inl ⟨hr, hle, hlt⟩
  · intro _ m r byte v hkm hm hwm
    rw [hnew]
    obtain hlt | rfl : m < n ∨ m = n := by omega
    · -- The byte is staged already, so the new range does not cover it.
      have hst := (h.staged hopen r byte).mpr ⟨m, v, hkm, hlt, hwm⟩
      rw [← h.bytes hopen m r byte v hkm hlt hwm]
      by_cases hr : r = ref
      · subst hr
        have hout : ¬ (offset ≤ byte ∧ byte < offset + length) := by
          rintro ⟨hle, hlt'⟩
          simp [hw.fresh byte hle hlt'] at hst
        simp [writtenShadow, hout]
      · simp [writtenShadow, Function.update_of_ne hr]
    · obtain ⟨rfl, hle, hlt, rfl⟩ := (hiff r byte v).mp hwm
      simp [writtenShadow, hle, hlt]
  · intro hc
    rw [hnew] at hc
    simp [writtenShadow, hopen] at hc
  · intro m hkm hm hdm
    obtain hlt | rfl : m < n ∨ m = n := by omega
    · obtain ha | hc := h.sealed m hkm hlt hdm
      · simp [hw.unsealed.1] at ha
      · simp [hopen] at hc
    · have := (hd.unique hdm).1
      simp at this

theorem Staged.cancel (h : Staged s ops k n b slot)
    (hnew : (run s ops (n + 1)).shadows slot = cancelledShadow ((run s ops n).shadows slot)) :
    Staged s ops k (n + 1) b slot := by
  refine ⟨⟨?_, ?_⟩, ?_, ?_, ?_, ?_, ?_, ?_⟩
  · rw [hnew]
    exact h.inShadow.active
  · rw [hnew]
    exact h.inShadow.binding
  · rw [hnew]
    exact h.submission
  · rw [hnew]
    exact h.completion
  · rw [hnew]
    exact fun hc => by cases hc
  · rw [hnew]
    exact fun hc => by cases hc
  · rw [hnew]
    exact fun _ => ⟨rfl, rfl⟩
  · rw [hnew]
    exact fun _ _ _ _ => Or.inr rfl

/-- What one operation does to a held shadow. -/
theorem staged_step (h0 : Inv s) (h : Holding s ops k (n + 1) b slot) (hk : k < n)
    (hj : DistinctObjects (heldJob s ops k slot)) (hst : Staged s ops k n b slot) :
    Staged s ops k (n + 1) b slot := by
  have hi := inv_run s h0 ops n
  have hin := hst.inShadow
  obtain ⟨c, r, hd, hperf⟩ | ⟨hnot, hsame⟩ := run_cases s ops n
  · by_cases hc : Touches b c
    · cases hc with
      | guarded hg =>
        cases hg with
        | cancel =>
          have hkeep : ∀ c' r', Did s ops n c' r' → c' = .cancel (some b) := fun c' r' hd' =>
            (hd'.unique hd).1
          obtain ⟨-, -, ht⟩ | ⟨-, ht⟩ := cancel_cases hi hin hperf
          · refine hst.same (by rw [ht]) (fun _ _ _ _ hw => ?_) fun ha => ?_
            · simpa using hkeep _ _ hw
            · simpa using hkeep _ _ ha
          · exact hst.cancel (by rw [ht]; simp)
        | approve =>
          have hw : ∀ objectId offset source length,
              ¬ Did s ops n (.write (some b) objectId offset source length) (.bool true) :=
            fun _ _ _ _ hw => by simpa using (hw.unique hd).1
          obtain ⟨rfl, -, ht⟩ | ⟨rfl, -, ht⟩ := approve_cases hi hin hperf
          · exact hst.same (by rw [ht]) hw fun ha => by simpa using (ha.unique hd).2
          · exact hst.keep (by rw [ht]; simp) hw fun _ => rfl
        | write objectId offset source length =>
          have ha : ¬ Did s ops n (.approve (some b)) (.bool true) :=
            fun ha => by simpa using (ha.unique hd).1
          obtain ⟨rfl, ht⟩ | ⟨input, ref, rfl, rfl, hw, ht⟩ := write_cases hi hin hperf
          · exact hst.same (by rw [ht]) (fun _ _ _ _ hw => by simpa using (hw.unique hd).2) ha
          · exact hst.write hk hj hd hw (by rw [ht]; simp)
      | stageZero => exact absurd hd (h.kept n hk (Nat.lt_succ_self n) r).1
      | finalize commit => exact absurd hd ((h.kept n hk (Nat.lt_succ_self n) r).2 commit)
    · have hstep := hd.step h0
      refine hst.same (shadow_untouched hi hin hstep hc) (fun _ _ _ _ hw => ?_) fun ha => ?_
      · exact hc ((hw.unique hd).1 ▸ .guarded (.write _ _ _ _))
      · exact hc ((ha.unique hd).1 ▸ .guarded .approve)
  · exact hst.same (by rw [hsame.shadows]) (fun _ _ _ _ => hnot _ _) (hnot _ _)

theorem staged_run (h0 : Inv s) (hj : DistinctObjects (heldJob s ops k slot))
    (h : Holding s ops k n b slot) : Staged s ops k n b slot := by
  have hlt : k + 1 ≤ n := h.lt
  induction n, hlt using Nat.le_induction with
  | base => exact staged_start h0 h
  | succ n hlt ih => exact staged_step h0 h hlt hj (ih (h.earlier hlt (Nat.le_succ n)))

end Runs

/-- Staging and approval of the job that operation `k` moved into the shadow, seen after `n`
operations. -/
structure StagingSafe (s : State) (ops : ℕ → Op) (k n : ℕ) (b : Binding) (slot : Fin 4) : Prop where
  rejected : ∀ m binding objectId offset source length,
    Did s ops m (.write binding objectId offset source length) (.bool false) →
      run s ops (m + 1) = run s ops m
  inside : ∀ m objectId offset source length, k < m → m < n →
    Did s ops m (.write (some b) objectId offset source length) (.bool true) →
      ∃ ref, InRange (heldJob s ops k slot) objectId offset length ref
  once : ∀ m m' ref byte v v', k < m → m < n → k < m' → m' < n →
    WritesByte s ops m b (heldJob s ops k slot) ref byte v →
    WritesByte s ops m' b (heldJob s ops k slot) ref byte v' → m = m'
  holds : ∀ m ref byte v, k < m → m < n → WritesByte s ops m b (heldJob s ops k slot) ref byte v →
    (∀ m', m < m' → m' < n → ¬ Cancels s ops m' b) →
      ((run s ops n).shadows slot).bytes ref byte = v
  cleared : ∀ m, k < m → m < n → Cancels s ops m b →
    ((run s ops n).shadows slot).bytes = default ∧ ((run s ops n).shadows slot).staged = default
  sealed : ∀ m m', k < m → m < m' → m' < n → Did s ops m (.approve (some b)) (.bool true) →
    ∀ objectId offset source length,
      ¬ Did s ops m' (.write (some b) objectId offset source length) (.bool true)
  approval : ∀ m r, k < m → m < n → Did s ops m (.approve (some b)) r → (r = .bool true ↔
    ((run s ops (k + 1)).shadows slot).completion.status = RAVEIL_COMPLETION_EXECUTED ∧
    (∀ m', m' < m → ¬ Cancels s ops m' b) ∧
    ∀ ref : Fin 4, ref.val < (heldJob s ops k slot).objectCount →
      ((heldJob s ops k slot).objects ref).access = RAVEIL_OBJECT_WRITE →
      ∀ byte, ((heldJob s ops k slot).objects ref).offset ≤ byte →
        byte < ((heldJob s ops k slot).objects ref).offset + ((heldJob s ops k slot).objects ref).length →
        ∃ m' v, k < m' ∧ m' < m ∧ WritesByte s ops m' b (heldJob s ops k slot) ref byte v)

section Safety

variable {s : State} {ops : ℕ → Op} {k n m : ℕ} {b : Binding} {slot : Fin 4}

theorem write_rejected (h0 : Inv s) {binding : Option Binding} {objectId offset length : ℕ}
    {source : Option (ℕ → UInt8)}
    (hd : Did s ops m (.write binding objectId offset source length) (.bool false)) :
    run s ops (m + 1) = run s ops m := by
  have hstep := hd.step h0
  generalize hr : Reply.bool false = r at hstep
  generalize run s ops (m + 1) = t at hstep ⊢
  cases hstep with
  | refused => rfl
  | takeCompletion call k c slot hcall => simp at hr
  | shadow => simp at hr

theorem allStaged_iff {shadow : ShadowSlot} : allStaged shadow ↔
    ∀ ref : Fin 4, ref.val < shadow.submission.job.objectCount →
      (shadow.submission.job.objects ref).access = RAVEIL_OBJECT_WRITE →
      ∀ byte, (shadow.submission.job.objects ref).offset ≤ byte →
        byte < (shadow.submission.job.objects ref).offset + (shadow.submission.job.objects ref).length →
        shadow.staged ref byte = true := by
  refine forall_congr' fun ref => forall_congr' fun _ => forall_congr' fun _ => ?_
  constructor
  · intro h byte hle hlt
    have := h (byte - (shadow.submission.job.objects ref).offset) (List.mem_range.mpr (by omega))
    rwa [Nat.add_sub_cancel' hle] at this
  · intro h j hj
    have := List.mem_range.mp hj
    exact h _ (by omega) (by omega)

/-- An accepted write of a held shadow, with the state it finds. -/
theorem Staged.writable (h0 : Inv s) (h : Staged s ops k m b slot) {objectId offset length : ℕ}
    {source : Option (ℕ → UInt8)}
    (hd : Did s ops m (.write (some b) objectId offset source length) (.bool true)) :
    ∃ ref, Writable ((run s ops m).shadows slot) objectId offset length ref ∧
      InRange (heldJob s ops k slot) objectId offset length ref := by
  obtain ⟨hr, -⟩ | ⟨input, ref, -, -, hw, -⟩ := write_cases (inv_run s h0 ops m) h.inShadow hd.performs
  · simp at hr
  · have hrange := inRange_of_writeTarget hw.target
    rw [h.submission] at hrange
    exact ⟨ref, hw, hrange⟩

theorem not_rewritten (h0 : Inv s) (hj : DistinctObjects (heldJob s ops k slot)) {m' : ℕ}
    (h : Holding s ops k n b slot) (hk : k < m) (hlt : m < m') (hn : m' < n) {ref : Fin 4} {byte : ℕ}
    {v v' : UInt8} (hw : WritesByte s ops m b (heldJob s ops k slot) ref byte v)
    (hw' : WritesByte s ops m' b (heldJob s ops k slot) ref byte v') : False := by
  have hst := staged_run h0 hj (h.earlier (hk.trans hlt) hn.le)
  cases hw' with
  | intro objectId offset length input did range start stop =>
    obtain ⟨r, hwr, hr⟩ := hst.writable h0 did
    obtain rfl : r = ref := hj r ref hr.lt range.lt (hr.object.trans range.object.symm)
    have hflag := (hst.staged hwr.unsealed.2 r byte).mpr ⟨m, v, hk, hlt, hw⟩
    simp [hwr.fresh byte start stop] at hflag

end Safety

section Main

variable (s₀ : State) (epoch : ℕ) (ops : ℕ → Op) {k n : ℕ} {b : Binding} {slot : Fin 4}

theorem distinctObjects_held (h : Holding (jobAuthorityInit s₀ epoch) ops k n b slot) :
    DistinctObjects (heldJob (jobAuthorityInit s₀ epoch) ops k slot) := by
  obtain ⟨k', hk'⟩ := (history_run s₀ epoch ops (k + 1)).shadow slot h.inShadow.active
  exact distinctObjects_of_admitted hk'.origin.admitted

/-- The cancel flag of a shadow tells whether its job was cancelled. -/
theorem cancelRequested_iff (h : InShadow (run (jobAuthorityInit s₀ epoch) ops n) b slot) :
    ((run (jobAuthorityInit s₀ epoch) ops n).shadows slot).cancelRequested = false ↔
      ∀ m, m < n → ¬ Cancels (jobAuthorityInit s₀ epoch) ops m b := by
  constructor
  · intro hc m hm hcan
    have := shadow_cancelled (history_run s₀ epoch ops n) hm hcan h
    simp [hc] at this
  · intro hnot
    by_contra hc
    obtain ⟨m, hm, hcan⟩ :=
      (requested_run s₀ epoch ops n).shadow slot h.active (by simpa using hc)
    rw [← h.binding] at hcan
    exact hnot m hm hcan

/-- Until a cancel, the shadow holds exactly what was written; no byte is written twice, nothing is
written outside the WRITE ranges or after approval, and approval means full coverage. -/
theorem staging_safe (h : Holding (jobAuthorityInit s₀ epoch) ops k n b slot) :
    StagingSafe (jobAuthorityInit s₀ epoch) ops k n b slot := by
  have h0 := inv_init s₀ epoch
  have hj := distinctObjects_held s₀ epoch ops h
  have hst : ∀ m, k < m → m ≤ n → Staged (jobAuthorityInit s₀ epoch) ops k m b slot :=
    fun m hk hm => staged_run h0 hj (h.earlier hk hm)
  refine ⟨fun m _ _ _ _ _ hd => write_rejected h0 hd, fun m _ _ _ _ hk hm hd => ?_,
    fun m m' ref byte v v' hk hm hk' hm' hw hw' => ?_, fun m ref byte v hk hm hw hnot => ?_,
    fun m hk hm hc => ?_, fun m m' hk hlt hm' hd _ _ _ _ hw => ?_, fun m r hk hm hd => ?_⟩
  · obtain ⟨ref, -, hr⟩ := (hst m hk hm.le).writable h0 hd
    exact ⟨ref, hr⟩
  · obtain hlt | rfl | hlt := lt_trichotomy m m'
    · exact (not_rewritten h0 hj h hk hlt hm' hw hw').elim
    · rfl
    · exact (not_rewritten h0 hj h hk' hlt hm hw' hw).elim
  · have hn := hst n h.lt le_rfl
    refine hn.bytes ?_ m ref byte v hk hm hw
    rw [cancelRequested_iff s₀ epoch ops hn.inShadow]
    -- An accepted write finds no cancel before it, and there is none after it.
    have hbefore : ∀ m', m' < m → ¬ Cancels (jobAuthorityInit s₀ epoch) ops m' b := by
      have hm' := hst m hk hm.le
      rw [← cancelRequested_iff s₀ epoch ops hm'.inShadow]
      cases hw with
      | intro objectId offset length input did =>
        obtain ⟨r, hwr, -⟩ := hm'.writable h0 did
        exact hwr.unsealed.2
    intro m' hm' hcan
    obtain hlt | rfl | hlt := lt_trichotomy m' m
    · exact hbefore m' hlt hcan
    · cases hw with
      | intro objectId offset length input did =>
        have := (did.unique hcan).1
        simp at this
    · exact hnot m' hlt hm' hcan
  · have hn := hst n h.lt le_rfl
    refine hn.cleared ?_
    by_contra hf
    exact (cancelRequested_iff s₀ epoch ops hn.inShadow).mp (by simpa using hf) m hm hc
  · have hm := hst m' (hk.trans hlt) hm'.le
    obtain ⟨r, hwr, -⟩ := hm.writable h0 hw
    obtain ha | hc := hm.sealed m hk hlt hd
    · simp [hwr.unsealed.1] at ha
    · simp [hwr.unsealed.2] at hc
  · have hm' := hst m hk hm.le
    have hok : r = .bool true ↔
        ((run (jobAuthorityInit s₀ epoch) ops m).shadows slot).cancelRequested = false ∧
        ((run (jobAuthorityInit s₀ epoch) ops m).shadows slot).completion.status =
          RAVEIL_COMPLETION_EXECUTED ∧
        allStaged ((run (jobAuthorityInit s₀ epoch) ops m).shadows slot) := by
      obtain ⟨rfl, hnot, -⟩ | ⟨rfl, hyes, -⟩ :=
        approve_cases (inv_run _ h0 ops m) hm'.inShadow hd.performs
      · simpa using hnot
      · simpa using hyes
    rw [hok, hm'.completion, ← cancelRequested_iff s₀ epoch ops hm'.inShadow, allStaged_iff,
      hm'.submission]
    constructor
    · rintro ⟨hc, hx, hall⟩
      exact ⟨hx, hc, fun ref hr ha byte hle hlt => (hm'.staged hc ref byte).mp (hall ref hr ha byte hle hlt)⟩
    · rintro ⟨hx, hc, hall⟩
      exact ⟨hc, hx, fun ref hr ha byte hle hlt => (hm'.staged hc ref byte).mpr (hall ref hr ha byte hle hlt)⟩

end Main

section Cancel

def oneByteManifest : ObjectManifest where
  magic := RAVEIL_OBJECT_MANIFEST_MAGIC
  schemaVersion := 1
  structSize := 64
  flags := 0
  permittedAccess := 3
  objectId := 1
  generation := 1
  version := 1
  byteLength := 1
  backing := RAVEIL_OBJECT_BACKING_VOLATILE
  reserved0 := 0
  reserved1 := fun _ => 0

def oneByteBinding : Binding := ⟨1, 1, 1, makeCookie 1 1 1⟩

local instance outputIndex : NeZero 4 := ⟨by decide⟩

def oneByteCompletion : CompletionRecord where
  magic := RAVEIL_COMPLETION_MAGIC
  schemaVersion := 1
  structSize := 176
  flags := 0
  status := RAVEIL_COMPLETION_EXECUTED
  detail := 0
  reserved0 := 0
  jobId := 1
  executionEpoch := 1
  executionSequence := 1
  completionCookie := makeCookie 1 1 1
  outputCount := 1
  reserved1 := 0
  reserved2 := fun _ => 0
  outputs := fun i => if i = 0 then ⟨1, 1, 2⟩ else default

/-- Register, submit, take, post, take the completion, write the byte 7, cancel. -/
def cancelOps (n : ℕ) : Op :=
  [.jobObjectRegisterTest (some oneByteManifest), .jobSubmitTest (some oneByteJob),
    .jobSubmissionTake true, .jobCompletionPost (some oneByteCompletion), .jobCompletionTake true,
    .jobShadowWriteTest (some oneByteBinding) 1 0 (some fun _ => 7) 1].getD n
    (.jobCancel (some oneByteBinding))

def blank : State where
  objects := default
  submissions := RingBuffer.empty
  completions := RingBuffer.empty
  inflight := default
  shadows := default
  authorityEpoch := 0
  nextSequence := 0
  planePrograms := default
  planeGraphs := default
  planeExperience := default
  planeExperienceUsed := 0
  capTable := default

theorem holding_cancelOps : Holding (jobAuthorityInit blank 1) cancelOps 4 7 oneByteBinding 0 where
  lt := by omega
  entered := ⟨.takeCompletion true, oneByteCompletion, ⟨rfl, rfl⟩, rfl⟩
  inShadow := ⟨rfl, rfl⟩
  kept := by
    intro m hk hm r
    obtain rfl | rfl : m = 5 ∨ m = 6 := by omega
    · constructor
      · intro hd
        cases hd.1
      · intro commit hd
        cases hd.1
    · constructor
      · intro hd
        cases hd.1
      · intro commit hd
        cases hd.1

theorem staging_safe_cancelOps : StagingSafe (jobAuthorityInit blank 1) cancelOps 4 7 oneByteBinding 0 :=
  staging_safe blank 1 cancelOps holding_cancelOps

/-- After the cancel the byte that was written once no longer holds its value. -/
theorem not_held_cancelOps :
    ¬ ∀ (s₀ : State) (epoch : ℕ) (ops : ℕ → Op) (k n : ℕ) (b : Binding) (slot : Fin 4),
      Holding (jobAuthorityInit s₀ epoch) ops k n b slot → ∀ m ref byte v, k < m → m < n →
      WritesByte (jobAuthorityInit s₀ epoch) ops m b (heldJob (jobAuthorityInit s₀ epoch) ops k slot)
        ref byte v →
      ((run (jobAuthorityInit s₀ epoch) ops n).shadows slot).bytes ref byte = v := by
  intro hall
  have hw : WritesByte (jobAuthorityInit blank 1) cancelOps 5 oneByteBinding
      (heldJob (jobAuthorityInit blank 1) cancelOps 4 0) 0 0 7 :=
    .intro 1 0 1 (fun _ => 7) ⟨rfl, rfl⟩ ⟨Nat.one_pos, rfl, rfl, le_rfl, le_rfl⟩ le_rfl Nat.one_pos
  have hbyte : ((run (jobAuthorityInit blank 1) cancelOps 7).shadows 0).bytes 0 0 = 0 := rfl
  have := hall blank 1 cancelOps 4 7 oneByteBinding 0 holding_cancelOps 5 0 0 7 (by omega) (by omega) hw
  rw [hbyte] at this
  exact absurd this (by decide)

end Cancel

end Raveil.Authority
