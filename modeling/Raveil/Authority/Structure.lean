import Mathlib.Data.List.InsertIdx
import Raveil.Authority.Operations

/-! The structural invariant of the tables and rings, and everything one call can do to a state
that satisfies it. -/
namespace Raveil.Authority
open Raveil.Lib RingBuffer

def completionBinding (completion : CompletionRecord) : Binding where
  jobId := completion.jobId
  executionEpoch := completion.executionEpoch
  executionSequence := completion.executionSequence
  completionCookie := completion.completionCookie

theorem bindingMatches_iff {b : Binding} {x : Submission} :
    bindingMatches b x = true ↔ b = bindingFromSubmission x := by
  cases b
  simp [bindingMatches, bindingFromSubmission]

theorem submissionMatches_iff {x y : Submission} :
    submissionMatches x y = true ↔ bindingFromSubmission x = bindingFromSubmission y := by
  simp [submissionMatches, bindingFromSubmission]

theorem completionMatches_iff {c : CompletionRecord} {x : Submission} :
    completionMatches c x = true ↔ completionBinding c = bindingFromSubmission x := by
  simp [completionMatches, completionBinding, bindingFromSubmission]

theorem completionBound_iff {c : CompletionRecord} {b : Binding} :
    completionBound c b = true ↔ completionBinding c = b := by
  cases b
  simp [completionBound, completionBinding]

/-- The submission held by slot `i`, in flight or in the shadow. -/
def entry (s : State) (i : Fin 4) : Option Submission :=
  if (s.inflight i).active then some (s.inflight i).submission
  else if (s.shadows i).active then some (s.shadows i).submission
  else none

@[simp] theorem inflight_default_active : (default : InflightSlot).active = false := rfl

@[simp] theorem shadow_default_active : (default : ShadowSlot).active = false := rfl

@[simp] theorem shadow_default_staged (ref : Fin 4) (byte : ℕ) :
    (default : ShadowSlot).staged ref byte = false := rfl

/-- All sequence numbers handed out so far are below this bound. -/
def sequenceBound (s : State) : ℕ := if s.nextSequence = 0 then 2 ^ 64 else s.nextSequence

def waiting (s : State) (i : Fin 4) : Prop :=
  (s.inflight i).active = true ∧ (s.inflight i).dispatched = false

def posted (s : State) (i : Fin 4) : Prop :=
  (s.inflight i).active = true ∧ (s.inflight i).completionPosted = true

/-- The submission ring lists the waiting slots. -/
structure Queued (s : State) (q : List (Fin 4)) : Prop where
  nodup : q.Nodup
  mem : ∀ i, i ∈ q ↔ waiting s i
  contents : s.submissions.contents 4 = q.map fun i => (s.inflight i).submission

/-- The completion ring lists the posted slots. -/
structure Posted (s : State) (p : List (Fin 4)) : Prop where
  nodup : p.Nodup
  mem : ∀ i, i ∈ p ↔ posted s i
  contents : (s.completions.contents 4).map completionBinding =
    p.map fun i => bindingFromSubmission (s.inflight i).submission

structure Inv (s : State) : Prop where
  submissionsOk : s.submissions.Ok 4
  completionsOk : s.completions.Ok 4
  exclusive : ∀ i, (s.inflight i).active = true → (s.shadows i).active = false
  unique : ∀ i j x y, entry s i = some x → entry s j = some y →
    x.executionSequence = y.executionSequence ∨ x.job.jobId = y.job.jobId → i = j
  fresh : ∀ i x, entry s i = some x → x.executionSequence < sequenceBound s
  sequence : s.nextSequence < 2 ^ 64
  queued : ∃ q, Queued s q
  sorted : (s.submissions.contents 4).Pairwise fun x y => x.executionSequence < y.executionSequence
  posted : ∃ p, Posted s p
  flags : ∀ i, (s.inflight i).active = true →
    ((s.inflight i).completionPosted = true → (s.inflight i).dispatched = true) ∧
    ((s.inflight i).cancelRequested = true → (s.inflight i).dispatched = true)

section Entries

variable {s : State} {i j : Fin 4} {x y : Submission}

theorem entry_inflight (h : (s.inflight i).active = true) :
    entry s i = some (s.inflight i).submission := by
  simp [entry, h]

theorem entry_shadow (hi : Inv s) (h : (s.shadows i).active = true) :
    entry s i = some (s.shadows i).submission := by
  have hn : (s.inflight i).active = false := by
    by_contra hc
    simp [hi.exclusive i (by simpa using hc)] at h
  simp [entry, hn, h]

/-- A binding names at most one slot in flight. -/
theorem inflight_unique (hi : Inv s) (h : (s.inflight i).active = true)
    (h' : (s.inflight j).active = true)
    (hb : bindingFromSubmission (s.inflight i).submission =
      bindingFromSubmission (s.inflight j).submission) : i = j :=
  hi.unique i j _ _ (entry_inflight h) (entry_inflight h')
    (Or.inl (congrArg Binding.executionSequence hb))

theorem shadow_unique (hi : Inv s) (h : (s.shadows i).active = true)
    (h' : (s.shadows j).active = true)
    (hb : bindingFromSubmission (s.shadows i).submission =
      bindingFromSubmission (s.shadows j).submission) : i = j :=
  hi.unique i j _ _ (entry_shadow hi h) (entry_shadow hi h')
    (Or.inl (congrArg Binding.executionSequence hb))

theorem inflight_ne_shadow (hi : Inv s) (h : (s.inflight i).active = true)
    (h' : (s.shadows j).active = true) :
    bindingFromSubmission (s.inflight i).submission ≠
      bindingFromSubmission (s.shadows j).submission := by
  intro hb
  obtain rfl := hi.unique i j _ _ (entry_inflight h) (entry_shadow hi h')
    (Or.inl (congrArg Binding.executionSequence hb))
  simp [hi.exclusive i h] at h'

end Entries

theorem inv_init (s : State) (epoch : ℕ) : Inv (jobAuthorityInit s epoch) := by
  have hin : ∀ i, ((jobAuthorityInit s epoch).inflight i).active = false := fun _ => rfl
  have hentry : ∀ i, entry (jobAuthorityInit s epoch) i = none := by
    intro i
    rfl
  refine ⟨ok_empty (by omega), ok_empty (by omega), ?_, ?_, ?_, by simp [jobAuthorityInit],
    ⟨[], ?_, ?_, ?_⟩, ?_, ⟨[], ?_, ?_, ?_⟩, ?_⟩
  · intro i h
    simp [hin i] at h
  · intro i j x y h
    simp [hentry] at h
  · intro i x h
    simp [hentry] at h
  · simp
  · simp [waiting, hin]
  · rfl
  · simp [jobAuthorityInit, contents_empty]
  · simp
  · simp [posted, hin]
  · rfl
  · intro i h
    simp [hin i] at h

/-- The replies of a call that did nothing. -/
inductive Refused : Reply → Prop
  | bool : Refused (.bool false)
  | binding : Refused (.binding none)
  | submission : Refused (.submission none)
  | completion : Refused (.completion none)
  | finalize : Refused (.finalize .invalid)

/-- The slot and binding of a shadow operation. -/
structure InShadow (s : State) (b : Binding) (slot : Fin 4) : Prop where
  active : (s.shadows slot).active = true
  binding : b = bindingFromSubmission (s.shadows slot).submission

structure InFlight (s : State) (b : Binding) (slot : Fin 4) : Prop where
  active : (s.inflight slot).active = true
  binding : b = bindingFromSubmission (s.inflight slot).submission

/-- The slot a submission fills. -/
def submitted (s : State) (job : JobDescriptor) (slot : Fin 4) : InflightSlot where
  active := true
  dispatched := false
  completionPosted := false
  cancelRequested := false
  submission := newSubmission s job
  snapshot := takeSnapshot s job (s.inflight slot).snapshot

/-- The shadow a taken completion fills. -/
def moved (s : State) (slot : Fin 4) (c : CompletionRecord) : ShadowSlot :=
  { (default : ShadowSlot) with
    active := true
    approved := false
    cancelRequested := (s.inflight slot).cancelRequested
    submission := (s.inflight slot).submission
    completion := c }

/-- The calls that change a shadow in place. -/
inductive ShadowCall (old : ShadowSlot) (b : Binding) : Call → ShadowSlot → Prop
  | cancel (hc : old.cancelRequested = false) : ShadowCall old b (.cancel (some b))
      { old with cancelRequested := true, approved := false, bytes := default, staged := default }
  | approve (hc : old.cancelRequested = false)
      (hx : old.completion.status = RAVEIL_COMPLETION_EXECUTED) (hst : allStaged old) :
      ShadowCall old b (.approve (some b)) { old with approved := true }
  | stageZero (ha : old.approved = false) (bytes : Fin 4 → ℕ → UInt8) (staged : Fin 4 → ℕ → Bool)
      (hstep : ∀ ref byte, (bytes ref byte = old.bytes ref byte ∧ staged ref byte = old.staged ref byte) ∨
        (bytes ref byte = 0 ∧ staged ref byte = true)) :
      ShadowCall old b (.stageZero (some b)) { old with bytes := bytes, staged := staged }
  | write (ha : old.approved = false) (hc : old.cancelRequested = false) (ref : Fin 4)
      (objectId offset length : ℕ) (input : ℕ → UInt8)
      (href : ref.val < old.submission.job.objectCount)
      (hid : (old.submission.job.objects ref).objectId = objectId)
      (bytes : Fin 4 → ℕ → UInt8) (staged : Fin 4 → ℕ → Bool)
      (hstep : ∀ r byte, (bytes r byte = old.bytes r byte ∧ staged r byte = old.staged r byte) ∨
        (r = ref ∧ offset ≤ byte ∧ byte < offset + length ∧ bytes r byte = input (byte - offset) ∧
          staged r byte = true)) :
      ShadowCall old b (.write (some b) objectId offset (some input) length)
        { old with bytes := bytes, staged := staged }

/-- Everything a call can do to a state that satisfies the invariant. -/
inductive Step (s : State) : Call → Reply → State → Prop
  | refused (c : Call) {r : Reply} (hr : Refused r) : Step s c r s
  | register (i : Fin 8) (manifest : ObjectManifest) (initialBytes : Option (ℕ → UInt8)) (length : ℕ)
      (zeroInitial : Bool) (visible : ℕ → UInt8) (hi : (s.objects i).active = false)
      (hid : findObject s.objects manifest.objectId = none) (hlen : manifest.byteLength ≤ 512)
      (hv : raveilObjectManifestValidate manifest = true) :
      Step s (.register (some manifest) initialBytes length zeroInitial) (.bool true)
        { s with objects := Function.update s.objects i ⟨true, manifest, visible⟩ }
  | submit (job : JobDescriptor) (slot : Fin 4) (hadm : admitted s job = true)
      (hused : s.submissions.used < 4) (hseq : s.nextSequence ≠ 0)
      (hi : (s.inflight slot).active = false) (hs : (s.shadows slot).active = false)
      (hid : ∀ i x, entry s i = some x → x.job.jobId ≠ job.jobId) :
      Step s (.submit (some job) true) (.binding (some (bindingFromSubmission (newSubmission s job))))
        { s with
          nextSequence := (s.nextSequence + 1) % 2 ^ 64
          submissions := s.submissions.push 4 (newSubmission s job)
          inflight := Function.update s.inflight slot (submitted s job slot) }
  | take (slot : Fin 4) (q : List (Fin 4)) (hq : Queued s (slot :: q)) :
      Step s (.take true) (.submission (some (s.inflight slot).submission))
        { s with
          submissions := s.submissions.pop 4
          inflight := Function.update s.inflight slot { s.inflight slot with dispatched := true } }
  | post (c : CompletionRecord) (slot : Fin 4) (h : InFlight s (completionBinding c) slot)
      (hd : (s.inflight slot).dispatched = true) (hp : (s.inflight slot).completionPosted = false)
      (hv : raveilCompletionRecordValidate (s.inflight slot).submission.job c = true)
      (hused : s.completions.used < 4) :
      Step s (.post (some c)) (.bool true)
        { s with
          completions := s.completions.push 4 c
          inflight := Function.update s.inflight slot { s.inflight slot with completionPosted := true } }
  | takeCompletion (call : Call) (k : ℕ) (c : CompletionRecord) (slot : Fin 4)
      (hcall : (call = .takeCompletion true ∧ k = 0) ∨ call = .takeBound (some (completionBinding c)) true)
      (hk : (s.completions.contents 4)[k]? = some c) (h : InFlight s (completionBinding c) slot)
      (hp : (s.inflight slot).completionPosted = true) :
      Step s call (.completion (some c))
        { s with
          completions := s.completions.removeAt 4 k
          shadows := Function.update s.shadows slot (moved s slot c)
          inflight := Function.update s.inflight slot default }
  | cancelQueued (b : Binding) (slot : Fin 4) (h : InFlight s b slot)
      (hd : (s.inflight slot).dispatched = false) :
      Step s (.cancel (some b)) (.bool true)
        { s with
          submissions := (s.submissions.drain 4 s.submissions.used).2.refill 4
            ((s.submissions.contents 4).filter fun value => !bindingMatches b value)
          inflight := Function.update s.inflight slot default }
  | cancelRunning (b : Binding) (slot : Fin 4) (h : InFlight s b slot)
      (hd : (s.inflight slot).dispatched = true) (hc : (s.inflight slot).cancelRequested = false) :
      Step s (.cancel (some b)) (.bool true)
        { s with
          inflight := Function.update s.inflight slot
            { s.inflight slot with cancelRequested := true, snapshot := default } }
  | shadow (call : Call) (b : Binding) (slot : Fin 4) (shadow : ShadowSlot) (h : InShadow s b slot)
      (ha : shadow.active = true) (hsub : shadow.submission = (s.shadows slot).submission)
      (hcall : ShadowCall (s.shadows slot) b call shadow) :
      Step s call (.bool true) { s with shadows := Function.update s.shadows slot shadow }
  | rollback (b : Binding) (commit : Bool) (slot : Fin 4) (h : InShadow s b slot) (r : FinalizeResult)
      (hr : r = .rolledBack ∨ r = .conflict) :
      Step s (.finalize (some b) commit) (.finalize r)
        { s with shadows := Function.update s.shadows slot default }
  | commit (b : Binding) (slot : Fin 4) (h : InShadow s b slot)
      (hc : (s.shadows slot).cancelRequested = false) (ha : (s.shadows slot).approved = true)
      (hrefs : ∀ ref : Fin 4, ref.val < (s.shadows slot).submission.job.objectCount →
        refCurrent s.objects ((s.shadows slot).submission.job.objects ref) = true)
      (houts : ∀ index : Fin 4, index.val < (s.shadows slot).completion.outputCount →
        outputCurrent s.objects ((s.shadows slot).completion.outputs index) = true) :
      Step s (.finalize (some b) true) (.finalize .committed)
        { s with
          objects := publish (s.shadows slot) s.objects
          shadows := Function.update s.shadows slot default }

section Completeness

variable {s : State}

theorem findShadow_eq_some {binding : Option Binding} {slot : Fin 4}
    (h : findShadow s binding = some slot) : ∃ b, binding = some b ∧ InShadow s b slot := by
  unfold findShadow at h
  split at h
  · simp at h
  · rename_i b
    have hp := firstSlot_eq_some h
    rw [Bool.and_eq_true, bindingMatches_iff] at hp
    exact ⟨b, rfl, hp.1, hp.2⟩

theorem step_register (manifest : Option ObjectManifest) (initialBytes : Option (ℕ → UInt8))
    (length : ℕ) (zeroInitial : Bool) :
    Step s (.register manifest initialBytes length zeroInitial)
      (performCall s (.register manifest initialBytes length zeroInitial)).2
      (performCall s (.register manifest initialBytes length zeroInitial)).1 := by
  simp only [performCall, reply, jobObjectRegisterBytesCore]
  split
  · exact .refused _ .bool
  · split
    · exact .refused _ .bool
    · rename_i h1
      simp only [not_or, Bool.not_eq_true', Bool.not_eq_false] at h1
      split
      · exact .refused _ .bool
      · rename_i h2
        split
        · exact .refused _ .bool
        · rename_i i hi
          refine .register i _ _ _ _ _ ?_ ?_ ?_ h1.1
          · simpa using firstSlot_eq_some hi
          · simpa using h2
          · omega

theorem step_submit (hs : Inv s) (job : Option JobDescriptor) (binding : Bool) :
    Step s (.submit job binding) (performCall s (.submit job binding)).2
      (performCall s (.submit job binding)).1 := by
  simp only [performCall, reply, jobSubmitBoundCore]
  split
  · exact .refused _ .binding
  · rename_i job
    cases binding with
    | false => exact .refused _ .binding
    | true =>
      rw [if_neg (by simp)]
      split
      · exact .refused _ .binding
      · rename_i h1
        simp only [not_or, Bool.not_eq_true', Bool.not_eq_false] at h1
        split
        · exact .refused _ .binding
        · rename_i slot hslot
          have hfree := firstSlot_eq_some hslot
          simp only [Bool.and_eq_true, Bool.not_eq_true'] at hfree
          split
          · exact .refused _ .binding
          · rename_i h2
            have hused := hs.submissionsOk.used
            refine .submit job slot h1.1 (by omega) h1.2.2 hfree.1 hfree.2 fun i x hx hid => h2 ?_
            unfold entry at hx
            split_ifs at hx with ha hb
            · obtain rfl := Option.some.inj hx
              exact Or.inl ⟨i, ha, hid⟩
            · obtain rfl := Option.some.inj hx
              exact Or.inr ⟨i, hb, hid⟩

/-- The ring head belongs to a waiting slot, so the loop of `job_submission_take` runs once. -/
theorem step_take (hs : Inv s) (submission : Bool) :
    Step s (.take submission) (performCall s (.take submission)).2
      (performCall s (.take submission)).1 := by
  simp only [performCall, reply, jobSubmissionTake]
  cases submission with
  | false => exact .refused _ .submission
  | true =>
    rw [if_neg (by simp)]
    obtain ⟨q, hq⟩ := hs.queued
    cases hu : s.submissions.used with
    | zero => exact .refused _ .submission
    | succ k =>
      have hcons := contents_pop hs.submissionsOk (show 0 < s.submissions.used by omega)
      cases q with
      | nil => simp [hq.contents] at hcons
      | cons slot q =>
        rw [hq.contents, List.map_cons, List.cons.injEq] at hcons
        have hw := (hq.mem slot).mp List.mem_cons_self
        have hfind : (firstSlot fun i => (s.inflight i).active && !(s.inflight i).dispatched &&
            submissionMatches (s.inflight i).submission (s.inflight slot).submission) =
              some slot := by
          refine firstSlot_eq_some_of_unique ?_ fun j hj => ?_
          · simp [hw.1, hw.2, submissionMatches_iff]
          · simp only [Bool.and_eq_true, submissionMatches_iff] at hj
            exact inflight_unique hs hj.1.1 hw.1 hj.2
        simp only [takeLoop, ← hcons.1, hfind]
        exact .take slot q hq

theorem step_post (hs : Inv s) (completion : Option CompletionRecord) :
    Step s (.post completion) (performCall s (.post completion)).2
      (performCall s (.post completion)).1 := by
  simp only [performCall, reply, jobCompletionPost]
  split
  · exact .refused _ .bool
  · split
    · exact .refused _ .bool
    · rename_i hused
      have hle := hs.completionsOk.used
      split
      · exact .refused _ .bool
      · rename_i slot hslot
        have hp := firstSlot_eq_some hslot
        simp only [Bool.and_eq_true, Bool.not_eq_true', completionMatches_iff] at hp
        exact .post _ slot ⟨hp.1.1.1.1, hp.1.2⟩ hp.1.1.1.2 hp.1.1.2 hp.2 (by omega)

/-- A completion in the ring belongs to one posted slot. -/
theorem step_takeOffset (hs : Inv s) (c : Call) (k : ℕ) (hk : k < s.completions.used)
    (hcall : (c = .takeCompletion true ∧ k = 0) ∨ c = .takeBound
      (some (completionBinding (s.completions.buf ((s.completions.read + k) % 4)))) true) :
    Step s c (reply .completion (completionTakeOffset s k true)).2
      (reply .completion (completionTakeOffset s k true)).1 := by
  obtain ⟨p, hp⟩ := hs.posted
  have hget := getElem?_contents (n := 4) hk
  have hlen : k < p.length := by
    have := congrArg List.length hp.contents
    rw [List.length_map, List.length_map, length_contents] at this
    omega
  have hmem := (hp.mem p[k]).mp (List.getElem_mem hlen)
  have hbind : completionBinding (s.completions.buf ((s.completions.read + k) % 4)) =
      bindingFromSubmission (s.inflight p[k]).submission := by
    have := congrArg (fun l => l[k]?) hp.contents
    simpa [hget, hlen] using this
  have hfind : (firstSlot fun i => (s.inflight i).active && (s.inflight i).completionPosted &&
      completionMatches (s.completions.buf ((s.completions.read + k) % 4)) (s.inflight i).submission) =
        some p[k] := by
    refine firstSlot_eq_some_of_unique ?_ fun j hj => ?_
    · simp [hmem.1, hmem.2, completionMatches_iff, hbind]
    · simp only [Bool.and_eq_true, completionMatches_iff, hbind] at hj
      exact inflight_unique hs hj.1.1 hmem.1 hj.2.symm
  simp only [reply, completionTakeOffset]
  rw [if_neg (by simp [hk])]
  simp only [completionMoveToShadow, hfind]
  exact .takeCompletion c k _ p[k] hcall hget ⟨hmem.1, hbind⟩ hmem.2

theorem step_takeCompletion (hs : Inv s) (completion : Bool) :
    Step s (.takeCompletion completion) (performCall s (.takeCompletion completion)).2
      (performCall s (.takeCompletion completion)).1 := by
  simp only [performCall, jobCompletionTake]
  by_cases h : completion = true ∧ 0 < s.completions.used
  · obtain ⟨rfl, hu⟩ := h
    exact step_takeOffset hs _ 0 hu (Or.inl ⟨rfl, rfl⟩)
  · have hnone : completionTakeOffset s 0 completion = (s, none) := by
      unfold completionTakeOffset
      rw [if_pos (by cases completion <;> simp_all)]
    rw [hnone]
    exact .refused _ .completion

theorem step_takeBound (hs : Inv s) (binding : Option Binding) (completion : Bool) :
    Step s (.takeBound binding completion) (performCall s (.takeBound binding completion)).2
      (performCall s (.takeBound binding completion)).1 := by
  simp only [performCall, jobCompletionTakeBound]
  split
  · exact .refused _ .completion
  · rename_i b
    split
    · exact .refused _ .completion
    · rename_i k hk
      have hlt : k < s.completions.used := List.mem_range.mp (List.mem_of_find?_eq_some hk)
      have hb := List.find?_some hk
      rw [completionBound_iff] at hb
      cases completion with
      | false => exact .refused _ .completion
      | true => exact step_takeOffset hs _ k hlt (Or.inr (by rw [hb]))

theorem step_cancel (hs : Inv s) (binding : Option Binding) :
    Step s (.cancel binding) (performCall s (.cancel binding)).2
      (performCall s (.cancel binding)).1 := by
  simp only [performCall, reply, jobCancel]
  split
  · exact .refused _ .bool
  · rename_i b
    split
    · rename_i slot hslot
      have hp := firstSlot_eq_some hslot
      rw [Bool.and_eq_true, bindingMatches_iff] at hp
      split
      · exact .refused _ .bool
      · rename_i hc
        split
        · rename_i hd
          have hdrain := (drain_eq _ hs.submissionsOk rfl).1
          have := Step.cancelQueued b slot ⟨hp.1, hp.2⟩ (by simpa using hd)
          rwa [← hdrain] at this
        · rename_i hd
          exact .cancelRunning b slot ⟨hp.1, hp.2⟩ (by simpa using hd) (by simpa using hc)
    · split
      · exact .refused _ .bool
      · rename_i slot hslot
        obtain ⟨b', hb', hin⟩ := findShadow_eq_some hslot
        obtain rfl := Option.some.inj hb'
        split
        · exact .refused _ .bool
        · rename_i hc
          exact .shadow _ b slot _ hin hin.active rfl (.cancel (by simpa using hc))

theorem step_approve (binding : Option Binding) :
    Step s (.approve binding) (performCall s (.approve binding)).2
      (performCall s (.approve binding)).1 := by
  simp only [performCall, reply, jobShadowApproveCore]
  split
  · exact .refused _ .bool
  · rename_i slot hslot
    obtain ⟨b, rfl, hin⟩ := findShadow_eq_some hslot
    split
    · exact .refused _ .bool
    · rename_i hok
      simp only [not_or, not_not, Bool.not_eq_true] at hok
      split
      · exact .refused _ .bool
      · rename_i hst
        exact .shadow _ b slot _ hin hin.active rfl (.approve hok.1 hok.2 (not_not.mp hst))

theorem step_stageZero (binding : Option Binding) :
    Step s (.stageZero binding) (performCall s (.stageZero binding)).2
      (performCall s (.stageZero binding)).1 := by
  simp only [performCall, reply, jobShadowStageZeroTest]
  split
  · exact .refused _ .bool
  · rename_i slot hslot
    obtain ⟨b, rfl, hin⟩ := findShadow_eq_some hslot
    split
    · exact .refused _ .bool
    · rename_i ha
      refine .shadow _ b slot _ hin hin.active rfl
        (.stageZero (by simpa using ha) _ _ fun ref byte => ?_)
      split
      · rename_i hcov
        exact Or.inr ⟨rfl, by simp [hcov]⟩
      · rename_i hcov
        exact Or.inl ⟨rfl, by simp [hcov]⟩

theorem step_write (binding : Option Binding) (objectId offset : ℕ) (source : Option (ℕ → UInt8))
    (length : ℕ) :
    Step s (.write binding objectId offset source length)
      (performCall s (.write binding objectId offset source length)).2
      (performCall s (.write binding objectId offset source length)).1 := by
  simp only [performCall, reply, jobShadowWriteCore]
  split
  · exact .refused _ .bool
  · split
    · exact .refused _ .bool
    · split
      · exact .refused _ .bool
      · rename_i slot hslot
        obtain ⟨b, rfl, hin⟩ := findShadow_eq_some hslot
        split
        · exact .refused _ .bool
        · rename_i hok
          simp only [not_or, Bool.not_eq_true] at hok
          split
          · exact .refused _ .bool
          · rename_i ref href
            have hmem := mem_indices.mp (List.mem_of_find?_eq_some href)
            have htarget := List.find?_some href
            simp only [decide_eq_true_iff] at htarget
            split
            · exact .refused _ .bool
            · refine .shadow _ b slot _ hin hin.active rfl
                (.write hok.1 hok.2.1 ref objectId offset length _ hmem htarget.1 _ _ fun r byte => ?_)
              by_cases hr : r = ref
              · subst hr
                simp only [Function.update_self]
                by_cases hcov : offset ≤ byte ∧ byte < offset + length
                · exact Or.inr ⟨trivial, hcov.1, hcov.2, by simp [hcov], by simp [hcov]⟩
                · exact Or.inl ⟨by simp [hcov], by simp [hcov]⟩
              · exact Or.inl ⟨by rw [Function.update_of_ne hr], by rw [Function.update_of_ne hr]⟩

theorem step_finalize (binding : Option Binding) (commit : Bool) :
    Step s (.finalize binding commit) (performCall s (.finalize binding commit)).2
      (performCall s (.finalize binding commit)).1 := by
  simp only [performCall, reply, jobShadowFinalizeCore]
  split
  · exact .refused _ .finalize
  · rename_i slot hslot
    obtain ⟨b, rfl, hin⟩ := findShadow_eq_some hslot
    split
    · exact .rollback b commit slot hin _ (Or.inl rfl)
    · rename_i hok
      simp only [not_or, Bool.not_eq_true, Bool.not_eq_true'] at hok
      split
      · exact .rollback b commit slot hin _ (Or.inr rfl)
      · rename_i hrefs
        split
        · exact .rollback b commit slot hin _ (Or.inr rfl)
        · rename_i houts
          obtain ⟨hcommit, hc, ha⟩ := hok
          simp only [Bool.not_eq_true', Bool.not_eq_false, List.all_eq_true, mem_indices] at hrefs houts
          have := Step.commit b slot hin hc (by simpa using ha) hrefs houts
          cases commit with
          | true => exact this
          | false => simp at hcommit

theorem step_call (hs : Inv s) (c : Call) : Step s c (performCall s c).2 (performCall s c).1 := by
  cases c with
  | register manifest initialBytes length zeroInitial => exact step_register ..
  | submit job binding => exact step_submit hs job binding
  | take submission => exact step_take hs submission
  | post completion => exact step_post hs completion
  | takeCompletion completion => exact step_takeCompletion hs completion
  | takeBound binding completion => exact step_takeBound hs binding completion
  | cancel binding => exact step_cancel hs binding
  | approve binding => exact step_approve binding
  | stageZero binding => exact step_stageZero binding
  | write binding objectId offset source length => exact step_write ..
  | finalize binding commit => exact step_finalize binding commit

end Completeness

/-! Preservation of the invariant, one lemma for each kind of step. -/

section Preservation

variable {s t : State}

theorem inv_sameTables (h : SameTables s t) (hs : Inv s) : Inv t := by
  obtain ⟨-, hsub, hcomp, hin, hsh, -, hseq⟩ := h
  obtain ⟨h1, h2, h3, h4, h5, h6, ⟨q, hq⟩, h8, ⟨p, hp⟩, h10⟩ := hs
  have hentry : entry t = entry s := by
    funext i
    simp [entry, hin, hsh]
  refine ⟨by rwa [hsub], by rwa [hcomp], by rwa [hin, hsh], by rwa [hentry], ?_, by rwa [hseq],
    ⟨q, hq.nodup, ?_, ?_⟩, by rwa [hsub], ⟨p, hp.nodup, ?_, ?_⟩, by rwa [hin]⟩
  · rw [hentry]
    simpa [sequenceBound, hseq] using h5
  · simpa [waiting, hin] using hq.mem
  · rw [hsub, hin]
    exact hq.contents
  · simpa [posted, hin] using hp.mem
  · rw [hcomp, hin]
    exact hp.contents

/-- Replacing one shadow by one of the same submission adds no entry. -/
theorem entry_of_shadow {slot : Fin 4} {shadow : ShadowSlot} (hs : Inv s)
    (ha : (s.shadows slot).active = true)
    (hsub : shadow.active = true → shadow.submission = (s.shadows slot).submission)
    {i : Fin 4} {x : Submission} (hx : entry t i = some x) (hin : t.inflight = s.inflight)
    (hsh : t.shadows = Function.update s.shadows slot shadow) : entry s i = some x := by
  unfold entry at hx
  rw [hin, hsh] at hx
  by_cases hi : i = slot
  · subst hi
    have hidle : (s.inflight i).active = false := by
      by_contra h
      simp [hs.exclusive i (by simpa using h)] at ha
    rw [entry_shadow hs ha]
    simp only [hidle, Bool.false_eq_true, ↓reduceIte, Function.update_self] at hx
    split_ifs at hx with hact
    rw [← hx, hsub hact]
  · simpa [entry, Function.update_of_ne hi] using hx

/-- A step that only touches one shadow and adds no entry. -/
theorem inv_shadow {slot : Fin 4} {shadow : ShadowSlot} (hs : Inv s)
    (ha : (s.shadows slot).active = true)
    (hsub : shadow.active = true → shadow.submission = (s.shadows slot).submission) :
    Inv { s with shadows := Function.update s.shadows slot shadow } := by
  have hin : (s.inflight slot).active = false := by
    by_contra h
    simp [hs.exclusive slot (by simpa using h)] at ha
  have hentry : ∀ i x, entry { s with shadows := Function.update s.shadows slot shadow } i = some x →
      entry s i = some x := fun i x hx => entry_of_shadow hs ha hsub hx rfl rfl
  obtain ⟨q, hq⟩ := hs.queued
  obtain ⟨p, hp⟩ := hs.posted
  refine ⟨hs.submissionsOk, hs.completionsOk, fun i hi => ?_,
    fun i j x y hx hy => hs.unique i j x y (hentry i x hx) (hentry j y hy),
    fun i x hx => hs.fresh i x (hentry i x hx), hs.sequence, ⟨q, hq.nodup, hq.mem, hq.contents⟩,
    hs.sorted, ⟨p, hp.nodup, hp.mem, hp.contents⟩, hs.flags⟩
  by_cases he : i = slot
  · subst he
    simp [hin] at hi
  · simpa [Function.update_of_ne he] using hs.exclusive i hi

/-- The objects are not part of the invariant. -/
theorem inv_objects (hs : Inv s) (objects : Fin 8 → ObjectSlot) : Inv { s with objects := objects } := by
  obtain ⟨h1, h2, h3, h4, h5, h6, ⟨q, hq⟩, h8, ⟨p, hp⟩, h10⟩ := hs
  exact ⟨h1, h2, h3, h4, h5, h6, ⟨q, hq.nodup, hq.mem, hq.contents⟩, h8,
    ⟨p, hp.nodup, hp.mem, hp.contents⟩, h10⟩

theorem sequenceBound_succ (hs : Inv s) (hseq : s.nextSequence ≠ 0) {t : State}
    (ht : t.nextSequence = (s.nextSequence + 1) % 2 ^ 64) :
    sequenceBound s = s.nextSequence ∧ sequenceBound t = s.nextSequence + 1 := by
  have hlt := hs.sequence
  refine ⟨if_neg hseq, ?_⟩
  unfold sequenceBound
  split <;> omega

theorem inv_submit (hs : Inv s) {job : JobDescriptor} {slot : Fin 4}
    (hused : s.submissions.used < 4) (hseq : s.nextSequence ≠ 0)
    (hi : (s.inflight slot).active = false) (hsh : (s.shadows slot).active = false)
    (hid : ∀ i x, entry s i = some x → x.job.jobId ≠ job.jobId) :
    Inv { s with
      nextSequence := (s.nextSequence + 1) % 2 ^ 64
      submissions := s.submissions.push 4 (newSubmission s job)
      inflight := Function.update s.inflight slot (submitted s job slot) } := by
  obtain ⟨hb, hb'⟩ := sequenceBound_succ hs hseq (t := { s with
      nextSequence := (s.nextSequence + 1) % 2 ^ 64
      submissions := s.submissions.push 4 (newSubmission s job)
      inflight := Function.update s.inflight slot (submitted s job slot) }) rfl
  have hfresh : ∀ i x, entry s i = some x → x.executionSequence < s.nextSequence := by
    intro i x hx
    rw [← hb]
    exact hs.fresh i x hx
  have hentry : ∀ i x, entry { s with
      nextSequence := (s.nextSequence + 1) % 2 ^ 64
      submissions := s.submissions.push 4 (newSubmission s job)
      inflight := Function.update s.inflight slot (submitted s job slot) } i = some x →
      (i = slot ∧ x = newSubmission s job) ∨ (i ≠ slot ∧ entry s i = some x) := by
    intro i x hx
    by_cases he : i = slot
    · subst he
      refine Or.inl ⟨rfl, ?_⟩
      simpa [entry, submitted, eq_comm] using hx
    · exact Or.inr ⟨he, by simpa [entry, Function.update_of_ne he] using hx⟩
  obtain ⟨q, hq⟩ := hs.queued
  obtain ⟨p, hp⟩ := hs.posted
  have hnq : slot ∉ q := fun h => by simp [((hq.mem slot).mp h).1] at hi
  have hnp : slot ∉ p := fun h => by simp [((hp.mem slot).mp h).1] at hi
  refine ⟨ok_push hs.submissionsOk hused, hs.completionsOk, fun i ha => ?_, fun i j x y hx hy h => ?_,
    fun i x hx => ?_, Nat.mod_lt _ (by omega), ⟨q ++ [slot], ?_, fun i => ?_, ?_⟩, ?_,
    ⟨p, hp.nodup, fun i => ?_, ?_⟩, fun i ha => ?_⟩
  · by_cases he : i = slot
    · subst he
      exact hsh
    · exact hs.exclusive i (by simpa [Function.update_of_ne he] using ha)
  · obtain ⟨hi', rfl⟩ | ⟨-, hx'⟩ := hentry i x hx
    · obtain ⟨hj', -⟩ | ⟨-, hy'⟩ := hentry j y hy
      · rw [hi', hj']
      · have hlt := hfresh j y hy'
        have hne := hid j y hy'
        simp only [newSubmission] at h
        omega
    · obtain ⟨-, rfl⟩ | ⟨-, hy'⟩ := hentry j y hy
      · have hlt := hfresh i x hx'
        have hne := hid i x hx'
        simp only [newSubmission] at h
        omega
      · exact hs.unique i j x y hx' hy' h
  · rw [hb']
    obtain ⟨-, rfl⟩ | ⟨-, hx⟩ := hentry i x hx
    · exact Nat.lt_succ_self _
    · exact (hfresh i x hx).trans (Nat.lt_succ_self _)
  · rw [List.nodup_append]
    simpa using ⟨hq.nodup, fun i hi he => hnq (he ▸ hi)⟩
  · by_cases he : i = slot
    · subst he
      simp [waiting, submitted]
    · simpa [waiting, Function.update_of_ne he, he] using hq.mem i
  · rw [contents_push hs.submissionsOk hused, List.map_append, hq.contents]
    congr 1
    · refine List.map_congr_left fun i hi => ?_
      have he : i ≠ slot := fun he => hnq (he ▸ hi)
      simp [Function.update_of_ne he]
    · simp [submitted]
  · rw [contents_push hs.submissionsOk hused, List.pairwise_append]
    refine ⟨hs.sorted, List.pairwise_singleton _ _, fun x hx y hy => ?_⟩
    obtain rfl := List.mem_singleton.mp hy
    rw [hq.contents] at hx
    obtain ⟨i, hi, rfl⟩ := List.mem_map.mp hx
    exact hfresh i _ (entry_inflight ((hq.mem i).mp hi).1)
  · by_cases he : i = slot
    · subst he
      simp [posted, submitted, hnp]
    · simpa [posted, Function.update_of_ne he] using hp.mem i
  · rw [hp.contents]
    refine List.map_congr_left fun i hi => ?_
    have he : i ≠ slot := fun he => hnp (he ▸ hi)
    simp [Function.update_of_ne he]
  · by_cases he : i = slot
    · subst he
      simp [submitted]
    · simp only [Function.update_of_ne he] at ha ⊢
      exact hs.flags i ha

/-- Updating a slot in flight without changing its submission keeps the entries. -/
theorem entry_keep {slot : Fin 4} {e : InflightSlot} (ha : (s.inflight slot).active = true)
    (he : e.active = true) (hsub : e.submission = (s.inflight slot).submission)
    (hin : t.inflight = Function.update s.inflight slot e) (hsh : t.shadows = s.shadows) :
    entry t = entry s := by
  funext i
  unfold entry
  rw [hin, hsh]
  by_cases hi : i = slot
  · subst hi
    simp [he, ha, hsub]
  · simp [Function.update_of_ne hi]

theorem exclusive_keep (hs : Inv s) {slot : Fin 4} {e : InflightSlot}
    (ha : (s.inflight slot).active = true) (hin : t.inflight = Function.update s.inflight slot e)
    (hsh : t.shadows = s.shadows) :
    ∀ i, (t.inflight i).active = true → (t.shadows i).active = false := by
  intro i hi
  rw [hin] at hi
  rw [hsh]
  by_cases he : i = slot
  · subst he
    exact hs.exclusive i ha
  · exact hs.exclusive i (by simpa [Function.update_of_ne he] using hi)

theorem inv_take (hs : Inv s) {slot : Fin 4} {q : List (Fin 4)} (hq : Queued s (slot :: q)) :
    Inv { s with
      submissions := s.submissions.pop 4
      inflight := Function.update s.inflight slot { s.inflight slot with dispatched := true } } := by
  have hw := (hq.mem slot).mp List.mem_cons_self
  have hnq : slot ∉ q := (List.nodup_cons.mp hq.nodup).1
  have hpos : 0 < s.submissions.used := by
    rw [← length_contents 4, hq.contents]
    simp
  have hcons := contents_pop hs.submissionsOk hpos
  rw [hq.contents, List.map_cons, List.cons.injEq] at hcons
  have hentry := entry_keep (s := s) (t := { s with
      submissions := s.submissions.pop 4
      inflight := Function.update s.inflight slot { s.inflight slot with dispatched := true } })
    hw.1 (e := { s.inflight slot with dispatched := true }) hw.1 rfl rfl rfl
  obtain ⟨p, hp⟩ := hs.posted
  refine ⟨ok_pop hs.submissionsOk hpos, hs.completionsOk, exclusive_keep hs hw.1 rfl rfl,
    by rw [hentry]; exact hs.unique, by rw [hentry]; exact hs.fresh, hs.sequence,
    ⟨q, (List.nodup_cons.mp hq.nodup).2, fun i => ?_, ?_⟩, ?_, ⟨p, hp.nodup, fun i => ?_, ?_⟩,
    fun i ha => ?_⟩
  · by_cases he : i = slot
    · subst he
      simp [waiting, hnq]
    · have := hq.mem i
      simpa [waiting, Function.update_of_ne he, he] using this
  · rw [← hcons.2]
    refine List.map_congr_left fun i hi => ?_
    have he : i ≠ slot := fun he => hnq (he ▸ hi)
    simp [Function.update_of_ne he]
  · have hsorted := hs.sorted
    rw [contents_pop hs.submissionsOk hpos] at hsorted
    exact (List.pairwise_cons.mp hsorted).2
  · by_cases he : i = slot
    · subst he
      simpa [posted] using hp.mem i
    · simpa [posted, Function.update_of_ne he] using hp.mem i
  · rw [hp.contents]
    refine List.map_congr_left fun i _ => ?_
    by_cases he : i = slot
    · subst he
      simp
    · simp [Function.update_of_ne he]
  · by_cases he : i = slot
    · subst he
      simp
    · simp only [Function.update_of_ne he] at ha ⊢
      exact hs.flags i ha

theorem inv_post (hs : Inv s) {slot : Fin 4} {c : CompletionRecord}
    (h : InFlight s (completionBinding c) slot) (hd : (s.inflight slot).dispatched = true)
    (hnp : (s.inflight slot).completionPosted = false) (hused : s.completions.used < 4) :
    Inv { s with
      completions := s.completions.push 4 c
      inflight := Function.update s.inflight slot { s.inflight slot with completionPosted := true } } := by
  have hentry := entry_keep (s := s) (t := { s with
      completions := s.completions.push 4 c
      inflight := Function.update s.inflight slot { s.inflight slot with completionPosted := true } })
    h.active (e := { s.inflight slot with completionPosted := true }) h.active rfl rfl rfl
  obtain ⟨q, hq⟩ := hs.queued
  obtain ⟨p, hp⟩ := hs.posted
  have hslot : slot ∉ p := fun hm => by simp [((hp.mem slot).mp hm).2] at hnp
  refine ⟨hs.submissionsOk, ok_push hs.completionsOk hused, exclusive_keep hs h.active rfl rfl,
    by rw [hentry]; exact hs.unique, by rw [hentry]; exact hs.fresh, hs.sequence,
    ⟨q, hq.nodup, fun i => ?_, ?_⟩, hs.sorted, ⟨p ++ [slot], ?_, fun i => ?_, ?_⟩, fun i ha => ?_⟩
  · by_cases he : i = slot
    · subst he
      simpa [waiting] using hq.mem i
    · simpa [waiting, Function.update_of_ne he] using hq.mem i
  · rw [hq.contents]
    refine List.map_congr_left fun i _ => ?_
    by_cases he : i = slot
    · subst he
      simp
    · simp [Function.update_of_ne he]
  · rw [List.nodup_append]
    simpa using ⟨hp.nodup, fun i hi he => hslot (he ▸ hi)⟩
  · by_cases he : i = slot
    · subst he
      simp [posted, h.active]
    · simpa [posted, Function.update_of_ne he, he] using hp.mem i
  · rw [contents_push hs.completionsOk hused, List.map_append, List.map_append, hp.contents]
    congr 1
    · refine List.map_congr_left fun i hi => ?_
      have he : i ≠ slot := fun he => hslot (he ▸ hi)
      simp [Function.update_of_ne he]
    · simp [h.binding]
  · by_cases he : i = slot
    · subst he
      simp [hd]
    · simp only [Function.update_of_ne he] at ha ⊢
      exact hs.flags i ha

theorem inv_cancelRunning (hs : Inv s) {slot : Fin 4} {b : Binding} (h : InFlight s b slot)
    (hd : (s.inflight slot).dispatched = true) :
    Inv { s with
      inflight := Function.update s.inflight slot
        { s.inflight slot with cancelRequested := true, snapshot := default } } := by
  have hentry := entry_keep (s := s) (t := { s with
      inflight := Function.update s.inflight slot
        { s.inflight slot with cancelRequested := true, snapshot := default } })
    h.active (e := { s.inflight slot with cancelRequested := true, snapshot := default }) h.active
    rfl rfl rfl
  obtain ⟨q, hq⟩ := hs.queued
  obtain ⟨p, hp⟩ := hs.posted
  have hsub : ∀ i, (Function.update s.inflight slot
      { s.inflight slot with cancelRequested := true, snapshot := default } i).submission =
        (s.inflight i).submission := by
    intro i
    by_cases he : i = slot
    · subst he
      simp
    · simp [Function.update_of_ne he]
  refine ⟨hs.submissionsOk, hs.completionsOk, exclusive_keep hs h.active rfl rfl,
    by rw [hentry]; exact hs.unique, by rw [hentry]; exact hs.fresh, hs.sequence,
    ⟨q, hq.nodup, fun i => ?_, ?_⟩, hs.sorted, ⟨p, hp.nodup, fun i => ?_, ?_⟩, fun i ha => ?_⟩
  · by_cases he : i = slot
    · subst he
      simpa [waiting] using hq.mem i
    · simpa [waiting, Function.update_of_ne he] using hq.mem i
  · simp only [hsub]
    exact hq.contents
  · by_cases he : i = slot
    · subst he
      simpa [posted] using hp.mem i
    · simpa [posted, Function.update_of_ne he] using hp.mem i
  · simp only [hsub]
    exact hp.contents
  · by_cases he : i = slot
    · subst he
      simp [hd]
    · simp only [Function.update_of_ne he] at ha ⊢
      exact hs.flags i ha

theorem inv_cancelQueued (hs : Inv s) {slot : Fin 4} {b : Binding} (h : InFlight s b slot)
    (hd : (s.inflight slot).dispatched = false) :
    Inv { s with
      submissions := (s.submissions.drain 4 s.submissions.used).2.refill 4
        ((s.submissions.contents 4).filter fun value => !bindingMatches b value)
      inflight := Function.update s.inflight slot default } := by
  obtain ⟨q, hq⟩ := hs.queued
  obtain ⟨p, hp⟩ := hs.posted
  have hslot : slot ∉ p := by
    intro hm
    have := (hs.flags slot h.active).1 ((hp.mem slot).mp hm).2
    simp [hd] at this
  have hlen : ((s.submissions.contents 4).filter fun value => !bindingMatches b value).length ≤ 4 := by
    refine (List.length_filter_le _ _).trans ?_
    rw [length_contents]
    exact hs.submissionsOk.used
  have hfilter : (s.submissions.contents 4).filter (fun value => !bindingMatches b value) =
      (q.filter fun i => i ≠ slot).map fun i => (s.inflight i).submission := by
    rw [hq.contents, List.filter_map]
    congr 1
    refine List.filter_congr fun i hi => ?_
    have hw := (hq.mem i).mp hi
    by_cases he : i = slot
    · subst he
      simp [bindingMatches_iff, h.binding]
    · have hne : bindingMatches b (s.inflight i).submission = false := by
        by_contra hc
        rw [Bool.not_eq_false, bindingMatches_iff, h.binding] at hc
        exact he (inflight_unique hs hw.1 h.active hc.symm)
      simp [hne, he]
  have hentry : ∀ i x, entry { s with
      submissions := (s.submissions.drain 4 s.submissions.used).2.refill 4
        ((s.submissions.contents 4).filter fun value => !bindingMatches b value)
      inflight := Function.update s.inflight slot default } i = some x → entry s i = some x := by
    intro i x hx
    by_cases he : i = slot
    · subst he
      have := hs.exclusive i h.active
      simp [entry, this] at hx
    · simpa [entry, Function.update_of_ne he] using hx
  refine ⟨ok_refill hlen (by omega), hs.completionsOk, fun i hi => ?_,
    fun i j x y hx hy => hs.unique i j x y (hentry i x hx) (hentry j y hy),
    fun i x hx => hs.fresh i x (hentry i x hx), hs.sequence,
    ⟨q.filter fun i => i ≠ slot, hq.nodup.filter _, fun i => ?_, ?_⟩, ?_,
    ⟨p, hp.nodup, fun i => ?_, ?_⟩, fun i ha => ?_⟩
  · by_cases he : i = slot
    · subst he
      exact hs.exclusive i h.active
    · exact hs.exclusive i (by simpa [Function.update_of_ne he] using hi)
  · by_cases he : i = slot
    · subst he
      simp [waiting]
    · simpa [waiting, Function.update_of_ne he, he] using hq.mem i
  · rw [contents_refill hlen, hfilter]
    refine List.map_congr_left fun i hi => ?_
    have he : i ≠ slot := by simpa using (List.mem_filter.mp hi).2
    simp [Function.update_of_ne he]
  · rw [contents_refill hlen]
    exact hs.sorted.filter _
  · by_cases he : i = slot
    · subst he
      simp [posted, hslot]
    · simpa [posted, Function.update_of_ne he] using hp.mem i
  · rw [hp.contents]
    refine List.map_congr_left fun i hi => ?_
    have he : i ≠ slot := fun he => hslot (he ▸ hi)
    simp [Function.update_of_ne he]
  · by_cases he : i = slot
    · subst he
      simp at ha
    · simp only [Function.update_of_ne he] at ha ⊢
      exact hs.flags i ha

theorem inv_takeCompletion (hs : Inv s) {slot : Fin 4} {k : ℕ} {c : CompletionRecord}
    (hk : (s.completions.contents 4)[k]? = some c) (h : InFlight s (completionBinding c) slot)
    (hpost : (s.inflight slot).completionPosted = true) :
    Inv { s with
      completions := s.completions.removeAt 4 k
      shadows := Function.update s.shadows slot (moved s slot c)
      inflight := Function.update s.inflight slot default } := by
  obtain ⟨q, hq⟩ := hs.queued
  obtain ⟨p, hp⟩ := hs.posted
  have hused : k < s.completions.used := by
    rw [← length_contents 4]
    exact (List.getElem?_eq_some_iff.mp hk).1
  have hlen : k < p.length := by
    have := congrArg List.length hp.contents
    rw [List.length_map, List.length_map, length_contents] at this
    omega
  have hpk : p[k] = slot := by
    have hget := congrArg (fun l => l[k]?) hp.contents
    simp only [List.getElem?_map, hk, List.getElem?_eq_getElem hlen, Option.map_some,
      Option.some.injEq] at hget
    exact inflight_unique hs ((hp.mem _).mp (List.getElem_mem hlen)).1 h.active
      (hget.symm.trans h.binding)
  have hslot : slot ∉ q := by
    intro hm
    have h1 := ((hq.mem slot).mp hm).2
    have h2 := (hs.flags slot h.active).1 hpost
    simp [h1] at h2
  have hmem : ∀ i, i ∈ p.eraseIdx k ↔ i ∈ p ∧ i ≠ slot := by
    intro i
    rw [← hp.nodup.erase_getElem k hlen, hpk, hp.nodup.mem_erase_iff, and_comm]
  have hentry : ∀ i x, entry { s with
      completions := s.completions.removeAt 4 k
      shadows := Function.update s.shadows slot (moved s slot c)
      inflight := Function.update s.inflight slot default } i = some x → entry s i = some x := by
    intro i x hx
    by_cases he : i = slot
    · subst he
      rw [entry_inflight h.active]
      simpa [entry, moved] using hx
    · simpa [entry, Function.update_of_ne he] using hx
  refine ⟨hs.submissionsOk, ok_removeAt hs.completionsOk hused, fun i hi => ?_,
    fun i j x y hx hy => hs.unique i j x y (hentry i x hx) (hentry j y hy),
    fun i x hx => hs.fresh i x (hentry i x hx), hs.sequence, ⟨q, hq.nodup, fun i => ?_, ?_⟩,
    hs.sorted, ⟨p.eraseIdx k, hp.nodup.sublist (List.eraseIdx_sublist _ _), fun i => ?_, ?_⟩,
    fun i ha => ?_⟩
  · by_cases he : i = slot
    · subst he
      simp at hi
    · simpa [Function.update_of_ne he] using
        hs.exclusive i (by simpa [Function.update_of_ne he] using hi)
  · by_cases he : i = slot
    · subst he
      simp [waiting, hslot]
    · simpa [waiting, Function.update_of_ne he] using hq.mem i
  · rw [hq.contents]
    refine List.map_congr_left fun i hi => ?_
    have he : i ≠ slot := fun he => hslot (he ▸ hi)
    simp [Function.update_of_ne he]
  · rw [hmem]
    by_cases he : i = slot
    · subst he
      simp [posted]
    · simpa [posted, Function.update_of_ne he, he] using hp.mem i
  · rw [contents_removeAt hs.completionsOk hused, ← List.eraseIdx_map, hp.contents, List.eraseIdx_map]
    refine List.map_congr_left fun i hi => ?_
    simp [Function.update_of_ne ((hmem i).mp hi).2]
  · by_cases he : i = slot
    · subst he
      simp at ha
    · simp only [Function.update_of_ne he] at ha ⊢
      exact hs.flags i ha

theorem inv_step {c : Call} {r : Reply} (hs : Inv s) (h : Step s c r t) : Inv t := by
  cases h with
  | refused => exact hs
  | register => exact inv_objects hs _
  | submit job slot hadm hused hseq hi hsh hid => exact inv_submit hs hused hseq hi hsh hid
  | take slot q hq => exact inv_take hs hq
  | post c slot h hd hp hv hused => exact inv_post hs h hd hp hused
  | takeCompletion call k c slot hcall hk h hp => exact inv_takeCompletion hs hk h hp
  | cancelQueued b slot h hd => exact inv_cancelQueued hs h hd
  | cancelRunning b slot h hd hc => exact inv_cancelRunning hs h hd
  | shadow call b slot shadow h ha hsub => exact inv_shadow hs h.active fun _ => hsub
  | rollback b commit slot h => exact inv_shadow hs h.active fun ha => by simp at ha
  | commit b slot h =>
    refine inv_shadow (inv_objects hs _) ?_ fun ha => by simp at ha
    exact h.active

theorem inv_run (s : State) (hs : Inv s) (ops : ℕ → Op) (n : ℕ) : Inv (run s ops n) := by
  induction n with
  | zero => exact hs
  | succ n ih =>
    obtain ⟨c, r, -, hp⟩ | ⟨-, hsame⟩ := run_cases s ops n
    · have := step_call ih c
      rw [hp] at this
      exact inv_step ih this
    · exact inv_sameTables hsame ih

end Preservation

end Raveil.Authority
