import Raveil.Authority.Order

/-! What the slots of a reached state say about the operations that led there. -/
namespace Raveil.Authority
open Raveil.Lib RingBuffer

variable {s : State} {ops : ℕ → Op} {n m k : ℕ} {b : Binding} {x y : Submission}

theorem Did.unique {c c' : Call} {r r' : Reply} (h : Did s ops n c r) (h' : Did s ops n c' r') :
    c = c' ∧ r = r' :=
  ⟨Option.some.inj (h.1.symm.trans h'.1), h.2.symm.trans h'.2⟩

/-- Operation `n` successfully cancels `b`. -/
def Cancels (s : State) (ops : ℕ → Op) (n : ℕ) (b : Binding) : Prop :=
  Did s ops n (.cancel (some b)) (.bool true)

/-- Operation `n` posts a completion for `b` that is accepted. -/
def Posts (s : State) (ops : ℕ → Op) (n : ℕ) (b : Binding) : Prop :=
  ∃ c, completionBinding c = b ∧ Did s ops n (.post (some c)) (.bool true)

/-- Operation `n` stages this value for one byte of a declared reference. -/
inductive Stages (s : State) (ops : ℕ → Op) (n : ℕ) (b : Binding) (ref : ObjectRef) (byte : ℕ) :
    UInt8 → Prop
  | write (offset length : ℕ) (input : ℕ → UInt8) (hle : offset ≤ byte) (hlt : byte < offset + length)
      (h : Did s ops n (.write (some b) ref.objectId offset (some input) length) (.bool true)) :
      Stages s ops n b ref byte (input (byte - offset))
  | zero (h : Did s ops n (.stageZero (some b)) (.bool true)) : Stages s ops n b ref byte 0

/-- Operation `k` before `n` is the submit that created `x`. -/
structure Origin (s : State) (ops : ℕ → Op) (n k : ℕ) (x : Submission) : Prop where
  lt : k < n
  did : Did s ops k (.submit (some x.job) true) (.binding (some (bindingFromSubmission x)))
  eq : x = newSubmission (run s ops k) x.job
  admitted : admitted (run s ops k) x.job = true

/-- The history of a slot in flight. -/
structure InflightHist (s : State) (ops : ℕ → Op) (n k : ℕ) (e : InflightSlot) : Prop where
  origin : Origin s ops n k e.submission
  taken : e.dispatched = true →
    ∃ m, m < n ∧ Did s ops m (.take true) (.submission (some e.submission))
  uncancelled : e.cancelRequested = false →
    ∀ m, m < n → ¬ Cancels s ops m (bindingFromSubmission e.submission)
  unposted : e.completionPosted = false →
    ∀ m, m < n → ¬ Posts s ops m (bindingFromSubmission e.submission)
  once : ∀ m m', m < n → m' < n → Posts s ops m (bindingFromSubmission e.submission) →
    Posts s ops m' (bindingFromSubmission e.submission) → m = m'
  snapshot : e.cancelRequested = false → ∀ ref : Fin 4, ref.val < e.submission.job.objectCount →
    ∀ o, findObject (run s ops k).objects (e.submission.job.objects ref).objectId = some o →
    ∀ byte, byte < ((run s ops k).objects o).value.byteLength →
      e.snapshot ref byte = ((run s ops k).objects o).visible byte

/-- The history of a shadow. -/
structure ShadowHist (s : State) (ops : ℕ → Op) (n k : ℕ) (e : ShadowSlot) : Prop where
  origin : Origin s ops n k e.submission
  taken : ∃ m, m < n ∧ Did s ops m (.take true) (.submission (some e.submission))
  completed : ∃ m, m < n ∧ Did s ops m (.post (some e.completion)) (.bool true)
  binding : completionBinding e.completion = bindingFromSubmission e.submission
  valid : raveilCompletionRecordValidate e.submission.job e.completion = true
  once : ∀ m m', m < n → m' < n → Posts s ops m (bindingFromSubmission e.submission) →
    Posts s ops m' (bindingFromSubmission e.submission) → m = m'
  uncancelled : e.cancelRequested = false →
    ∀ m, m < n → ¬ Cancels s ops m (bindingFromSubmission e.submission)
  staged : ∀ ref byte, e.staged ref byte = true → ∃ m, m < n ∧
    Stages s ops m (bindingFromSubmission e.submission) (e.submission.job.objects ref) byte
      (e.bytes ref byte)
  approved : e.approved = true → e.cancelRequested = false ∧
    e.completion.status = RAVEIL_COMPLETION_EXECUTED ∧ allStaged e ∧
    ∃ m, m < n ∧ Did s ops m (.approve (some (bindingFromSubmission e.submission))) (.bool true)

/-- The slots of `t`, the state after `n` operations, have these histories. -/
structure History (s : State) (ops : ℕ → Op) (n : ℕ) (t : State) : Prop where
  inflight : ∀ i, (t.inflight i).active = true → ∃ k, InflightHist s ops n k (t.inflight i)
  shadow : ∀ i, (t.shadows i).active = true → ∃ k, ShadowHist s ops n k (t.shadows i)
  ring : ∀ c ∈ t.completions.contents 4,
    (∃ m, m < n ∧ Did s ops m (.post (some c)) (.bool true)) ∧
    ∀ i, (t.inflight i).active = true →
      completionBinding c = bindingFromSubmission (t.inflight i).submission →
      raveilCompletionRecordValidate (t.inflight i).submission.job c = true

section Lifting

theorem Origin.lift (h : Origin s ops n k x) : Origin s ops (n + 1) k x :=
  ⟨h.lt.trans (Nat.lt_succ_self n), h.did, h.eq, h.admitted⟩

/-- Forbidding one more operation. -/
theorem forall_lt_succ {p : ℕ → Prop} (h : ∀ m, m < n → p m) (hn : p n) : ∀ m, m < n + 1 → p m := by
  intro m hm
  obtain hlt | rfl : m < n ∨ m = n := by omega
  · exact h m hlt
  · exact hn

theorem exists_lt_succ {p : ℕ → Prop} (h : ∃ m, m < n ∧ p m) : ∃ m, m < n + 1 ∧ p m := by
  obtain ⟨m, hm, hp⟩ := h
  exact ⟨m, hm.trans (Nat.lt_succ_self n), hp⟩

theorem once_lift {p : ℕ → Prop} (h : ∀ m m', m < n → m' < n → p m → p m' → m = m') (hn : ¬ p n) :
    ∀ m m', m < n + 1 → m' < n + 1 → p m → p m' → m = m' := by
  intro m m' hm hm' hp hp'
  obtain hlt | rfl : m < n ∨ m = n := by omega
  · obtain hlt' | rfl : m' < n ∨ m' = n := by omega
    · exact h m m' hlt hlt' hp hp'
    · exact absurd hp' hn
  · exact absurd hp hn

/-- A slot that operation `n` neither cancels nor completes keeps its history. -/
theorem InflightHist.lift {e : InflightSlot} (h : InflightHist s ops n k e)
    (hc : ¬ Cancels s ops n (bindingFromSubmission e.submission))
    (hp : ¬ Posts s ops n (bindingFromSubmission e.submission)) : InflightHist s ops (n + 1) k e where
  origin := h.origin.lift
  taken := fun hd => exists_lt_succ (h.taken hd)
  uncancelled := fun hf => forall_lt_succ (h.uncancelled hf) hc
  unposted := fun hf => forall_lt_succ (h.unposted hf) hp
  once := once_lift h.once hp
  snapshot := h.snapshot

theorem ShadowHist.lift {e : ShadowSlot} (h : ShadowHist s ops n k e)
    (hc : ¬ Cancels s ops n (bindingFromSubmission e.submission))
    (hp : ¬ Posts s ops n (bindingFromSubmission e.submission)) : ShadowHist s ops (n + 1) k e where
  origin := h.origin.lift
  taken := exists_lt_succ h.taken
  completed := exists_lt_succ h.completed
  binding := h.binding
  valid := h.valid
  once := once_lift h.once hp
  uncancelled := fun hf => forall_lt_succ (h.uncancelled hf) hc
  staged := fun ref byte hst => exists_lt_succ (h.staged ref byte hst)
  approved := fun ha =>
    ⟨(h.approved ha).1, (h.approved ha).2.1, (h.approved ha).2.2.1, exists_lt_succ (h.approved ha).2.2.2⟩

end Lifting

section Sequence

/-- The bindings a call can act on have been handed out before. -/
theorem cancels_bound (hs : Inv s) (h : Cancels s ops n b) :
    b.executionSequence < sequenceBound (run s ops n) := by
  have hi := inv_run s hs ops n
  have hstep := Did.step hs h
  generalize hr : Reply.bool true = r at hstep
  generalize hc : Call.cancel (some b) = c at hstep
  generalize run s ops (n + 1) = t at hstep
  cases hstep with
  | refused c hr' =>
    subst hr
    cases hr'
  | cancelQueued b' slot h hd =>
    obtain rfl : b = b' := by simpa using hc
    rw [h.binding]
    exact hi.fresh slot _ (entry_inflight h.active)
  | cancelRunning b' slot h hd =>
    obtain rfl : b = b' := by simpa using hc
    rw [h.binding]
    exact hi.fresh slot _ (entry_inflight h.active)
  | shadow call b' slot shadow h ha hsub hcall =>
    subst hc
    cases hcall
    rw [h.binding]
    exact hi.fresh slot _ (entry_shadow hi h.active)
  | takeCompletion call k c slot hcall => simp at hr
  | register | submit | take | post | rollback | commit => simp at hc

theorem posts_bound (hs : Inv s) (h : Posts s ops n b) :
    b.executionSequence < sequenceBound (run s ops n) := by
  obtain ⟨completion, rfl, hd⟩ := h
  have hi := inv_run s hs ops n
  have hstep := Did.step hs hd
  generalize hr : Reply.bool true = r at hstep
  generalize hc : Call.post (some completion) = c at hstep
  generalize run s ops (n + 1) = t at hstep
  cases hstep with
  | refused c hr' =>
    subst hr
    cases hr'
  | post c slot h =>
    obtain rfl : completion = c := by simpa using hc
    rw [h.binding]
    exact hi.fresh slot _ (entry_inflight h.active)
  | shadow call b' slot shadow h ha hsub hcall =>
    subst hc
    cases hcall
  | takeCompletion call k c slot hcall => simp at hr
  | register | submit | take | cancelQueued | cancelRunning | rollback | commit => simp at hc

/-- What is handed out by operation `k` is not known before. -/
theorem lt_of_bound (hs : Inv s) {c : Call} (hk : Did s ops k c (.binding (some b)))
    (hm : b.executionSequence < sequenceBound (run s ops m)) : k < m := by
  have hb := ((step_sequenceBound (inv_run s hs ops k) (hk.step hs)).2 b rfl).1
  by_contra hle
  have := sequenceBound_mono hs ops (show m ≤ k by omega)
  omega

theorem origin_unique (hs : Inv s) {k' n' : ℕ} (hx : Origin s ops n k x) (hy : Origin s ops n' k' y)
    (hb : bindingFromSubmission x = bindingFromSubmission y) : k = k' ∧ x = y := by
  have hseq : (bindingFromSubmission x).executionSequence =
      (bindingFromSubmission y).executionSequence := by rw [hb]
  obtain hlt | rfl | hlt := lt_trichotomy k k'
  · have := submit_order hs hlt hx.did hy.did
    omega
  · refine ⟨rfl, ?_⟩
    have hjob : x.job = y.job := by simpa using (hx.did.unique hy.did).1
    rw [hx.eq, hy.eq, hjob]
  · have := submit_order hs hlt hy.did hx.did
    omega

end Sequence

section Preservation

variable {t : State}

/-- Operation `n` neither cancels nor completes anything. -/
def Quiet (s : State) (ops : ℕ → Op) (n : ℕ) : Prop :=
  ∀ b, ¬ Cancels s ops n b ∧ ¬ Posts s ops n b

theorem Did.quiet {c : Call} {r : Reply} (h : Did s ops n c r)
    (hc : ∀ b, ¬ (c = .cancel (some b) ∧ r = .bool true))
    (hp : ∀ p, ¬ (c = .post (some p) ∧ r = .bool true)) : Quiet s ops n := by
  intro b
  constructor
  · intro hcan
    exact hc b (h.unique hcan)
  · rintro ⟨p, -, hpost⟩
    exact hp p (h.unique hpost)

theorem quiet_of_not_did (h : ∀ c r, ¬ Did s ops n c r) : Quiet s ops n :=
  fun _ => ⟨h _ _, fun ⟨_, _, hd⟩ => h _ _ hd⟩

/-- A step under which every slot keeps its history or gets a new one. -/
theorem History.update (h : History s ops n (run s ops n))
    (hin : ∀ i, (t.inflight i).active = true →
      (t.inflight i = (run s ops n).inflight i ∧
        ¬ Cancels s ops n (bindingFromSubmission (t.inflight i).submission) ∧
        ¬ Posts s ops n (bindingFromSubmission (t.inflight i).submission)) ∨
      ∃ k, InflightHist s ops (n + 1) k (t.inflight i))
    (hsh : ∀ i, (t.shadows i).active = true →
      (t.shadows i = (run s ops n).shadows i ∧
        ¬ Cancels s ops n (bindingFromSubmission (t.shadows i).submission) ∧
        ¬ Posts s ops n (bindingFromSubmission (t.shadows i).submission)) ∨
      ∃ k, ShadowHist s ops (n + 1) k (t.shadows i))
    (hring : ∀ c ∈ t.completions.contents 4, c ∈ (run s ops n).completions.contents 4 ∨
      (Did s ops n (.post (some c)) (.bool true) ∧ ∀ i, (t.inflight i).active = true →
        completionBinding c = bindingFromSubmission (t.inflight i).submission →
        raveilCompletionRecordValidate (t.inflight i).submission.job c = true))
    (hsub : ∀ c ∈ (run s ops n).completions.contents 4, ∀ i, (t.inflight i).active = true →
      completionBinding c = bindingFromSubmission (t.inflight i).submission →
      ((run s ops n).inflight i).active = true ∧
        (t.inflight i).submission = ((run s ops n).inflight i).submission) :
    History s ops (n + 1) t where
  inflight := by
    intro i ha
    obtain ⟨he, hc, hp⟩ | hnew := hin i ha
    · rw [he] at ha hc hp ⊢
      obtain ⟨k, hk⟩ := h.inflight i ha
      exact ⟨k, hk.lift hc hp⟩
    · exact hnew
  shadow := by
    intro i ha
    obtain ⟨he, hc, hp⟩ | hnew := hsh i ha
    · rw [he] at ha hc hp ⊢
      obtain ⟨k, hk⟩ := h.shadow i ha
      exact ⟨k, hk.lift hc hp⟩
    · exact hnew
  ring := by
    intro c hc
    obtain hold | ⟨hd, hvalid⟩ := hring c hc
    · obtain ⟨hpost, hvalid⟩ := h.ring c hold
      refine ⟨exists_lt_succ hpost, fun i ha hb => ?_⟩
      obtain ⟨ha', he⟩ := hsub c hold i ha hb
      rw [he] at hb ⊢
      exact hvalid i ha' hb
    · exact ⟨⟨n, Nat.lt_succ_self n, hd⟩, hvalid⟩

/-- A quiet step that leaves the slots and the completion ring alone. -/
theorem History.same (h : History s ops n (run s ops n)) (hq : Quiet s ops n)
    (hin : t.inflight = (run s ops n).inflight) (hsh : t.shadows = (run s ops n).shadows)
    (hc : t.completions = (run s ops n).completions) : History s ops (n + 1) t := by
  refine h.update (fun i _ => Or.inl ⟨by rw [hin], hq _⟩) (fun i _ => Or.inl ⟨by rw [hsh], hq _⟩) ?_ ?_
  · rw [hc]
    exact fun c hc => Or.inl hc
  · intro c _ i ha _
    rw [hin] at ha ⊢
    exact ⟨ha, rfl⟩

/-- A quiet step that replaces one shadow. -/
theorem History.replaceShadow (h : History s ops n (run s ops n)) (hq : Quiet s ops n)
    {slot : Fin 4} {e : ShadowSlot} (he : e.active = true → ∃ k, ShadowHist s ops (n + 1) k e)
    (hin : t.inflight = (run s ops n).inflight)
    (hsh : t.shadows = Function.update (run s ops n).shadows slot e)
    (hc : t.completions = (run s ops n).completions) : History s ops (n + 1) t := by
  refine h.update (fun i _ => Or.inl ⟨by rw [hin], hq _⟩) (fun i ha => ?_) ?_ ?_
  · rw [hsh] at ha ⊢
    by_cases hi : i = slot
    · subst hi
      rw [Function.update_self] at ha ⊢
      exact Or.inr (he ha)
    · exact Or.inl ⟨Function.update_of_ne hi _ _, hq _⟩
  · rw [hc]
    exact fun c hc => Or.inl hc
  · intro c _ i ha _
    rw [hin] at ha ⊢
    exact ⟨ha, rfl⟩

/-- A step that replaces one slot in flight by one with the same submission. -/
theorem History.replaceInflight (h : History s ops n (run s ops n)) {slot : Fin 4} {e : InflightSlot}
    (hact : ((run s ops n).inflight slot).active = true)
    (hsub : e.active = true → e.submission = ((run s ops n).inflight slot).submission)
    (hothers : ∀ b, b ≠ bindingFromSubmission ((run s ops n).inflight slot).submission →
      ¬ Cancels s ops n b ∧ ¬ Posts s ops n b)
    (hs : Inv (run s ops n)) (he : e.active = true → ∃ k, InflightHist s ops (n + 1) k e)
    (hin : t.inflight = Function.update (run s ops n).inflight slot e)
    (hsh : t.shadows = (run s ops n).shadows)
    (hc : ∀ c ∈ t.completions.contents 4, c ∈ (run s ops n).completions.contents 4 ∨
      (Did s ops n (.post (some c)) (.bool true) ∧ ∀ i, (t.inflight i).active = true →
        completionBinding c = bindingFromSubmission (t.inflight i).submission →
        raveilCompletionRecordValidate (t.inflight i).submission.job c = true)) :
    History s ops (n + 1) t := by
  refine h.update (fun i ha => ?_) (fun i ha => ?_) hc ?_
  · rw [hin] at ha ⊢
    by_cases hi : i = slot
    · subst hi
      rw [Function.update_self] at ha ⊢
      exact Or.inr (he ha)
    · rw [Function.update_of_ne hi] at ha ⊢
      exact Or.inl ⟨rfl, hothers _ fun hb => hi (inflight_unique hs ha hact hb)⟩
  · rw [hsh] at ha ⊢
    exact Or.inl ⟨rfl, hothers _ fun hb => inflight_ne_shadow hs hact ha hb.symm⟩
  · intro c _ i ha _
    rw [hin] at ha ⊢
    by_cases hi : i = slot
    · subst hi
      rw [Function.update_self] at ha ⊢
      exact ⟨hact, hsub ha⟩
    · rw [Function.update_of_ne hi] at ha ⊢
      exact ⟨ha, rfl⟩

theorem history_submit (h0 : Inv s) (h : History s ops n (run s ops n)) {job : JobDescriptor}
    {slot : Fin 4}
    (hd : Did s ops n (.submit (some job) true)
      (.binding (some (bindingFromSubmission (newSubmission (run s ops n) job)))))
    (hadm : admitted (run s ops n) job = true)
    (hin : t.inflight = Function.update (run s ops n).inflight slot (submitted (run s ops n) job slot))
    (hsh : t.shadows = (run s ops n).shadows) (hc : t.completions = (run s ops n).completions) :
    History s ops (n + 1) t := by
  have hq : Quiet s ops n := hd.quiet (by simp) (by simp)
  -- The new sequence number is above everything that could be cancelled or posted so far.
  have hcancel : ∀ m, m < n + 1 →
      ¬ Cancels s ops m (bindingFromSubmission (newSubmission (run s ops n) job)) := by
    intro m hm hcan
    have := lt_of_bound h0 hd (cancels_bound h0 hcan)
    omega
  have hpost : ∀ m, m < n + 1 →
      ¬ Posts s ops m (bindingFromSubmission (newSubmission (run s ops n) job)) := by
    intro m hm hpo
    have := lt_of_bound h0 hd (posts_bound h0 hpo)
    omega
  have hnew : InflightHist s ops (n + 1) n (submitted (run s ops n) job slot) := by
    refine ⟨⟨Nat.lt_succ_self n, hd, rfl, hadm⟩, by simp [submitted], fun _ => hcancel, fun _ => hpost,
      fun m m' hm _ hp _ => absurd hp (hpost m hm), fun _ ref href o ho byte hb => ?_⟩
    have ho' : findObject (run s ops n).objects (job.objects ref).objectId = some o := ho
    have href' : ref.val < job.objectCount := href
    simp [submitted, takeSnapshot, ho', href', hb]
  refine h.update (fun i ha => ?_) (fun i ha => Or.inl ⟨by rw [hsh], hq _⟩) ?_ ?_
  · rw [hin] at ha ⊢
    by_cases hi : i = slot
    · subst hi
      rw [Function.update_self]
      exact Or.inr ⟨n, hnew⟩
    · exact Or.inl ⟨Function.update_of_ne hi _ _, hq _⟩
  · rw [hc]
    exact fun c hc => Or.inl hc
  · intro c hmem i ha hb
    rw [hin] at ha hb ⊢
    by_cases hi : i = slot
    · subst hi
      rw [Function.update_self] at hb
      obtain ⟨⟨m, hm, hdid⟩, -⟩ := h.ring c hmem
      exact absurd ⟨c, hb, hdid⟩ (hpost m (by omega))
    · rw [Function.update_of_ne hi] at ha ⊢
      exact ⟨ha, rfl⟩

theorem history_take (h0 : Inv s) (h : History s ops n (run s ops n)) {slot : Fin 4}
    (hd : Did s ops n (.take true) (.submission (some ((run s ops n).inflight slot).submission)))
    (ha : ((run s ops n).inflight slot).active = true)
    (hin : t.inflight = Function.update (run s ops n).inflight slot
      { (run s ops n).inflight slot with dispatched := true })
    (hsh : t.shadows = (run s ops n).shadows) (hc : t.completions = (run s ops n).completions) :
    History s ops (n + 1) t := by
  have hq : Quiet s ops n := hd.quiet (by simp) (by simp)
  refine h.replaceInflight (e := { (run s ops n).inflight slot with dispatched := true }) ha
    (fun _ => rfl) (fun b _ => hq b) (inv_run s h0 ops n) (fun _ => ?_) hin hsh ?_
  · obtain ⟨k, hk⟩ := h.inflight slot ha
    have hl := hk.lift (hq _).1 (hq _).2
    exact ⟨k, hl.origin, fun _ => ⟨n, Nat.lt_succ_self n, hd⟩, hl.uncancelled, hl.unposted, hl.once,
      hl.snapshot⟩
  · rw [hc]
    exact fun c hc => Or.inl hc

theorem history_post (h0 : Inv s) (h : History s ops n (run s ops n)) {slot : Fin 4}
    {completion : CompletionRecord} (hd : Did s ops n (.post (some completion)) (.bool true))
    (hf : InFlight (run s ops n) (completionBinding completion) slot)
    (hp : ((run s ops n).inflight slot).completionPosted = false)
    (hv : raveilCompletionRecordValidate ((run s ops n).inflight slot).submission.job completion = true)
    (hin : t.inflight = Function.update (run s ops n).inflight slot
      { (run s ops n).inflight slot with completionPosted := true })
    (hsh : t.shadows = (run s ops n).shadows)
    (hc : t.completions.contents 4 = (run s ops n).completions.contents 4 ++ [completion]) :
    History s ops (n + 1) t := by
  have hi := inv_run s h0 ops n
  have hnc : ∀ b, ¬ Cancels s ops n b := fun b hcan => by simpa using (hd.unique hcan).1
  refine h.replaceInflight (e := { (run s ops n).inflight slot with completionPosted := true })
    hf.active (fun _ => rfl) (fun b hb => ⟨hnc b, ?_⟩) hi (fun _ => ?_) hin hsh ?_
  · rintro ⟨c, rfl, hdid⟩
    obtain rfl : completion = c := by simpa using (hd.unique hdid).1
    exact hb hf.binding
  · obtain ⟨k, hk⟩ := h.inflight slot hf.active
    have hno := hk.unposted hp
    refine ⟨k, hk.origin.lift, fun hdis => exists_lt_succ (hk.taken hdis),
      fun hcr => forall_lt_succ (hk.uncancelled hcr) (hnc _), by simp, ?_, hk.snapshot⟩
    intro m m' hm hm' hpm hpm'
    have h1 : m = n := by
      by_contra hne
      exact hno m (by omega) hpm
    have h2 : m' = n := by
      by_contra hne
      exact hno m' (by omega) hpm'
    rw [h1, h2]
  · intro c hmem
    rw [hc, List.mem_append, List.mem_singleton] at hmem
    obtain hmem | rfl := hmem
    · exact Or.inl hmem
    · refine Or.inr ⟨hd, fun i ha hb => ?_⟩
      rw [hin] at ha hb ⊢
      by_cases he : i = slot
      · subst he
        rw [Function.update_self]
        exact hv
      · rw [Function.update_of_ne he] at ha hb ⊢
        exact absurd (inflight_unique hi ha hf.active (hb.symm.trans hf.binding)) he

theorem history_takeCompletion (h0 : Inv s) (h : History s ops n (run s ops n)) {slot : Fin 4}
    {completion : CompletionRecord} {c : Call} (hd : Did s ops n c (.completion (some completion)))
    (hmem : completion ∈ (run s ops n).completions.contents 4)
    (hf : InFlight (run s ops n) (completionBinding completion) slot)
    (hp : ((run s ops n).inflight slot).completionPosted = true)
    (hin : t.inflight = Function.update (run s ops n).inflight slot default)
    (hsh : t.shadows = Function.update (run s ops n).shadows slot (moved (run s ops n) slot completion))
    (hc : (t.completions.contents 4).Sublist ((run s ops n).completions.contents 4)) :
    History s ops (n + 1) t := by
  have hi := inv_run s h0 ops n
  have hq : Quiet s ops n := hd.quiet (by simp) (by simp)
  obtain ⟨k, hk⟩ := h.inflight slot hf.active
  have hl := hk.lift (hq _).1 (hq _).2
  obtain ⟨hposted, hvalid⟩ := h.ring completion hmem
  have hnew : ShadowHist s ops (n + 1) k (moved (run s ops n) slot completion) :=
    ⟨hl.origin, hl.taken ((hi.flags slot hf.active).1 hp), exists_lt_succ hposted, hf.binding,
      hvalid slot hf.active hf.binding, hl.once, hl.uncancelled, fun _ _ hst => by simp [moved] at hst,
      fun ha => by simp [moved] at ha⟩
  refine h.update (fun i ha => ?_) (fun i ha => ?_) (fun c hc' => Or.inl (hc.subset hc')) ?_
  · rw [hin] at ha ⊢
    by_cases he : i = slot
    · subst he
      simp at ha
    · exact Or.inl ⟨Function.update_of_ne he _ _, hq _⟩
  · rw [hsh]
    by_cases he : i = slot
    · subst he
      rw [Function.update_self]
      exact Or.inr ⟨k, hnew⟩
    · exact Or.inl ⟨Function.update_of_ne he _ _, hq _⟩
  · intro c' _ i ha _
    rw [hin] at ha ⊢
    by_cases he : i = slot
    · subst he
      simp at ha
    · rw [Function.update_of_ne he] at ha ⊢
      exact ⟨ha, rfl⟩

theorem history_cancelInflight (h0 : Inv s) (h : History s ops n (run s ops n)) {slot : Fin 4}
    {e : InflightSlot} (hd : Did s ops n (.cancel (some b)) (.bool true))
    (hf : InFlight (run s ops n) b slot)
    (he : e.active = true → e = { (run s ops n).inflight slot with
      cancelRequested := true, snapshot := default })
    (hin : t.inflight = Function.update (run s ops n).inflight slot e)
    (hsh : t.shadows = (run s ops n).shadows) (hc : t.completions = (run s ops n).completions) :
    History s ops (n + 1) t := by
  have hnp : ∀ b, ¬ Posts s ops n b := by
    rintro b' ⟨c, -, hdid⟩
    simpa using (hd.unique hdid).1
  refine h.replaceInflight hf.active (fun ha => by rw [he ha]) (fun b' hb => ⟨?_, hnp b'⟩)
    (inv_run s h0 ops n) (fun ha => ?_) hin hsh ?_
  · intro hcan
    obtain rfl : b = b' := by simpa using (hd.unique hcan).1
    exact hb hf.binding
  · obtain ⟨k, hk⟩ := h.inflight slot hf.active
    rw [he ha]
    exact ⟨k, hk.origin.lift, fun hdis => exists_lt_succ (hk.taken hdis), by simp,
      fun hpo => forall_lt_succ (hk.unposted hpo) (hnp _), once_lift hk.once (hnp _), by simp⟩
  · rw [hc]
    exact fun c hc => Or.inl hc

/-- A shadow call other than cancel extends the history of its shadow. -/
theorem shadowCall_hist {old e : ShadowSlot} {c : Call} (hd : Did s ops n c (.bool true))
    (hb : b = bindingFromSubmission old.submission) (hq : Quiet s ops n)
    (hk : ShadowHist s ops n k old) (h : ShadowCall old b c e) : ShadowHist s ops (n + 1) k e := by
  have hl := hk.lift (hq _).1 (hq _).2
  cases h with
  | cancel => exact absurd hd (hq b).1
  | approve hc hx hst =>
    subst hb
    exact ⟨hl.origin, hl.taken, hl.completed, hl.binding, hl.valid, hl.once, hl.uncancelled, hl.staged,
      fun _ => ⟨hc, hx, hst, n, Nat.lt_succ_self n, hd⟩⟩
  | stageZero ha bytes staged hstep =>
    refine ⟨hl.origin, hl.taken, hl.completed, hl.binding, hl.valid, hl.once, hl.uncancelled,
      fun ref byte hst => ?_, fun hap => by simp [ha] at hap⟩
    obtain ⟨hbytes, hstaged⟩ | ⟨hbytes, -⟩ := hstep ref byte
    · simp only [hbytes]
      exact hl.staged ref byte (hstaged.symm.trans hst)
    · subst hb
      simp only [hbytes]
      exact ⟨n, Nat.lt_succ_self n, .zero hd⟩
  | write ha hc ref objectId offset length input href hid bytes staged hstep =>
    refine ⟨hl.origin, hl.taken, hl.completed, hl.binding, hl.valid, hl.once, hl.uncancelled,
      fun r byte hst => ?_, fun hap => by simp [ha] at hap⟩
    obtain ⟨hbytes, hstaged⟩ | ⟨rfl, hle, hlt, hbytes, -⟩ := hstep r byte
    · simp only [hbytes]
      exact hl.staged r byte (hstaged.symm.trans hst)
    · subst hb hid
      simp only [hbytes]
      exact ⟨n, Nat.lt_succ_self n, .write offset length input hle hlt hd⟩

theorem history_cancelShadow (h0 : Inv s) (h : History s ops n (run s ops n)) {slot : Fin 4}
    {e : ShadowSlot} (hd : Did s ops n (.cancel (some b)) (.bool true))
    (hf : InShadow (run s ops n) b slot)
    (he : e = { (run s ops n).shadows slot with
      cancelRequested := true, approved := false, bytes := default, staged := default })
    (hin : t.inflight = (run s ops n).inflight)
    (hsh : t.shadows = Function.update (run s ops n).shadows slot e)
    (hc : t.completions = (run s ops n).completions) : History s ops (n + 1) t := by
  have hi := inv_run s h0 ops n
  have hnp : ∀ b, ¬ Posts s ops n b := by
    rintro b' ⟨c, -, hdid⟩
    simpa using (hd.unique hdid).1
  have hnc : ∀ b', b' ≠ bindingFromSubmission ((run s ops n).shadows slot).submission →
      ¬ Cancels s ops n b' := by
    intro b' hb hcan
    obtain rfl : b = b' := by simpa using (hd.unique hcan).1
    exact hb hf.binding
  refine h.update (fun i ha => ?_) (fun i ha => ?_) ?_ ?_
  · rw [hin] at ha ⊢
    exact Or.inl ⟨rfl, hnc _ (inflight_ne_shadow hi ha hf.active), hnp _⟩
  · rw [hsh] at ha ⊢
    by_cases hs : i = slot
    · subst hs
      rw [Function.update_self, he]
      obtain ⟨k, hk⟩ := h.shadow i hf.active
      exact Or.inr ⟨k, hk.origin.lift, exists_lt_succ hk.taken, exists_lt_succ hk.completed, hk.binding,
        hk.valid, once_lift hk.once (hnp _), by simp, by simp, by simp⟩
    · rw [Function.update_of_ne hs] at ha ⊢
      exact Or.inl ⟨rfl, hnc _ fun hb => hs (shadow_unique hi ha hf.active hb), hnp _⟩
  · rw [hc]
    exact fun c hc => Or.inl hc
  · intro c _ i ha _
    rw [hin] at ha ⊢
    exact ⟨ha, rfl⟩

theorem history_step (h0 : Inv s) (h : History s ops n (run s ops n)) {c : Call} {r : Reply}
    (hd : Did s ops n c r) (hstep : Step (run s ops n) c r t) : History s ops (n + 1) t := by
  have hi := inv_run s h0 ops n
  cases hstep with
  | refused c hr =>
    refine h.same (hd.quiet ?_ ?_) rfl rfl rfl
    · rintro b ⟨-, rfl⟩
      cases hr
    · rintro p ⟨-, rfl⟩
      cases hr
  | register => exact h.same (hd.quiet (by simp) (by simp)) rfl rfl rfl
  | submit job slot hadm => exact history_submit h0 h hd hadm rfl rfl rfl
  | take slot q hq => exact history_take h0 h hd ((hq.mem slot).mp List.mem_cons_self).1 rfl rfl rfl
  | post completion slot hf hdis hp hv hused =>
    exact history_post h0 h hd hf hp hv rfl rfl (contents_push hi.completionsOk hused)
  | takeCompletion call k completion slot hcall hk hf hp =>
    have hused : k < (run s ops n).completions.used := by
      rw [← length_contents 4]
      exact (List.getElem?_eq_some_iff.mp hk).1
    refine history_takeCompletion h0 h hd (List.mem_of_getElem? hk) hf hp rfl rfl ?_
    simp only [contents_removeAt hi.completionsOk hused]
    exact List.eraseIdx_sublist _ _
  | cancelQueued b slot hf hdis =>
    exact history_cancelInflight h0 h hd hf (fun ha => by simp at ha) rfl rfl rfl
  | cancelRunning b slot hf hdis hc => exact history_cancelInflight h0 h hd hf (fun _ => rfl) rfl rfl rfl
  | shadow _ b slot shadow hf ha hsub hcall =>
    by_cases hcan : c = .cancel (some b)
    · subst hcan
      cases hcall
      exact history_cancelShadow h0 h hd hf rfl rfl rfl rfl
    · have hq : Quiet s ops n := by
        refine hd.quiet (fun b' hb => ?_) (fun p hp => ?_)
        · obtain ⟨rfl, -⟩ := hb
          cases hcall
          exact hcan rfl
        · obtain ⟨rfl, -⟩ := hp
          cases hcall
      obtain ⟨k, hk⟩ := h.shadow slot hf.active
      exact h.replaceShadow hq (fun _ => ⟨k, shadowCall_hist hd hf.binding hq hk hcall⟩) rfl rfl rfl
  | rollback b commit slot hf =>
    exact h.replaceShadow (hd.quiet (by simp) (by simp)) (fun ha => by simp at ha) rfl rfl rfl
  | commit b slot hf =>
    exact h.replaceShadow (hd.quiet (by simp) (by simp)) (fun ha => by simp at ha) rfl rfl rfl

end Preservation

theorem history_run (s₀ : State) (epoch : ℕ) (ops : ℕ → Op) (n : ℕ) :
    History (jobAuthorityInit s₀ epoch) ops n (run (jobAuthorityInit s₀ epoch) ops n) := by
  have h0 := inv_init s₀ epoch
  induction n with
  | zero =>
    refine ⟨fun i ha => ?_, fun i ha => ?_, fun c hc => ?_⟩
    · cases ha
    · cases ha
    · cases hc
  | succ n ih =>
    obtain ⟨c, r, hd, hstep⟩ | ⟨hnot, hsame⟩ := run_step h0 ops n
    · exact history_step h0 ih hd hstep
    · exact ih.same (quiet_of_not_did hnot) hsame.inflight hsame.shadows hsame.completions

end Raveil.Authority
