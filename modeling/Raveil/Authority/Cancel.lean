import Raveil.Authority.Publication

/-! Cancellation, snapshot isolation and the single finalisation of a binding. -/
namespace Raveil.Authority
open Raveil.Lib RingBuffer

variable {s t : State} {ops : ℕ → Op} {n m k : ℕ} {b : Binding}

section Cancelled

/-- After a cancel every slot in flight that still holds the binding carries the flag. -/
theorem inflight_cancelled (hh : History s ops n (run s ops n)) (hm : m < n) (hc : Cancels s ops m b)
    {slot : Fin 4} (h : InFlight (run s ops n) b slot) :
    ((run s ops n).inflight slot).cancelRequested = true := by
  obtain ⟨k, hk⟩ := hh.inflight slot h.active
  by_contra hf
  rw [h.binding] at hc
  exact hk.uncancelled (by simpa using hf) m hm hc

theorem shadow_cancelled (hh : History s ops n (run s ops n)) (hm : m < n) (hc : Cancels s ops m b)
    {slot : Fin 4} (h : InShadow (run s ops n) b slot) :
    ((run s ops n).shadows slot).cancelRequested = true := by
  obtain ⟨k, hk⟩ := hh.shadow slot h.active
  by_contra hf
  rw [h.binding] at hc
  exact hk.uncancelled (by simpa using hf) m hm hc

/-- A shadow call that needs an uncancelled shadow fails after a cancel. -/
theorem not_shadowCall (hh : History s ops n (run s ops n)) (hm : m < n) (hc : Cancels s ops m b)
    {slot : Fin 4} {c : Call} {e : ShadowSlot} (h : InShadow (run s ops n) b slot)
    (hcall : ShadowCall ((run s ops n).shadows slot) b c e) : c = .stageZero (some b) := by
  have hflag := shadow_cancelled hh hm hc h
  cases hcall with
  | cancel hf => simp [hf] at hflag
  | approve hf => simp [hf] at hflag
  | stageZero => rfl
  | write ha hf => simp [hf] at hflag

theorem not_committed (h0 : Inv s) (hh : History s ops n (run s ops n)) (hm : m < n)
    (hc : Cancels s ops m b) (commit : Bool) :
    ¬ Did s ops n (.finalize (some b) commit) (.finalize .committed) := by
  intro hd
  obtain ⟨slot, hslot, -, hb⟩ := commitAt_of_did h0 hh hd
  have hflag := shadow_cancelled hh hm hc ⟨hslot.active, Option.some.inj hb⟩
  simp [hslot.cancel] at hflag

theorem not_read (hh : History s ops n (run s ops n)) (hm : m < n) {y : Submission}
    (hc : Cancels s ops m (bindingFromSubmission y)) (objectId offset length : ℕ) :
    jobSubmissionRead (run s ops n) y objectId offset length = none := by
  cases hread : jobSubmissionRead (run s ops n) y objectId offset length with
  | none => rfl
  | some bytes =>
    obtain ⟨slot, ref, hact, hflag, hb, -⟩ := jobSubmissionRead_eq_some hread
    have := inflight_cancelled hh hm hc ⟨hact, hb.symm⟩
    simp [hflag] at this

/-- The calls on a shadow, by binding, that a cancel shuts out. -/
inductive Guarded (b : Binding) : Call → Prop
  | cancel : Guarded b (.cancel (some b))
  | approve : Guarded b (.approve (some b))
  | write (objectId offset : ℕ) (source : Option (ℕ → UInt8)) (length : ℕ) :
      Guarded b (.write (some b) objectId offset source length)

theorem not_guarded (h0 : Inv s) (hh : History s ops n (run s ops n)) (hm : m < n)
    (hc : Cancels s ops m b) {c : Call} (hg : Guarded b c) : ¬ Did s ops n c (.bool true) := by
  intro hd
  have hstep := hd.step h0
  generalize hr : Reply.bool true = r at hstep
  generalize run s ops (n + 1) = t at hstep
  cases hstep with
  | refused c hr' =>
    subst hr
    cases hr'
  | cancelQueued b' slot h hdis =>
    cases hg
    have hflag := inflight_cancelled hh hm hc h
    have := ((inv_run s h0 ops n).flags slot h.active).2 hflag
    simp [hdis] at this
  | cancelRunning b' slot h hdis hf =>
    cases hg
    have hflag := inflight_cancelled hh hm hc h
    simp [hf] at hflag
  | shadow c b' slot shadow h ha hsub hcall =>
    have hbb : b = b' := by
      cases hg <;> cases hcall <;> rfl
    subst hbb
    have := not_shadowCall hh hm hc h hcall
    subst this
    cases hg
  | takeCompletion call k c slot hcall => simp at hr
  | register | submit | take | post | rollback | commit => cases hg

theorem not_taken (h0 : Inv s) (hh : History s ops n (run s ops n)) (hm : m < n) {x : Submission}
    (hc : Cancels s ops m (bindingFromSubmission x)) :
    ¬ Did s ops n (.take true) (.submission (some x)) := by
  intro hd
  have hi := inv_run s h0 ops n
  have hstep := hd.step h0
  generalize hr : Reply.submission (some x) = r at hstep
  generalize run s ops (n + 1) = t at hstep
  generalize hcall : Call.take true = c at hstep
  cases hstep with
  | refused c hr' =>
    subst hr
    cases hr'
  | take slot q hq =>
    obtain rfl : x = ((run s ops n).inflight slot).submission := by simpa using hr
    obtain ⟨hact, hdis⟩ := (hq.mem slot).mp List.mem_cons_self
    -- A flagged slot has been dispatched, so it is not waiting any more.
    have hflag := inflight_cancelled hh hm hc ⟨hact, rfl⟩
    have := (hi.flags slot hact).2 hflag
    simp [hdis] at this
  | takeCompletion call k c slot hcall' => simp at hr
  | register | submit | post | cancelQueued | cancelRunning | shadow | rollback | commit => simp at hr

end Cancelled

section Snapshots

/-- A read of a submission returns what the object held when the job was submitted. -/
theorem read_origin (hh : History s ops n (run s ops n)) {y : Submission}
    {objectId offset length : ℕ} {bytes : List UInt8}
    (hread : jobSubmissionRead (run s ops n) y objectId offset length = some bytes) :
    ∃ k x, Origin s ops n k x ∧ bindingFromSubmission x = bindingFromSubmission y ∧
      jobObjectRead (run s ops k) objectId offset length = some bytes := by
  obtain ⟨slot, ref, hact, hflag, hb, hr, href, rfl⟩ := jobSubmissionRead_eq_some hread
  obtain ⟨k, hk⟩ := hh.inflight slot hact
  obtain ⟨o, ho, -, -, hlen⟩ := admitted_ref hk.origin.admitted hr
  simp only [readRef, decide_eq_true_iff] at href
  obtain ⟨-, hid, hle, hle', hlength⟩ := href
  refine ⟨k, _, hk.origin, hb, ?_⟩
  have hfind := ho
  rw [hid] at hfind
  simp only [jobObjectRead, hfind]
  rw [if_neg (by omega)]
  refine congrArg some (List.map_congr_left fun byte hbyte => ?_)
  have hlt := List.mem_range.mp hbyte
  exact (hk.snapshot hflag ref hr o ho (offset + byte) (by omega)).symm

end Snapshots

section Finalised

/-- The binding is in no slot and will not be handed out again. -/
structure Gone (s : State) (b : Binding) : Prop where
  absent : ∀ i x, entry s i = some x → bindingFromSubmission x ≠ b
  known : b.executionSequence < sequenceBound s

/-- A step keeps the entries it does not remove, and adds only new sequence numbers. -/
theorem step_entry {c : Call} {r : Reply} (hs : Inv s) (h : Step s c r t) {i : Fin 4} {x : Submission}
    (hx : entry t i = some x) : entry s i = some x ∨ sequenceBound s ≤ x.executionSequence := by
  have hkeep : ∀ slot e, t.inflight = Function.update s.inflight slot e → t.shadows = s.shadows →
      (s.inflight slot).active = true → e.active = true →
      e.submission = (s.inflight slot).submission → entry s i = some x := by
    intro slot e hin hsh ha he hsub
    rwa [entry_keep ha he hsub hin hsh] at hx
  cases h with
  | refused | register => exact Or.inl hx
  | submit job slot hadm hused hseq hi hsh =>
    by_cases he : i = slot
    · subst he
      right
      obtain rfl : newSubmission s job = x := by simpa [entry, submitted] using hx
      simp [sequenceBound, hseq, newSubmission]
    · left
      simpa [entry, Function.update_of_ne he] using hx
  | take slot q hq =>
    have ha := ((hq.mem slot).mp List.mem_cons_self).1
    exact Or.inl (hkeep slot _ rfl rfl ha ha rfl)
  | post c slot h => exact Or.inl (hkeep slot _ rfl rfl h.active h.active rfl)
  | cancelRunning b slot h => exact Or.inl (hkeep slot _ rfl rfl h.active h.active rfl)
  | takeCompletion call k c slot hcall hk h =>
    left
    by_cases he : i = slot
    · subst he
      rw [entry_inflight h.active]
      simpa [entry, moved] using hx
    · simpa [entry, Function.update_of_ne he] using hx
  | cancelQueued b slot h =>
    left
    by_cases he : i = slot
    · subst he
      have hsh := hs.exclusive i h.active
      simp [entry, hsh] at hx
    · simpa [entry, Function.update_of_ne he] using hx
  | shadow call b slot shadow h ha hsub => exact Or.inl (entry_of_shadow hs h.active (fun _ => hsub) hx rfl rfl)
  | rollback b commit slot h => exact Or.inl (entry_of_shadow hs h.active (fun ha => by simp at ha) hx rfl rfl)
  | commit b slot h => exact Or.inl (entry_of_shadow hs h.active (fun ha => by simp at ha) hx rfl rfl)

theorem gone_step {c : Call} {r : Reply} (hs : Inv s) (hg : Gone s b) (h : Step s c r t) : Gone t b where
  absent := by
    rintro i x hx rfl
    obtain hx | hx := step_entry hs h hx
    · exact hg.absent i x hx rfl
    · exact absurd hg.known (not_lt.mpr hx)
  known := hg.known.trans_le (step_sequenceBound hs h).1

theorem gone_run (h0 : Inv s) (hmn : m ≤ n) (hg : Gone (run s ops m) b) : Gone (run s ops n) b := by
  induction n, hmn using Nat.le_induction with
  | base => exact hg
  | succ n hmn ih =>
    obtain ⟨c, r, -, hstep⟩ | ⟨-, hsame⟩ := run_step h0 ops n
    · exact gone_step (inv_run s h0 ops n) ih hstep
    · refine ⟨fun i x hx => ih.absent i x ?_, ?_⟩
      · rwa [entry, hsame.inflight, hsame.shadows] at hx
      · rw [sequenceBound, hsame.nextSequence]
        exact ih.known

/-- A finalisation that is not refused acts on the shadow of its binding and clears it. -/
theorem finalized_cases (h0 : Inv s) {binding : Option Binding} {commit : Bool} {r : FinalizeResult}
    (hd : Did s ops n (.finalize binding commit) (.finalize r)) (hr : r ≠ .invalid) :
    ∃ b slot, binding = some b ∧ InShadow (run s ops n) b slot ∧ Gone (run s ops (n + 1)) b := by
  have hi := inv_run s h0 ops n
  have hstep := hd.step h0
  have hbound := (step_sequenceBound hi hstep).1
  generalize hrep : Reply.finalize r = reply at hstep
  generalize hc : Call.finalize binding commit = c at hstep
  generalize run s ops (n + 1) = t at hstep hbound ⊢
  -- Both outcomes clear the slot, and no other slot holds the binding.
  have hgone : ∀ b slot, InShadow (run s ops n) b slot → t.inflight = (run s ops n).inflight →
      t.shadows = Function.update (run s ops n).shadows slot default → Gone t b := by
    rintro b slot h hin hsh
    have hfresh := hi.fresh slot _ (entry_shadow hi h.active)
    rw [h.binding]
    refine ⟨fun i x hx hb => ?_, hfresh.trans_le hbound⟩
    by_cases he : i = slot
    · subst he
      have hact : ((run s ops n).inflight i).active = false := by
        by_contra hf
        exact absurd h.active (by simp [hi.exclusive i (by simpa using hf)])
      simp [entry, hin, hsh, hact] at hx
    · have hx' : entry (run s ops n) i = some x := by
        simpa [entry, hin, hsh, Function.update_of_ne he] using hx
      exact he (hi.unique i slot _ _ hx' (entry_shadow hi h.active)
        (Or.inl (congrArg Binding.executionSequence hb)))
  cases hstep with
  | refused c hr' =>
    subst hrep
    cases hr'
    exact absurd rfl hr
  | rollback b commit slot h =>
    obtain ⟨rfl, -⟩ : binding = some b ∧ _ := by simpa using hc
    exact ⟨b, slot, rfl, h, hgone b slot h rfl rfl⟩
  | commit b slot h =>
    obtain ⟨rfl, -⟩ : binding = some b ∧ _ := by simpa using hc
    exact ⟨b, slot, rfl, h, hgone b slot h rfl rfl⟩
  | takeCompletion call k c slot hcall => simp at hrep
  | shadow => simp at hrep
  | register | submit | take | post | cancelQueued | cancelRunning => simp at hc

theorem finalize_keeps (h0 : Inv s) {r : FinalizeResult}
    (hr : (perform (run s ops n) (ops n)).2 = .finalize r) (hne : r ≠ .committed) :
    (run s ops (n + 1)).objects = (run s ops n).objects := by
  obtain ⟨c, r', hd, hstep⟩ | ⟨-, hsame⟩ := run_step h0 ops n
  · obtain rfl : Reply.finalize r = r' := hr.symm.trans hd.2
    generalize hrep : Reply.finalize r = reply at hstep
    generalize run s ops (n + 1) = t at hstep ⊢
    cases hstep with
    | register | commit => simp_all
    | refused | submit | take | post | takeCompletion | cancelQueued | cancelRunning | shadow
    | rollback => rfl
  · exact hsame.objects

theorem finalized_once (h0 : Inv s) (hmn : m < n) {commit commit' : Bool} {r r' : FinalizeResult}
    (hm : Did s ops m (.finalize (some b) commit) (.finalize r))
    (hn : Did s ops n (.finalize (some b) commit') (.finalize r')) (hr : r ≠ .invalid) :
    r' = .invalid := by
  by_contra hr'
  obtain ⟨b', slot', hb, -, hgone⟩ := finalized_cases h0 hm hr
  obtain ⟨b'', slot, hb', hslot, -⟩ := finalized_cases h0 hn hr'
  cases hb
  cases hb'
  have hlater := gone_run h0 hmn hgone
  exact hlater.absent slot _ (entry_shadow (inv_run s h0 ops n) hslot.active) hslot.binding.symm

end Finalised

/-- What a cancel that returned true rules out for the rest of the run. -/
structure Dead (s : State) (ops : ℕ → Op) (n : ℕ) (b : Binding) : Prop where
  uncommitted : ∀ commit, ¬ Did s ops n (.finalize (some b) commit) (.finalize .committed)
  unread : ∀ y objectId offset length, bindingFromSubmission y = b →
    jobSubmissionRead (run s ops n) y objectId offset length = none
  unwritten : ∀ objectId offset source length,
    ¬ Did s ops n (.write (some b) objectId offset source length) (.bool true)
  unapproved : ¬ Did s ops n (.approve (some b)) (.bool true)
  uncancelled : ¬ Did s ops n (.cancel (some b)) (.bool true)
  untaken : ∀ x, bindingFromSubmission x = b → ¬ Did s ops n (.take true) (.submission (some x))

theorem dead_of_cancels (h0 : Inv s) (hh : History s ops n (run s ops n)) (hm : m < n)
    (hc : Cancels s ops m b) : Dead s ops n b where
  uncommitted := not_committed h0 hh hm hc
  unread := by
    rintro y objectId offset length rfl
    exact not_read hh hm hc objectId offset length
  unwritten := fun objectId offset source length =>
    not_guarded h0 hh hm hc (.write objectId offset source length)
  unapproved := not_guarded h0 hh hm hc .approve
  uncancelled := not_guarded h0 hh hm hc .cancel
  untaken := by
    rintro x rfl
    exact not_taken h0 hh hm hc

/-- Cancelled bindings stay dead, reads of a submission see its submit, a finalisation that does not
commit changes no object, and every binding is finalised at most once. -/
theorem cancellation_safe (s₀ : State) (epoch : ℕ) (ops : ℕ → Op) :
    let s := jobAuthorityInit s₀ epoch
    (∀ b m n, m < n → Did s ops m (.cancel (some b)) (.bool true) → Dead s ops n b) ∧
    (∀ n y objectId offset length bytes,
      jobSubmissionRead (run s ops n) y objectId offset length = some bytes →
      ∃ k x, k < n ∧ bindingFromSubmission x = bindingFromSubmission y ∧
        Did s ops k (.submit (some x.job) true) (.binding (some (bindingFromSubmission x))) ∧
        jobObjectRead (run s ops k) objectId offset length = some bytes) ∧
    (∀ n r, (perform (run s ops n) (ops n)).2 = .finalize r → r ≠ .committed →
      (run s ops (n + 1)).objects = (run s ops n).objects) ∧
    (∀ b m n commit commit' r r', m < n → Did s ops m (.finalize (some b) commit) (.finalize r) →
      Did s ops n (.finalize (some b) commit') (.finalize r') → r ≠ .invalid → r' = .invalid) := by
  intro s
  have h0 : Inv s := inv_init s₀ epoch
  have hh := history_run s₀ epoch ops
  refine ⟨fun b m n hm hc => dead_of_cancels h0 (hh n) hm hc, fun n y objectId offset length bytes hread => ?_,
    fun n r hr hne => finalize_keeps h0 hr hne,
    fun b m n commit commit' r r' hmn hm hn hr => finalized_once h0 hmn hm hn hr⟩
  obtain ⟨k, x, hx, hb, hbytes⟩ := read_origin (hh n) hread
  exact ⟨k, x, hx.lt, hb, hx.did, hbytes⟩

end Raveil.Authority
