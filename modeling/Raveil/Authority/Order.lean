import Raveil.Authority.Structure

/-! The order in which submissions are dispatched and completions are handed out. -/
namespace Raveil.Authority
open Raveil.Lib RingBuffer

/-- The completion that an operation adds to the completion ring. -/
def acceptedPost (s : State) (op : Op) : Option CompletionRecord :=
  match call s op, (perform s op).2 with
  | some (.post completion), .bool true => completion
  | _, _ => none

/-- The completions accepted by the first `n` operations, in order. -/
def posts (s : State) (ops : ℕ → Op) (n : ℕ) : List CompletionRecord :=
  (List.range n).filterMap fun m => acceptedPost (run s ops m) (ops m)

theorem posts_succ (s : State) (ops : ℕ → Op) (n : ℕ) :
    posts s ops (n + 1) = posts s ops n ++ (acceptedPost (run s ops n) (ops n)).toList := by
  rw [posts, List.range_succ, List.filterMap_append]
  rfl

section Steps

variable {s t : State} {c : Call} {r : Reply}

theorem step_completions (hs : Inv s) (h : Step s c r t) :
    (t.completions.contents 4).Sublist (s.completions.contents 4) ∨
      ∃ completion, c = .post (some completion) ∧ r = .bool true ∧
        t.completions.contents 4 = s.completions.contents 4 ++ [completion] := by
  cases h with
  | post completion slot h hd hp hv hused =>
    exact Or.inr ⟨completion, rfl, rfl, contents_push hs.completionsOk hused⟩
  | takeCompletion call k completion slot hcall hk =>
    have hused : k < s.completions.used := by
      rw [← length_contents 4]
      exact (List.getElem?_eq_some_iff.mp hk).1
    simp only [contents_removeAt hs.completionsOk hused]
    exact Or.inl (List.eraseIdx_sublist _ _)
  | refused | register | submit | take | cancelQueued | cancelRunning | shadow | rollback | commit =>
    exact Or.inl (List.Sublist.refl _)

/-- The submission ring only loses entries, or gains one with the next sequence number. -/
theorem step_submissions (hs : Inv s) (h : Step s c r t) :
    ∀ y ∈ t.submissions.contents 4, y ∈ s.submissions.contents 4 ∨
      sequenceBound s ≤ y.executionSequence := by
  intro y hy
  cases h with
  | submit job slot hadm hused hseq =>
    simp only [contents_push hs.submissionsOk hused, List.mem_append, List.mem_singleton] at hy
    obtain hy | rfl := hy
    · exact Or.inl hy
    · exact Or.inr (by simp [sequenceBound, hseq, newSubmission])
  | take slot q hq =>
    have hpos : 0 < s.submissions.used := by
      rw [← length_contents 4, hq.contents]
      simp
    rw [contents_pop hs.submissionsOk hpos]
    exact Or.inl (List.mem_cons_of_mem _ hy)
  | cancelQueued b slot h hd =>
    have hlen : ((s.submissions.contents 4).filter fun value => !bindingMatches b value).length ≤ 4 := by
      refine (List.length_filter_le _ _).trans ?_
      rw [length_contents]
      exact hs.submissionsOk.used
    simp only [contents_refill hlen] at hy
    exact Or.inl (List.mem_filter.mp hy).1
  | refused | register | post | takeCompletion | cancelRunning | shadow | rollback | commit =>
    exact Or.inl hy

theorem step_sequenceBound (hs : Inv s) (h : Step s c r t) :
    sequenceBound s ≤ sequenceBound t ∧ ∀ b, r = .binding (some b) →
      sequenceBound s ≤ b.executionSequence ∧ b.executionSequence < sequenceBound t := by
  cases h with
  | refused c hr =>
    refine ⟨le_rfl, fun b hb => ?_⟩
    subst hb
    cases hr
  | submit job slot hadm hused hseq =>
    obtain ⟨hb, hb'⟩ := sequenceBound_succ hs hseq (t := { s with
      nextSequence := (s.nextSequence + 1) % 2 ^ 64
      submissions := s.submissions.push 4 (newSubmission s job)
      inflight := Function.update s.inflight slot (submitted s job slot) }) rfl
    rw [hb, hb']
    refine ⟨Nat.le_succ _, fun b he => ?_⟩
    obtain rfl : bindingFromSubmission (newSubmission s job) = b := by simpa using he
    exact ⟨le_rfl, Nat.lt_succ_self _⟩
  | register | take | post | takeCompletion | cancelQueued | cancelRunning | shadow | rollback
  | commit => exact ⟨le_rfl, fun b hb => by simp at hb⟩

/-- What a dispatched submission leaves behind is newer. -/
theorem step_dispatched (hs : Inv s) (h : Step s c r t) {x : Submission}
    (hr : r = .submission (some x)) :
    x ∈ s.submissions.contents 4 ∧ x.executionSequence < sequenceBound t ∧
      ∀ y ∈ t.submissions.contents 4, x.executionSequence < y.executionSequence := by
  cases h with
  | refused c hr' =>
    subst hr
    cases hr'
  | take slot q hq =>
    obtain rfl : (s.inflight slot).submission = x := by simpa using hr
    have hw := (hq.mem slot).mp List.mem_cons_self
    have hpos : 0 < s.submissions.used := by
      rw [← length_contents 4, hq.contents]
      simp
    have hsorted := hs.sorted
    have hcons := contents_pop hs.submissionsOk hpos
    have hhead := hcons
    rw [hq.contents, List.map_cons, List.cons.injEq] at hhead
    rw [hcons, List.pairwise_cons, ← hhead.1] at hsorted
    refine ⟨?_, hs.fresh slot _ (entry_inflight hw.1), hsorted.1⟩
    rw [hcons, ← hhead.1]
    exact List.mem_cons_self
  | register | submit | post | takeCompletion | cancelQueued | cancelRunning | shadow | rollback
  | commit => simp at hr

end Steps

section Runs

variable {s : State} {ops : ℕ → Op}

theorem run_step (hs : Inv s) (ops : ℕ → Op) (n : ℕ) :
    (∃ c r, Did s ops n c r ∧ Step (run s ops n) c r (run s ops (n + 1))) ∨
      ((∀ c r, ¬ Did s ops n c r) ∧ SameTables (run s ops n) (run s ops (n + 1))) := by
  obtain ⟨c, r, hd, hp⟩ | hsame := run_cases s ops n
  · have := step_call (inv_run s hs ops n) c
    rw [hp] at this
    exact Or.inl ⟨c, r, hd, this⟩
  · exact Or.inr hsame

theorem Did.step (hs : Inv s) {n : ℕ} {c : Call} {r : Reply} (h : Did s ops n c r) :
    Step (run s ops n) c r (run s ops (n + 1)) := by
  have := step_call (inv_run s hs ops n) c
  rwa [h.performs] at this

theorem Did.acceptedPost {n : ℕ} {completion : CompletionRecord}
    (h : Did s ops n (.post (some completion)) (.bool true)) :
    acceptedPost (run s ops n) (ops n) = some completion := by
  simp [Authority.acceptedPost, h.1, h.2]

/-- The completion ring is what is left of the accepted posts, in their order. -/
theorem completions_sublist (hs : Inv s) (he : s.completions.contents 4 = []) (n : ℕ) :
    ((run s ops n).completions.contents 4).Sublist (posts s ops n) := by
  induction n with
  | zero =>
    rw [run, he]
    exact List.nil_sublist _
  | succ n ih =>
    rw [posts_succ]
    obtain ⟨c, r, hd, hstep⟩ | ⟨-, hsame⟩ := run_step hs ops n
    · obtain hsub | ⟨completion, rfl, rfl, hc⟩ := step_completions (inv_run s hs ops n) hstep
      · exact (hsub.trans ih).trans (List.sublist_append_left _ _)
      · rw [hc, hd.acceptedPost]
        exact ih.append (List.Sublist.refl _)
    · rw [hsame.completions]
      exact ih.trans (List.sublist_append_left _ _)

theorem sequenceBound_mono (hs : Inv s) (ops : ℕ → Op) {m n : ℕ} (h : m ≤ n) :
    sequenceBound (run s ops m) ≤ sequenceBound (run s ops n) := by
  induction h with
  | refl => exact le_rfl
  | step h ih =>
    rename_i n
    refine ih.trans ?_
    obtain ⟨c, r, -, hstep⟩ | ⟨-, hsame⟩ := run_step hs ops n
    · exact (step_sequenceBound (inv_run s hs ops n) hstep).1
    · simp [sequenceBound, hsame.nextSequence]

/-- Sequence numbers are handed out in the order of the submits. -/
theorem submit_order (hs : Inv s) {m n : ℕ} (h : m < n) {c d : Call} {b b' : Binding}
    (hm : Did s ops m c (.binding (some b))) (hn : Did s ops n d (.binding (some b'))) :
    b.executionSequence < b'.executionSequence := by
  have h1 := ((step_sequenceBound (inv_run s hs ops m) (hm.step hs)).2 b rfl).2
  have h2 := ((step_sequenceBound (inv_run s hs ops n) (hn.step hs)).2 b' rfl).1
  exact (h1.trans_le (sequenceBound_mono hs ops h)).trans_le h2

/-- After a dispatch only newer submissions are left in the ring. -/
theorem dispatched_before (hs : Inv s) {m n : ℕ} (h : m < n) {c : Call} {x : Submission}
    (hm : Did s ops m c (.submission (some x))) :
    ∀ y ∈ (run s ops n).submissions.contents 4, x.executionSequence < y.executionSequence := by
  induction h with
  | refl => exact (step_dispatched (inv_run s hs ops m) (hm.step hs) rfl).2.2
  | step h ih =>
    rename_i n
    intro y hy
    obtain ⟨c, r, -, hstep⟩ | ⟨-, hsame⟩ := run_step hs ops n
    · obtain hy | hy := step_submissions (inv_run s hs ops n) hstep y hy
      · exact ih y hy
      · have hlt := (step_dispatched (inv_run s hs ops m) (hm.step hs) rfl).2.1
        exact (hlt.trans_le (sequenceBound_mono hs ops h)).trans_le hy
    · rw [hsame.submissions] at hy
      exact ih y hy

theorem dispatch_order (hs : Inv s) {m n : ℕ} (h : m < n) {c d : Call} {x y : Submission}
    (hm : Did s ops m c (.submission (some x))) (hn : Did s ops n d (.submission (some y))) :
    x.executionSequence < y.executionSequence :=
  dispatched_before hs h hm y (step_dispatched (inv_run s hs ops n) (hn.step hs) rfl).1

/-- Taking a completion removes exactly its entry. -/
theorem completion_removed (hs : Inv s) {n : ℕ} {c : Call} {completion : CompletionRecord}
    (h : Did s ops n c (.completion (some completion))) :
    ∃ k : ℕ, ((run s ops n).completions.contents 4)[k]? = some completion ∧
      (run s ops (n + 1)).completions.contents 4 = ((run s ops n).completions.contents 4).eraseIdx k := by
  have hi := inv_run s hs ops n
  have hstep := h.step hs
  generalize hr : Reply.completion (some completion) = r at hstep
  generalize run s ops (n + 1) = t at hstep ⊢
  cases hstep with
  | refused c hr' =>
    subst hr
    cases hr'
  | takeCompletion call k completion' slot hcall hk =>
    obtain rfl : completion = completion' := by simpa using hr
    have hused : k < (run s ops n).completions.used := by
      rw [← length_contents 4]
      exact (List.getElem?_eq_some_iff.mp hk).1
    exact ⟨k, hk, contents_removeAt hi.completionsOk hused⟩
  | register | submit | take | post | cancelQueued | cancelRunning | shadow | rollback
  | commit => simp at hr

end Runs

/-- The structural invariant of the job authority over every run: disjoint tables without shared
identities, both rings in step with the slots and in order. -/
theorem authority_structure (s₀ : State) (epoch : ℕ) (ops : ℕ → Op) :
    let at' := run (jobAuthorityInit s₀ epoch) ops
    let did := Did (jobAuthorityInit s₀ epoch) ops
    (∀ n, let s := at' n
      (∀ i, ¬ ((s.inflight i).active = true ∧ (s.shadows i).active = true)) ∧
      (∀ i j x y, entry s i = some x → entry s j = some y → i ≠ j →
        x.executionSequence ≠ y.executionSequence ∧ x.job.jobId ≠ y.job.jobId) ∧
      (∃ q : List (Fin 4), q.Nodup ∧
        (∀ i, i ∈ q ↔ (s.inflight i).active = true ∧ (s.inflight i).dispatched = false) ∧
        s.submissions.contents 4 = q.map fun i => (s.inflight i).submission) ∧
      (s.submissions.contents 4).Pairwise (fun x y => x.executionSequence < y.executionSequence) ∧
      (∃ p : List (Fin 4), p.Nodup ∧
        (∀ i, i ∈ p ↔ (s.inflight i).active = true ∧ (s.inflight i).completionPosted = true) ∧
        (s.completions.contents 4).map completionBinding =
          p.map fun i => bindingFromSubmission (s.inflight i).submission) ∧
      (s.completions.contents 4).Sublist (posts (jobAuthorityInit s₀ epoch) ops n) ∧
      s.submissions.used ≤ 4 ∧
      s.submissions.write = (s.submissions.read + s.submissions.used) % 4 ∧
      s.completions.used ≤ 4 ∧
      s.completions.write = (s.completions.read + s.completions.used) % 4) ∧
    (∀ m n, m < n → ∀ c d b b', did m c (.binding (some b)) → did n d (.binding (some b')) →
      b.executionSequence < b'.executionSequence) ∧
    (∀ m n, m < n → ∀ c d x y, did m c (.submission (some x)) → did n d (.submission (some y)) →
      x.executionSequence < y.executionSequence) ∧
    (∀ n c completion, did n c (.completion (some completion)) →
      ∃ k : ℕ, ((at' n).completions.contents 4)[k]? = some completion ∧
        (at' (n + 1)).completions.contents 4 = ((at' n).completions.contents 4).eraseIdx k) := by
  intro at' did
  have h0 : Inv (jobAuthorityInit s₀ epoch) := inv_init s₀ epoch
  refine ⟨fun n => ?_, fun m n h c d b b' => submit_order h0 h, fun m n h c d x y => dispatch_order h0 h,
    fun n c completion => completion_removed h0⟩
  have hs : Inv (at' n) := inv_run _ h0 ops n
  obtain ⟨q, hq⟩ := hs.queued
  obtain ⟨p, hp⟩ := hs.posted
  refine ⟨fun i hi => ?_, fun i j x y hx hy hne => ?_, ⟨q, hq.nodup, hq.mem, hq.contents⟩, hs.sorted,
    ⟨p, hp.nodup, hp.mem, hp.contents⟩, completions_sublist h0 rfl n, hs.submissionsOk.used,
    hs.submissionsOk.write, hs.completionsOk.used, hs.completionsOk.write⟩
  · simp [hs.exclusive i hi.1] at hi
  · exact ⟨fun h => hne (hs.unique i j x y hx hy (Or.inl h)),
      fun h => hne (hs.unique i j x y hx hy (Or.inr h))⟩

end Raveil.Authority
