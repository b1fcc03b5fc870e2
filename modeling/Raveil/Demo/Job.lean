import Raveil.Demo.Shell
import Raveil.Authority.Structure

/-! What the job tables hold while the demo is their only user: nothing, one job in flight, or one shadow. -/
namespace Raveil.Demo

open Lib Authority RingBuffer

/-- An empty ring, wherever its indices stand. -/
structure Drained {α : Type} [Inhabited α] (r : RingBuffer α) : Prop where
  ok : r.Ok 4
  used : r.used = 0

structure Quiet (s : State) : Prop where
  inflight : s.inflight = fun _ => default
  shadows : s.shadows = fun _ => default
  submissions : Drained s.submissions
  completions : Drained s.completions

/-- One dispatched job, which waits for its completion. -/
structure Working (s : State) (x : Submission) (cancelled : Bool) : Prop where
  inflight : ∃ snapshot, s.inflight = Function.update (fun _ => default) 0 ⟨true, true, false, cancelled, x, snapshot⟩
  shadows : s.shadows = fun _ => default
  submissions : Drained s.submissions
  completions : Drained s.completions

/-- One consumed completion, whose shadow waits for its end. -/
structure Held (s : State) (shadow : ShadowSlot) : Prop where
  inflight : s.inflight = fun _ => default
  shadows : s.shadows = Function.update (fun _ => default) 0 shadow
  submissions : Drained s.submissions
  completions : Drained s.completions

/-- What every step of the one job before its commit leaves alone. -/
structure SameBase (s t : State) : Prop where
  objects : t.objects = s.objects
  authorityEpoch : t.authorityEpoch = s.authorityEpoch
  planeGraphs : t.planeGraphs = s.planeGraphs
  capTable : t.capTable = s.capTable

/-- What a step before the observation leaves alone. -/
structure SameRest (s t : State) : Prop extends SameBase s t where
  planeExperience : t.planeExperience = s.planeExperience
  planeExperienceUsed : t.planeExperienceUsed = s.planeExperienceUsed

namespace Drained

variable {α : Type} [Inhabited α] {r : RingBuffer α} (h : Drained r) (x : α)
include h

/-- The one entry of a ring stands at its read index. -/
theorem buf_push : (r.push 4 x).buf (r.push 4 x).read = x := by
  have hwrite : r.write = r.read := by
    rw [h.ok.write, h.used, Nat.add_zero, Nat.mod_eq_of_lt h.ok.read]
  simp [push, hwrite]

theorem used_push : (r.push 4 x).used = 1 := by simp [push, h.used]

theorem ok_push : (r.push 4 x).Ok 4 := RingBuffer.ok_push h.ok (by rw [h.used]; decide)

theorem pop : Drained ((r.push 4 x).pop 4) :=
  ⟨ok_pop (h.ok_push x) (by rw [h.used_push]; decide), by simp [RingBuffer.pop, h.used_push]⟩

theorem removeAt : Drained ((r.push 4 x).removeAt 4 0) := by
  refine ⟨ok_removeAt (h.ok_push x) (by rw [h.used_push]; decide), ?_⟩
  simp [RingBuffer.removeAt, h.used_push]

end Drained

section Slots

/-- A search that the first slot ends. -/
theorem firstSlot_free {n : ℕ} {p : Fin (n + 1) → Bool} (h0 : p 0 = true) : firstSlot p = some 0 := by
  unfold firstSlot
  rw [List.finRange_succ, List.find?_cons, h0]

end Slots

theorem submit_take {s : State} (h : Quiet s) {job : JobDescriptor} (hadm : admitted s job = true)
    (hseq : s.nextSequence ≠ 0) :
    ∃ t u, jobSubmitBoundCore s (some job) true = (t, some (bindingFromSubmission (newSubmission s job))) ∧
      jobSubmissionTake t true = (u, some (newSubmission s job)) ∧ Working u (newSubmission s job) false ∧
      SameRest s u ∧ u.nextSequence = (s.nextSequence + 1) % 2 ^ 64 := by
  have hslot : firstSlot (fun i => !(s.inflight i).active && !(s.shadows i).active) = some 0 :=
    firstSlot_free (by simp [h.inflight, h.shadows])
  have hunused : ¬ ((∃ i, (s.inflight i).active ∧ (s.inflight i).submission.job.jobId = job.jobId) ∨
      ∃ i, (s.shadows i).active ∧ (s.shadows i).submission.job.jobId = job.jobId) := by
    simp [h.inflight, h.shadows]
  have hempty : s.submissions.used ≠ 4 := by simp [h.submissions.used]
  have hfind : firstSlot (fun i => (Function.update s.inflight 0 (submitted s job 0) i).active &&
      !(Function.update s.inflight 0 (submitted s job 0) i).dispatched &&
      submissionMatches (Function.update s.inflight 0 (submitted s job 0) i).submission (newSubmission s job)) =
      some 0 := by
    apply firstSlot_free
    simp [submissionMatches, submitted]
  refine ⟨{ s with
      nextSequence := (s.nextSequence + 1) % 2 ^ 64
      submissions := s.submissions.push 4 (newSubmission s job)
      inflight := Function.update s.inflight 0 (submitted s job 0) },
    { s with
      nextSequence := (s.nextSequence + 1) % 2 ^ 64
      submissions := (s.submissions.push 4 (newSubmission s job)).pop 4
      inflight := Function.update (fun _ => default) 0 { submitted s job 0 with dispatched := true } },
    ?_, ?_, ⟨⟨_, rfl⟩, h.shadows, h.submissions.pop _, h.completions⟩, ⟨⟨rfl, rfl, rfl, rfl⟩, rfl, rfl⟩, rfl⟩
  · simp only [jobSubmitBoundCore, hslot, hadm, Bool.not_true, Bool.false_eq_true, hempty, hseq, or_self,
      if_false, if_neg hunused]
    rfl
  · rw [h.inflight] at hfind
    simp only [jobSubmissionTake, h.submissions.used_push, takeLoop, h.submissions.buf_push, Bool.not_true,
      Bool.false_eq_true, if_false, hfind, Function.update_idem, Function.update_self, h.inflight]

/-- A completion of the job is posted and consumed. -/
theorem post_take {s : State} {x : Submission} {cancelled : Bool} (h : Working s x cancelled) {c : CompletionRecord}
    (hmatches : completionBinding c = bindingFromSubmission x) (hvalid : raveilCompletionRecordValidate x.job c = true) :
    ∃ t u, jobCompletionPost s (some c) = (t, true) ∧
      jobCompletionTakeBound t (some (bindingFromSubmission x)) true = (u, some c) ∧
      Held u ⟨true, false, cancelled, x, c, default, default⟩ ∧ SameRest s u ∧ u.nextSequence = s.nextSequence := by
  obtain ⟨snapshot, hinflight⟩ := h.inflight
  have hcompletion : completionMatches c x = true := completionMatches_iff.mpr hmatches
  have hempty : s.completions.used ≠ 4 := by simp [h.completions.used]
  have hslot : firstSlot (fun i => (s.inflight i).active && (s.inflight i).dispatched &&
      !(s.inflight i).completionPosted && completionMatches c (s.inflight i).submission &&
      raveilCompletionRecordValidate (s.inflight i).submission.job c) = some 0 :=
    firstSlot_free (by simp [hinflight, hcompletion, hvalid])
  have hbound : completionBound c (bindingFromSubmission x) = true := completionBound_iff.mpr hmatches
  have hbuf := h.completions.buf_push c
  have hread : (s.completions.push 4 c).read < 4 := (h.completions.ok_push c).read
  refine ⟨{ s with
      completions := s.completions.push 4 c
      inflight := Function.update (fun _ => default) 0 ⟨true, true, true, cancelled, x, snapshot⟩ },
    { s with
      completions := (s.completions.push 4 c).removeAt 4 0
      shadows := Function.update (fun _ => default) 0 ⟨true, false, cancelled, x, c, default, default⟩
      inflight := fun _ => default }, ?_, ?_,
    ⟨rfl, rfl, h.submissions, h.completions.removeAt _⟩, ⟨⟨rfl, rfl, rfl, rfl⟩, rfl, rfl⟩, rfl⟩
  · rw [hinflight] at hslot
    simp only [jobCompletionPost, if_neg hempty, hslot, hinflight, Function.update_idem, Function.update_self]
  · have htaken : (s.completions.push 4 c).buf (((s.completions.push 4 c).read + 0) % 4) = c := by
      rw [Nat.add_zero, Nat.mod_eq_of_lt hread, hbuf]
    have hfind : (List.range 1).find? (fun index => completionBound
        ((s.completions.push 4 c).buf (((s.completions.push 4 c).read + index) % 4)) (bindingFromSubmission x)) =
        some 0 := by
      rw [List.range_one, List.find?_cons, htaken, hbound]
    have hmove : firstSlot (fun i : Fin 4 =>
        (Function.update (fun _ => (default : InflightSlot)) 0 ⟨true, true, true, cancelled, x, snapshot⟩ i).active &&
        (Function.update (fun _ => (default : InflightSlot)) 0 ⟨true, true, true, cancelled, x, snapshot⟩ i).completionPosted &&
        completionMatches c
          (Function.update (fun _ => (default : InflightSlot)) 0 ⟨true, true, true, cancelled, x, snapshot⟩ i).submission) =
        some 0 := firstSlot_free (by simp [hcompletion])
    have hidle : Function.update (fun _ : Fin 4 => (default : InflightSlot)) 0 default = fun _ => default :=
      Function.update_eq_self 0 _
    simp only [jobCompletionTakeBound, h.completions.used_push, hfind, completionTakeOffset, htaken, Bool.not_true,
      Bool.false_eq_true, ge_iff_le, Nat.le_zero, Nat.one_ne_zero, or_self, if_false,
      completionMoveToShadow, hmove, Function.update_self, Function.update_idem, hidle, h.shadows]
    rfl

local instance shadowIndex : NeZero 4 := ⟨by decide⟩

def withShadow (s : State) (shadow : ShadowSlot) : State := { s with shadows := Function.update s.shadows 0 shadow }

/-- The authority after the first shadow is dropped. -/
def cleared (s : State) : State := withShadow s default

section Shadow

variable {s : State} {shadow : ShadowSlot} (h : Held s shadow)
include h

theorem Held.find (hactive : shadow.active = true) :
    findShadow s (some (bindingFromSubmission shadow.submission)) = some 0 := by
  apply firstSlot_free
  simp [h.shadows, hactive, bindingMatches_iff]

theorem Held.slot : s.shadows 0 = shadow := by rw [h.shadows, Function.update_self]

/-- A shadow that ends leaves the tables empty. -/
theorem Held.quiet : Quiet (cleared s) := by
  refine ⟨h.inflight, ?_, h.submissions, h.completions⟩
  change Function.update s.shadows 0 default = _
  rw [h.shadows, Function.update_idem]
  exact Function.update_eq_self 0 _

theorem Held.replace (other : ShadowSlot) : Held (withShadow s other) other := by
  refine ⟨h.inflight, ?_, h.submissions, h.completions⟩
  change Function.update s.shadows 0 other = _
  rw [h.shadows, Function.update_idem]

theorem finalize_false (hactive : shadow.active = true) :
    jobShadowFinalizeCore s (some (bindingFromSubmission shadow.submission)) false =
      (cleared s, .rolledBack) := by
  simp only [jobShadowFinalizeCore, h.find hactive, cleared, withShadow]
  simp

end Shadow

end Raveil.Demo
