import Raveil.Dag.PlanFacts
import Raveil.Fold.Batch

/-! A plan does not depend on the words of the literal arrays, only on their lengths. -/
namespace Raveil.Dag
open Raveil.Lib Raveil.Fold

variable {region : Region} {config out : List ℕ} {ranged : Bool} {s t : PlanLoop} {j j' u : JobLoop}
  {x x' : Operand} {job job' : Job} {k length : ℕ}

/-- Arrays of one length, the second of words. -/
def SameLength (l l' : List ℕ) : Prop := l'.length = l.length ∧ ∀ w ∈ l', w < 2 ^ 32

theorem sameLength_zeros (n : ℕ) : SameLength (List.replicate n 0) (List.replicate n 0) := by
  refine ⟨rfl, ?_⟩
  intro w hw
  rw [List.eq_of_mem_replicate hw]
  decide

/-- The same link, or arrays of one length. -/
inductive OperandMatches : Operand → Operand → Prop
  | link (source : String) (offset length : Option ℤ) :
      OperandMatches (.link source offset length) (.link source offset length)
  | literal {values values' : List ℕ} (h : SameLength values values') :
      OperandMatches (.literal values) (.literal values')

/-- The same job up to the words of its literal arrays. -/
structure JobMatches (job job' : Job) : Prop where
  name : job'.name = job.name
  region : job'.region = job.region
  inputs : List.Forall₂ OperandMatches job.inputs job'.inputs

/-- The reference accepts every pair of arrays of the right lengths. -/
theorem reference_sameLength {inputs inputs' : List (List ℕ)} (hc : compileRegion region = .ok config)
    (h : reference region inputs = .ok out) (hs : List.Forall₂ SameLength inputs inputs') :
    ∃ out', reference region inputs' = .ok out' := by
  obtain ⟨a, b, rfl, -, -, -, -⟩ := reference_inputs hc h
  obtain ⟨a', tail, ha, htail, rfl⟩ := List.forall₂_cons_left_iff.mp hs
  obtain ⟨b', last, hb, hlast, rfl⟩ := List.forall₂_cons_left_iff.mp htail
  obtain rfl := List.forall₂_nil_left_iff.mp hlast
  have hok : RequestOk config a b 1 := .of_reference hc h ⟨by decide, by omega⟩
  exact ⟨_, reference_placed hc { hok with
    lengthA := ha.1.trans hok.lengthA
    lengthB := hb.1.trans hok.lengthB
    wordsA := ha.2
    wordsB := hb.2 }⟩

/-- The lists for one job agree, up to the words of the literal arrays. -/
structure LoopMatches (j j' : JobLoop) : Prop where
  linked : j'.linked = j.linked
  starts : j'.starts = j.starts
  last : j'.last = j.last
  literal : List.Forall₂ SameLength j.literal j'.literal

theorem planOperand_matches (hx : OperandMatches x x') (hj : LoopMatches j j')
    (h : planOperand ranged s k j (x, length) = .ok u) :
    ∃ u', planOperand ranged s k j' (x', length) = .ok u' ∧ LoopMatches u u' := by
  obtain ⟨hlinked, hstarts, hlast, hliteral⟩ := hj
  cases hx with
  | link source offset extent =>
    simp only [planOperand, require_then_eq_ok, except_pure_eq_ok] at h
    obtain ⟨hkeys, hrange, rfl⟩ := h
    refine ⟨_, require_then_eq_ok.mpr ⟨hkeys, require_then_eq_ok.mpr ⟨hrange, rfl⟩⟩, ?_⟩
    rw [hlinked, hstarts, hlast]
    exact ⟨rfl, rfl, rfl, List.rel_append hliteral (.cons (sameLength_zeros length) .nil)⟩
  | literal hv =>
    cases h
    refine ⟨_, rfl, ?_⟩
    rw [hlinked, hstarts, hlast]
    exact ⟨rfl, rfl, rfl, List.rel_append hliteral (.cons hv .nil)⟩

theorem planOperands_matches {inputs inputs' : List Operand} {lengths : List ℕ}
    (hi : List.Forall₂ OperandMatches inputs inputs') (hj : LoopMatches j j')
    (h : (inputs.zip lengths).foldlM (planOperand ranged s k) j = .ok u) :
    ∃ u', (inputs'.zip lengths).foldlM (planOperand ranged s k) j' = .ok u' ∧ LoopMatches u u' := by
  induction hi generalizing j j' lengths with
  | nil =>
    cases h
    exact ⟨j', rfl, hj⟩
  | cons hx _ ih =>
    cases lengths with
    | nil =>
      cases h
      exact ⟨j', rfl, hj⟩
    | cons length lengths =>
      rw [List.zip_cons_cons, List.foldlM_cons] at h
      obtain ⟨v, hv, h⟩ := except_bind_eq_ok.mp h
      obtain ⟨v', hv', hmatch⟩ := planOperand_matches hx hj hv
      obtain ⟨u', hu', hall⟩ := ih hmatch h
      refine ⟨u', ?_, hall⟩
      rw [List.zip_cons_cons, List.foldlM_cons]
      exact except_bind_eq_ok.mpr ⟨v', hv', hu'⟩

theorem planJob_matches (hm : JobMatches job job') (h : planJob ranged s (job, k) = .ok t) :
    planJob ranged s (job', k) = .ok t := by
  obtain ⟨hname, hregion, hinputs⟩ := hm
  obtain ⟨hok, h⟩ := require_then_eq_ok.mp h
  obtain ⟨hfresh, h⟩ := require_then_eq_ok.mp h
  obtain ⟨config, hconfig, h⟩ := except_bind_eq_ok.mp h
  obtain ⟨htwo, h⟩ := require_then_eq_ok.mp h
  obtain ⟨u, hu, h⟩ := except_bind_eq_ok.mp h
  obtain ⟨out, hout, h⟩ := except_bind_eq_ok.mp h
  obtain ⟨u', hu', hmatch⟩ := planOperands_matches hinputs ⟨rfl, rfl, rfl, .nil⟩ hu
  obtain ⟨out', hout'⟩ := reference_sameLength hconfig hout hmatch.literal
  unfold planJob
  dsimp only
  rw [hname, hregion]
  refine require_then_eq_ok.mpr ⟨hok, require_then_eq_ok.mpr ⟨hfresh, except_bind_eq_ok.mpr ⟨config, hconfig,
    require_then_eq_ok.mpr ⟨hinputs.length_eq.symm.trans htwo, except_bind_eq_ok.mpr ⟨u', hu',
      except_bind_eq_ok.mpr ⟨out', hout', ?_⟩⟩⟩⟩⟩⟩
  rw [hmatch.linked, hmatch.starts, hmatch.last]
  exact h

theorem planJobs_matches {jobs jobs' : List Job} (hm : List.Forall₂ JobMatches jobs jobs')
    (h : (jobs.zipIdx k).foldlM (planJob ranged) s = .ok t) : (jobs'.zipIdx k).foldlM (planJob ranged) s = .ok t := by
  induction hm generalizing s k with
  | nil => exact h
  | cons hjob _ ih =>
    rw [List.zipIdx_cons, List.foldlM_cons] at h ⊢
    obtain ⟨v, hv, h⟩ := except_bind_eq_ok.mp h
    exact except_bind_eq_ok.mpr ⟨v, planJob_matches hjob hv, ih h⟩

/-- Other words in the literal arrays leave the plan as it is. -/
theorem compilePlan_matches {schema output : String} {jobs jobs' : List Job} {plan : Plan}
    (hm : List.Forall₂ JobMatches jobs jobs') (h : compilePlan ⟨schema, jobs, output⟩ = .ok plan) :
    compilePlan ⟨schema, jobs', output⟩ = .ok plan := by
  obtain ⟨hschema, h⟩ := require_then_eq_ok.mp h
  obtain ⟨hcount, h⟩ := require_then_eq_ok.mp h
  obtain ⟨loop, hloop, h⟩ := except_bind_eq_ok.mp h
  exact require_then_eq_ok.mpr ⟨hschema, require_then_eq_ok.mpr ⟨hm.length_eq ▸ hcount,
    except_bind_eq_ok.mpr ⟨loop, planJobs_matches hm hloop, h⟩⟩⟩

end Raveil.Dag
