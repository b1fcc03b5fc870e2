import Raveil.Command.Steps
import Raveil.Lib.Interleave
import Mathlib.Data.List.Infix
import Mathlib.Data.List.TakeWhile

/-! Dependency paths in a validated program, and orders of its nodes that respect them. -/
namespace Raveil.Command

open Lib CommandGraphProgram

variable {program : CommandGraphProgram} {a b n : CommandNode} {nodes pre post batch : List CommandNode}
  {prior : List String}

/-- What `validate` has checked of the nodes. -/
structure Acyclic (program : CommandGraphProgram) : Prop where
  nonempty : program.nodes ≠ []
  nodup : (program.nodes.map (·.nodeId)).Nodup
  ordered : topological [] program.nodes = true

theorem acyclic_of_validate (hv : program.validate = .ok ()) : Acyclic program := by
  simp only [validate, check_then_eq_ok, require_eq_ok] at hv
  obtain ⟨-, hcount, hnodup, hord, -, -⟩ := hv
  exact ⟨hcount.1, hnodup, hord⟩

theorem topological_split (ht : topological prior (pre ++ n :: post) = true) :
    ∀ dep ∈ n.dependencies, dep ∈ prior ∨ dep ∈ pre.map (·.nodeId) := by
  induction pre generalizing prior with
  | nil =>
    intro dep hdep
    rw [List.nil_append, topological, Bool.and_eq_true, List.all_eq_true] at ht
    exact Or.inl (by simpa using ht.1 dep hdep)
  | cons x pre ih =>
    intro dep hdep
    rw [List.cons_append, topological, Bool.and_eq_true] at ht
    rcases ih ht.2 dep hdep with h | h
    · rcases List.mem_cons.mp h with rfl | h
      · exact Or.inr (by simp)
      · exact Or.inl h
    · exact Or.inr (List.mem_cons_of_mem _ h)

namespace Acyclic

variable (h : Acyclic program)
include h

theorem eq_of_nodeId (ha : a ∈ program.nodes) (hb : b ∈ program.nodes) (hid : a.nodeId = b.nodeId) : a = b :=
  List.inj_on_of_nodup_map h.nodup ha hb hid

theorem nodes_nodup : program.nodes.Nodup := List.Nodup.of_map _ h.nodup

theorem idxOf_lt (hdep : DependsOn program a b) : program.nodes.idxOf a < program.nodes.idxOf b := by
  obtain ⟨ha, hb, hid⟩ := hdep
  obtain ⟨pre, post, hsplit⟩ := List.append_of_mem hb
  have hnodup := h.nodes_nodup
  have hpre : a ∈ pre := by
    have hord := h.ordered
    rw [hsplit] at hord
    rcases topological_split hord _ hid with hnil | hpre
    · cases hnil
    · obtain ⟨a', ha', heq⟩ := List.mem_map.mp hpre
      have hmem : a' ∈ program.nodes := by simp [hsplit, ha']
      exact h.eq_of_nodeId hmem ha heq ▸ ha'
  have hnb : b ∉ pre := by
    rw [hsplit, List.nodup_append] at hnodup
    exact fun hb' => hnodup.2.2 b hb' b (by simp) rfl
  rw [hsplit, List.idxOf_append_of_mem hpre, List.idxOf_append_of_notMem hnb]
  exact Nat.lt_of_lt_of_le (List.idxOf_lt_length_of_mem hpre) (by omega)

theorem path_lt (hpath : DependencyPath program a b) : program.nodes.idxOf a < program.nodes.idxOf b := by
  induction hpath with
  | single hdep => exact h.idxOf_lt hdep
  | tail _ hdep ih => exact ih.trans (h.idxOf_lt hdep)

theorem path_irrefl : ¬ DependencyPath program a a := fun hpath => Nat.lt_irrefl _ (h.path_lt hpath)

/-- The source order respects the dependencies. -/
theorem respects_nodes : Respects (DependencyPath program) program.nodes := by
  apply List.pairwise_iff_getElem.mpr
  intro i j hi hj hij hpath
  have hlt := h.path_lt hpath
  rw [h.nodes_nodup.idxOf_getElem, h.nodes_nodup.idxOf_getElem] at hlt
  omega

end Acyclic

theorem path_dependencies (hpath : DependencyPath program a b) : b.dependencies ≠ [] := by
  obtain ⟨c, -, hdep⟩ := Relation.TransGen.tail'_iff.mp hpath
  exact List.ne_nil_of_mem hdep.2.2

/-- No two nodes of the batch are on one dependency path. -/
def Unrelated (program : CommandGraphProgram) (batch : List CommandNode) : Prop :=
  ∀ a ∈ batch, ∀ b ∈ batch, ¬ DependencyPath program a b

theorem Unrelated.flat (hu : Unrelated program batch) (hsub : batch.Sublist program.nodes)
    (h : Acyclic program) : Flat batch := by
  refine ⟨h.nodup.sublist (hsub.map _), fun a ha b hb hid => hu a ha b hb ?_⟩
  exact Relation.TransGen.single ⟨hsub.subset ha, hsub.subset hb, hid⟩

end Raveil.Command
