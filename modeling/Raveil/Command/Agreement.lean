import Raveil.Command.Guard

/-! The direct and the graph executor agree on programs whose conflicts follow their dependencies. -/
namespace Raveil.Command

open Lib

variable {h : Host} {st st' : Progress} {a b n : CommandNode} {batch rest : List CommandNode}
  {digits : Digits} {w : NativeWorkspace} {program : CommandGraphProgram}

/-- What the step of one node leaves alone. -/
theorem stepNode_cases (hs : stepNode h st n = some st') :
    ¬ h.policy.maxParallel ≤ 0 ∧ ∃ o : NodeOutcome, st'.outcomes = Function.update st.outcomes n.nodeId (some o) ∧
      ((skips st.outcomes n = .ok true ∧ st'.stage = st.stage ∧ st'.streams = st.streams ∧
          o = skippedOutcome n.nodeId) ∨
        ∃ stdout, skips st.outcomes n = .ok false ∧
          (runProgram h st.streams n).run Stage.perform st.stage = (.ok (o, stdout), st'.stage) ∧
          st'.streams = Function.update st.streams n.nodeId (some stdout)) := by
  unfold stepNode at hs
  split at hs
  · cases hs
  rename_i hmax
  refine ⟨hmax, ?_⟩
  split at hs
  · cases hs
  · rename_i hskip
    cases hs
    exact ⟨_, rfl, Or.inl ⟨hskip, rfl, rfl, rfl⟩⟩
  · rename_i hskip
    split at hs
    · cases hs
    · rename_i o stdout stage hrun
      cases hs
      exact ⟨o, rfl, Or.inr ⟨stdout, hskip, hrun, rfl⟩⟩

/-- Nodes that do not wait for each other, and whose runs stay apart, can go in either order. -/
theorem steps_commute (hab : a.nodeId ∉ b.dependencies) (hba : b.nodeId ∉ a.dependencies)
    (hne : a.nodeId ≠ b.nodeId)
    (hapart : ∀ streams, (runProgram h streams a).Within fun o =>
      (runProgram h streams b).Within (Prog.Commute Stage.perform o)) : StepsCommute (stepNode h) a b := by
  intro st
  by_cases hmax : h.policy.maxParallel ≤ 0
  · simp [stepNode, hmax]
  · obtain ⟨hra, hrb, hstage⟩ := Prog.run_comm (hapart st.streams) st.stage
    rcases hruna : (runProgram h st.streams a).run Stage.perform st.stage with ⟨ra, sa⟩
    rcases hrunb : (runProgram h st.streams b).run Stage.perform st.stage with ⟨rb, sb⟩
    rw [hruna, hrunb] at hra hrb hstage
    rcases hab' : (runProgram h st.streams a).run Stage.perform sb with ⟨ra', sab⟩
    rcases hba' : (runProgram h st.streams b).run Stage.perform sa with ⟨rb', sba⟩
    simp only [hab', hba'] at hra hrb hstage
    subst hra hrb hstage
    have hupdate := fun (x y : Option NodeOutcome) => Function.update_comm hne x y st.outcomes
    have hstream := fun (x y : Option (List UInt8)) => Function.update_comm hne x y st.streams
    cases hsa : skips st.outcomes a <;> cases hsb : skips st.outcomes b <;>
      [skip; skip; skip; rename_i skipa skipb]
    · simp [stepNode, hmax, hsa, hsb]
    · rename_i skipb
      cases skipb <;> cases rb' <;>
        simp [stepNode, hmax, hsa, hsb, skips_update hba, hrunb]
    · rename_i skipa _
      cases skipa <;> cases ra' <;>
        simp [stepNode, hmax, hsa, hsb, skips_update hab, hruna]
    · cases skipa <;> cases skipb <;> cases ra' <;> cases rb' <;>
        simp [stepNode, hmax, hsa, hsb, skips_update hba, skips_update hab, runProgram_update hba,
          runProgram_update hab, hruna, hrunb, hab', hba', hupdate, hstream]

/-- The nodes of the program with the conflicts that its dependencies do not order ruled out. -/
structure Admitted (h : Host) (w : NativeWorkspace) (program : CommandGraphProgram) : Prop where
  acyclic : Acyclic program
  output : ∀ n ∈ program.nodes, ∀ file ∈ n.stdoutFile, file ∈ n.declaredWrites
  declared : ∀ n ∈ program.nodes, StaysDeclared h.machine.digits w h n
  connected : ∀ a ∈ program.nodes, ∀ b ∈ program.nodes, a ≠ b →
    Conflict h.machine.digits w a b ∨ Obstructs h.machine.digits w a b →
      DependencyPath program a b ∨ DependencyPath program b a

namespace Admitted

variable (ha : Admitted h w program)
include ha

theorem runs_apart {a b : CommandNode} (hma : a ∈ program.nodes) (hmb : b ∈ program.nodes) (hne : a ≠ b)
    (hab : ¬ DependencyPath program a b) (hba : ¬ DependencyPath program b a)
    (streams : String → Option (List UInt8)) : (runProgram h streams a).Within fun o =>
      (runProgram h streams b).Within (Prog.Commute Stage.perform o) := by
  have hno := ha.connected a hma b hmb hne
  have hno' := ha.connected b hmb a hma (Ne.symm hne)
  refine Command.runs_apart ?_ ?_ ?_ ?_ (within_runProgram (ha.declared a hma) (ha.output a hma) streams)
    (within_runProgram (ha.declared b hmb) (ha.output b hmb) streams)
  · exact fun hc => (hno (Or.inl hc)).elim hab hba
  · exact fun hc => (hno' (Or.inl hc)).elim hba hab
  · exact fun hc => (hno (Or.inr hc)).elim hab hba
  · exact fun hc => (hno' (Or.inr hc)).elim hba hab

theorem independent (hu : Unrelated program batch) (hsub : batch.Sublist program.nodes)
    (streams : String → Option (List UInt8)) :
    Independent Stage.perform (batch.map (runProgram h streams)) := by
  rw [Independent, List.pairwise_map]
  have hnodup := ha.acyclic.nodes_nodup.sublist hsub
  rw [List.Nodup, List.pairwise_iff_getElem] at hnodup
  rw [List.pairwise_iff_getElem]
  intro i j hi hj hij
  have hmi := List.getElem_mem hi
  have hmj := List.getElem_mem hj
  exact ha.runs_apart (hsub.subset hmi) (hsub.subset hmj) (hnodup i j hi hj hij) (hu _ hmi _ hmj)
    (hu _ hmj _ hmi) streams

theorem runBatch_eq (st : Progress) (choices : List ℕ) (hne : batch ≠ []) (hu : Unrelated program batch)
    (hsub : batch.Sublist program.nodes) :
    ((runBatch h choices st batch).map Prod.fst).toOption = batch.foldlM (stepNode h) st :=
  runBatch_eq_foldlM choices (hu.flat hsub ha.acyclic) hne (ha.independent hu hsub st.streams)

theorem steps_commute {a b : CommandNode} (hma : a ∈ program.nodes) (hmb : b ∈ program.nodes)
    (hab : ¬ DependencyPath program a b) (hba : ¬ DependencyPath program b a) :
    StepsCommute (stepNode h) a b := by
  by_cases hne : a = b
  · subst hne
    exact fun _ => rfl
  · apply Command.steps_commute
    · exact fun hid => hab (Relation.TransGen.single ⟨hma, hmb, hid⟩)
    · exact fun hid => hba (Relation.TransGen.single ⟨hmb, hma, hid⟩)
    · exact fun hid => hne (ha.acyclic.eq_of_nodeId hma hmb hid)
    · exact ha.runs_apart hma hmb hne hab hba

end Admitted

section Direct

theorem directBatch_unrelated (hac : Acyclic program) : Unrelated program (directBatch n rest) := by
  intro a ha b hb hpath
  unfold directBatch at ha hb
  split at hb
  · rename_i hfree
    apply path_dependencies hpath
    rcases List.mem_cons.mp hb with rfl | hb
    · exact hfree
    · simpa using List.mem_takeWhile_imp hb
  · rename_i hdep
    rw [if_neg hdep] at ha
    rw [List.mem_singleton] at ha hb
    rw [ha, hb] at hpath
    exact hac.path_irrefl hpath

/-- The direct executor does what its nodes do one after the other. -/
theorem directLoop_eq (ha : Admitted h w program) (schedule : Schedule) {fuel : ℕ} (hfuel : rest.length ≤ fuel)
    (hsub : rest.Sublist program.nodes) (round : ℕ) (maximum : ℤ) :
    ((directLoop h schedule fuel round rest st maximum).map Prod.fst).toOption =
      rest.foldlM (stepNode h) st := by
  induction fuel generalizing rest st round maximum with
  | zero =>
    rw [Nat.le_zero, List.length_eq_zero_iff] at hfuel
    subst hfuel
    rfl
  | succ fuel ih =>
    cases rest with
    | nil => rfl
    | cons node rest =>
      have happ := directBatch_append node rest
      have hbatch := ha.runBatch_eq st (schedule round) (by unfold directBatch; split <;> simp)
        (directBatch_unrelated ha.acyclic) ((List.sublist_append_left _ _).trans (happ ▸ hsub))
      rw [directLoop]
      conv_rhs => rw [← happ, List.foldlM_append, ← hbatch]
      cases hrun : runBatch h (schedule round) st (directBatch node rest) with
      | error e => rfl
      | ok r =>
        apply ih
        · simp only [List.length_cons, List.length_drop] at hfuel ⊢
          omega
        · exact ((List.drop_sublist _ _).trans (List.sublist_cons_self _ _)).trans hsub

end Direct

section Graph

/-- The pending nodes are those without an outcome, and outcomes come after those they wait for. -/
structure Frontier (program : CommandGraphProgram) (st : Progress) (pending : List CommandNode) : Prop where
  pending_eq : pending = program.nodes.filter fun n => (st.outcomes n.nodeId).isNone
  closed : ∀ n ∈ program.nodes, (st.outcomes n.nodeId).isSome → ∀ dep ∈ n.dependencies, (st.outcomes dep).isSome

/-- A batch gives outcomes to its own nodes. -/
theorem foldlM_outcomes (hs : batch.foldlM (stepNode h) st = some st') (id : String) :
    (st'.outcomes id).isSome ↔ (st.outcomes id).isSome ∨ id ∈ batch.map (·.nodeId) := by
  induction batch generalizing st with
  | nil =>
    cases hs
    simp
  | cons n batch ih =>
    rw [List.foldlM_cons] at hs
    cases hn : stepNode h st n with
    | none => simp [hn] at hs
    | some st₁ =>
      simp only [hn, Option.bind_eq_bind, Option.bind_some] at hs
      obtain ⟨-, o, hout, -⟩ := stepNode_cases hn
      rw [ih hs, hout, List.map_cons, List.mem_cons]
      by_cases hid : id = n.nodeId
      · subst hid
        simp
      · simp [hid]

variable {pending : List CommandNode}

theorem mem_readyNodes : n ∈ readyNodes st pending ↔
    n ∈ pending ∧ ∀ dep ∈ n.dependencies, (st.outcomes dep).isSome := by
  simp [readyNodes]

namespace Frontier

variable (hf : Frontier program st pending)
include hf

theorem mem_pending : n ∈ pending ↔ n ∈ program.nodes ∧ (st.outcomes n.nodeId).isNone := by
  rw [hf.pending_eq, List.mem_filter]

theorem sublist : pending.Sublist program.nodes := hf.pending_eq ▸ List.filter_sublist

/-- What a node with finished dependencies waits for is finished. -/
theorem isSome_of_path (hpath : DependencyPath program a b) (hb : ∀ dep ∈ b.dependencies, (st.outcomes dep).isSome) :
    (st.outcomes a.nodeId).isSome := by
  induction hpath with
  | single hdep => exact hb _ hdep.2.2
  | tail _ hdep ih => exact ih (hf.closed _ hdep.1 (hb _ hdep.2.2))

theorem not_path_ready (ha : a ∈ pending) (hb : b ∈ readyNodes st pending) : ¬ DependencyPath program a b := by
  intro hpath
  have hsome := hf.isSome_of_path hpath (mem_readyNodes.mp hb).2
  have hnone := (hf.mem_pending.mp ha).2
  simp [Option.isNone_iff_eq_none.mp hnone] at hsome

theorem unrelated_ready : Unrelated program (readyNodes st pending) :=
  fun _ ha _ hb => hf.not_path_ready (mem_readyNodes.mp ha).1 hb

/-- The first pending node is ready. -/
theorem ready_ne_nil (hac : Acyclic program) (hne : pending ≠ []) : readyNodes st pending ≠ [] := by
  obtain ⟨node, rest, rfl⟩ := List.exists_cons_of_ne_nil hne
  obtain ⟨pre, post, hsplit, hpre, hnode, -⟩ := List.filter_eq_cons_iff.mp hf.pending_eq.symm
  apply List.ne_nil_of_mem (a := node)
  rw [mem_readyNodes]
  refine ⟨by simp, fun dep hdep => ?_⟩
  have hord := hac.ordered
  rw [hsplit] at hord
  rcases topological_split hord dep hdep with hnil | hmem
  · cases hnil
  · obtain ⟨x, hx, rfl⟩ := List.mem_map.mp hmem
    simpa [Option.isSome_iff_ne_none] using hpre x hx

/-- After the ready nodes the others are pending. -/
theorem next (hac : Acyclic program) (hs : (readyNodes st pending).foldlM (stepNode h) st = some st') :
    Frontier program st' (pending.filter (· ∉ readyNodes st pending)) := by
  have hsome := foldlM_outcomes hs
  constructor
  · rw [hf.pending_eq, List.filter_filter]
    apply List.filter_congr
    intro n hn
    have hready : n.nodeId ∈ (readyNodes st pending).map (·.nodeId) ↔ n ∈ readyNodes st pending := by
      constructor
      · intro hmem
        obtain ⟨x, hx, hid⟩ := List.mem_map.mp hmem
        exact hac.eq_of_nodeId (hf.sublist.subset (mem_readyNodes.mp hx).1) hn hid ▸ hx
      · exact fun hmem => List.mem_map_of_mem hmem
    have := hsome n.nodeId
    rw [hready, hf.pending_eq] at this
    rw [Bool.eq_iff_iff]
    simp only [decide_not, Bool.and_eq_true, Bool.not_eq_true', decide_eq_false_iff_not,
      Option.isNone_iff_eq_none, Option.isSome_iff_ne_none] at this ⊢
    tauto
  · intro n hn hnsome dep hdep
    rw [hsome]
    rcases (hsome _).mp hnsome with hold | hnew
    · exact Or.inl (hf.closed n hn hold dep hdep)
    · obtain ⟨x, hx, hid⟩ := List.mem_map.mp hnew
      have hready := mem_readyNodes.mp hx
      obtain rfl := hac.eq_of_nodeId (hf.sublist.subset hready.1) hn hid
      exact Or.inl (hready.2 dep hdep)

end Frontier

/-- The graph executor does what its nodes do in some order that respects the dependencies. -/
theorem graphLoop_eq (ha : Admitted h w program) (schedule : Schedule) {fuel : ℕ}
    (hf : Frontier program st pending) (hfuel : pending.length ≤ fuel) (round : ℕ) (maximum : ℤ) :
    ∃ order : List CommandNode, order.Perm pending ∧ Respects (DependencyPath program) order ∧
      ((graphLoop h schedule fuel round pending st maximum).map Prod.fst).toOption =
        order.foldlM (stepNode h) st := by
  induction fuel generalizing pending st round maximum with
  | zero =>
    rw [Nat.le_zero, List.length_eq_zero_iff] at hfuel
    subst hfuel
    exact ⟨[], List.Perm.nil, List.Pairwise.nil, rfl⟩
  | succ fuel ih =>
    by_cases hnil : pending = []
    · subst hnil
      exact ⟨[], List.Perm.nil, List.Pairwise.nil, rfl⟩
    have hne := hf.ready_ne_nil ha.acyclic hnil
    have hsub : (readyNodes st pending).Sublist program.nodes := List.filter_sublist.trans hf.sublist
    have hbatch := ha.runBatch_eq st (schedule round) hne hf.unrelated_ready hsub
    -- the ready nodes, then any order of the others that respects the dependencies
    have hperm : (readyNodes st pending ++ pending.filter (· ∉ readyNodes st pending)).Perm pending := by
      have hrest : pending.filter (· ∉ readyNodes st pending) =
          pending.filter fun n => !n.dependencies.all fun dep => (st.outcomes dep).isSome := by
        apply List.filter_congr
        intro n hn
        rw [Bool.eq_iff_iff]
        simp [mem_readyNodes, hn]
      rw [hrest]
      exact List.filter_append_perm _ _
    have hrespects : ∀ order : List CommandNode, order.Perm (pending.filter (· ∉ readyNodes st pending)) →
        Respects (DependencyPath program) order →
          Respects (DependencyPath program) (readyNodes st pending ++ order) := by
      intro order hp hr
      apply List.pairwise_append.mpr
      refine ⟨ha.acyclic.respects_nodes.sublist hsub, hr, fun x hx y hy => ?_⟩
      exact hf.not_path_ready (List.mem_filter.mp (hp.subset hy)).1 hx
    have hloop : graphLoop h schedule (fuel + 1) round pending st maximum = (do
        let r ← runBatch h (schedule round) st (readyNodes st pending)
        graphLoop h schedule fuel (round + 1) (pending.filter (· ∉ readyNodes st pending)) r.1
          (max maximum r.2)) := by
      obtain ⟨node, rest, rfl⟩ := List.exists_cons_of_ne_nil hnil
      rw [graphLoop, require_of hne]
      rfl
    rw [hloop]
    cases hrun : runBatch h (schedule round) st (readyNodes st pending) with
    | error e =>
      rw [hrun] at hbatch
      refine ⟨_, hperm, hrespects _ (List.Perm.refl _) ?_, ?_⟩
      · exact ha.acyclic.respects_nodes.sublist (List.filter_sublist.trans hf.sublist)
      · rw [List.foldlM_append, ← hbatch]
        rfl
    | ok r =>
      rw [hrun] at hbatch
      have hnext := hf.next ha.acyclic hbatch.symm
      have hlen : (pending.filter (· ∉ readyNodes st pending)).length ≤ fuel := by
        have := hperm.length_eq
        rw [List.length_append] at this
        have := List.length_pos_of_ne_nil hne
        omega
      obtain ⟨order, hp, hr, heq⟩ := ih hnext hlen (round + 1) (max maximum r.2)
      refine ⟨readyNodes st pending ++ order, (hp.append_left _).trans hperm, hrespects order hp hr, ?_⟩
      rw [List.foldlM_append, ← hbatch]
      exact heq

end Graph

/-- An outcome without the number of workers, which no comparison looks at. -/
def ExecutionOutcome.observed (o : ExecutionOutcome) : ExecutionOutcome := { o with maximumConcurrency := 0 }

theorem finish_observed (st : Progress) (initial : List (String × String)) (m m' : ℤ) :
    (finish program st initial m).toOption.map ExecutionOutcome.observed =
      (finish program st initial m').toOption.map ExecutionOutcome.observed := by
  unfold finish
  cases program.nodes.mapM fun node => ((st.outcomes node.nodeId).elim (.error node.nodeId) .ok : Except String NodeOutcome) <;>
    rfl

/-- What an execution shows once its loop has ended. -/
theorem observed_bind {x : Except String (Progress × ℤ)} {y : Option Progress} (initial : List (String × String))
    (hx : (x.map Prod.fst).toOption = y) :
    (x >>= fun r => finish program r.1 initial r.2).toOption.map ExecutionOutcome.observed =
      y.bind fun st => (finish program st initial 0).toOption.map ExecutionOutcome.observed := by
  subst hx
  cases x with
  | error e => rfl
  | ok r => exact finish_observed r.1 initial r.2 0

theorem validateNode_eq_ok {m : Machine} {f : Finset String × Finset String} (hv : validateNode m w n = .ok f) :
    ∃ c, classify m.digits w n = .ok c ∧ c.args = n.argv ∧ c.pathIndices = n.pathIndices ∧
      sorted (c.writes ∪ asSet n.stdoutFile) = n.declaredWrites := by
  simp only [validateNode, except_bind_eq_ok, require_eq_ok, exists_const] at hv
  obtain ⟨-, -, c, hc, ⟨hargs, hpaths⟩, hwrites, -⟩ := hv
  exact ⟨c, hc, hargs, hpaths, hwrites⟩

theorem validateExecutable_eq_ok {m : Machine} (hv : validateExecutable m w program = .ok ()) :
    ∀ n ∈ program.nodes, ∃ f, validateNode m w n = .ok f := by
  simp only [validateExecutable, except_bind_eq_ok, require_eq_ok, exists_const] at hv
  obtain ⟨-, footprints, hall, -⟩ := hv
  intro n hn
  obtain ⟨f, -, hf⟩ := exists_of_mapM_eq_ok hall hn
  exact ⟨f, hf⟩

theorem admitted_of_validate (hvalid : program.validate = .ok ())
    (hexec : validateExecutable h.machine w program = .ok ())
    (htool : ∀ n ∈ program.nodes, StaysDeclared h.machine.digits w h n)
    (hconn : ∀ a ∈ program.nodes, ∀ b ∈ program.nodes, a ≠ b →
      Conflict h.machine.digits w a b ∨ Obstructs h.machine.digits w a b →
        DependencyPath program a b ∨ DependencyPath program b a) : Admitted h w program := by
  refine ⟨acyclic_of_validate hvalid, fun n hn file hfile => ?_, htool, hconn⟩
  obtain ⟨f, hf⟩ := validateExecutable_eq_ok hexec n hn
  obtain ⟨c, -, -, -, hwrites⟩ := validateNode_eq_ok hf
  rw [← hwrites, sorted, Finset.mem_sort, Finset.mem_union]
  right
  rw [Option.mem_def.mp hfile]
  exact Finset.mem_singleton_self file

/-- What either executor shows: the nodes one after the other in source order. -/
def observedRun (h : Host) (program : CommandGraphProgram) (stage : Stage) (initial : List (String × String)) :
    Option ExecutionOutcome :=
  (program.nodes.foldlM (stepNode h) { stage }).bind fun st =>
    (finish program st initial 0).toOption.map ExecutionOutcome.observed

theorem executeDirect_eq (ha : Admitted h w program) (schedule : Schedule) (stage : Stage)
    (initial : List (String × String)) :
    (executeDirect h schedule program stage initial).toOption.map ExecutionOutcome.observed =
      observedRun h program stage initial :=
  observed_bind initial (directLoop_eq ha schedule (Nat.le_refl _) (List.Sublist.refl _) 0 1)

theorem executeGraph_eq (ha : Admitted h w program) (schedule : Schedule) (stage : Stage)
    (initial : List (String × String)) :
    (executeGraph h schedule program stage initial).toOption.map ExecutionOutcome.observed =
      observedRun h program stage initial := by
  have hf : Frontier program { stage } program.nodes := ⟨by simp, by simp⟩
  obtain ⟨order, hperm, hrespects, heq⟩ := graphLoop_eq ha schedule hf (Nat.le_refl _) 0 0
  have hsame : order.foldlM (stepNode h) { stage } = program.nodes.foldlM (stepNode h) { stage } := by
    apply foldlM_perm hperm hrespects ha.acyclic.respects_nodes
    intro a hma b hmb hab hba
    exact ha.steps_commute (hperm.subset hma) (hperm.subset hmb) hab hba
  exact observed_bind initial (heq.trans hsame)

theorem differences_of_observed {direct graph : ExecutionOutcome} (ho : direct.observed = graph.observed) :
    differences direct graph = [] := by
  simp only [ExecutionOutcome.observed, ExecutionOutcome.mk.injEq] at ho
  obtain ⟨hstatus, hexit, hstdout, hstderr, houtputs, -⟩ := ho
  simp [differences, hstatus, hexit, hstdout, hstderr, houtputs]

/-- Both executors show the same, whatever orders their runs act in, and the comparison finds no
difference. -/
theorem executors_agree (h : Host) (w : NativeWorkspace) (program : CommandGraphProgram) (stage : Stage)
    (initial : List (String × String)) (schedules : Schedule × Schedule) (hvalid : program.validate = .ok ())
    (hexec : validateExecutable h.machine w program = .ok ())
    (htool : ∀ n ∈ program.nodes, StaysDeclared h.machine.digits w h n)
    (hconn : ∀ a ∈ program.nodes, ∀ b ∈ program.nodes, a ≠ b →
      Conflict h.machine.digits w a b ∨ Obstructs h.machine.digits w a b →
        DependencyPath program a b ∨ DependencyPath program b a) :
    (executeDirect h schedules.1 program stage initial).toOption.map ExecutionOutcome.observed =
        (executeGraph h schedules.2 program stage initial).toOption.map ExecutionOutcome.observed ∧
      ∀ result, compare h w schedules program stage initial = .ok result → result.differences = [] := by
  refine ⟨?_, fun result hresult => ?_⟩
  · have ha := admitted_of_validate hvalid hexec htool hconn
    rw [executeDirect_eq ha, executeGraph_eq ha]
  · simp only [compare, except_bind_eq_ok, except_pure_eq_ok] at hresult
    obtain ⟨-, -, -, -, direct, hdirect, graph, hgraph, rfl⟩ := hresult
    have ha := admitted_of_validate (h := { h with policy := program.policy }) hvalid hexec htool hconn
    have heq := (executeDirect_eq ha schedules.1 stage initial).trans
      (executeGraph_eq ha schedules.2 stage initial).symm
    rw [hdirect, hgraph] at heq
    exact differences_of_observed (Option.some.inj heq)

section Sample

/-- A host whose tools answer as the real ones do on what follows; the file `/in` has no match. -/
def sampleMachine : Machine where
  digits := ⟨Char.isDigit, fun c => if c.isDigit then some (c.toNat - 48) else none⟩
  binary _ _ := some []
  probe _ _ _ := none

def sampleWorkspace : NativeWorkspace where
  cwdParts := []
  cwd_component := components_nil
  rootKept := true
  lstat p := if p = [] then .directory else if p = ["in"] then .regular else .missing

def sampleProcess : Process := fun tool argv _ =>
  match tool.logicalName, argv with
  | "grep", [_, .path p] => .act (.look p) fun _ => .done (.exited 1 [] [])
  | "ls", [.path p] => .act (.look p) fun e =>
    .done (if e = some .directory then .exited 0 "f\n".toUTF8.toList [] else .exited 2 [] [])
  | "echo", _ => .done (.exited 0 "x\n".toUTF8.toList [])
  | _, _ => .done (.exited 2 [] [])

def sampleHost : Host := ⟨sampleMachine, sampleProcess, {}⟩

def sampleStage : Stage where
  lookup p := if p = ["in"] then some (.file "x\n".toUTF8.toList) else none
  paths := {["in"]}
  mem_paths p := by by_cases hp : p = ["in"] <;> simp [hp]

def sampleTool (name : String) : ToolIdentity :=
  ⟨name, locatorOf name (hexdigest []), reportedVersion sampleMachine "/usr/bin" name (hexdigest []),
    hexdigest [], "direct-argv", TOOL_SCHEMA⟩

def grepNode : CommandNode :=
  { nodeId := "node-001-grep", tool := sampleTool "grep", argv := ["NEVER", "/in"], pathIndices := [1]
    declaredWrites := ["/d"], stdinFile := none, stdoutFile := some "/d", dependencies := []
    dependencyMode := .always, fanoutGroup := 0 }

def lsNode : CommandNode :=
  { nodeId := "node-002-ls", tool := sampleTool "ls", argv := ["/d"], pathIndices := [0]
    declaredWrites := [], stdinFile := none, stdoutFile := none, dependencies := ["node-001-grep"]
    dependencyMode := .always, fanoutGroup := 0 }

def echoNode : CommandNode :=
  { nodeId := "node-003-echo", tool := sampleTool "echo", argv := ["x"], pathIndices := []
    declaredWrites := ["/d/f"], stdinFile := none, stdoutFile := some "/d/f", dependencies := []
    dependencyMode := .always, fanoutGroup := 1 }

/-- A program of the sample's nodes, with its identity. -/
def sampleProgram (source : String) (nodes : List CommandNode) (outputs : List String) : CommandGraphProgram :=
  CommandGraphProgram.sealed
    { graphId := "pending", source, nodes
      edges := [{ source := "node-001-grep", target := "node-002-ls", kind := .sequence }]
      declaredInputs := ["/in"], declaredOutputs := outputs, policy := {}, environment := controlledEnvironment }

def chained : CommandGraphProgram := sampleProgram "grep NEVER /in > /d ; ls /d" [grepNode, lsNode] ["/d"]

def obstructed : CommandGraphProgram :=
  sampleProgram "grep NEVER /in > /d ; ls /d ||| echo x > /d/f" [grepNode, lsNode, echoNode] ["/d", "/d/f"]

variable {p : List String}

theorem touches_grep (ht : Reads sampleMachine.digits sampleWorkspace grepNode p ∨ Writes grepNode p) :
    p = ["in"] ∨ p = ["d"] := by
  have hc : classify sampleMachine.digits sampleWorkspace grepNode = .ok ⟨["NEVER", "/in"], [1], {"/in"}, ∅⟩ := rfl
  rcases ht with (⟨c, hcc, v, hv, hp⟩ | ⟨v, hv, hp⟩) | ⟨v, hv, hp⟩
  · obtain rfl := Except.ok.inj (hc.symm.trans hcc)
    obtain rfl := Finset.mem_singleton.mp hv
    exact Or.inl (Except.ok.inj hp).symm
  · cases hv
  · obtain rfl := List.mem_singleton.mp hv
    exact Or.inr (Except.ok.inj hp).symm

theorem writes_grep (ht : Writes grepNode p) : p = ["d"] := by
  obtain ⟨v, hv, hp⟩ := ht
  obtain rfl := List.mem_singleton.mp hv
  exact (Except.ok.inj hp).symm

theorem touches_ls (ht : Reads sampleMachine.digits sampleWorkspace lsNode p ∨ Writes lsNode p) : p = ["d"] := by
  have hc : classify sampleMachine.digits sampleWorkspace lsNode = .ok ⟨["/d"], [0], {"/d"}, ∅⟩ := rfl
  rcases ht with (⟨c, hcc, v, hv, hp⟩ | ⟨v, hv, hp⟩) | ⟨v, hv, hp⟩
  · obtain rfl := Except.ok.inj (hc.symm.trans hcc)
    obtain rfl := Finset.mem_singleton.mp hv
    exact (Except.ok.inj hp).symm
  · cases hv
  · cases hv

theorem touches_echo (ht : Reads sampleMachine.digits sampleWorkspace echoNode p ∨ Writes echoNode p) :
    p = ["d", "f"] := by
  have hc : classify sampleMachine.digits sampleWorkspace echoNode = .ok ⟨["x"], [], ∅, ∅⟩ := rfl
  rcases ht with (⟨c, hcc, v, hv, hp⟩ | ⟨v, hv, hp⟩) | ⟨v, hv, hp⟩
  · obtain rfl := Except.ok.inj (hc.symm.trans hcc)
    cases hv
  · cases hv
  · obtain rfl := List.mem_singleton.mp hv
    exact (Except.ok.inj hp).symm

theorem sample_staysDeclared {n : CommandNode} (hn : n ∈ [grepNode, lsNode, echoNode]) :
    StaysDeclared sampleMachine.digits sampleWorkspace sampleHost n := by
  intro argv stdin hargv
  rcases List.mem_cons.mp hn with rfl | hn
  · obtain rfl : [.text "NEVER", .path ["in"]] = argv := Except.ok.inj hargv
    exact ⟨Or.inl (Or.inl ⟨_, rfl, "/in", Finset.mem_singleton_self _, rfl⟩), fun _ => trivial⟩
  rcases List.mem_cons.mp hn with rfl | hn
  · obtain rfl : [.path ["d"]] = argv := Except.ok.inj hargv
    exact ⟨Or.inl (Or.inl ⟨_, rfl, "/d", Finset.mem_singleton_self _, rfl⟩), fun _ => trivial⟩
  · obtain rfl := List.mem_singleton.mp hn
    trivial

theorem chained_connected {a b : CommandNode} (ha : a ∈ chained.nodes) (hb : b ∈ chained.nodes) (hne : a ≠ b) :
    DependencyPath chained a b ∨ DependencyPath chained b a := by
  have hdep : DependsOn chained grepNode lsNode := ⟨by simp [chained, sampleProgram, CommandGraphProgram.sealed], by simp [chained, sampleProgram, CommandGraphProgram.sealed], by decide⟩
  simp only [chained, sampleProgram, CommandGraphProgram.sealed, List.mem_cons, List.not_mem_nil, or_false] at ha hb
  rcases ha with rfl | rfl <;> rcases hb with rfl | rfl
  · exact absurd rfl hne
  · exact Or.inl (Relation.TransGen.single hdep)
  · exact Or.inr (Relation.TransGen.single hdep)
  · exact absurd rfl hne

theorem sample_validate (source : String) (nodes : List CommandNode) (outputs : List String)
    (hne : nodes ≠ [] ∧ (nodes.length : ℤ) ≤ 64) (hnodup : (nodes.map (·.nodeId)).Nodup)
    (hord : CommandGraphProgram.topological [] nodes = true) (hout : outputs.Nodup) :
    (sampleProgram source nodes outputs).validate = .ok () := by
  simp only [CommandGraphProgram.validate, check_then_eq_ok, require_eq_ok]
  exact ⟨⟨rfl, rfl⟩, hne, hnodup, hord, hout, by simp [sampleProgram, CommandGraphProgram.sealed]⟩

theorem chained_validate : chained.validate = .ok () :=
  sample_validate _ _ _ (by decide) (by decide) (by decide) (by decide)

theorem obstructed_validate : obstructed.validate = .ok () :=
  sample_validate _ _ _ (by decide) (by decide) (by decide) (by decide)

/-- The one writes `/d`, the other lists it afterwards, whatever the orders in a batch. -/
theorem executors_agree_chained :
    (executeDirect sampleHost (fun _ => []) chained sampleStage []).toOption.map ExecutionOutcome.observed =
        (executeGraph sampleHost (fun _ => [1, 0]) chained sampleStage []).toOption.map ExecutionOutcome.observed ∧
      ∀ result, compare sampleHost sampleWorkspace (fun _ => [], fun _ => [1, 0]) chained sampleStage [] = .ok result →
        result.differences = [] := by
  apply executors_agree sampleHost sampleWorkspace chained sampleStage [] (fun _ => [], fun _ => [1, 0])
    chained_validate
  · decide +kernel
  · intro n hn
    apply sample_staysDeclared
    simp only [chained, sampleProgram, CommandGraphProgram.sealed, List.mem_cons, List.not_mem_nil, or_false] at hn ⊢
    tauto
  · exact fun a ha b hb hne _ => chained_connected ha hb hne

/-- Conflicts at equal paths are not enough: the redirection to `/d/f` makes `/d`, which the direct
executor lists before and the graph executor after it is made. -/
theorem executors_disagree : ¬ ∀ (h : Host) (w : NativeWorkspace) (program : CommandGraphProgram) (stage : Stage)
    (initial : List (String × String)) (schedules : Schedule × Schedule), program.validate = .ok () →
    validateExecutable h.machine w program = .ok () →
    (∀ n ∈ program.nodes, StaysDeclared h.machine.digits w h n) →
    (∀ a ∈ program.nodes, ∀ b ∈ program.nodes, a ≠ b → Conflict h.machine.digits w a b →
      DependencyPath program a b ∨ DependencyPath program b a) →
    (executeDirect h schedules.1 program stage initial).toOption.map ExecutionOutcome.observed =
        (executeGraph h schedules.2 program stage initial).toOption.map ExecutionOutcome.observed ∧
      ∀ result, compare h w schedules program stage initial = .ok result → result.differences = [] := by
  intro hall
  have hdirect : (executeDirect sampleHost (fun _ => []) obstructed sampleStage []).toOption.map
      (fun o => o.nodes.map (·.status)) = some [.failed, .failed, .executed] := by decide +kernel
  have hgraph : (executeGraph sampleHost (fun _ => []) obstructed sampleStage []).toOption.map
      (fun o => o.nodes.map (·.status)) = some [.failed, .executed, .executed] := by decide +kernel
  have hsame := (hall sampleHost sampleWorkspace obstructed sampleStage [] (fun _ => [], fun _ => [])
    obstructed_validate (by decide +kernel) (fun n hn => sample_staysDeclared hn) ?_).1
  · have hmap := congrArg (Option.map fun o => o.nodes.map (·.status)) hsame
    simp only [Option.map_map] at hmap
    cases (hdirect.symm.trans hmap).trans hgraph
  · intro a ha b hb hne ⟨p, hwrite, htouch⟩
    have hdep : DependsOn obstructed grepNode lsNode :=
      ⟨by simp [obstructed, sampleProgram, CommandGraphProgram.sealed], by simp [obstructed, sampleProgram, CommandGraphProgram.sealed], by decide⟩
    simp only [obstructed, sampleProgram, CommandGraphProgram.sealed, List.mem_cons, List.not_mem_nil, or_false] at ha hb
    rcases ha with rfl | rfl | rfl
    · obtain rfl := writes_grep hwrite
      rcases hb with rfl | rfl | rfl
      · exact absurd rfl hne
      · exact Or.inl (Relation.TransGen.single hdep)
      · cases touches_echo htouch
    · obtain ⟨v, hv, -⟩ := hwrite
      cases hv
    · obtain rfl := touches_echo (Or.inr hwrite)
      rcases hb with rfl | rfl | rfl
      · rcases touches_grep htouch with hp | hp <;> simp at hp
      · cases touches_ls htouch
      · exact absurd rfl hne

end Sample

end Raveil.Command
