import Mathlib.Data.String.Basic
import Raveil.Flow.Stages
import Raveil.Lib.Topological

/-! The schedule of a flow is the least topological order of its stages, and does not look at their tiles. -/
namespace Raveil.Flow
open Lib

variable {value : FlowSource} {order stages : List Stage} {stage : Stage} {names names' : Finset String}

section Schedule

theorem nextStage_eq (pending : List Stage) : nextStage pending = firstReady (·.name) dependencies pending := rfl

theorem schedule_eq (n : ℕ) (pending : List Stage) : schedule n pending =
    (scheduleReady (·.name) dependencies n pending).elim (.error "cyclic flow dependencies") .ok := by
  induction n generalizing pending with
  | zero => cases pending <;> rfl
  | succ n ih =>
    cases pending with
    | nil => rfl
    | cons stage pending =>
      rw [schedule, scheduleReady, nextStage_eq]
      cases firstReady (·.name) dependencies (stage :: pending) with
      | none => rfl
      | some next =>
        dsimp only [Option.bind_eq_bind, Option.bind_some]
        rw [ih]
        cases scheduleReady (·.name) dependencies n ((stage :: pending).filter fun b => b.name ≠ next.name) <;> rfl

/-- What is checked of one stage. -/
structure StageOk (stage : Stage) : Prop where
  name : Fold.nameOk stage.name
  count : 1 ≤ stage.source.inputs.length ∧ stage.source.inputs.length ≤ 2
  links : ∀ name ∈ dependencies stage, Fold.nameOk name

/-- What is checked of a flow before it is scheduled. -/
structure WellFormed (value : FlowSource) : Prop where
  schema : value.schema = SCHEMA
  count : 1 ≤ value.stages.length ∧ value.stages.length ≤ 8
  outputCount : 1 ≤ value.outputs.length ∧ value.outputs.length ≤ 8
  stages : ∀ stage ∈ value.stages, StageOk stage
  nodup : (value.stages.map (·.name)).Nodup
  outputs : ∀ name ∈ value.outputs, name ∈ value.stages.map (·.name)
  distinct : value.outputs.Nodup
  producers : ∀ stage ∈ value.stages, ∀ name ∈ dependencies stage, name ∈ value.stages.map (·.name)

theorem checkStage_iff : checkStage names stage = .ok names' ↔
    StageOk stage ∧ stage.name ∉ names ∧ names' = insert stage.name names := by
  unfold checkStage
  rw [require_then_eq_ok, require_then_eq_ok, require_then_eq_ok, check_then_eq_ok, forM_eq_ok, except_pure_eq_ok]
  constructor
  · rintro ⟨hname, hfresh, hcount, hlinks, heq⟩
    exact ⟨⟨hname, hcount, fun name h => require_eq_ok.mp (hlinks name h)⟩, hfresh, heq.symm⟩
  · rintro ⟨⟨hname, hcount, hlinks⟩, hfresh, heq⟩
    exact ⟨hname, hfresh, hcount, fun name h => require_eq_ok.mpr (hlinks name h), heq.symm⟩

theorem checkStages_iff : stages.foldlM checkStage names = .ok names' ↔
    (∀ stage ∈ stages, StageOk stage) ∧ (stages.map (·.name)).Nodup ∧ (∀ stage ∈ stages, stage.name ∉ names) ∧
      names' = names ∪ (stages.map (·.name)).toFinset := by
  induction stages generalizing names with
  | nil => simp [pure, Except.pure, eq_comm]
  | cons stage stages ih =>
    rw [List.foldlM_cons, except_bind_eq_ok, List.forall_mem_cons, List.forall_mem_cons, List.map_cons, List.nodup_cons]
    constructor
    · rintro ⟨next, hstage, hrest⟩
      obtain ⟨hok, hfresh, rfl⟩ := checkStage_iff.mp hstage
      obtain ⟨hall, hnodup, hout, rfl⟩ := ih.mp hrest
      refine ⟨⟨hok, hall⟩, ⟨?_, hnodup⟩, ⟨hfresh, ?_⟩, ?_⟩
      · intro hin
        obtain ⟨other, hother, heq⟩ := List.mem_map.mp hin
        exact hout other hother (Finset.mem_insert.mpr (Or.inl heq))
      · exact fun other hother hin => hout other hother (Finset.mem_insert_of_mem hin)
      · ext name
        simp only [Finset.mem_union, Finset.mem_insert, List.toFinset_cons]
        tauto
    · rintro ⟨⟨hok, hall⟩, ⟨hin, hnodup⟩, ⟨hfresh, hout⟩, rfl⟩
      refine ⟨insert stage.name names, checkStage_iff.mpr ⟨hok, hfresh, rfl⟩, ih.mpr ⟨hall, hnodup, ?_, ?_⟩⟩
      · intro other hother hmem
        rcases Finset.mem_insert.mp hmem with heq | hmem
        · exact hin (heq ▸ List.mem_map_of_mem hother)
        · exact hout other hother hmem
      · ext name
        simp only [Finset.mem_union, Finset.mem_insert, List.toFinset_cons]
        tauto

/-- On a well-formed flow the structure is the schedule. -/
theorem WellFormed.structure_eq (h : WellFormed value) :
    flowStructure value = schedule value.stages.length value.stages := by
  have hchecked : value.stages.foldlM checkStage ∅ = .ok (value.stages.map (·.name)).toFinset :=
    checkStages_iff.mpr ⟨h.stages, h.nodup, by simp, by simp⟩
  have hmem (name : String) : name ∈ (value.stages.map (·.name)).toFinset ↔ name ∈ value.stages.map (·.name) :=
    List.mem_toFinset
  unfold flowStructure
  rw [require_of ⟨h.schema, h.count, h.outputCount⟩, hchecked]
  dsimp only [bind, Except.bind]
  rw [require_of (fun name hname => (hmem name).mpr (h.outputs name hname)), require_of h.distinct,
    require_of (fun stage hstage name hname => (hmem name).mpr (h.producers stage hstage name hname))]

theorem wellFormed_of_structure (h : flowStructure value = .ok order) : WellFormed value := by
  obtain ⟨⟨hschema, hcount, houtputs⟩, h⟩ := require_then_eq_ok.mp h
  obtain ⟨names, hnames, h⟩ := except_bind_eq_ok.mp h
  obtain ⟨hknown, h⟩ := require_then_eq_ok.mp h
  obtain ⟨hdistinct, h⟩ := require_then_eq_ok.mp h
  obtain ⟨hproducers, h⟩ := require_then_eq_ok.mp h
  obtain ⟨hall, hnodup, -, rfl⟩ := checkStages_iff.mp hnames
  simp only [Finset.empty_union, List.mem_toFinset] at hknown hproducers
  exact ⟨hschema, hcount, houtputs, hall, hnodup, hknown, hdistinct, hproducers⟩

theorem flowStructure_eq_ok : flowStructure value = .ok order ↔
    WellFormed value ∧ Least (·.name) dependencies value.stages order := by
  constructor
  · intro h
    have hwell := wellFormed_of_structure h
    rw [hwell.structure_eq, schedule_eq] at h
    refine ⟨hwell, (scheduleReady_eq_some hwell.nodup le_rfl).mp ?_⟩
    cases hs : scheduleReady (·.name) dependencies value.stages.length value.stages with
    | none =>
      rw [hs] at h
      cases h
    | some order' =>
      rw [hs] at h
      cases h
      rfl
  · rintro ⟨hwell, hleast⟩
    rw [hwell.structure_eq, schedule_eq, (scheduleReady_eq_some hwell.nodup le_rfl).mpr hleast]
    rfl

/-- What the structure of a flow says about its schedule. -/
structure Scheduled (value : FlowSource) (order : List Stage) : Prop where
  perm : order.Perm value.stages
  nodup : (order.map (·.name)).Nodup
  outputs : ∀ name ∈ value.outputs, name ∈ order.map (·.name)

theorem scheduled_of_structure (h : flowStructure value = .ok order) : Scheduled value order := by
  obtain ⟨hwell, hleast⟩ := flowStructure_eq_ok.mp h
  have hnames := hleast.perm.map (·.name)
  exact ⟨hleast.perm, hnames.nodup_iff.mpr hwell.nodup, fun name hname => hnames.mem_iff.mpr (hwell.outputs name hname)⟩

end Schedule

section Map

variable {g : Stage → Stage}

/-- The flow with every stage changed. -/
def FlowSource.mapStages (value : FlowSource) (g : Stage → Stage) : FlowSource := { value with stages := value.stages.map g }

/-- A change of stages that keeps their names and inputs. -/
structure Keeps (g : Stage → Stage) : Prop where
  name : ∀ stage, (g stage).name = stage.name
  inputs : ∀ stage, (g stage).source.inputs = stage.source.inputs

theorem Keeps.dependencies (h : Keeps g) (stage : Stage) : dependencies (g stage) = dependencies stage := by
  unfold Flow.dependencies
  rw [h.inputs]

theorem Keeps.checkStage (h : Keeps g) (names : Finset String) (stage : Stage) :
    checkStage names (g stage) = checkStage names stage := by
  unfold Flow.checkStage
  rw [h.name, h.inputs, h.dependencies]

theorem Keeps.schedule (h : Keeps g) (n : ℕ) (pending : List Stage) :
    schedule n (pending.map g) = (schedule n pending).map (·.map g) := by
  rw [schedule_eq, schedule_eq, scheduleReady_map h.name fun stage _ => h.dependencies stage]
  cases scheduleReady (·.name) Flow.dependencies n pending <;> rfl

/-- The structure of a flow does not look at anything but names and inputs. -/
theorem Keeps.flowStructure (h : Keeps g) (value : FlowSource) :
    flowStructure (value.mapStages g) = (flowStructure value).map (·.map g) := by
  have hstages : (value.mapStages g).stages = value.stages.map g := rfl
  have hfold : (value.stages.map g).foldlM Flow.checkStage ∅ = value.stages.foldlM Flow.checkStage ∅ := by
    rw [List.foldlM_map]
    simp only [h.checkStage]
  have hproducers (names : Finset String) : (∀ stage ∈ value.stages.map g, ∀ name ∈ Flow.dependencies stage, name ∈ names) ↔
      ∀ stage ∈ value.stages, ∀ name ∈ Flow.dependencies stage, name ∈ names := by
    simp only [List.forall_mem_map, h.dependencies]
  change _ = (List.map g) <$> Flow.flowStructure value
  unfold Flow.flowStructure
  simp only [hstages, List.length_map, hfold, hproducers, h.schedule, map_bind]
  rfl

theorem Keeps.flowStructure_eq_ok (h : Keeps g) {order' : List Stage} :
    Flow.flowStructure (value.mapStages g) = .ok order' ↔ ∃ order, Flow.flowStructure value = .ok order ∧ order.map g = order' := by
  rw [h.flowStructure]
  exact except_map_eq_ok

end Map

end Raveil.Flow
