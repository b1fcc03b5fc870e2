import Raveil.Flow.Planner
import Raveil.Grid.Tiled

/-! The schedule of a flow is the least topological order of its stages, and running the stages in it, tile by tile, is
the reference. -/
namespace Raveil.Flow
open Lib

section Schedule

variable {value : FlowSource} {order stages : List Stage} {stage : Stage} {names names' : Finset String}

/-- A check with another message does not raise this error. -/
theorem require_then_eq_error {α : Type} {p : Prop} [Decidable p] {message error : String} {rest : Except String α}
    (hne : message ≠ error) : (do require p message; rest) = .error error ↔ p ∧ rest = .error error := by
  by_cases hp : p
  · rw [require_of hp]
    exact ⟨fun h => ⟨hp, h⟩, fun h => h.2⟩
  · unfold require
    rw [if_neg hp]
    constructor
    · intro h
      cases h
      exact absurd rfl hne
    · exact fun h => absurd h.1 hp

theorem checkStage_not_cyclic : checkStage names stage ≠ .error "cyclic flow dependencies" := by
  intro h
  obtain ⟨-, h⟩ := (require_then_eq_error (by decide)).mp h
  obtain ⟨-, h⟩ := (require_then_eq_error (by decide)).mp h
  obtain ⟨-, h⟩ := (require_then_eq_error (by decide)).mp h
  have hlinks : ∀ links : List String, links.forM (fun name => require (Fold.nameOk name)
      "name must contain only letters, digits, '-' or '_' (1..80 characters)") ≠ .error "cyclic flow dependencies" := by
    intro links
    induction links with
    | nil =>
      intro h
      cases h
    | cons name links ih =>
      intro h
      exact ih ((require_then_eq_error (by decide)).mp h).2
  cases hc : (dependencies stage).forM fun name => require (Fold.nameOk name)
      "name must contain only letters, digits, '-' or '_' (1..80 characters)" with
  | error e =>
    rw [hc] at h
    cases h
    exact hlinks _ hc
  | ok u =>
    rw [hc] at h
    cases h

theorem checkStages_not_cyclic : stages.foldlM checkStage names ≠ .error "cyclic flow dependencies" := by
  induction stages generalizing names with
  | nil =>
    intro h
    cases h
  | cons stage stages ih =>
    intro h
    rw [List.foldlM_cons] at h
    cases hs : checkStage names stage with
    | error e =>
      rw [hs] at h
      cases h
      exact checkStage_not_cyclic hs
    | ok next =>
      rw [hs] at h
      exact ih h

theorem wellFormed_of_cyclic (h : flowStructure value = .error "cyclic flow dependencies") : WellFormed value := by
  obtain ⟨⟨hschema, hcount, houtputs⟩, h⟩ := (require_then_eq_error (by decide)).mp h
  cases hnames : value.stages.foldlM checkStage ∅ with
  | error e =>
    rw [hnames] at h
    cases h
    exact absurd hnames checkStages_not_cyclic
  | ok names =>
    rw [hnames] at h
    obtain ⟨hknown, h⟩ := (require_then_eq_error (by decide)).mp h
    obtain ⟨hdistinct, h⟩ := (require_then_eq_error (by decide)).mp h
    obtain ⟨hproducers, h⟩ := (require_then_eq_error (by decide)).mp h
    obtain ⟨hall, hnodup, -, rfl⟩ := checkStages_iff.mp hnames
    simp only [Finset.empty_union, List.mem_toFinset] at hknown hproducers
    exact ⟨hschema, hcount, houtputs, hall, hnodup, hknown, hdistinct, hproducers⟩

/-- A flow is scheduled in the least topological order of its stages, and rejected as cyclic exactly when a stage
depends on itself, directly or not. -/
theorem flow_schedule_least (value : FlowSource) :
    (∀ order, flowStructure value = .ok order ↔
      WellFormed value ∧ Least (·.name) dependencies value.stages order) ∧
      (flowStructure value = .error "cyclic flow dependencies" ↔
        WellFormed value ∧ Cyclic (·.name) dependencies value.stages) := by
  refine ⟨fun order => flowStructure_eq_ok, ?_⟩
  constructor
  · intro h
    have hwell := wellFormed_of_cyclic h
    rw [hwell.structure_eq, schedule_eq] at h
    refine ⟨hwell, (scheduleReady_eq_none hwell.nodup le_rfl).mp ?_⟩
    cases hs : scheduleReady (·.name) dependencies value.stages.length value.stages with
    | none => rfl
    | some order =>
      rw [hs] at h
      cases h
  · rintro ⟨hwell, hcyclic⟩
    rw [hwell.structure_eq, schedule_eq, (scheduleReady_eq_none hwell.nodup le_rfl).mpr hcyclic]
    rfl

end Schedule

section Execution

variable {value : FlowSource} {stages' : List Stage} {c : Compiled}

/-- The body of the loop of `execute`, which runs a stage tile by tile. -/
def executeStage (value : FlowSource) (outputs : Outputs) (plan : StagePlan) : Except String Outputs :=
  match value.stages.find? fun stage => stage.name = plan.name with
  | none => .error "KeyError"
  | some stage => do
    let source ← materialize stage.source outputs
    let lowered ← Grid.compile source
    let words ← Grid.executeHost lowered
    pure (Function.update outputs plan.name (some ⟨plan.shape.1, plan.shape.2, words⟩))

/-- `execute`. -/
def execute (value : FlowSource) : Except String (List (String × Output)) := do
  let plan ← compile value
  let outputs ← plan.stages.foldlM (executeStage value) fun _ => none
  plan.outputs.mapM (namedOutput outputs)

theorem executeStage_eq (value : FlowSource) : executeStage value = referenceStage value := by
  funext outputs plan
  unfold executeStage referenceStage
  cases value.stages.find? fun stage => stage.name = plan.name with
  | none => rfl
  | some stage =>
    dsimp only
    cases materialize stage.source outputs with
    | error e => rfl
    | ok source =>
      change (Grid.compile source >>= fun lowered => Grid.executeHost lowered >>= _) = (Grid.reference source >>= _)
      rw [← bind_assoc, Grid.compile_execute]

/-- Running the stages is the reference, failures included. -/
theorem execute_eq (value : FlowSource) : execute value = reference value := by
  unfold execute reference
  rw [executeStage_eq]

/-- The flow with its stages written in another order. -/
def FlowSource.rearrange (value : FlowSource) (stages : List Stage) : FlowSource := { value with stages }

theorem WellFormed.of_perm (h : WellFormed value) (hp : stages'.Perm value.stages) : WellFormed (value.rearrange stages') := by
  have hnames := hp.map (·.name)
  refine ⟨h.schema, ?_, h.outputCount, fun stage hs => h.stages stage (hp.mem_iff.mp hs), hnames.nodup_iff.mpr h.nodup,
    fun name hn => hnames.mem_iff.mpr (h.outputs name hn), h.distinct,
    fun stage hs name hn => hnames.mem_iff.mpr (h.producers stage (hp.mem_iff.mp hs) name hn)⟩
  change 1 ≤ stages'.length ∧ stages'.length ≤ 8
  rw [hp.length_eq]
  exact h.count

theorem structure_of_perm {order : List Stage} (h : flowStructure value = .ok order) (hp : stages'.Perm value.stages) :
    flowStructure (value.rearrange stages') = .ok order := by
  obtain ⟨hwell, hleast⟩ := flowStructure_eq_ok.mp h
  exact flowStructure_eq_ok.mpr ⟨hwell.of_perm hp, hleast.of_perm hp.symm⟩

/-- The plan is the same, however the stages are written. -/
theorem compile_of_perm (h : compile value = .ok c) (hp : stages'.Perm value.stages) :
    compile (value.rearrange stages') = .ok c := by
  obtain ⟨order, horder, h⟩ := except_bind_eq_ok.mp h
  exact except_bind_eq_ok.mpr ⟨order, structure_of_perm horder hp, h⟩

theorem reference_of_perm {r : List (String × Output)} (h : reference value = .ok r) (hp : stages'.Perm value.stages) :
    reference (value.rearrange stages') = .ok r := by
  obtain ⟨plan, hplan, h⟩ := except_bind_eq_ok.mp h
  obtain ⟨order, horder, -⟩ := except_bind_eq_ok.mp hplan
  have hwell := (flowStructure_eq_ok.mp horder).1
  have hstage : referenceStage (value.rearrange stages') = referenceStage value := by
    funext outputs row
    unfold referenceStage
    rw [show (value.rearrange stages').stages = stages' from rfl, find_name_perm hwell.nodup hp]
  exact except_bind_eq_ok.mpr ⟨plan, compile_of_perm hplan hp, by rw [hstage]; exact h⟩

/-- Running the stages tile by tile is the reference of the flow, failures included; neither the order in which the
stages are written nor the tiles are of any matter. -/
theorem flow_execution_reference (value : FlowSource) :
    execute value = reference value ∧
      (∀ stages', stages'.Perm value.stages → ∀ r,
        execute (value.rearrange stages') = .ok r ↔ execute value = .ok r) ∧
      ∀ tiles tiles' c c', compile (value.assign tiles) = .ok c → compile (value.assign tiles') = .ok c' →
        execute (value.assign tiles') = execute (value.assign tiles) := by
  refine ⟨execute_eq value, ?_, ?_⟩
  · intro stages' hp r
    rw [execute_eq, execute_eq]
    constructor
    · intro h
      have hback : reference ((value.rearrange stages').rearrange value.stages) = .ok r := reference_of_perm h hp.symm
      exact hback
    · exact fun h => reference_of_perm h hp
  · intro tiles tiles' c c' hc hc'
    obtain ⟨result, hresult, hresult'⟩ := reference_assign hc hc'
    rw [execute_eq, execute_eq, hresult, hresult']

theorem flow_execution_reference_increment :
    (∀ r, execute (incrementFlow.rearrange incrementFlow.stages.reverse) = .ok r ↔ execute incrementFlow = .ok r) ∧
      execute (incrementFlow.assign fun _ => (1, 1)) = execute (incrementFlow.assign fun _ => (2, 3)) := by
  obtain ⟨-, hstages, htiles⟩ := flow_execution_reference incrementFlow
  have hcells : ((compile (incrementFlow.assign fun _ => (1, 1))).toOption).isSome = true := by decide +kernel
  have hwhole : ((compile (incrementFlow.assign fun _ => (2, 3))).toOption).isSome = true := by decide +kernel
  refine ⟨fun r => hstages _ (List.reverse_perm _) r, ?_⟩
  cases hc : compile (incrementFlow.assign fun _ => (2, 3)) with
  | error e =>
    rw [hc] at hwhole
    cases hwhole
  | ok c =>
    cases hc' : compile (incrementFlow.assign fun _ => (1, 1)) with
    | error e =>
      rw [hc'] at hcells
      cases hcells
    | ok c' => exact htiles _ _ c c' hc hc'

end Execution

end Raveil.Flow
