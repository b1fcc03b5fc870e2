import Raveil.Grid.Tiles

/-! Flows of grid sources: the checked structure, the compiler, the reference, and the tile planner. -/
namespace Raveil.Flow
open Lib

def SCHEMA : String := "raveil.mf01-flow/v1"

/-- An input of a stage: a link to another stage, or a grid. -/
inductive Input
  | link (source : String)
  | grid (value : Grid.GridInput)

structure Stage where
  name : String
  source : Grid.SourceOf Input

structure FlowSource where
  schema : String
  stages : List Stage
  outputs : List String

/-- An entry of `placeholders` and of `outputs`. -/
structure Output where
  rows : ℕ
  columns : ℕ
  words : List ℕ
  deriving Inhabited

abbrev Outputs := String → Option Output

section Structure

/-- An input of `materialize`. -/
def inputOf (outputs : Outputs) : Input → Except String Grid.GridInput
  | .grid value => .ok value
  | .link name =>
    match outputs name with
    | none => .error "KeyError"
    | some output => .ok ⟨Grid.INPUT, output.rows, output.columns, output.words.map Int.ofNat⟩

/-- `materialize`. -/
def materialize (source : Grid.SourceOf Input) (outputs : Outputs) : Except String Grid.Source := do
  let inputs ← source.inputs.mapM (inputOf outputs)
  pure {
    schema := source.schema
    inputs
    tile := source.tile
    boundary := source.boundary
    kernel := source.kernel
    shape := source.shape
    post := source.post }

/-- An entry of `dependencies`. -/
def dependencies (stage : Stage) : List String :=
  stage.source.inputs.filterMap fun
    | .link name => some name
    | .grid _ => none

/-- The body of the loop over the stages; the state is the names so far. -/
def checkStage (names : Finset String) (stage : Stage) : Except String (Finset String) := do
  require (Fold.nameOk stage.name) "name must contain only letters, digits, '-' or '_' (1..80 characters)"
  require (stage.name ∉ names) "duplicate flow stage"
  require (1 ≤ stage.source.inputs.length ∧ stage.source.inputs.length ≤ 2) "flow stage requires grid source inputs"
  (dependencies stage).forM fun name =>
    require (Fold.nameOk name) "name must contain only letters, digits, '-' or '_' (1..80 characters)"
  pure (insert stage.name names)

/-- The first of the ready stages by name. -/
def nextStage (pending : List Stage) : Option Stage :=
  ((pending.filter fun stage => ∀ name ∈ dependencies stage, name ∉ pending.map (·.name)).insertionSort
    fun a b => a.name ≤ b.name).head?

/-- The loop over `pending`; its length bounds the turns. -/
def schedule : ℕ → List Stage → Except String (List Stage)
  | _, [] => .ok []
  | 0, _ :: _ => .error "cyclic flow dependencies"
  | n + 1, stage :: pending =>
    match nextStage (stage :: pending) with
    | none => .error "cyclic flow dependencies"
    | some next => do
      let order ← schedule n ((stage :: pending).filter fun other => other.name ≠ next.name)
      pure (next :: order)

/-- `structure`: the stages in the order of the schedule. -/
def flowStructure (value : FlowSource) : Except String (List Stage) := do
  require (value.schema = SCHEMA ∧ (1 ≤ value.stages.length ∧ value.stages.length ≤ 8) ∧
    1 ≤ value.outputs.length ∧ value.outputs.length ≤ 8) "flow requires1..8 named stages and outputs"
  let names ← value.stages.foldlM checkStage ∅
  require (∀ name ∈ value.outputs, name ∈ names) "unknown flow output"
  require value.outputs.Nodup "duplicate flow output"
  require (∀ stage ∈ value.stages, ∀ name ∈ dependencies stage, name ∈ names) "unknown flow producer"
  schedule value.stages.length value.stages

end Structure

section Compile

structure StagePlan where
  name : String
  dependencies : List String
  shape : ℕ × ℕ
  sessions : ℕ
  jobs : ℕ

structure Compiled where
  order : List String
  stages : List StagePlan
  outputs : List String
  sessions : ℕ
  jobs : ℕ

/-- The locals of the loop. -/
structure Progress where
  placeholders : Outputs := fun _ => none
  plan : List StagePlan := []
  sessions : ℕ := 0
  jobs : ℕ := 0

/-- The placeholder of a stage: zeros in the shape of its output. -/
def zeros (rows columns : ℕ) : Output := ⟨rows, columns, List.replicate (rows * columns) 0⟩

def stagePlan (stage : Stage) (lowered : Grid.Lowered) : StagePlan where
  name := stage.name
  dependencies := (dependencies stage).dedup.insertionSort (· ≤ ·)
  shape := (lowered.rows, lowered.columns)
  sessions := lowered.sessions
  jobs := lowered.jobs

/-- The body of the loop of `compile`. -/
def compileStage (s : Progress) (stage : Stage) : Except String Progress := do
  let source ← materialize stage.source s.placeholders
  let lowered ← Grid.compile source
  let sessions := s.sessions + lowered.sessions
  let jobs := s.jobs + lowered.jobs
  require (sessions ≤ 16 ∧ jobs ≤ 128) "flow exceeds16 sessions or128 jobs"
  pure {
    placeholders := Function.update s.placeholders stage.name (some (zeros lowered.rows lowered.columns))
    plan := s.plan ++ [stagePlan stage lowered]
    sessions
    jobs }

/-- `compile`. -/
def compile (value : FlowSource) : Except String Compiled := do
  let order ← flowStructure value
  let s ← order.foldlM compileStage {}
  pure ⟨order.map (·.name), s.plan, value.outputs, s.sessions, s.jobs⟩

/-- The body of the loop of `reference`. -/
def referenceStage (value : FlowSource) (outputs : Outputs) (plan : StagePlan) : Except String Outputs :=
  match value.stages.find? fun stage => stage.name = plan.name with
  | none => .error "KeyError"
  | some stage => do
    let source ← materialize stage.source outputs
    let words ← Grid.reference source
    pure (Function.update outputs plan.name (some ⟨plan.shape.1, plan.shape.2, words⟩))

def namedOutput (outputs : Outputs) (name : String) : Except String (String × Output) :=
  match outputs name with
  | none => .error "KeyError"
  | some output => .ok (name, output)

/-- `reference`. -/
def reference (value : FlowSource) : Except String (List (String × Output)) := do
  let plan ← compile value
  let outputs ← plan.stages.foldlM (referenceStage value) fun _ => none
  plan.outputs.mapM (namedOutput outputs)

end Compile

section Planner

/-- An entry of `rows`. -/
structure Row where
  name : String
  requested : List ℤ
  searched : ℕ
  admitted : ℕ
  tile : ℕ × ℕ
  sessions : ℕ
  words : ℤ

/-- The locals of the loop; `tiles` are those written into `selected` so far. -/
structure Planning where
  placeholders : Outputs := fun _ => none
  rows : List Row := []
  tiles : String → Option (ℕ × ℕ) := fun _ => none

/-- The body of the loop of `plan`. -/
def planStage (s : Planning) (stage : Stage) : Except String Planning := do
  let resolved ← materialize stage.source s.placeholders
  let proposal ← Grid.plan resolved
  let a ← Grid.source proposal.source
  pure {
    placeholders := Function.update s.placeholders stage.name (some (zeros a.rows a.columns))
    rows := s.rows ++ [⟨stage.name, proposal.requested, proposal.searched, proposal.admitted, proposal.tile,
      proposal.sessions, proposal.words⟩]
    tiles := Function.update s.tiles stage.name (some proposal.tile) }

/-- The stage with the tile that is written for its name. -/
def Stage.select (tiles : String → Option (ℕ × ℕ)) (stage : Stage) : Stage :=
  match tiles stage.name with
  | none => stage
  | some tile => { stage with source := stage.source.retile (Grid.tileList tile) }

/-- The entries of a proposal besides its schema and its digests. -/
structure Proposal where
  sessions : ℕ
  jobs : ℕ
  packedInputWords : ℤ
  stages : List Row
  source : FlowSource

/-- `plan`. -/
def plan (value : FlowSource) : Except String Proposal := do
  let order ← flowStructure value
  let s ← order.foldlM planStage {}
  let selected : FlowSource := { value with stages := value.stages.map (·.select s.tiles) }
  let compiled ← compile selected
  pure ⟨compiled.sessions, compiled.jobs, (s.rows.map (·.words)).sum, s.rows, selected⟩

end Planner

end Raveil.Flow
