import Mathlib.Data.String.Basic
import Raveil.Flow.Stages
import Raveil.Grid.Evaluated
import Raveil.Lib.Liveness
import Raveil.Lib.Topological

/-! Array programs: the checked structure, how a pass is bound to planes, the materialising compiler, and the
reference. -/
namespace Raveil.ArrayProgram
open Lib
open Raveil.Flow (Input Output zeros)
open Fold (Node Op)
open Grid (GridInput ViewSource KernelSource Post)

def SCHEMA : String := "raveil.array-program/v1"
def SCHEMA_V2 : String := "raveil.array-program/v2"
def MAX_NODES : ℕ := 128
def MAX_PASSES : ℕ := 128
def MAX_SESSIONS : ℕ := 128
def MAX_WORK : ℕ := 32768
def MAX_PLANES : ℕ := 65536

/-- `OPS`. -/
def arity : Op → Option ℕ
  | .add | .mul | .max | .maxI32 => some 2
  | .reluI32 | .addImm | .geImm => some 1
  | .load | .yield => none

/-- A stage source; a view has `row` and `column`, and an absent post map is `none`. -/
structure StageSource where
  inputs : List Input
  shape : List ℤ
  boundary : String
  kernel : KernelSource
  post : Option Post := none

structure Stage where
  name : String
  source : StageSource

structure Program where
  schema : String
  stages : List Stage
  outputs : List String

/-- A dictionary lookup. -/
def keyed {α : Type} : Option α → Except String α
  | some value => .ok value
  | none => .error "KeyError"

theorem keyed_eq_ok {α : Type} {o : Option α} {a : α} : keyed o = .ok a ↔ o = some a := by
  cases o <;> simp [keyed]

section Structure

/-- The body of the loop of `_nodes`; the state is `seen`. -/
def checkNode (views : List String) (seen : Finset String) (node : Node) : Except String (Finset String) := do
  require (node.op = .load ∨ (arity node.op).isSome) "unsupported array operation"
  require node.fieldsOk "invalid array node fields"
  require (node.id ≠ "" ∧ node.id.length ≤ 128 ∧ node.id ∉ seen) "invalid or duplicate array node id"
  require (node.op = .load → node.view.getD "" ∈ views) "unknown array view"
  require (node.op ≠ .load → some node.arguments.length = arity node.op ∧ ∀ arg ∈ node.arguments, arg ∈ seen)
    "array nodes require dependency-ordered SSA"
  node.imm.toList.forM fun imm => Grid.integer imm 0 (2 ^ 22 - 1)
  pure (insert node.id seen)

/-- `_nodes`. -/
def checkNodes (nodes : List Node) (result : String) (views : List String) : Except String Unit := do
  require (1 ≤ nodes.length ∧ nodes.length ≤ MAX_NODES) "array map requires 1..128 nodes"
  let seen ← nodes.foldlM (checkNode views) ∅
  require (result ∈ seen) "unknown array result"

/-- The check of one pair of a view. -/
def checkPair (low : ℤ) (value : List ℤ) : Except String Unit := do
  require (value.length = 2) "array view needs coordinate pair"
  value.forM fun x => Grid.integer x low 63

/-- The body of the loop over the views. -/
def checkView (inputs : ℕ) (entry : String × ViewSource) : Except String Unit := do
  require (entry.1 ≠ "" ∧ entry.1.length ≤ 128) "invalid array view name"
  require (entry.2.row.isSome ∧ entry.2.column.isSome) "invalid array view"
  Grid.integer entry.2.input 0 (inputs - 1)
  checkPair (-63) entry.2.offset
  checkPair 0 (entry.2.row.getD [])
  checkPair 0 (entry.2.column.getD [])
  checkPair 0 entry.2.step

/-- The producers that a stage links to. -/
def producers (source : StageSource) : List String :=
  source.inputs.filterMap fun
    | .link name => some name
    | .grid _ => none

def dependencies (stage : Stage) : List String := producers stage.source

/-- The words of an input that is written out; a link has none. -/
def checkInput : Input → Except String ℕ
  | .link name => do
    require (Fold.nameOk name) "name must contain only letters, digits, '-' or '_' (1..80 characters)"
    pure 0
  | .grid value => do
    let grid ← Grid.readInput value
    pure grid.words.length

/-- The checks of a stage source; the result is its literal words. -/
def checkSource (s : StageSource) : Except String ℕ := do
  require (1 ≤ s.inputs.length ∧ s.inputs.length ≤ 8) "array stage requires 1..8 inputs"
  require (s.shape.length = 2) "array output needs two dimensions"
  s.shape.forM fun size => Grid.integer size 1 64
  let _ ← Grid.boundaryOf s.boundary
  let words ← s.inputs.mapM checkInput
  Grid.integer s.kernel.extent 1 64
  require (s.kernel.fold ∈ ["sum", "max"]) "array fold requires sum or unsigned max"
  require (1 ≤ s.kernel.views.size ∧ s.kernel.views.size ≤ 8) "array requires 1..8 views"
  s.kernel.views.entries.forM (checkView s.inputs.length)
  checkNodes s.kernel.nodes s.kernel.result s.kernel.views.keys
  s.post.toList.forM fun post => checkNodes post.nodes post.result ["reduced"]
  pure words.sum

/-- The nodes of a stage, its map after the fold included. -/
def nodeCount (s : StageSource) : ℕ := s.kernel.nodes.length + ((s.post.map fun post => post.nodes.length).getD 0)

/-- The locals of the loop over the stages. -/
structure Tally where
  names : Finset String := ∅
  total : ℕ := 0
  literalWords : ℕ := 0

/-- The body of the loop over the stages. -/
def checkStage (s : Tally) (stage : Stage) : Except String Tally := do
  require (Fold.nameOk stage.name) "name must contain only letters, digits, '-' or '_' (1..80 characters)"
  require (stage.name ∉ s.names) "duplicate array stage"
  let words ← checkSource stage.source
  pure ⟨insert stage.name s.names, s.total + nodeCount stage.source, s.literalWords + words⟩

/-- What `structure` returns: the stages in order, the source nodes, and the literal words. -/
structure Structured where
  order : List Stage
  total : ℕ
  literalWords : ℕ

/-- `structure`. -/
def structureOf (value : Program) : Except String Structured := do
  require (value.schema ∈ [SCHEMA, SCHEMA_V2] ∧ (1 ≤ value.stages.length ∧ value.stages.length ≤ 8) ∧
    1 ≤ value.outputs.length ∧ value.outputs.length ≤ 8) "array program requires 1..8 stages and outputs"
  let tally ← value.stages.foldlM checkStage {}
  require (tally.total ≤ MAX_NODES) "array exceeds 128 total source nodes"
  require (∀ name ∈ value.outputs, name ∈ tally.names) "unknown array output"
  require value.outputs.Nodup "duplicate array output"
  require (∀ stage ∈ value.stages, ∀ name ∈ dependencies stage, name ∈ tally.names) "unknown array producer"
  match scheduleReady (·.name) dependencies value.stages.length value.stages with
  | none => .error "cyclic array stages"
  | some order => pure ⟨order, tally.total, tally.literalWords⟩

end Structure

section Passes

abbrev Planes := String → Option Output

/-- One view of a stage at one turn of its fold. -/
structure Gather where
  stage : String
  view : String
  k : ℕ
  deriving DecidableEq

/-- What a pass does: one operation, with the recipe of a load and the immediate of an operation that has one. -/
structure Body where scalar ::
  op : Op
  gather : Option Gather
  imm : Option ℤ

structure Step where
  id : String
  shape : ℕ × ℕ
  args : List String
  body : Body
  release : List String := []

/-- `f'p{n:03d}'`. -/
def planeName (n : ℕ) : String := padded "p" 3 n

def shapeOf (s : StageSource) : ℕ × ℕ := ((s.shape.getD 0 0).toNat, (s.shape.getD 1 0).toNat)

end Passes

section Binding

/-- The plane of an input that is written out. -/
def literal (value : GridInput) : Output := ⟨value.rows.toNat, value.columns.toNat, value.words.map Int.toNat⟩

/-- A plane as an input of a grid source. -/
def planeInput (plane : Output) : GridInput := ⟨Grid.INPUT, plane.rows, plane.columns, plane.words.map Int.ofNat⟩

/-- `sample`, on a plane. -/
def sample (plane : Output) (row col : ℤ) (mode : Tiling.Boundary) : Except String ℕ :=
  let rows : ℤ := plane.rows
  let columns : ℤ := plane.columns
  if mode = .zero ∧ ¬ (0 ≤ row ∧ row < rows ∧ 0 ≤ col ∧ col < columns) then .ok 0
  else
    let at_ : ℤ × ℤ :=
      match mode with
      | .clamp => (min (rows - 1) (max 0 row), min (columns - 1) (max 0 col))
      | .wrap => (row % rows, col % columns)
      | .zero => (row, col)
    Graph.readWord plane.words (at_.1 * columns + at_.2)

/-- The source of the first stage of a name. -/
def Program.source (value : Program) (name : String) : Except String StageSource :=
  match value.stages.find? fun stage => stage.name = name with
  | some stage => .ok stage.source
  | none => .error "StopIteration"

/-- The plane that a load with a recipe reads. -/
def gatherOperand (args : List String) (planes : Planes) : Input → Except String Output
  | .link _ => keyed (args.head?.bind planes)
  | .grid value => .ok (literal value)

/-- The operand of a load that has a recipe. -/
def gather (value : Program) (recipe : Gather) (shape : ℕ × ℕ) (args : List String) (planes : Planes) :
    Except String Output := do
  let s ← value.source recipe.stage
  let view ← keyed (s.kernel.views.get? recipe.view)
  let item ← keyed s.inputs[view.input.toNat]?
  let operand ← gatherOperand args planes item
  let mode ← Grid.boundaryOf s.boundary
  let words ← (Tiling.cells shape.1 shape.2).mapM fun at_ =>
    sample operand ((Grid.viewOf view).rowAt at_.1 at_.2 recipe.k) ((Grid.viewOf view).columnAt at_.1 at_.2 recipe.k) mode
  pure ⟨shape.1, shape.2, words⟩

/-- The views `v0`, `v1` and so on: every input at its own place. -/
def planeViews (n : ℕ) : Dict String ViewSource where
  entries := (List.range n).map fun (i : ℕ) => (numbered "v" i,
    { input := i, offset := [0, 0], step := [0, 0], row := some [1, 0], column := some [0, 1] })
  nodup := by
    rw [List.map_map]
    exact List.nodup_range.map (numbered_injective "v")

/-- A grid source that maps its operands place by place. -/
def pointwise (operands : List GridInput) (shape : ℕ × ℕ) (nodes : List Node) (result : String) : Grid.Source where
  schema := Grid.SCHEMA_V5
  inputs := operands
  shape := some [(shape.1 : ℤ), (shape.2 : ℤ)]
  tile := [16, 16]
  boundary := "zero"
  kernel := { extent := 1, fold := "sum", views := planeViews operands.length, nodes, result }

/-- The loads of the operands. -/
def operandLoads (n : ℕ) : List Node :=
  (List.range n).map fun i => { id := numbered "a" i, op := .load, view := some (numbered "v" i) }

def scalarNodes (op : Op) (imm : Option ℤ) (n : ℕ) : List Node :=
  if op = .load then operandLoads n
  else operandLoads n ++ [{ id := "out", op, args := some ((operandLoads n).map (·.id)), imm }]

def scalarResult (op : Op) : String := if op = .load then numbered "a" 0 else "out"

/-- The operands of a pass of one operation. -/
def scalarOperands (value : Program) (step : Step) (recipe : Option Gather) (planes : Planes) : Except String (List Output) :=
  match recipe with
  | some recipe => do
    let operand ← gather value recipe step.shape step.args planes
    pure [operand]
  | none => step.args.mapM fun name => keyed (planes name)

/-- `bind`, of the passes that this compiler emits. -/
def bind (value : Program) (step : Step) (planes : Planes) : Except String Grid.Source := do
  let operands ← scalarOperands value step step.body.gather planes
  pure (pointwise (operands.map planeInput) step.shape (scalarNodes step.body.op step.body.imm operands.length)
    (scalarResult step.body.op))

/-- `commit`. -/
def commit (planes : Planes) (step : Step) (output : Output) : Except String Planes :=
  step.release.foldlM (fun planes name => do
    require (planes name).isSome "KeyError"
    pure (Function.update planes name none)) (Function.update planes step.id (some output))

end Binding

section Emission

/-- The passes so far, and what they cost. -/
structure Emission where
  steps : List Step := []
  sessions : ℕ := 0
  work : ℕ := 0

/-- An emission that has added a pass, with its name. -/
abbrev Emit := Emission → ℕ × ℕ → List String → Body → Except String (String × Emission)

/-- `emit` of the materialising compiler. -/
def emit : Emit := fun s shape args body => do
  let sessions := s.sessions + (shape.1 + 15) / 16 * ((shape.2 + 15) / 16)
  let work := s.work + shape.1 * shape.2
  require (s.steps.length < MAX_PASSES ∧ sessions ≤ MAX_SESSIONS ∧ work ≤ MAX_WORK)
    "array exceeds pass/session/work budget"
  let identity := planeName s.steps.length
  pure (identity, ⟨s.steps ++ [{ id := identity, shape, args, body }], sessions, work⟩)

variable (emit : Emit)

/-- `refs`. -/
abbrev Refs := String → Option String

/-- The producers of an input: the plane of the stage it links to. -/
def inputArgs (results : Refs) : Input → Except String (List String)
  | .link name => do
    let producer ← keyed (results name)
    pure [producer]
  | .grid _ => .ok []

/-- One node of a stage at one turn of its fold. -/
def kernelNode (stage : Stage) (results : Refs) (k : ℕ) (s : Emission × Refs) (node : Node) :
    Except String (Emission × Refs) := do
  if node.op = .load then
    let view ← keyed (stage.source.kernel.views.get? (node.view.getD ""))
    let item ← keyed stage.source.inputs[view.input.toNat]?
    let args ← inputArgs results item
    let (ref, e) ← emit s.1 (shapeOf stage.source) args
      (.scalar .load (some ⟨stage.name, node.view.getD "", k⟩) none)
    pure (e, Function.update s.2 node.id (some ref))
  else
    let args ← node.arguments.mapM fun arg => keyed (s.2 arg)
    let (ref, e) ← emit s.1 (shapeOf stage.source) args (.scalar node.op none node.imm)
    pure (e, Function.update s.2 node.id (some ref))

/-- The operation that folds two terms. -/
def foldOp (fold : String) : Op := if fold = "sum" then .add else .max

/-- One turn of the fold of a stage; the state has the accumulator. -/
def kernelTurn (stage : Stage) (results : Refs) (s : Emission × Option String) (k : ℕ) :
    Except String (Emission × Option String) := do
  let (e, refs) ← stage.source.kernel.nodes.foldlM (kernelNode emit stage results k) (s.1, fun _ => none)
  let term ← keyed (refs stage.source.kernel.result)
  match s.2 with
  | none => pure (e, some term)
  | some accumulator =>
    let (ref, e) ← emit e (shapeOf stage.source) [accumulator, term] (.scalar (foldOp stage.source.kernel.fold) none none)
    pure (e, some ref)

/-- The arguments of a node of the map after the fold. -/
def postArgs (accumulator : String) (refs : Refs) (node : Node) : Except String (List String) :=
  if node.op = .load then .ok [accumulator] else node.arguments.mapM fun arg => keyed (refs arg)

/-- One node of the map after the fold. -/
def postNode (stage : Stage) (accumulator : String) (s : Emission × Refs) (node : Node) :
    Except String (Emission × Refs) := do
  let args ← postArgs accumulator s.2 node
  let (ref, e) ← emit s.1 (shapeOf stage.source) args (.scalar node.op none node.imm)
  pure (e, Function.update s.2 node.id (some ref))

/-- `_scalar_stage`, which is also the body of the loop of the materialising compiler. -/
def scalarStage (stage : Stage) (results : Refs) (e : Emission) : Except String (String × Emission) := do
  let (e, accumulator) ← (List.range stage.source.kernel.extent.toNat).foldlM (kernelTurn emit stage results) (e, none)
  let accumulator ← keyed accumulator
  match stage.source.post with
  | none => pure (accumulator, e)
  | some post =>
    let (e, refs) ← post.nodes.foldlM (postNode emit stage accumulator) (e, fun _ => none)
    let result ← keyed (refs post.result)
    pure (result, e)

end Emission

section Compile

/-- What `compile` returns. -/
structure Plan where
  order : List String
  sourceNodes : ℕ
  passes : List Step
  outputs : List (String × String)
  sessions : ℕ
  workWords : ℤ
  peakPlaneWords : ℤ

/-- The body of the loop over the stages; the state has `results`. -/
def emitStage (s : Emission × Refs) (stage : Stage) : Except String (Emission × Refs) := do
  let (result, e) ← scalarStage emit stage s.2 s.1
  pure (e, Function.update s.2 stage.name (some result))

/-- `last`. -/
def lastUses (steps : List Step) (outputs : List (String × String)) : String → Option ℕ :=
  lastUse Step.id Step.args steps (outputs.map Prod.snd)

/-- An entry of `outputs`. -/
def outputOf (results : Refs) (name : String) : Except String (String × String) := do
  let producer ← keyed (results name)
  pure (name, producer)

/-- The locals of the loop over the passes. -/
structure Planning where
  planes : Planes := fun _ => none
  sizes : List (String × ℕ) := []
  peak : ℤ
  steps : List Step := []

/-- The names in `sizes` whose last use is here, sorted. -/
def releases (last : String → Option ℕ) (i : ℕ) (sizes : List (String × ℕ)) : List String :=
  ((sizes.map Prod.fst).filter fun name => last name = some i).insertionSort (· ≤ ·)

/-- The words of the planes in `sizes`. -/
def liveWords (sizes : List (String × ℕ)) : ℕ := (sizes.map Prod.snd).sum

/-- The end of the body: the plane of the pass is stored, and what is not used again is released. -/
def Planning.retire (s : Planning) (last : String → Option ℕ) (step : Step) (i : ℕ) (peak : ℤ) : Planning :=
  let sizes := assign step.id (step.shape.1 * step.shape.2) s.sizes
  let release := releases last i sizes
  { planes := release.foldl (fun planes name => Function.update planes name none)
      (Function.update s.planes step.id (some (zeros step.shape.1 step.shape.2)))
    sizes := sizes.filter fun entry => entry.1 ∉ release
    peak
    steps := s.steps ++ [{ step with release }] }

/-- The operands that a pass packs. -/
def packedOperands (step : Step) : ℕ :=
  if step.body.gather.isSome then 1 else step.args.length

/-- The body of the loop over the passes. -/
def planStep (value : Program) (literalWords : ℕ) (last : String → Option ℕ) (s : Planning) (entry : Step × ℕ) :
    Except String Planning := do
  let step := entry.1
  let size := step.shape.1 * step.shape.2
  let packing := packedOperands step * size
  let peak := max s.peak (literalWords + liveWords s.sizes + packing + size : ℕ)
  require (peak ≤ MAX_PLANES) "array exceeds logical plane-word budget"
  let bound ← bind value step s.planes
  let _ ← Grid.compile bound
  pure (s.retire last step entry.2 peak)

/-- `compile`, for the first schema. -/
def compileScalar (value : Program) : Except String Plan := do
  let structured ← structureOf value
  let (e, results) ← structured.order.foldlM emitStage ({}, fun _ => none)
  let outputs ← value.outputs.mapM (outputOf results)
  let last := lastUses e.steps outputs
  let s ← e.steps.zipIdx.foldlM (planStep value structured.literalWords last) { peak := structured.literalWords }
  pure {
    order := structured.order.map (·.name)
    sourceNodes := structured.total
    passes := s.steps
    outputs
    sessions := e.sessions
    workWords := e.work
    peakPlaneWords := s.peak }

end Compile

section Execution

/-- One pass: its source is bound to the planes, evaluated, and committed. -/
def executeStep (value : Program) (planes : Planes) (step : Step) : Except String Planes := do
  let bound ← bind value step planes
  let words ← Grid.reference bound
  commit planes step ⟨step.shape.1, step.shape.2, words⟩

/-- An entry of `publish`. -/
def published (planes : Planes) (output : String × String) : Except String (String × Output) := do
  let plane ← keyed (planes output.2)
  pure (output.1, plane)

/-- `publish`. -/
def publish (outputs : List (String × String)) (planes : Planes) : Except String (List (String × Output)) :=
  outputs.mapM (published planes)

/-- All passes in order, from no planes, and what is published of them. -/
def execute (value : Program) (passes : List Step) (outputs : List (String × String)) :
    Except String (List (String × Output)) := do
  let planes ← passes.foldlM (executeStep value) fun _ => none
  publish outputs planes

end Execution

section Reference

/-- The word that the reference finds at a place of an input. -/
def referenceWord (plane : Output) (boundary : String) (r c : ℤ) : Except String ℕ :=
  let h : ℤ := plane.rows
  let w : ℤ := plane.columns
  if boundary = "zero" ∧ ¬ ((0 ≤ r ∧ r < h) ∧ 0 ≤ c ∧ c < w) then .ok 0
  else if boundary = "clamp" then
    Graph.readWord plane.words (min (h - 1) (max 0 r) * w + min (w - 1) (max 0 c))
  else if boundary = "wrap" then Graph.readWord plane.words (r % h * w + c % w)
  else Graph.readWord plane.words (r * w + c)

/-- `sample` of the reference. -/
def referenceLoad (s : StageSource) (inputs : List Output) (row col k : ℕ) (node : Node) : Except String ℕ := do
  let source ← keyed (s.kernel.views.get? (node.view.getD ""))
  let view := Grid.viewOf source
  let data ← keyed inputs[view.input]?
  referenceWord data s.boundary (view.rowAt row col k) (view.columnAt row col k)

/-- The output word of a cell; `evaluate` is that of the grid reference. -/
def referenceCell (s : StageSource) (inputs : List Output) (at_ : ℕ × ℕ) : Except String ℕ := do
  let acc ← (List.range s.kernel.extent.toNat).foldlM (fun acc k => do
    let term ← Grid.resultWord (referenceLoad s inputs at_.1 at_.2 k) s.kernel.nodes s.kernel.result
    pure (if s.kernel.fold = "sum" then (acc + term) % 2 ^ 32 else max acc term)) 0
  match s.post with
  | none => pure acc
  | some post => Grid.resultWord (fun _ => .ok acc) post.nodes post.result

/-- An entry of `inputs`. -/
def referenceInput (outputs : Planes) : Input → Except String Output
  | .link name => keyed (outputs name)
  | .grid value => .ok (literal value)

/-- The body of the loop over the stages. -/
def referenceStage (outputs : Planes) (stage : Stage) : Except String Planes := do
  let inputs ← stage.source.inputs.mapM (referenceInput outputs)
  let shape := shapeOf stage.source
  let words ← (Tiling.cells shape.1 shape.2).mapM (referenceCell stage.source inputs)
  pure (Function.update outputs stage.name (some ⟨shape.1, shape.2, words⟩))

def namedOutput (outputs : Planes) (name : String) : Except String (String × Output) := do
  let output ← keyed (outputs name)
  pure (name, output)

/-- `reference`. -/
def reference (value : Program) : Except String (List (String × Output)) := do
  let structured ← structureOf value
  let outputs ← structured.order.foldlM referenceStage fun _ => none
  value.outputs.mapM (namedOutput outputs)

end Reference

end Raveil.ArrayProgram
