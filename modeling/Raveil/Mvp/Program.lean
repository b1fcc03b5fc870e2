import Raveil.Mvp.Values
import Raveil.Native.Oracle

/-! Graph programs with their checks, the workloads they ask for and the contract they run under. -/
namespace Raveil.Mvp

open Lib
open Native (Family)

def GRAPH_SCHEMA : String := "raveil.graph-program/v1"

structure GraphNode where
  nodeId : String
  op : String
  inputs : List String
  output : String
  deriving DecidableEq

namespace GraphNode

variable {F : Type}

def toDict (n : GraphNode) : Fields F := [
  ("node_id", .str n.nodeId),
  ("op", .str n.op),
  ("inputs", .tuple (n.inputs.map .str)),
  ("output", .str n.output)]

def fromDict (value : PyValue F) : Except PyError GraphNode := do
  let value ← readDict "graph node is not an object" value
  requireExactKeys value ["node_id", "op", "inputs", "output"] "graph node"
  let inputs ← readArray "graph node inputs must be an array" (item value "inputs")
  let nodeId ← readStr "graph node fields must use strings" (item value "node_id")
  let op ← readStr "graph node fields must use strings" (item value "op")
  let output ← readStr "graph node fields must use strings" (item value "output")
  let inputs ← inputs.mapM (readStr "graph node fields must use strings")
  return ⟨nodeId, op, inputs, output⟩

theorem fromDict_toDict (n : GraphNode) : fromDict (F := F) (.dict n.toDict) = .ok n := by
  have hinputs : (n.inputs.map PyValue.str).mapM (readStr (F := F) "graph node fields must use strings") =
      .ok n.inputs := mapM_encode fun _ _ => rfl
  simp [fromDict, toDict, requireExactKeys, item, List.lookup_cons, require, hinputs, bind, Except.bind, pure,
    Except.pure]

end GraphNode

/-- The texts of `Literal["gemm", "gemm_bias_relu", "mlp2"]`. -/
def familyName : Family → String
  | .gemm => "gemm"
  | .gemmBiasRelu => "gemm_bias_relu"
  | .mlp2 => "mlp2"

/-- A family of graph programs. -/
def readFamily (family : String) : Except PyError Family :=
  if family = "gemm" then .ok .gemm
  else if family = "gemm_bias_relu" then .ok .gemmBiasRelu
  else .error (.valueError ("unsupported MVP graph family: " ++ family))

theorem readFamily_familyName {family : Family} (h : family ≠ .mlp2) : readFamily (familyName family) = .ok family := by
  cases family with
  | gemm => rfl
  | gemmBiasRelu => rfl
  | mlp2 => exact absurd rfl h

def expectedWiring (family : Family) : List (String × List String × String) :=
  if family = .gemm then [("matmul", ["a", "b"], "mm")]
  else [("matmul", ["a", "b"], "mm"), ("bias_add", ["mm", "bias"], "biased"), ("relu", ["biased"], "output")]

def expectedOps (family : Family) : List String :=
  if family = .gemm then ["matmul"] else ["matmul", "bias_add", "relu"]

/-- The text of `expected_ops`. -/
def showOps (family : Family) : String :=
  if family = .gemm then "('matmul',)" else "('matmul', 'bias_add', 'relu')"

/-- The loop over the nodes with the outputs so far. -/
def topological : List GraphNode → List String → Except PyError Unit
  | [], _ => .ok ()
  | node :: rest, available => do
    require (node.nodeId ≠ "" ∧ node.output ≠ "" ∧ ∀ input ∈ node.inputs, input ∈ available)
      (.valueError ("graph node " ++ (if node.nodeId = "" then "<unnamed>" else node.nodeId) ++ " is not topological"))
    require (node.output ∉ available) (.valueError ("graph output " ++ node.output ++ " is not unique"))
    topological rest (node.output :: available)

/-- `GraphProgram` with what its constructor has checked. -/
structure GraphProgram where
  programId : String
  family : Family
  m : ℤ
  n : ℤ
  k : ℤ
  nodes : List GraphNode
  schema : String
  named : programId ≠ ""
  isSchema : schema = GRAPH_SCHEMA
  inFamily : family ≠ .mlp2
  dimensions : 0 < min (min m n) k ∧ max (max m n) k ≤ 512
  uniqueIds : (nodes.map GraphNode.nodeId).Nodup
  ops : nodes.map GraphNode.op = expectedOps family
  ordered : topological nodes ["a", "b", "bias"] = .ok ()
  wiring : (nodes.map fun node => (node.op, node.inputs, node.output)) = expectedWiring family
  deriving DecidableEq

/-- `WorkloadSpec`. -/
structure WorkloadSpec where
  workloadId : String
  family : Family
  m : ℤ
  n : ℤ
  k : ℤ
  lineage : String
  shapeClass : String
  workingSet : String
  operatorComposition : String
  innerIterations : ℤ
  deriving DecidableEq

namespace WorkloadSpec

def postInit (w : WorkloadSpec) : Except PyError WorkloadSpec := do
  require (0 < min (min w.m w.n) (min w.k w.innerIterations))
    (.valueError ("workload " ++ w.workloadId ++ " dimensions must be positive"))
  require (max (max w.m w.n) w.k ≤ 512 ∧ w.innerIterations ≤ 1000000)
    (.valueError ("workload " ++ w.workloadId ++ " exceeds native safety bounds"))
  return w

end WorkloadSpec

namespace GraphProgram

variable {F : Type}

/-- The constructor. -/
def new (programId family : String) (m n k : ℤ) (nodes : List GraphNode) (schema : String) :
    Except PyError GraphProgram := do
  let ⟨named⟩ ← ensure (programId ≠ "") "graph program identity is required"
  let ⟨isSchema⟩ ← ensure (schema = GRAPH_SCHEMA) ("unsupported graph schema: " ++ schema)
  let family ← readFamily family
  let ⟨inFamily⟩ ← ensure (family ≠ .mlp2) ("unsupported MVP graph family: " ++ familyName family)
  let ⟨dimensions⟩ ← ensure (0 < min (min m n) k ∧ max (max m n) k ≤ 512)
    "graph dimensions must be between 1 and 512"
  let ⟨uniqueIds⟩ ← ensure (nodes.map GraphNode.nodeId).Nodup "graph node identifiers must be unique"
  let ⟨ops⟩ ← ensure (nodes.map GraphNode.op = expectedOps family)
    (familyName family ++ " graph must contain " ++ showOps family)
  let ⟨ordered⟩ ← checked (topological nodes ["a", "b", "bias"])
  let ⟨wiring⟩ ← ensure ((nodes.map fun node => (node.op, node.inputs, node.output)) = expectedWiring family)
    (familyName family ++ " graph wiring is outside the admitted MVP shape")
  return { programId, family, m, n, k, nodes, schema, named, isSchema, inFamily, dimensions, uniqueIds, ops, ordered,
           wiring }

theorem new_fields (p : GraphProgram) :
    new p.programId (familyName p.family) p.m p.n p.k p.nodes p.schema = .ok p := by
  simp [new, ensure_of p.named, ensure_of p.isSchema, readFamily_familyName p.inFamily, ensure_of p.inFamily,
    ensure_of p.dimensions, ensure_of p.uniqueIds, ensure_of p.ops, checked_of p.ordered, ensure_of p.wiring, bind,
    Except.bind, pure, Except.pure]

def create (family : String) (m n k : ℤ) : Except PyError GraphProgram :=
  let matmul : GraphNode := ⟨"matmul", "matmul", ["a", "b"], "mm"⟩
  let nodes := if family = "gemm_bias_relu" then
    [matmul, ⟨"bias", "bias_add", ["mm", "bias"], "biased"⟩, ⟨"relu", "relu", ["biased"], "output"⟩] else [matmul]
  new (family ++ "-" ++ toString m ++ "x" ++ toString n ++ "x" ++ toString k) family m n k nodes GRAPH_SCHEMA

def toDict (p : GraphProgram) : Fields F := [
  ("program_id", .str p.programId),
  ("family", .str (familyName p.family)),
  ("m", .int p.m),
  ("n", .int p.n),
  ("k", .int p.k),
  ("nodes", .tuple (p.nodes.map fun node => .dict node.toDict)),
  ("schema", .str p.schema)]

def fromDict (value : PyValue F) : Except PyError GraphProgram := do
  let value ← readDict "graph program is not an object" value
  requireExactKeys value ["program_id", "family", "m", "n", "k", "nodes", "schema"] "graph program"
  let items ← readArray "graph program nodes must be an array" (item value "nodes")
  let programId ← readStr "graph program fields have invalid types" (item value "program_id")
  let family ← readStr "graph program fields have invalid types" (item value "family")
  let schema ← readStr "graph program fields have invalid types" (item value "schema")
  let m ← readInt "graph program fields have invalid types" (item value "m")
  let n ← readInt "graph program fields have invalid types" (item value "n")
  let k ← readInt "graph program fields have invalid types" (item value "k")
  let nodes ← (dicts items).mapM fun fields => GraphNode.fromDict (.dict fields)
  require (nodes.length = items.length) (.valueError "graph program nodes must be objects")
  new programId family m n k nodes schema

theorem fromDict_toDict (p : GraphProgram) : fromDict (F := F) (.dict p.toDict) = .ok p := by
  have hnodes : (p.nodes.map GraphNode.toDict).mapM (fun fields => GraphNode.fromDict (F := F) (.dict fields)) =
      .ok p.nodes := mapM_encode fun node _ => GraphNode.fromDict_toDict node
  simp [fromDict, toDict, requireExactKeys, item, List.lookup_cons, require, hnodes, new_fields, bind, Except.bind]

def identity (p : GraphProgram) : Identity := identityOf (.dict p.toDict)

def workload (p : GraphProgram) (innerIterations : ℤ) : Except PyError WorkloadSpec :=
  WorkloadSpec.postInit ⟨p.programId, p.family, p.m, p.n, p.k, "graph-mvp", "runtime", "host-managed",
    "+".intercalate (p.nodes.map GraphNode.op), innerIterations⟩

/-- The program as the semantic oracle reads it. -/
def native (p : GraphProgram) : Native.GraphProgram where
  family := p.family
  m := p.m.toNat
  n := p.n.toNat
  k := p.k.toNat
  inFamily := p.inFamily
  dimensions := by
    have := p.dimensions
    omega

end GraphProgram

structure ExecutionContract where
  contractId : String
  allowedOps : List String
  maximumDimension : ℤ
  trustedBaseline : String
  deriving DecidableEq

namespace ExecutionContract

/-- `ExecutionContract()`. -/
def default : ExecutionContract where
  contractId := "posix-cpu-userspace-v1"
  allowedOps := ["matmul", "bias_add", "relu"]
  maximumDimension := 512
  trustedBaseline := "baseline-ijk"

def toDict {F : Type} (c : ExecutionContract) : Fields F := [
  ("contract_id", .str c.contractId),
  ("allowed_ops", .tuple (c.allowedOps.map .str)),
  ("maximum_dimension", .int c.maximumDimension),
  ("trusted_baseline", .str c.trustedBaseline)]

def identity (c : ExecutionContract) : Identity := identityOf (.dict c.toDict)

/-- The operations of a program outside the contract, in order. -/
def rejected (c : ExecutionContract) (program : GraphProgram) : List String :=
  (((program.nodes.map GraphNode.op).dedup).filter fun op => op ∉ c.allowedOps).insertionSort (· ≤ ·)

def validate (c : ExecutionContract) (program : GraphProgram) : Except PyError Unit := do
  require (max (max program.m program.n) program.k ≤ c.maximumDimension)
    (.valueError ("program exceeds contract " ++ c.contractId ++ " dimensions"))
  require (c.rejected program = []) (.valueError ("program uses operations outside the contract: [" ++
    ", ".intercalate ((c.rejected program).map fun op => "'" ++ op ++ "'") ++ "]"))

end ExecutionContract

end Raveil.Mvp
