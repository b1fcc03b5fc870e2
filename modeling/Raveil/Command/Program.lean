import Raveil.Command.Json

/-! Command-graph programs as they are stored. -/
namespace Raveil.Command

open Lib

def PROGRAM_SCHEMA : String := "raveil.command-graph-program/v1"
def POLICY_SCHEMA : String := "raveil.command-execution-policy/v1"
def TOOL_SCHEMA : String := "raveil.command-tool/v1"
def NODE_SCHEMA : String := "raveil.command-node/v1"
def EDGE_SCHEMA : String := "raveil.command-edge/v1"
def MAX_NODES : ℤ := 64
def MAX_ARGV : ℕ := 32
def MAX_ARG_BYTES : ℕ := 4096
def MAX_CAPTURE_BYTES : ℤ := 1024 * 1024
def MAX_PARALLEL : ℤ := 8
def CONTROLLED_ENV : List (String × String) := [("LC_ALL", "C"), ("LANG", "C"), ("TZ", "UTC")]

/-- `tuple(sorted(CONTROLLED_ENV.items()))`. -/
def controlledEnvironment : List (String × String) := CONTROLLED_ENV.insertionSort fun a b => a.1 ≤ b.1

structure ToolIdentity where
  logicalName : String
  locator : String
  version : String
  binarySha256 : String
  adapter : String
  schema : String := TOOL_SCHEMA
  deriving DecidableEq

namespace ToolIdentity

def toDict (t : ToolIdentity) : Json :=
  .dict [("schema", .str t.schema), ("logical_name", .str t.logicalName), ("locator", .str t.locator),
    ("version", .str t.version), ("binary_sha256", .str t.binarySha256), ("adapter", .str t.adapter)]

def fromDict (data : Json) : Except String ToolIdentity := do
  let fields ← exact data ["schema", "logical_name", "locator", "version", "binary_sha256", "adapter"] "tool"
  let logicalName ← text (item fields "logical_name") "tool" 4096
  let locator ← text (item fields "locator") "locator" 4096
  let version ← text (item fields "version") "version" 512
  let binarySha256 ← text (item fields "binary_sha256") "binary hash" 64
  let adapter ← text (item fields "adapter") "adapter" 4096
  let schema ← text (item fields "schema") "schema" 4096
  require (schema = TOOL_SCHEMA ∧ binarySha256.length = 64) "invalid tool identity"
  return ⟨logicalName, locator, version, binarySha256, adapter, schema⟩

/-- A tool that its reader accepts. -/
structure Readable (t : ToolIdentity) : Prop where
  logicalName : IsText 4096 t.logicalName
  locator : IsText 4096 t.locator
  version : IsText 512 t.version
  binarySha256 : IsText 64 t.binarySha256 ∧ t.binarySha256.length = 64
  adapter : IsText 4096 t.adapter
  schema : t.schema = TOOL_SCHEMA

theorem readable_of_fromDict {data : Json} {t : ToolIdentity} (h : fromDict data = .ok t) : t.Readable := by
  simp only [fromDict, except_bind_eq_ok, require_eq_ok] at h
  obtain ⟨fields, -, logicalName, hname, locator, hlocator, version, hversion, digest, hdigest, adapter, hadapter,
    schema, -, -, ⟨hschema, hlen⟩, h⟩ := h
  cases h
  exact ⟨(text_eq_ok hname).2, (text_eq_ok hlocator).2, (text_eq_ok hversion).2, ⟨(text_eq_ok hdigest).2, hlen⟩,
    (text_eq_ok hadapter).2, hschema⟩

theorem fromDict_toDict {t : ToolIdentity} (h : t.Readable) : fromDict t.toDict = .ok t := by
  have hschema : text (.str t.schema) "schema" 4096 = .ok t.schema := text_str (h.schema ▸ by decide)
  simp [fromDict, toDict, exact, item, text_str h.logicalName, text_str h.locator, text_str h.version,
    text_str h.binarySha256.1, text_str h.adapter, hschema, require_of (And.intro h.schema h.binarySha256.2), bind,
    Except.bind, pure, Except.pure]

end ToolIdentity

structure ExecutionPolicy where
  timeoutMs : ℤ := 10000
  maxCaptureBytes : ℤ := MAX_CAPTURE_BYTES
  maxNodes : ℤ := MAX_NODES
  maxParallel : ℤ := 4
  schema : String := POLICY_SCHEMA
  deriving DecidableEq

namespace ExecutionPolicy

def toDict (p : ExecutionPolicy) : Json :=
  .dict [("schema", .str p.schema), ("timeout_ms", .int p.timeoutMs),
    ("max_capture_bytes", .int p.maxCaptureBytes), ("max_nodes", .int p.maxNodes),
    ("max_parallel", .int p.maxParallel)]

def fromDict (data : Json) : Except String ExecutionPolicy := do
  let fields ← exact data ["schema", "timeout_ms", "max_capture_bytes", "max_nodes", "max_parallel"] "policy"
  let timeoutMs ← integer (item fields "timeout_ms") "timeout" 1 60000
  let maxCaptureBytes ← integer (item fields "max_capture_bytes") "capture" 1 MAX_CAPTURE_BYTES
  let maxNodes ← integer (item fields "max_nodes") "nodes" 1 MAX_NODES
  let maxParallel ← integer (item fields "max_parallel") "parallel" 1 MAX_PARALLEL
  let schema ← text (item fields "schema") "schema" 4096
  require (schema = POLICY_SCHEMA) "invalid policy schema"
  return ⟨timeoutMs, maxCaptureBytes, maxNodes, maxParallel, schema⟩

/-- A policy that its reader accepts. -/
structure Readable (p : ExecutionPolicy) : Prop where
  timeoutMs : 1 ≤ p.timeoutMs ∧ p.timeoutMs ≤ 60000
  maxCaptureBytes : 1 ≤ p.maxCaptureBytes ∧ p.maxCaptureBytes ≤ MAX_CAPTURE_BYTES
  maxNodes : 1 ≤ p.maxNodes ∧ p.maxNodes ≤ MAX_NODES
  maxParallel : 1 ≤ p.maxParallel ∧ p.maxParallel ≤ MAX_PARALLEL
  schema : p.schema = POLICY_SCHEMA

theorem readable_of_fromDict {data : Json} {p : ExecutionPolicy} (h : fromDict data = .ok p) : p.Readable := by
  simp only [fromDict, except_bind_eq_ok, require_eq_ok] at h
  obtain ⟨fields, -, timeoutMs, htimeout, capture, hcapture, nodes, hnodes, parallel, hparallel, schema, -, -, hschema,
    h⟩ := h
  cases h
  exact ⟨(integer_eq_ok htimeout).2, (integer_eq_ok hcapture).2, (integer_eq_ok hnodes).2, (integer_eq_ok hparallel).2,
    hschema⟩

/-- The policy that nobody chose is accepted. -/
theorem readable_default : Readable {} := by
  constructor <;> decide

theorem fromDict_toDict {p : ExecutionPolicy} (h : p.Readable) : fromDict p.toDict = .ok p := by
  have hschema : text (.str p.schema) "schema" 4096 = .ok p.schema := text_str (h.schema ▸ by decide)
  simp [fromDict, toDict, exact, item, integer_int h.timeoutMs, integer_int h.maxCaptureBytes, integer_int h.maxNodes,
    integer_int h.maxParallel, hschema, require_of h.schema, bind, Except.bind, pure, Except.pure]

end ExecutionPolicy

inductive DependencyMode where
  | always
  | success
  | stream
  deriving DecidableEq

namespace DependencyMode

def name : DependencyMode → String
  | always => "always"
  | success => "success"
  | stream => "stream"

def ofName (s : String) : Option DependencyMode :=
  if s = "always" then some always
  else if s = "success" then some success
  else if s = "stream" then some stream
  else none

theorem ofName_name (m : DependencyMode) : ofName m.name = some m := by
  cases m <;> rfl

end DependencyMode

inductive EdgeKind where
  | stream
  | success
  | sequence
  deriving DecidableEq

namespace EdgeKind

def name : EdgeKind → String
  | stream => "stream"
  | success => "success"
  | sequence => "sequence"

def ofName (s : String) : Option EdgeKind :=
  if s = "stream" then some stream
  else if s = "success" then some success
  else if s = "sequence" then some sequence
  else none

theorem ofName_name (k : EdgeKind) : ofName k.name = some k := by
  cases k <;> rfl

end EdgeKind

/-- The edges into a node with this mode. -/
def DependencyMode.edgeKind : DependencyMode → EdgeKind
  | stream => .stream
  | success => .success
  | always => .sequence

structure CommandNode where
  nodeId : String
  tool : ToolIdentity
  argv : List String
  pathIndices : List ℕ
  declaredWrites : List String
  stdinFile : Option String
  stdoutFile : Option String
  dependencies : List String
  dependencyMode : DependencyMode
  fanoutGroup : ℕ
  schema : String := NODE_SCHEMA
  deriving DecidableEq

namespace CommandNode

def optional (file : Option String) : Json := file.elim .null .str

def toDict (n : CommandNode) : Json :=
  .dict [("schema", .str n.schema), ("node_id", .str n.nodeId), ("tool", n.tool.toDict),
    ("argv", .list (n.argv.map .str)), ("path_indices", .list (n.pathIndices.map fun i : ℕ => .int i)),
    ("declared_writes", .list (n.declaredWrites.map .str)), ("stdin_file", optional n.stdinFile),
    ("stdout_file", optional n.stdoutFile), ("dependencies", .list (n.dependencies.map .str)),
    ("dependency_mode", .str n.dependencyMode.name), ("fanout_group", .int n.fanoutGroup)]

def optionalText (value : Json) (name : String) : Except String (Option String) :=
  match value with
  | .null => .ok none
  | _ => (text value name 4096).map some

def fromDict (data : Json) : Except String CommandNode := do
  let fields ← exact data ["schema", "node_id", "tool", "argv", "path_indices", "declared_writes",
    "stdin_file", "stdout_file", "dependencies", "dependency_mode", "fanout_group"] "node"
  let argv ← listed (item fields "argv") "invalid node lists"
  let pathIndices ← listed (item fields "path_indices") "invalid node lists"
  let declaredWrites ← listed (item fields "declared_writes") "invalid node lists"
  let dependencies ← listed (item fields "dependencies") "invalid node lists"
  let argv ← argv.mapM (text · "argv" 4096)
  let pathIndices ← pathIndices.mapM (integer · "path index" 0 (max 0 ((argv.length : ℤ) - 1)))
  let dependencies ← dependencies.mapM (text · "dependency" 4096)
  let stdinFile ← optionalText (item fields "stdin_file") "stdin file"
  let stdoutFile ← optionalText (item fields "stdout_file") "stdout file"
  let declaredWrites ← declaredWrites.mapM (text · "declared write" 4096)
  let nodeId ← text (item fields "node_id") "node id" 4096
  let tool ← ToolIdentity.fromDict (item fields "tool")
  let dependencyMode ← text (item fields "dependency_mode") "dependency mode" 4096
  let fanoutGroup ← integer (item fields "fanout_group") "fanout group" 0 MAX_NODES
  let schema ← text (item fields "schema") "schema" 4096
  require (schema = NODE_SCHEMA) "invalid node"
  match DependencyMode.ofName dependencyMode with
  | none => .error "invalid node"
  | some mode => return ⟨nodeId, tool, argv, pathIndices.map Int.toNat, declaredWrites, stdinFile,
      stdoutFile, dependencies, mode, fanoutGroup.toNat, schema⟩

/-- A node that its reader accepts. -/
structure Readable (n : CommandNode) : Prop where
  nodeId : IsText 4096 n.nodeId
  tool : n.tool.Readable
  argv : ∀ arg ∈ n.argv, IsText 4096 arg
  pathIndices : ∀ index ∈ n.pathIndices, index ≤ n.argv.length - 1
  declaredWrites : ∀ path ∈ n.declaredWrites, IsText 4096 path
  stdinFile : ∀ file ∈ n.stdinFile, IsText 4096 file
  stdoutFile : ∀ file ∈ n.stdoutFile, IsText 4096 file
  dependencies : ∀ dependency ∈ n.dependencies, IsText 4096 dependency
  fanoutGroup : (n.fanoutGroup : ℤ) ≤ MAX_NODES
  schema : n.schema = NODE_SCHEMA

theorem optionalText_eq_ok {value : Json} {name : String} {file : Option String}
    (h : optionalText value name = .ok file) : ∀ path ∈ file, IsText 4096 path := by
  intro path hpath
  unfold optionalText at h
  split at h
  · cases h
    cases hpath
  · obtain ⟨s, hs, rfl⟩ := except_map_eq_ok.mp h
    cases hpath
    exact (text_eq_ok hs).2

theorem optionalText_optional {file : Option String} {name : String} (h : ∀ path ∈ file, IsText 4096 path) :
    optionalText (optional file) name = .ok file := by
  cases file with
  | none => rfl
  | some path =>
    change (text (.str path) name 4096).map some = _
    rw [text_str (h path rfl)]
    rfl

theorem readable_of_fromDict {data : Json} {n : CommandNode} (h : fromDict data = .ok n) : n.Readable := by
  simp only [fromDict, except_bind_eq_ok, require_eq_ok] at h
  obtain ⟨fields, -, argvItems, -, pathItems, -, writeItems, -, dependencyItems, -, argv, hargv, paths, hpaths,
    dependencies, hdependencies, stdinFile, hstdin, stdoutFile, hstdout, writes, hwrites, nodeId, hid, tool, htool,
    mode, -, group, hgroup, schema, -, -, hschema, h⟩ := h
  cases hmode : DependencyMode.ofName mode with
  | none =>
    rw [hmode] at h
    cases h
  | some mode =>
    rw [hmode] at h
    cases h
    have hargs := isText_of_mapM hargv
    refine ⟨(text_eq_ok hid).2, ToolIdentity.readable_of_fromDict htool, hargs, fun index hindex => ?_,
      isText_of_mapM hwrites, optionalText_eq_ok hstdin, optionalText_eq_ok hstdout, isText_of_mapM hdependencies, ?_,
      hschema⟩
    · obtain ⟨i, hi, rfl⟩ := List.mem_map.mp hindex
      obtain ⟨item, -, hitem⟩ := exists_of_mem_mapM hpaths hi
      have := (integer_eq_ok hitem).2
      dsimp only
      omega
    · have := (integer_eq_ok hgroup).2
      dsimp only
      omega

theorem fromDict_toDict {n : CommandNode} (h : n.Readable) : fromDict n.toDict = .ok n := by
  have hargv : (n.argv.map Json.str).mapM (text · "argv" 4096) = .ok n.argv :=
    mapM_encode fun arg harg => text_str (h.argv arg harg)
  have hpaths : (n.pathIndices.map fun i : ℕ => Json.int i).mapM
      (integer · "path index" 0 (max 0 ((n.argv.length : ℤ) - 1))) =
      .ok (n.pathIndices.map fun i : ℕ => (i : ℤ)) := by
    rw [mapM_eq_ok_iff, List.forall₂_map_left_iff, List.forall₂_map_right_iff, List.forall₂_same]
    intro i hi
    have := h.pathIndices i hi
    exact integer_int (by omega)
  have hwrites : (n.declaredWrites.map Json.str).mapM (text · "declared write" 4096) = .ok n.declaredWrites :=
    mapM_encode fun path hpath => text_str (h.declaredWrites path hpath)
  have hdependencies : (n.dependencies.map Json.str).mapM (text · "dependency" 4096) = .ok n.dependencies :=
    mapM_encode fun dependency hd => text_str (h.dependencies dependency hd)
  have hmode : text (.str n.dependencyMode.name) "dependency mode" 4096 = .ok n.dependencyMode.name :=
    text_str (by cases n.dependencyMode <;> decide)
  have hgroup : integer (.int n.fanoutGroup) "fanout group" 0 MAX_NODES = .ok (n.fanoutGroup : ℤ) :=
    integer_int ⟨Int.natCast_nonneg _, h.fanoutGroup⟩
  have hschema : text (.str n.schema) "schema" 4096 = .ok n.schema := text_str (h.schema ▸ by decide)
  simp [fromDict, toDict, exact, item, listed, hargv, hpaths, hwrites, hdependencies,
    optionalText_optional h.stdinFile, optionalText_optional h.stdoutFile, text_str h.nodeId,
    ToolIdentity.fromDict_toDict h.tool, hmode, DependencyMode.ofName_name, hgroup, hschema, require_of h.schema, bind,
    Except.bind, pure, Except.pure, Function.comp_def]

end CommandNode

structure CommandEdge where
  source : String
  target : String
  kind : EdgeKind
  schema : String := EDGE_SCHEMA
  deriving DecidableEq

namespace CommandEdge

def toDict (e : CommandEdge) : Json :=
  .dict [("schema", .str e.schema), ("source", .str e.source), ("target", .str e.target),
    ("kind", .str e.kind.name)]

def fromDict (data : Json) : Except String CommandEdge := do
  let fields ← exact data ["schema", "source", "target", "kind"] "edge"
  let source ← text (item fields "source") "source" 4096
  let target ← text (item fields "target") "target" 4096
  let kind ← text (item fields "kind") "edge kind" 4096
  let schema ← text (item fields "schema") "schema" 4096
  require (schema = EDGE_SCHEMA) "invalid edge"
  match EdgeKind.ofName kind with
  | none => .error "invalid edge"
  | some kind => return ⟨source, target, kind, schema⟩

/-- An edge that its reader accepts. -/
structure Readable (e : CommandEdge) : Prop where
  source : IsText 4096 e.source
  target : IsText 4096 e.target
  schema : e.schema = EDGE_SCHEMA

theorem readable_of_fromDict {data : Json} {e : CommandEdge} (h : fromDict data = .ok e) : e.Readable := by
  simp only [fromDict, except_bind_eq_ok, require_eq_ok] at h
  obtain ⟨fields, -, source, hsource, target, htarget, kind, -, schema, -, -, hschema, h⟩ := h
  cases hkind : EdgeKind.ofName kind with
  | none =>
    rw [hkind] at h
    cases h
  | some kind =>
    rw [hkind] at h
    cases h
    exact ⟨(text_eq_ok hsource).2, (text_eq_ok htarget).2, hschema⟩

theorem fromDict_toDict {e : CommandEdge} (h : e.Readable) : fromDict e.toDict = .ok e := by
  have hkind : text (.str e.kind.name) "edge kind" 4096 = .ok e.kind.name := text_str (by cases e.kind <;> decide)
  have hschema : text (.str e.schema) "schema" 4096 = .ok e.schema := text_str (h.schema ▸ by decide)
  simp [fromDict, toDict, exact, item, text_str h.source, text_str h.target, hkind, EdgeKind.ofName_name, hschema,
    require_of h.schema, bind, Except.bind, pure, Except.pure]

end CommandEdge

structure CommandGraphProgram where
  graphId : String
  source : String
  nodes : List CommandNode
  edges : List CommandEdge
  declaredInputs : List String
  declaredOutputs : List String
  policy : ExecutionPolicy
  environment : List (String × String)
  schema : String := PROGRAM_SCHEMA
  deriving DecidableEq

namespace CommandGraphProgram

def identityFields (p : CommandGraphProgram) : List (String × Json) :=
  [("schema", .str p.schema), ("source", .str p.source), ("nodes", .list (p.nodes.map (·.toDict))),
    ("edges", .list (p.edges.map (·.toDict))), ("declared_inputs", .list (p.declaredInputs.map .str)),
    ("declared_outputs", .list (p.declaredOutputs.map .str)), ("policy", p.policy.toDict),
    ("environment", .list (p.environment.map fun entry => .list [.str entry.1, .str entry.2]))]

def identity (p : CommandGraphProgram) : String := hexdigest (canonical (.dict p.identityFields))

/-- The graph id that belongs to the contents. -/
def sealedId (p : CommandGraphProgram) : String := "command-" ++ firstChars 16 p.identity

/-- The program with the graph id of its contents. -/
def sealed (p : CommandGraphProgram) : CommandGraphProgram := { p with graphId := p.sealedId }

/-- Every dependency stands before its node. -/
def topological : List String → List CommandNode → Bool
  | _, [] => true
  | prior, node :: nodes =>
    node.dependencies.all (prior.contains ·) && topological (node.nodeId :: prior) nodes

def validate (p : CommandGraphProgram) : Except String Unit := do
  require (p.schema = PROGRAM_SCHEMA ∧ p.graphId = p.sealedId) "command graph identity does not match"
  require (p.nodes ≠ [] ∧ (p.nodes.length : ℤ) ≤ p.policy.maxNodes) "invalid command graph node count"
  require (p.nodes.map (·.nodeId)).Nodup "duplicate command node"
  require (topological [] p.nodes) "command graph is not topological"
  require p.declaredOutputs.Nodup "duplicate declared output"
  require p.declaredInputs.Nodup "duplicate declared input"

def toDict (p : CommandGraphProgram) : Json := .dict (("graph_id", .str p.graphId) :: p.identityFields)

/-- One entry of the environment. -/
def environmentEntry (value : Json) : Except String (String × String) :=
  match value with
  | .list [key, value] => do
    let key ← text key "environment key" 4096
    let value ← text value "environment value" 4096
    .ok (key, value)
  | _ => .error "invalid environment"

def fromDict (data : Json) : Except String CommandGraphProgram := do
  let fields ← exact data ["schema", "graph_id", "source", "nodes", "edges", "declared_inputs",
    "declared_outputs", "policy", "environment"] "command graph"
  let nodes ← listed (item fields "nodes") "invalid command graph list"
  let edges ← listed (item fields "edges") "invalid command graph list"
  let declaredInputs ← listed (item fields "declared_inputs") "invalid command graph list"
  let declaredOutputs ← listed (item fields "declared_outputs") "invalid command graph list"
  let environment ← listed (item fields "environment") "invalid command graph list"
  let environment ← environment.mapM environmentEntry
  let graphId ← text (item fields "graph_id") "graph id" 4096
  let source ← text (item fields "source") "source" 8192
  let nodes ← nodes.mapM CommandNode.fromDict
  let edges ← edges.mapM CommandEdge.fromDict
  let declaredInputs ← declaredInputs.mapM (text · "input" 4096)
  let declaredOutputs ← declaredOutputs.mapM (text · "output" 4096)
  let policy ← ExecutionPolicy.fromDict (item fields "policy")
  let schema ← text (item fields "schema") "schema" 4096
  let value : CommandGraphProgram :=
    ⟨graphId, source, nodes, edges, declaredInputs, declaredOutputs, policy, environment, schema⟩
  value.validate
  return value

/-- A program that its reader accepts. -/
structure Readable (p : CommandGraphProgram) : Prop where
  graphId : IsText 4096 p.graphId
  source : IsText 8192 p.source
  nodes : ∀ node ∈ p.nodes, node.Readable
  edges : ∀ edge ∈ p.edges, edge.Readable
  declaredInputs : ∀ path ∈ p.declaredInputs, IsText 4096 path
  declaredOutputs : ∀ path ∈ p.declaredOutputs, IsText 4096 path
  policy : p.policy.Readable
  environment : ∀ entry ∈ p.environment, IsText 4096 entry.1 ∧ IsText 4096 entry.2
  valid : p.validate = .ok ()

theorem environmentEntry_eq_ok {value : Json} {entry : String × String} (h : environmentEntry value = .ok entry) :
    IsText 4096 entry.1 ∧ IsText 4096 entry.2 := by
  unfold environmentEntry at h
  split at h
  · simp only [except_bind_eq_ok] at h
    obtain ⟨key, hkey, value, hvalue, h⟩ := h
    cases h
    exact ⟨(text_eq_ok hkey).2, (text_eq_ok hvalue).2⟩
  · cases h

theorem environmentEntry_list {entry : String × String} (h : IsText 4096 entry.1 ∧ IsText 4096 entry.2) :
    environmentEntry (.list [.str entry.1, .str entry.2]) = .ok entry := by
  simp [environmentEntry, text_str h.1, text_str h.2, bind, Except.bind]

theorem readable_of_fromDict {data : Json} {p : CommandGraphProgram} (h : fromDict data = .ok p) : p.Readable := by
  simp only [fromDict, except_bind_eq_ok] at h
  obtain ⟨fields, -, nodeItems, -, edgeItems, -, inputItems, -, outputItems, -, entries, -, environment, henvironment,
    graphId, hgraph, source, hsource, nodes, hnodes, edges, hedges, inputs, hinputs, outputs, houtputs, policy, hpolicy,
    schema, -, checked, hvalid, h⟩ := h
  cases h
  refine ⟨(text_eq_ok hgraph).2, (text_eq_ok hsource).2, fun node hnode => ?_, fun edge hedge => ?_,
    isText_of_mapM hinputs, isText_of_mapM houtputs, ExecutionPolicy.readable_of_fromDict hpolicy, fun entry hentry => ?_,
    hvalid⟩
  · obtain ⟨item, -, hitem⟩ := exists_of_mem_mapM hnodes hnode
    exact CommandNode.readable_of_fromDict hitem
  · obtain ⟨item, -, hitem⟩ := exists_of_mem_mapM hedges hedge
    exact CommandEdge.readable_of_fromDict hitem
  · obtain ⟨item, -, hitem⟩ := exists_of_mem_mapM henvironment hentry
    exact environmentEntry_eq_ok hitem

/-- A readable program is read back as it was stored. -/
theorem fromDict_toDict {p : CommandGraphProgram} (h : p.Readable) : fromDict p.toDict = .ok p := by
  have hnodes : (p.nodes.map CommandNode.toDict).mapM CommandNode.fromDict = .ok p.nodes :=
    mapM_encode fun node hnode => CommandNode.fromDict_toDict (h.nodes node hnode)
  have hedges : (p.edges.map CommandEdge.toDict).mapM CommandEdge.fromDict = .ok p.edges :=
    mapM_encode fun edge hedge => CommandEdge.fromDict_toDict (h.edges edge hedge)
  have hinputs : (p.declaredInputs.map Json.str).mapM (text · "input" 4096) = .ok p.declaredInputs :=
    mapM_encode fun path hpath => text_str (h.declaredInputs path hpath)
  have houtputs : (p.declaredOutputs.map Json.str).mapM (text · "output" 4096) = .ok p.declaredOutputs :=
    mapM_encode fun path hpath => text_str (h.declaredOutputs path hpath)
  have henvironment : (p.environment.map fun entry => Json.list [.str entry.1, .str entry.2]).mapM environmentEntry =
      .ok p.environment := mapM_encode fun entry hentry => environmentEntry_list (h.environment entry hentry)
  have hpschema : p.schema = PROGRAM_SCHEMA := (require_then_eq_ok.mp h.valid).1.1
  have hschema : text (.str p.schema) "schema" 4096 = .ok p.schema := text_str (hpschema ▸ by decide)
  simp [fromDict, toDict, identityFields, exact, item, listed, hnodes, hedges, hinputs, houtputs, henvironment,
    text_str h.graphId, text_str h.source, ExecutionPolicy.fromDict_toDict h.policy, hschema, h.valid, bind, Except.bind,
    pure, Except.pure]

/-- A stored program is read back as it was exactly if it is readable. -/
theorem fromDict_toDict_iff {p : CommandGraphProgram} : fromDict p.toDict = .ok p ↔ p.Readable :=
  ⟨readable_of_fromDict, fromDict_toDict⟩

/-- What was read can be stored again, whatever it was read from. -/
theorem fromDict_stored {data : Json} {p : CommandGraphProgram} (h : fromDict data = .ok p) : fromDict p.toDict = .ok p :=
  fromDict_toDict_iff.mpr (readable_of_fromDict h)

end CommandGraphProgram

end Raveil.Command
