import Raveil.Command.Compile
import Raveil.Command.Program
import Raveil.Command.Stage
import Raveil.Command.Text

/-! What a run's captured output is normalised to, the two executors of a command graph, and their comparison. -/
namespace Raveil.Command

inductive Status where
  | executed
  | failed
  | timeout
  | skipped
  | invalidMutation
  deriving DecidableEq

/-- How a tool's process ends. -/
inductive Ran where
  | exited (status : ℤ) (stdout stderr : List UInt8)
  | timeout

/-- `sha256sum` keeps the first word of every line. -/
def digestLines (stdout : List UInt8) : List UInt8 :=
  encode <| (splitlines [] (decodeReplace stdout)).flatMap fun line =>
    (splitWords isSpace line).head?.getD [] ++ ['\n']

/-- `wc` keeps its words, one blank apart. -/
def countWords (stdout : List UInt8) : List UInt8 :=
  ([32] : List UInt8).intercalate (splitWords isSpaceByte stdout) ++ [10]

/-- One line of `uniq -c`. -/
def countedLine (digits : Digits) (line : List Char) : Except String (List Char) :=
  let line := strip line
  let value := (line.dropWhile (!isSpace ·)).dropWhile isSpace
  if value = [] then .error "not enough values to unpack"
  else
    match readInt digits.decimal (line.takeWhile (!isSpace ·)) with
    | none => .error "invalid literal for int"
    | some count => .ok ((toString count).toList ++ [' '] ++ value ++ ['\n'])

def countedLines (digits : Digits) (stdout : List UInt8) : Except String (List UInt8) := do
  match decodeStrict stdout with
  | none => throw "invalid utf-8"
  | some chars =>
    let lines ← (splitlines [] chars).mapM (countedLine digits)
    return encode lines.flatten

/-- The tools whose output does not agree between hosts. -/
def normalizeStdout (digits : Digits) (node : CommandNode) (exitStatus : ℤ) (stdout : List UInt8) :
    Except String (List UInt8) := do
  let name := node.tool.logicalName
  let stdout := if name = "sha256sum" ∧ stdout ≠ [] then digestLines stdout else stdout
  let stdout := if name = "wc" ∧ stdout ≠ [] ∧ exitStatus = 0 then countWords stdout else stdout
  if name = "uniq" ∧ "-c" ∈ node.argv ∧ stdout ≠ [] ∧ exitStatus = 0 then countedLines digits stdout
  else return stdout

/-- A run's status, exit status, output and error text, within the capture limit. -/
def Ran.captured (policy : ExecutionPolicy) : Ran → Except String (Status × ℤ × List UInt8 × List UInt8)
  | .timeout => .ok (.timeout, 124, [], "timeout".toUTF8.toList)
  | .exited status stdout stderr =>
    if (stdout.length : ℤ) > policy.maxCaptureBytes ∨ (stderr.length : ℤ) > policy.maxCaptureBytes then
      .error "tool output exceeds bounds"
    else .ok (if status = 0 then .executed else .failed, status, stdout, stderr)

example : countWords [32, 49, 50, 32, 32, 120, 10] = [49, 50, 32, 120, 10] := by decide

open Lib

/-- An argument of a process: a text, or a path below the stage. -/
inductive Argument where
  | text (s : String)
  | path (p : List String)
  deriving DecidableEq

/-- A run of a tool: it asks the file system for one thing after the other. The stage is written `/`
in its arguments and in what it prints. -/
abbrev Process := ToolIdentity → List Argument → List UInt8 → Prog FileOp (Option Entry) Ran

/-- What the executors are started with. -/
structure Host where
  machine : Machine
  process : Process
  policy : ExecutionPolicy

structure NodeOutcome where
  nodeId : String
  status : Status
  exitStatus : ℤ
  stdoutSha256 : String
  stderr : String
  deriving DecidableEq

structure ExecutionOutcome where
  status : Status
  exitStatus : ℤ
  stdout : List UInt8
  stderr : String
  outputs : List (String × String)
  nodes : List NodeOutcome
  maximumConcurrency : ℤ
  deriving DecidableEq

section RunNode

/-- A step of a run that may raise. -/
abbrev Steps (R : Type) := Prog FileOp (Option Entry) (Except String R)

namespace Steps

variable {R R' : Type}

def ok (r : R) : Steps R := .done (.ok r)

def raise (message : String) : Steps R := .done (.error message)

def lift (x : Except String R) : Steps R := .done x

def andThen (p : Steps R) (f : R → Steps R') : Steps R' :=
  p.bind fun r => match r with
    | .ok r => f r
    | .error message => raise message

end Steps

open Steps

def stageArgument (arguments : List Argument) (index : ℕ) : Except String (List Argument) :=
  match arguments[index]? with
  | some (.text v) => do
    let p ← stagePath v
    return arguments.set index (.path p)
  | _ => .error "list index out of range"

def hostArgv (node : CommandNode) : Except String (List Argument) := do
  let argv ← node.pathIndices.foldlM stageArgument (node.argv.map .text)
  return if node.tool.adapter = "shasum-a-256" then .text "-a" :: .text "256" :: argv else argv

def readStdin (node : CommandNode) (stdin : List UInt8) : Steps (List UInt8) :=
  match node.stdinFile with
  | none => ok stdin
  | some file =>
    (lift (stagePath file)).andThen fun p =>
      .act (.look p) fun e => match e with
        | some (.file data) => ok data
        | _ => raise ("cannot read " ++ file)

/-- The directories above a path, below the stage. -/
def ancestors (p : List String) : List (List String) := p.dropLast.inits.tail

def makeParents : List (List String) → Steps Unit
  | [] => ok ()
  | p :: rest => .act (.makeDirectory p) fun e =>
    if e = some .directory then makeParents rest else raise "not a directory"

def prepareOutput (node : CommandNode) : Steps Unit :=
  match node.stdoutFile with
  | none => ok ()
  | some file =>
    (lift (stagePath file)).andThen fun p =>
      .act (.look p) fun e =>
        if e ≠ none then raise ("output collision: " ++ file) else makeParents (ancestors p)

def storeOutput (node : CommandNode) (status : Status) (stdout : List UInt8) : Steps (List UInt8) :=
  match node.stdoutFile with
  | none => ok stdout
  | some file =>
    if status = .executed then
      (lift (stagePath file)).andThen fun p =>
        .act (.write p stdout) fun e => if e = some .directory then raise "is a directory" else ok []
    else ok stdout

def runNode (h : Host) (node : CommandNode) (stdin : List UInt8) : Steps (NodeOutcome × List UInt8) :=
  (lift (executable h.machine node.tool)).andThen fun _ =>
  (lift (hostArgv node)).andThen fun argv =>
  (readStdin node stdin).andThen fun stdin =>
  (prepareOutput node).andThen fun _ =>
  (h.process node.tool argv stdin).bind fun ran =>
  (lift (ran.captured h.policy)).andThen fun (status, exitStatus, stdout, stderr) =>
  (lift (normalizeStdout h.machine.digits node exitStatus stdout)).andThen fun stdout =>
  (storeOutput node status stdout).andThen fun stdout =>
  ok ({ nodeId := node.nodeId, status, exitStatus, stdoutSha256 := hexdigest stdout
        stderr := String.ofList ((decodeReplace stderr).take 65536) }, stdout)

end RunNode

/-- The state of an executor. -/
structure Progress where
  stage : Stage
  outcomes : String → Option NodeOutcome := fun _ => none
  streams : String → Option (List UInt8) := fun _ => none

def skippedOutcome (nodeId : String) : NodeOutcome :=
  { nodeId, status := .skipped, exitStatus := 125, stdoutSha256 := hexdigest [], stderr := "dependency failed" }

/-- Whether a node is skipped because of its dependencies. -/
def skips (outcomes : String → Option NodeOutcome) (node : CommandNode) : Except String Bool := do
  let deps ← node.dependencies.mapM fun dep => (outcomes dep).elim (.error dep) .ok
  return node.dependencyMode ≠ .always ∧ deps.any (·.status ≠ .executed)

/-- The first loop over a batch: it records the nodes to skip and keeps the others. -/
def triage : (String → Option NodeOutcome) → List CommandNode →
    Except String ((String → Option NodeOutcome) × List CommandNode)
  | outcomes, [] => .ok (outcomes, [])
  | outcomes, node :: batch => do
    if ← skips outcomes node then
      triage (Function.update outcomes node.nodeId (some (skippedOutcome node.nodeId))) batch
    else
      let (outcomes, runnable) ← triage outcomes batch
      return (outcomes, node :: runnable)

def stdinOf (streams : String → Option (List UInt8)) (node : CommandNode) : Except String (List UInt8) :=
  if node.dependencyMode = .stream then
    match node.dependencies.getLast? with
    | none => .error "tuple index out of range"
    | some dep => .ok ((streams dep).getD [])
  else .ok []

/-- `run` of one node. -/
def runProgram (h : Host) (streams : String → Option (List UInt8)) (node : CommandNode) :
    Steps (NodeOutcome × List UInt8) :=
  (Steps.lift (stdinOf streams node)).andThen (runNode h node)

/-- The results of a batch, in its order; the first that raised ends the execution. -/
def record : Progress → List (CommandNode × Except String (NodeOutcome × List UInt8)) → Except String Progress
  | st, [] => .ok st
  | _, (_, .error message) :: _ => .error message
  | st, (node, .ok (outcome, stdout)) :: results =>
    record { st with
      outcomes := Function.update st.outcomes node.nodeId (some outcome)
      streams := Function.update st.streams node.nodeId (some stdout) } results

/-- One batch; `choices` is the order in which its runs act. Also how many nodes ran. -/
def runBatch (h : Host) (choices : List ℕ) (st : Progress) (batch : List CommandNode) :
    Except String (Progress × ℤ) := do
  let (outcomes, runnable) ← triage st.outcomes batch
  require (0 < h.policy.maxParallel) "max_workers must be greater than 0"
  let (results, stage) := interleave Stage.perform choices (runnable.map (runProgram h st.streams)) st.stage
  let st ← record { st with stage, outcomes } (runnable.zip results)
  return (st, min runnable.length h.policy.maxParallel)

/-- An order of the runs for every batch, by its number. -/
abbrev Schedule := ℕ → List ℕ

/-- The batch of the direct executor: consecutive nodes without dependencies go together. -/
def directBatch (node : CommandNode) (rest : List CommandNode) : List CommandNode :=
  if node.dependencies = [] then node :: rest.takeWhile (·.dependencies = []) else [node]

/-- The loop of the direct executor. -/
def directLoop (h : Host) (schedule : Schedule) : ℕ → ℕ → List CommandNode → Progress → ℤ →
    Except String (Progress × ℤ)
  | _, _, [], st, maximum => .ok (st, maximum)
  | 0, _, _ :: _, _, _ => .error "out of fuel"
  | fuel + 1, round, node :: rest, st, maximum => do
    let batch := directBatch node rest
    let (st, workers) ← runBatch h (schedule round) st batch
    directLoop h schedule fuel (round + 1) (rest.drop (batch.length - 1)) st (max maximum workers)

/-- The batch of the graph executor: the pending nodes whose dependencies all have outcomes. -/
def readyNodes (st : Progress) (pending : List CommandNode) : List CommandNode :=
  pending.filter fun node => node.dependencies.all fun dep => (st.outcomes dep).isSome

/-- The loop of the graph executor. -/
def graphLoop (h : Host) (schedule : Schedule) : ℕ → ℕ → List CommandNode → Progress → ℤ →
    Except String (Progress × ℤ)
  | _, _, [], st, maximum => .ok (st, maximum)
  | 0, _, _ :: _, _, _ => .error "out of fuel"
  | fuel + 1, round, node :: rest, st, maximum => do
    let pending := node :: rest
    let ready := readyNodes st pending
    require (ready ≠ []) "command graph made no progress"
    let (st, workers) ← runBatch h (schedule round) st ready
    graphLoop h schedule fuel (round + 1) (pending.filter (· ∉ ready)) st (max maximum workers)

section Finish

def Entry.describe : Entry → String
  | .directory => "directory"
  | .file data => hexdigest data

/-- What stands in the stage at a virtual path. -/
def Stage.after (s : Stage) (path : String) : Option String :=
  if virtual (pureNames path) = path then (s.lookup (pureNames path)).map Entry.describe else none

def allowedPaths (program : CommandGraphProgram) : List String :=
  program.declaredOutputs ++ program.nodes.flatMap (·.declaredWrites)

/-- A path that changed, or one that is gone, without a declaration. -/
def unexpected (program : CommandGraphProgram) (s : Stage) (initial : List (String × String)) : Prop :=
  (∃ p ∈ s.paths, initial.lookup (virtual p) ≠ s.after (virtual p) ∧ virtual p ∉ allowedPaths program) ∨
    ∃ entry ∈ initial, s.after entry.1 = none ∧ entry.1 ∉ allowedPaths program

instance (program : CommandGraphProgram) (s : Stage) (initial : List (String × String)) :
    Decidable (unexpected program s initial) :=
  inferInstanceAs (Decidable ((∃ p ∈ s.paths, _) ∨ ∃ entry ∈ initial, _))

def finish (program : CommandGraphProgram) (st : Progress) (initial : List (String × String))
    (maximum : ℤ) : Except String ExecutionOutcome := do
  let nodes ← program.nodes.mapM fun node => (st.outcomes node.nodeId).elim (.error node.nodeId) .ok
  let outputs := program.declaredOutputs.filterMap fun path => (st.stage.after path).map (path, ·)
  let (status, exitStatus, stderr) :=
    match nodes.find? (·.status ≠ .executed) with
    | some failed => (failed.status, failed.exitStatus, failed.stderr)
    | none => (.executed, 0, "")
  let (status, exitStatus, stderr) :=
    if unexpected program st.stage initial ∨ outputs.length ≠ program.declaredOutputs.length then
      (.invalidMutation, 125, "undeclared or missing output mutation")
    else (status, exitStatus, stderr)
  let terminal := program.nodes.filter fun node => ¬ program.edges.any (·.source = node.nodeId)
  return {
    status, exitStatus, stderr, outputs, nodes
    stdout := terminal.flatMap fun node => (st.streams node.nodeId).getD []
    maximumConcurrency := max 1 maximum }

end Finish

/-- `DirectCommandExecutor.execute`. -/
def executeDirect (h : Host) (schedule : Schedule) (program : CommandGraphProgram) (stage : Stage)
    (initial : List (String × String)) : Except String ExecutionOutcome := do
  let (st, maximum) ← directLoop h schedule program.nodes.length 0 program.nodes { stage } 1
  finish program st initial maximum

/-- `CommandGraphExecutor.execute`. -/
def executeGraph (h : Host) (schedule : Schedule) (program : CommandGraphProgram) (stage : Stage)
    (initial : List (String × String)) : Except String ExecutionOutcome := do
  let (st, maximum) ← graphLoop h schedule program.nodes.length 0 program.nodes { stage } 0
  finish program st initial maximum

/-- `_differences`. -/
def differences (direct graph : ExecutionOutcome) : List String :=
  (if direct.stdout ≠ graph.stdout then ["stdout"] else []) ++
    (if direct.stderr ≠ graph.stderr then ["stderr"] else []) ++
    (if direct.exitStatus ≠ graph.exitStatus ∨ direct.status ≠ graph.status then ["status"] else []) ++
    if direct.outputs ≠ graph.outputs then ["outputs"] else []

/-- What a node reads and writes by its own arguments. -/
def classify (digits : Digits) (w : NativeWorkspace) (node : CommandNode) : Except String Classified :=
  toolPaths digits w node.tool.logicalName node.argv

/-- The check of one node by `_validate_executable`. -/
def validateNode (m : Machine) (w : NativeWorkspace) (node : CommandNode) :
    Except String (Finset String × Finset String) := do
  let _ ← executable m node.tool
  let c ← classify m.digits w node
  require (c.args = node.argv ∧ c.pathIndices = node.pathIndices)
    "command node path classification does not match"
  let declared := c.writes ∪ asSet node.stdoutFile
  require (sorted declared = node.declaredWrites) "command node writes do not match"
  match node.stdinFile with
  | none => return (c.reads, declared)
  | some file =>
    let file ← w.normalize file
    return (insert file c.reads, declared)

/-- The edges that the dependencies of a node make. -/
def expectedEdges (node : CommandNode) : List (String × String × EdgeKind) :=
  node.dependencies.map fun dep => (dep, node.nodeId, node.dependencyMode.edgeKind)

/-- `CommandComparison._validate_executable`. -/
def validateExecutable (m : Machine) (w : NativeWorkspace) (program : CommandGraphProgram) :
    Except String Unit := do
  require (program.environment = controlledEnvironment) "command graph environment is not admitted"
  let footprints ← program.nodes.mapM (validateNode m w)
  let allReads := footprints.foldl (fun paths f => paths ∪ f.1) ∅
  let allWrites := footprints.foldl (fun paths f => paths ∪ f.2) ∅
  let actual := program.edges.map fun edge => (edge.source, edge.target, edge.kind)
  require (actual.Nodup ∧ actual.toFinset = (program.nodes.flatMap expectedEdges).toFinset)
    "command graph edges do not match dependencies"
  require (program.declaredOutputs.toFinset = allWrites) "command graph outputs do not match declared writes"
  require (program.declaredInputs.toFinset = allReads \ allWrites)
    "command graph inputs do not match declared reads"

structure CommandGraphResult where
  graphId : String
  semanticValid : Bool
  direct : ExecutionOutcome
  graph : ExecutionOutcome
  differences : List String

/-- `CommandComparison.execute` up to the publication; the stages are separate, so their order does
not matter. -/
def compare (h : Host) (w : NativeWorkspace) (schedules : Schedule × Schedule) (program : CommandGraphProgram)
    (stage : Stage) (initial : List (String × String)) : Except String CommandGraphResult := do
  program.validate
  validateExecutable h.machine w program
  let h := { h with policy := program.policy }
  let direct ← executeDirect h schedules.1 program stage initial
  let graph ← executeGraph h schedules.2 program stage initial
  let found := differences direct graph
  return {
    graphId := program.graphId
    semanticValid := found = [] ∧ direct.status = .executed ∧ graph.status = .executed
    direct, graph, differences := found }

end Raveil.Command
