import Raveil.Lib.Dict
import Raveil.Lib.Registers
import Raveil.Graph.Program

/-! `compile_descriptor` with its lowering trace, the oracle and the software fallback. -/
namespace Raveil.Graph
open Raveil.Lib

section Compiler

/-- A dictionary lookup that raises `KeyError`. -/
def lookup (d : String → Option ℕ) (name : String) : Except String ℕ :=
  match d name with
  | some value => .ok value
  | none => .error ("KeyError: " ++ name)

/-- `_program_version`. -/
def programVersion (value : Descriptor) : ℕ :=
  match value.schema with
  | .v5 => 6
  | .v4 => 5
  | .v3 => 4
  | .v2 => 3
  | .v1 => if value.nodes.any fun node => node.op = .max then 2 else 1

/-- The word of a node, from its destination and source registers. -/
def encodeNode (node : Node) (destination : ℕ) (sources : List ℕ) : ℕ :=
  match node.body with
  | .load address => encodeLoad destination address
  | .binary .add _ => encodeAdd destination (sources.getD 0 0) (sources.getD 1 0)
  | .binary .max _ => encodeMax destination (sources.getD 0 0) (sources.getD 1 0)
  | .binary .mul _ => encodeMul destination (sources.getD 0 0) (sources.getD 1 0)
  | .immediate .add _ value => encodeAddImmediate destination (sources.getD 0 0) value.toNat
  | .immediate .ge _ value => encodeGeImmediate destination (sources.getD 0 0) value.toNat
  | .store _ => encodeStore (sources.getD 0 0)

/-- The loop state of `compile_descriptor`: `registers` and `free`, the uses still to come, every
register ever allocated, and the emitted words. -/
structure Allocation extends Pool String where
  remaining : String → ℤ
  allocations : String → Option ℕ
  instructions : List ℕ

/-- One consumed operand: the last use frees its register. -/
def Allocation.consume (s : Allocation) (source : String) : Except String Allocation :=
  let s := { s with remaining := Function.update s.remaining source (s.remaining source - 1) }
  if s.remaining source = 0 then do
    let r ← lookup s.registers source
    pure { s with toPool := s.toPool.release source r }
  else pure s

/-- The body of the emission loop. -/
def allocateNode (s : Allocation) (node : Node) : Except String Allocation := do
  let sources ← (dependencies node).mapM (lookup s.registers)
  let s ← (dependencies node).foldlM Allocation.consume s
  let free := s.free.insertionSort (· ≤ ·)
  if node.op = .store then
    pure { s with
      free := free
      instructions := s.instructions ++ [encodeNode node 0 sources] }
  else match free with
    | [] => .error "Graph requires more than eight live values"
    | destination :: free =>
      pure { s with
        toPool := s.toPool.take node.id destination free
        allocations := Function.update s.allocations node.id (some destination)
        instructions := s.instructions ++ [encodeNode node destination sources] }

/-- How often the nodes name an operand. -/
def useCount (nodes : List Node) (name : String) : ℕ := (nodes.flatMap dependencies).count name

/-- The state before the emission loop. -/
def Allocation.initial (nodes : List Node) : Allocation where
  registers := fun _ => none
  free := List.range VALUE_REGISTERS
  remaining := fun name => useCount nodes name
  allocations := fun _ => none
  instructions := []

end Compiler

section Trace

/-- One entry of the lowering trace; the key `immediate` exists from program version 5 on. -/
structure TraceEntry where
  index : ℕ
  nodeId : String
  op : Op
  dependencies : List String
  selector : Option Address
  fanOut : ℕ
  consumers : List String
  encodedWord : ℕ
  sourceRegisters : List ℕ
  destinationRegister : Option ℕ
  definitionIndex : Option ℕ
  lastUseIndex : Option ℕ
  liveRange : Option (ℕ × ℕ)
  releaseAfterIndex : Option ℕ
  immediate : Option (Option ℤ)
  deriving DecidableEq

structure LoweringTrace where
  schema : String
  graphId : String
  descriptorCanonicalSha256 : Digest
  programVersion : ℕ
  instructionCount : ℕ
  programSha256 : Digest
  instructions : List TraceEntry
  deriving DecidableEq

/-- `uses[name]`: the schedule indices that use a value, once per operand. -/
def uses (nodes : List Node) (name : String) : List ℕ :=
  nodes.zipIdx.flatMap fun entry =>
    ((dependencies entry.1).filter fun source => source = name).map fun _ => entry.2

def consumers (nodes : List Node) (name : String) : List String :=
  (uses nodes name).map fun index => ((nodes[index]?).map Node.id).getD ""

def lastUse (nodes : List Node) (node : Node) : Option ℕ :=
  if node.op = .store then none else (uses nodes node.id).max?

def liveRange (nodes : List Node) (count index : ℕ) (node : Node) : Option (ℕ × ℕ) :=
  if node.op = .store then none else some (index, (lastUse nodes node).getD (count - 1))

/-- `json.dumps` of a string that needs no escapes. -/
def quoted (s : String) : String := "\"" ++ s ++ "\""

def jsonObject (fields : List (String × String)) : String :=
  "\x7b" ++ String.intercalate "," (fields.map fun field => quoted field.1 ++ ":" ++ field.2) ++ "\x7d"

def jsonList (items : List String) : String := "[" ++ String.intercalate "," items ++ "]"

def jsonAddress : Address → String
  | .selector name => quoted name.name
  | .relative row column => jsonObject [("column_delta", toString column), ("row_delta", toString row)]

def jsonNode (node : Node) : String :=
  match node.body with
  | .load address =>
    jsonObject [("address", jsonAddress address), ("id", quoted node.id), ("op", quoted node.op.name)]
  | .binary _ inputs =>
    jsonObject [("id", quoted node.id), ("inputs", jsonList (inputs.map quoted)),
      ("op", quoted node.op.name)]
  | .immediate _ input value =>
    jsonObject [("id", quoted node.id), ("immediate", toString value), ("input", quoted input),
      ("op", quoted node.op.name)]
  | .store input =>
    jsonObject [("id", quoted node.id), ("input", quoted input), ("op", quoted node.op.name)]

/-- `_canonical` of an admitted descriptor: sorted keys, no blanks. -/
def canonical (value : Descriptor) : List UInt8 :=
  (jsonObject [
    ("affine", jsonObject [("columns", toString value.affine.columns),
      ("input_stride", toString value.affine.inputStride),
      ("output_stride", toString value.affine.outputStride), ("rows", toString value.affine.rows)]),
    ("graph_id", quoted value.graphId), ("nodes", jsonList (value.nodes.map jsonNode)),
    ("schema", quoted value.schema.name)]).toUTF8.toList

def traceSchema (value : Descriptor) : String :=
  if programVersion value ≥ 5 then "raveil.graph-device-lowering-trace/v2"
  else "raveil.graph-device-lowering-trace/v1"

variable (sha256 : List UInt8 → Digest)

def programDigest (instructions : List ℕ) : Digest :=
  sha256 (wordBytes (instructions.length :: instructions))

/-- One entry of `_lowering_trace`, from the registers it looks up. -/
def entryOf (version : ℕ) (nodes : List Node) (count index : ℕ) (node : Node) (word : ℕ)
    (sources : List ℕ) (destination : Option ℕ) : TraceEntry where
  index := index
  nodeId := node.id
  op := node.op
  dependencies := dependencies node
  selector := node.address
  fanOut := (uses nodes node.id).length
  consumers := consumers nodes node.id
  encodedWord := word
  sourceRegisters := sources
  destinationRegister := destination
  definitionIndex := if node.op = .store then none else some index
  lastUseIndex := lastUse nodes node
  liveRange := liveRange nodes count index node
  releaseAfterIndex := lastUse nodes node
  immediate := if version ≥ 5 then some node.immediate else none

def traceEntry (version : ℕ) (nodes : List Node) (count : ℕ) (allocations : String → Option ℕ)
    (entry : (Node × ℕ) × ℕ) : Except String TraceEntry := do
  let node := entry.1.1
  let sources ← (dependencies node).mapM (lookup allocations)
  let destination ← if node.op = .store then pure none else some <$> lookup allocations node.id
  pure (entryOf version nodes count entry.2 node entry.1.2 sources destination)

/-- `_lowering_trace`. -/
def loweringTrace (value : Descriptor) (instructions : List ℕ) (allocations : String → Option ℕ) :
    Except String LoweringTrace := do
  let nodes ← scheduledNodes value.nodes
  let entries ← (nodes.zip instructions).zipIdx.mapM
    (traceEntry (programVersion value) nodes instructions.length allocations)
  pure
    { schema := traceSchema value
      graphId := value.graphId
      descriptorCanonicalSha256 := sha256 (canonical value)
      programVersion := programVersion value
      instructionCount := instructions.length
      programSha256 := programDigest sha256 instructions
      instructions := entries }

/-- The body of the loop of `validate_lowering_trace`; the state is `allocations`. -/
def checkEntry (version : ℕ) (nodes : List Node) (count : ℕ) (allocations : String → Option ℕ)
    (item : ((Node × ℕ) × TraceEntry) × ℕ) : Except String (String → Option ℕ) := do
  let node := item.1.1.1
  let word := item.1.1.2
  let entry := item.1.2
  require (entry.immediate.isSome = true ↔ version ≥ 5) "lowering trace instruction fields are invalid"
  require (version ≥ 5 → entry.immediate = some node.immediate) "lowering trace immediate is invalid"
  let sources ← (dependencies node).mapM (lookup allocations)
  require (entry.index = item.2 ∧ entry.nodeId = node.id ∧ entry.op = node.op ∧
    entry.dependencies = dependencies node ∧ entry.selector = node.address ∧
    entry.fanOut = (uses nodes node.id).length ∧ entry.consumers = consumers nodes node.id ∧
    entry.encodedWord = word ∧ entry.sourceRegisters = sources)
    "lowering trace does not match the descriptor or words"
  let destination := if node.op = .store then none else some (destinationOf word)
  require (entry.destinationRegister = destination ∧
    entry.definitionIndex = (if node.op = .store then none else some item.2) ∧
    entry.lastUseIndex = lastUse nodes node ∧ entry.liveRange = liveRange nodes count item.2 node ∧
    entry.releaseAfterIndex = lastUse nodes node) "lowering trace lifetime or register is invalid"
  require (word = encodeNode node (destination.getD 0) entry.sourceRegisters)
    "lowering trace encoded word is invalid"
  pure (if node.op = .store then allocations else Function.update allocations node.id destination)

def validateLoweringTrace (value : Descriptor) (trace : LoweringTrace) (instructions : List ℕ) :
    Except String Unit := do
  validateDescriptor value
  require (trace.schema = traceSchema value ∧ trace.graphId = value.graphId ∧
    trace.descriptorCanonicalSha256 = sha256 (canonical value) ∧
    trace.programVersion = programVersion value ∧ trace.instructionCount = instructions.length)
    "lowering trace identity is invalid"
  require (trace.programSha256 = programDigest sha256 instructions)
    "lowering trace program identity is invalid"
  require (trace.instructions.length = value.nodes.length) "lowering trace instruction count is invalid"
  let nodes ← scheduledNodes value.nodes
  let _ ← ((nodes.zip instructions).zip trace.instructions).zipIdx.foldlM
    (checkEntry (programVersion value) nodes instructions.length) fun _ => none
  pure ()

end Trace

section Program

/-- What `compile_descriptor` returns. -/
structure Program extends Image where
  graphId : String
  loweringTrace : LoweringTrace
  transactionsPerOutput : ℕ

def payloadWords (sha256 : List UInt8 → Digest) (version : ℕ) (instructions : List ℕ) : List ℕ :=
  [MAGIC, version, instructions.length, VALUE_REGISTERS] ++ digestWords (programDigest sha256 instructions) ++
    instructions ++ List.replicate (PROGRAM_CAPACITY - instructions.length) 0 ++ [0, 0, 0, 0]

/-- The returned dictionary. -/
def programOf (sha256 : List UInt8 → Digest) (value : Descriptor) (instructions : List ℕ)
    (trace : LoweringTrace) : Program where
  affine := value.affine
  instructionCount := instructions.length
  instructions := instructions
  programSha256 := programDigest sha256 instructions
  payload := payloadWords sha256 (programVersion value) instructions
  graphId := value.graphId
  loweringTrace := trace
  transactionsPerOutput := instructions.countP (fun word => opcodeOf word = LOAD_U32) + 1

def compileDescriptor (sha256 : List UInt8 → Digest) (value : Descriptor) : Except String Program := do
  validateDescriptor value
  let nodes ← scheduledNodes value.nodes
  let s ← nodes.foldlM allocateNode (Allocation.initial nodes)
  require ((payloadWords sha256 (programVersion value) s.instructions).length = PROGRAM_WORDS)
    "AssertionError"
  let trace ← loweringTrace sha256 value s.instructions s.allocations
  validateLoweringTrace sha256 value trace s.instructions
  pure (programOf sha256 value s.instructions trace)

end Program

section Evaluation

/-- The input index of the cell itself. -/
def centerOf (affine : Affine) (row column : ℕ) : ℤ := (row + 1) * affine.inputStride + column + 1

/-- `_address`. -/
def selectorAddress (selector : Selector) (center stride : ℤ) : ℤ :=
  center + match selector with
    | .center => 0
    | .north => -stride
    | .south => stride
    | .west => -1
    | .east => 1

/-- `_node_address`. -/
def nodeAddress (address : Address) (center stride : ℤ) : ℤ :=
  match address with
  | .relative row column => center + row * stride + column
  | .selector name => selectorAddress name center stride

/-- `words[index]`. -/
def readWord (words : List ℕ) (index : ℤ) : Except String ℕ :=
  match pyGet? words index with
  | some w => .ok w
  | none => .error "IndexError"

/-- `output[index] = value`. -/
def writeWord (output : List ℕ) (index : ℤ) (value : ℕ) : Except String (List ℕ) :=
  match pySet? output index value with
  | some output => .ok output
  | none => .error "IndexError"

def binaryWord (op : Binary) (values : List ℕ) : ℕ :=
  match op with
  | .add => values.sum % 2 ^ 32
  | .max => values.foldl max 0
  | .mul => values.getD 0 0 * values.getD 1 0 % 2 ^ 32

def immediateWord (op : Immediate) (value : ℕ) (immediate : ℤ) : ℕ :=
  match op with
  | .add => ((value + immediate) % 2 ^ 32).toNat
  | .ge => if (value : ℤ) ≥ immediate then 1 else 0

/-- One node of `graph_oracle` at a cell; the state is `values` with `output`. -/
def evaluateNode (affine : Affine) (words : List ℕ) (row column : ℕ)
    (s : (String → Option ℕ) × List ℕ) (node : Node) : Except String ((String → Option ℕ) × List ℕ) :=
  match node.body with
  | .load address => do
    let w ← readWord words (nodeAddress address (centerOf affine row column) affine.inputStride)
    pure (Function.update s.1 node.id (some w), s.2)
  | .binary op inputs => do
    let values ← inputs.mapM (lookup s.1)
    pure (Function.update s.1 node.id (some (binaryWord op values)), s.2)
  | .immediate op input immediate => do
    let value ← lookup s.1 input
    pure (Function.update s.1 node.id (some (immediateWord op value immediate)), s.2)
  | .store input => do
    let value ← lookup s.1 input
    let output ← writeWord s.2 (row * affine.outputStride + column) value
    pure (s.1, output)

def oracleCell (affine : Affine) (words : List ℕ) (nodes : List Node) (output : List ℕ)
    (row column : ℕ) : Except String (List ℕ) := do
  let s ← nodes.foldlM (evaluateNode affine words row column) (fun _ => none, output)
  pure s.2

def graphOracle (value : Descriptor) (words : List ℕ) : Except String (List ℕ) := do
  validateDescriptor value
  require (words.length = 324) "input must contain exactly 324 words"
  let nodes ← scheduledNodes value.nodes
  (List.range value.affine.rows.toNat).foldlM (fun output row =>
    (List.range value.affine.columns.toNat).foldlM (fun output column =>
      oracleCell value.affine words nodes output row column) output) (List.replicate 256 0)

/-- The index a load instruction reads; `none` is the `KeyError` of an unknown selector. -/
def loadAddress (version : ℕ) (center stride : ℤ) (instruction : ℕ) : Option ℤ :=
  if version ≥ 3 then
    some (center + (relativeLoad instruction).1 * stride + (relativeLoad instruction).2)
  else match leftOf instruction with
    | 0 => some center
    | 1 => some (center - stride)
    | 2 => some (center + stride)
    | 3 => some (center - 1)
    | 4 => some (center + 1)
    | _ => none

/-- One instruction of `software_fallback` at a cell; the state is `values` with `output`. -/
def executeInstruction (version : ℕ) (affine : Affine) (words : List ℕ) (row column : ℕ)
    (s : (ℕ → ℕ) × List ℕ) (instruction : ℕ) : Except String ((ℕ → ℕ) × List ℕ) :=
  let opcode := opcodeOf instruction
  let destination := destinationOf instruction
  let left := s.1 (leftOf instruction)
  let right := s.1 (rightOf instruction)
  let immediate := instruction &&& MAX_IMMEDIATE
  let write (w : ℕ) : (ℕ → ℕ) × List ℕ := (Function.update s.1 destination w, s.2)
  if opcode = LOAD_U32 then
    match loadAddress version (centerOf affine row column) affine.inputStride instruction with
    | none => .error "KeyError"
    | some index => do
      let w ← readWord words index
      pure (write w)
  else if opcode = ADD_U32 then pure (write ((left + right) % 2 ^ 32))
  else if opcode = MAX_U32 then pure (write (max left right))
  else if opcode = MUL_U32 then pure (write (left * right % 2 ^ 32))
  else if opcode = ADD_IMM_U32 then pure (write ((left + immediate) % 2 ^ 32))
  else if opcode = GE_IMM_U32 then pure (write (if left ≥ immediate then 1 else 0))
  else if opcode = STORE_U32 then do
    let output ← writeWord s.2 (row * affine.outputStride + column) (s.1 destination)
    pure (s.1, output)
  else .error "program contains an unknown opcode"

def fallbackCell (version : ℕ) (affine : Affine) (words : List ℕ) (instructions output : List ℕ)
    (row column : ℕ) : Except String (List ℕ) := do
  let s ← instructions.foldlM (executeInstruction version affine words row column) (fun _ => 0, output)
  pure s.2

def softwareFallback (sha256 : List UInt8 → Digest) (program : Image) (words : List ℕ) :
    Except String (List ℕ) := do
  let instructions ← validateFallbackProgram sha256 program
  require (words.length = 324) "fallback input must contain exactly 324 words"
  (List.range program.affine.rows.toNat).foldlM (fun output row =>
    (List.range program.affine.columns.toNat).foldlM (fun output column =>
      fallbackCell (program.payload.getD 1 0) program.affine words instructions output row column)
      output) (List.replicate 256 0)

end Evaluation

end Raveil.Graph
