import Raveil.Fold.Region
import Raveil.Lib.FirstFit
import Raveil.Dag.Envelope

/-! The host's planner of DAG sessions, `compile_plan`, and the envelope it writes. -/
namespace Raveil.Dag
open Raveil.Lib Raveil.Fold

/-- An input of a job: a link dictionary, whose optional keys may be absent, or a literal array. -/
inductive Operand
  | link (source : String) (offset length : Option ℤ)
  | literal (values : List ℕ)
  deriving DecidableEq

structure Job where
  name : String
  region : Region
  inputs : List Operand
  deriving DecidableEq

structure Session where
  schema : String
  jobs : List Job
  output : String
  deriving DecidableEq

structure Plan where
  sources : List (List ℕ)
  chunks : List ℕ
  lastUse : List ℕ
  slots : List (List ℕ)
  output : ℕ
  offsets : List (List ℕ)
  lengths : List (List ℕ)
  deriving DecidableEq

def SCHEMA_V1 : String := "raveil.fold-dag.v1"
def SCHEMA_V2 : String := "raveil.fold-dag.v2"

/-- The locals of the first loop. -/
structure PlanLoop where
  names : String → Option ℕ
  sources : List (List ℕ)
  chunks : List ℕ
  counts : List ℕ
  last : List ℕ
  offsets : List (List ℕ)
  lengths : List (List ℕ)

/-- The lists built for one job, with `last`. -/
structure JobLoop where
  linked : List ℕ
  literal : List (List ℕ)
  starts : List ℕ
  last : List ℕ

/-- The body of the loop over the operands of job `index`. -/
def planOperand (ranged : Bool) (s : PlanLoop) (index : ℕ) (j : JobLoop) (operand : Operand × ℕ) :
    Except String JobLoop :=
  match operand.1 with
  | .link source offset length => do
    require ((offset.isSome ↔ length.isSome) ∧ (ranged ∨ offset.isNone) ∧ (s.names source).isSome)
      "link must name an earlier producer with a valid range"
    let source := (s.names source).getD 0
    let count : ℤ := s.counts.getD source 0
    let start := offset.getD 0
    let extent := length.getD count
    require (0 ≤ start ∧ 1 ≤ extent ∧ start ≤ count ∧ extent ≤ count - start ∧ (operand.2 : ℤ) = extent)
      "linked range must fit producer and equal consumer extent"
    pure
      { linked := j.linked ++ [source]
        literal := j.literal ++ [List.replicate operand.2 0]
        starts := j.starts ++ [start.toNat]
        last := j.last.set source index }
  | .literal values =>
    pure
      { linked := j.linked ++ [UINT32_MAX]
        literal := j.literal ++ [values]
        starts := j.starts ++ [0]
        last := j.last }

/-- The body of the loop over the jobs. -/
def planJob (ranged : Bool) (s : PlanLoop) (job : Job × ℕ) : Except String PlanLoop := do
  let index := job.2
  let job := job.1
  require (nameOk job.name) "name must contain only letters, digits, '-' or '_' (1..80 characters)"
  require ((s.names job.name).isNone) "duplicate name"
  let config ← compileRegion job.region
  require (job.inputs.length = 2) "two inputs required"
  let lengths := [cfg config 5, cfg config 6]
  let j ← (job.inputs.zip lengths).foldlM (planOperand ranged s index) ⟨[], [], [], s.last⟩
  let _ ← reference job.region j.literal
  let count := cfg config 1 * cfg config 2
  pure
    { names := Function.update s.names job.name (some index)
      sources := s.sources ++ [j.linked]
      offsets := s.offsets ++ [j.starts]
      lengths := s.lengths ++ [lengths]
      counts := s.counts ++ [count]
      chunks := s.chunks ++ [(count + 127) / 128]
      last := j.last ++ [index] }

/-- The chunks that the links of job `i` read, each once. -/
def planReads (linked offsets lengths : List ℕ) : Finset (ℕ × ℕ) :=
  ((List.range linked.length).flatMap fun b =>
    if linked.getD b 0 = UINT32_MAX then []
    else (chunkRange (offsets.getD b 0) (lengths.getD b 0)).map fun chunk => (linked.getD b 0, chunk)).toFinset

/-- The body of the slot loop; the state is `owners` with `slots`. -/
def planSlots (s : PlanLoop) (last : List ℕ) (state : List (Option ℕ) × List (List ℕ))
    (job : List ℕ × ℕ) : Except String (List (Option ℕ) × List (List ℕ)) := do
  let i := job.2
  let owners := state.1
  let reads := (planReads job.1 (s.offsets.getD i []) (s.lengths.getD i [])).card
  let chunks := s.chunks.getD i 0
  require (reads + chunks ≤ 4) "job exceeds four object references"
  let free := (List.range 8).filter fun slot => isFree (fun owner => last.getD owner 0) (owners.getD slot none) i
  require (chunks ≤ free.length) "live results exhaust eight object slots"
  let selected := free.take chunks
  pure (selected.foldl (fun owners slot => owners.set slot (some i)) owners, state.2 ++ [selected])

/-- `compile_plan`. -/
def compilePlan (session : Session) : Except String Plan := do
  require (session.schema = SCHEMA_V1 ∨ session.schema = SCHEMA_V2) "invalid DAG schema"
  require (1 ≤ session.jobs.length ∧ session.jobs.length ≤ 8) "DAG requires1..8 jobs"
  let ranged : Bool := session.schema = SCHEMA_V2
  let s ← session.jobs.zipIdx.foldlM (planJob ranged) ⟨fun _ => none, [], [], [], [], [], []⟩
  require ((s.names session.output).isSome) "named output required"
  let output := (s.names session.output).getD 0
  let last := s.last.set output s.chunks.length
  let r ← s.sources.zipIdx.foldlM (planSlots s last) (List.replicate 8 none, [])
  pure ⟨s.sources, s.chunks, last, r.2, output, s.offsets, s.lengths⟩

/-- The array of an operand that is not a link. -/
def literalValues : Option Operand → List ℕ
  | some (.literal values) => values
  | _ => []

/-- The inputs of job `i` that go on the wire; linked ones are zero. -/
def wireInputs (plan : Plan) (config : List ℕ) (job : Job) (i : ℕ) : List (List ℕ) :=
  (List.range 2).map fun b =>
    if (plan.sources.getD i []).getD b 0 ≠ UINT32_MAX then List.replicate (cfg config (5 + b)) 0
    else literalValues job.inputs[b]?

/-- The metadata words of job `i`. -/
def planMetadata (plan : Plan) (version i : ℕ) : List ℕ :=
  let sources := plan.sources.getD i []
  if version = 2 then (List.range sources.length).flatMap fun b =>
    [sources.getD b 0, (plan.offsets.getD i []).getD b 0, (plan.lengths.getD i []).getD b 0]
  else sources

/-- `encode` of a session: the envelope and the requests in it. -/
def encodeDag (session : Session) (epoch : ℕ) (requestIds : List ℕ) :
    Except String (List UInt8 × List (List UInt8)) := do
  let plan ← compilePlan session
  require (0 < epoch ∧ epoch < 2 ^ 64) "nonzero epoch required"
  require (requestIds.length = session.jobs.length ∧ (∀ i ∈ requestIds, 0 < i ∧ i < 2 ^ 64) ∧
    requestIds.Nodup) "distinct nonzero request identities required"
  let version := if session.schema = SCHEMA_V2 then 2 else 1
  let r ← (session.jobs.zip requestIds).zipIdx.foldlM (fun (s : List (List UInt8) × List UInt8) job => do
    let config ← compileRegion job.1.1.region
    let child ← requestBytes config (wireInputs plan config job.1.1 job.2) job.1.2
    pure (s.1 ++ [child], s.2 ++ (packWords (planMetadata plan version job.2) ++ child))) ([], [])
  let body := packWords [RAVEIL_FOLD_DAG_MAGIC, version, 40 + r.2.length, r.1.length] ++ le64 epoch ++
    packWords [plan.output, 0] ++ r.2
  pure (body ++ packWords [crc32 body, RAVEIL_FOLD_DAG_END], r.1)

end Raveil.Dag
