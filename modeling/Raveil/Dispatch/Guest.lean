import Raveil.Authority.JobAuthority
import Raveil.Fold.Bridge

/-! What the boot guests share: capabilities, objects, one exchange with the device, its completion. -/
namespace Raveil.Dispatch
open Raveil.Lib Raveil.Fold Raveil.Authority

/-- The task and the capabilities it was started with. -/
structure Caps where
  task : ℕ
  programCap : ℕ
  graphCap : ℕ
  dataCap : ℕ
  experienceCap : ℕ

/-- The four authorities that the kernel creates for its first task. -/
def createAuthorities (table : CapTable) (task : ℕ) : CapTable × Caps :=
  let program := capCreate table task CAP_OBJECT_PROGRAM_AUTHORITY 1 CAP_RIGHT_CONTROL
  let graph := capCreate program.1 task CAP_OBJECT_GRAPH_AUTHORITY 1 CAP_RIGHT_CONTROL
  let data := capCreate graph.1 task CAP_OBJECT_DATA_AUTHORITY 1 (CAP_RIGHT_WRITE ||| CAP_RIGHT_CONTROL)
  let experience := capCreate data.1 task CAP_OBJECT_EXPERIENCE_AUTHORITY 1 (CAP_RIGHT_WRITE ||| CAP_RIGHT_CONTROL)
  (experience.1, ⟨task, program.2, graph.2, data.2, experience.2⟩)

/-- The tables at boot, with those capabilities for task 1. -/
def bootState : State where
  objects := default
  submissions := RingBuffer.empty
  completions := RingBuffer.empty
  inflight := default
  shadows := default
  authorityEpoch := 1
  nextSequence := 1
  planePrograms := default
  planeGraphs := default
  planeExperience := default
  planeExperienceUsed := 0
  capTable := (createAuthorities (capInit default) 1).1

def bootCaps : Caps := (createAuthorities (capInit default) 1).2

local instance identityIndex : NeZero 16 := ⟨by decide⟩

def program : Identity := fun i => if i = 0 then 0xf1 else 0
def graph : Identity := fun i => if i = 0 then 0xf2 else 0

/-- The manifest of object `i`. -/
def objectManifest (i : ℕ) : ObjectManifest where
  magic := RAVEIL_OBJECT_MANIFEST_MAGIC
  schemaVersion := 1
  structSize := 64
  flags := 0
  permittedAccess := RAVEIL_OBJECT_READ ||| RAVEIL_OBJECT_WRITE
  objectId := i + 1
  generation := 1
  version := 1
  byteLength := 512
  backing := RAVEIL_OBJECT_BACKING_VOLATILE
  reserved0 := 0
  reserved1 := fun _ => 0

/-- Register `n` objects; `none` is a rejection. -/
def registerObjects (caps : Caps) (n : ℕ) (s : State) : Option State :=
  (List.range n).foldlM (fun s i =>
    let r := planeDataObjectRegister s caps.task caps.dataCap (some (objectManifest i))
    if r.2 then some r.1 else none) s

/-- From `job_authority_init` to the last registration; `none` is a rejection. -/
def prepare (caps : Caps) (epoch n : ℕ) (s : State) : Option State :=
  let s := planeAuthorityInit (jobAuthorityInit s epoch)
  let r := planeProgramInstall s caps.task caps.programCap (some program)
  if !r.2 then none
  else
    let r := planeGraphInstall r.1 caps.task caps.graphCap (some program) (some graph)
    if !r.2 then none else registerObjects caps n r.1

/-- The bytes in memory of an array of words. -/
def memory (ws : List ℕ) : ℕ → UInt8 := fun k => (le32 (ws.getD (k / 4) 0)).getD (k % 4) 0

/-- The array after words were stored from position `pos`. -/
def storeAt (l : List ℕ) (pos : ℕ) (ws : List ℕ) : List ℕ :=
  (List.range l.length).map fun i =>
    if pos ≤ i ∧ i < pos + ws.length then ws.getD (i - pos) 0 else l.getD i 0

/-- What the execution of a job leaves in the locals. -/
structure Execution where
  ok : Bool
  framed : Bool
  expected : List ℕ
  actual : List ℕ
  envelope : Option (List UInt8)

/-- Evaluate, encode and exchange. -/
def execute (request : Request) (inputOk : Bool) (issued : Submission) (count : ℕ)
    (rx : ℕ → Option Char) : Execution :=
  let zeros := List.replicate 256 0
  match (if inputOk then raveilFoldEvaluate request zeros else none) with
  | none => ⟨false, false, zeros, zeros, none⟩
  | some expected =>
    match raveilFoldBridgeEncode request RAVEIL_FOLD_MAX_BYTES with
    | none => ⟨false, false, expected, zeros, none⟩
    | some envelope =>
      match receive rx (60 + 4 * count) with
      | none => ⟨false, false, expected, zeros, some envelope⟩
      | some response =>
        match raveilFoldResponseDecode response (60 + 4 * count) issued.job.jobId issued.executionEpoch
            issued.executionSequence issued.completionCookie count with
        | none => ⟨false, true, expected, zeros, some envelope⟩
        | some words =>
          let actual := storeAt zeros 0 words
          ⟨(List.range count).all fun i => actual.getD i 0 = expected.getD i 0, true, expected, actual,
            some envelope⟩

/-- `job_completion_post`, `job_completion_take` and `plane_experience_record` in turn. -/
def complete (caps : Caps) (s : State) (completion : CompletionRecord) : State × Bool :=
  let posted := jobCompletionPost s (some completion)
  if !posted.2 then (posted.1, false)
  else match jobCompletionTake posted.1 true with
    | (s, none) => (s, false)
    | (s, some taken) => planeExperienceRecord s caps.task caps.experienceCap (some taken)

/-- How the device answered a job. -/
inductive Outcome
  | correct | wrong | lost
  deriving DecidableEq

/-- Only the one response that the host builds from the expected words is correct. -/
def outcome (rx : ℕ → Option Char) (id epoch sequence : ℕ) (cookie : Identity) (expected : List ℕ) :
    Outcome :=
  match receive rx (60 + 4 * expected.length) with
  | none => .lost
  | some bytes => if bytes = responseBytes id epoch sequence cookie expected 0 then .correct else .wrong

/-- The words of a bank that holds chunk `j` of an output. -/
def chunkWords (out : List ℕ) (j : ℕ) : ℕ → ℕ := fun k => if k < 128 then out.getD (128 * j + k) 0 else 0

end Raveil.Dispatch
