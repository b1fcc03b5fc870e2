import Raveil.Dispatch.Guest
import Raveil.Dag.Envelope

/-! The guest loop `fold_dag_run_if_present`: it runs the jobs of a decoded DAG over the authority. -/
namespace Raveil.Dag
open Raveil.Lib Raveil.Fold Raveil.Authority Raveil.Dispatch

/-- The lines the guest writes to its console, as data. -/
inductive Event
  | start (epoch jobs output : ℕ) (versions : List ℕ)
  | dispatch (request epoch sequence : ℕ) (cookie : Identity) (count : ℕ) (envelope : List UInt8)
  | block (index source : ℕ)
  | state (index : ℕ) (stable framed : Bool) (writes reads : ℕ) (versions : List ℕ)
      (ledger submissions inflight shadows completions : ℕ) (content : List (List ℕ))
  | result (index request epoch sequence : ℕ) (cookie : Identity) (status : ℕ) (approved : Bool)
      (count : ℕ) (output : Option (List ℕ))
  | output (index : ℕ) (available : Bool) (count : ℕ) (output : Option (List ℕ))
  | finish (epoch processed total halted : ℕ) (versions : List ℕ)

/-- The static variables of the guest, the tables of the authority and the console. -/
structure Guest where
  authority : State
  versions : ℕ → ℕ
  producerVersions : ℕ → ℕ → ℕ
  producerOk : ℕ → Bool
  previous : ℕ → ℕ → ℕ
  published : ℕ → ℕ → ℕ
  processed : ℕ
  halted : ℕ
  log : List Event

namespace Guest

def versionList (g : Guest) : List ℕ := (List.range 8).map g.versions

def content (g : Guest) : List (List ℕ) := (List.range 8).map fun i => (List.range 128).map (g.published i)

def say (g : Guest) (e : Event) : Guest := { g with log := g.log ++ [e] }

end Guest

/-- `dag.destinations[index][j]`. -/
def FoldDag.destination (dag : FoldDag) (index j : ℕ) : ℕ := (dag.destinations index).getD j 0

def slotMask (dag : FoldDag) (index : ℕ) : ℕ :=
  (List.range (dag.chunks index)).foldl (fun mask j => mask ||| 1 <<< dag.destination index j) 0

def available (dag : FoldDag) (g : Guest) (index : ℕ) : Bool :=
  g.producerOk index ∧
    ∀ j ∈ List.range (dag.chunks index), g.versions (dag.destination index j) = g.producerVersions index j

/-- The manifest check of `read_state` for one object. -/
def manifestStable (g : Guest) (i : ℕ) : Bool :=
  (jobObjectLookup g.authority (i + 1)).any fun object =>
    object.generation = 1 ∧ object.version = g.versions i ∧ object.byteLength = 512

/-- What `read_state` stores in `published[i]`; a refused read stores nothing. -/
def readObject (g : Guest) (i : ℕ) : Option (List UInt8) :=
  if manifestStable g i then jobObjectRead g.authority (i + 1) 0 512 else none

def readState (g : Guest) : Guest × Bool :=
  let published := fun i =>
    if i < 8 then match readObject g i with
      | some bytes => fun j => if j < 128 then word bytes (4 * j) else g.published i j
      | none => g.published i
    else g.published i
  let stable := decide (jobSubmissionCount g.authority = 0 ∧ jobInflightCount g.authority = 0 ∧
    jobCompletionCount g.authority = 0 ∧ jobShadowCount g.authority = 0) &&
    (List.range 8).all fun i => (readObject g i).isSome &&
      (List.range 128).all fun j => published i j = g.previous i j
  ({ g with published := published }, stable)

/-- The first loop over the operands: the first unavailable producer, or the objects read. -/
def resolve (dag : FoldDag) (g : Guest) (request : Request) (index : ℕ) : Option ℕ × ℕ :=
  (List.range 2).foldl (fun s b =>
    let producer := dag.sources index b
    if s.1.isSome ∨ producer = UINT32_MAX then s
    else if !available dag g producer then (some producer, s.2)
    else (none, (chunkRange (dag.inputOffsets index b) (cfg request.config (5 + b))).foldl
      (fun mask chunk => mask ||| 1 <<< dag.destination producer chunk) s.2)) (none, 0)

/-- The reference to object `slot` in the descriptor. -/
def slotRef (g : Guest) (readMask slot : ℕ) : ObjectRef where
  objectId := slot + 1
  generation := 1
  expectedVersion := g.versions slot
  offset := 0
  length := 512
  access := if readMask &&& 1 <<< slot ≠ 0 then RAVEIL_OBJECT_READ else RAVEIL_OBJECT_WRITE
  flags := 0

/-- The slots of the descriptor, in order. -/
def usedSlots (readMask writes : ℕ) : List ℕ :=
  (List.range 8).filter fun slot => (readMask ||| writes) &&& 1 <<< slot ≠ 0

local instance contractIndex : NeZero 16 := ⟨by decide⟩

def descriptor (dag : FoldDag) (g : Guest) (request : Request) (readMask writes index : ℕ) : JobDescriptor :=
  let refs := (usedSlots readMask writes).map (slotRef g readMask)
  let readCount := (usedSlots readMask writes).countP fun slot => readMask &&& 1 <<< slot ≠ 0
  { magic := RAVEIL_JOB_MAGIC
    schemaVersion := 1
    structSize := 320
    flags := 0
    objectCount := refs.length
    reserved0 := 0
    jobId := request.requestId
    programIdentity := program
    graphVariantIdentity := graph
    executionContractIdentity := fun i => if i = 0 then 0xf5 else 0
    targetSignature := fun i => if i = 0 then 1 else 0
    resources := ⟨1, if readCount ≠ 0 then 512 * readCount else 1, 512 * dag.chunks index, 1⟩
    reserved1 := 0
    objects := fun i => refs.getD i default }

/-- The copy loop of one operand; every turn copies at least one word, so `extent` turns suffice. -/
def copyLoop (dag : FoldDag) (s : State) (issued : Submission) (producer start extent b : ℕ) :
    ℕ → ℕ → List ℕ × Bool → List ℕ × Bool
  | 0, _, r => r
  | fuel + 1, copied, r =>
    if copied < extent then
      let position := start + copied
      let chunk := position / 128
      let within := position % 128
      let take := min (128 - within) (extent - copied)
      let r := match jobSubmissionRead s issued (dag.destination producer chunk + 1) (4 * within) (4 * take) with
        | some bytes => (storeAt r.1 (324 * b + copied) ((List.range take).map fun j => word bytes (4 * j)), r.2)
        | none => (r.1, false)
      copyLoop dag s issued producer start extent b fuel (copied + take) r
    else r

/-- The second loop over the operands: the inputs of the request, and whether every read succeeded. -/
def materialize (dag : FoldDag) (s : State) (issued : Submission) (request : Request) (index : ℕ) :
    List ℕ × Bool :=
  (List.range 2).foldl (fun r b =>
    let producer := dag.sources index b
    if producer = UINT32_MAX then r
    else
      let extent := cfg request.config (5 + b)
      copyLoop dag s issued producer (dag.inputOffsets index b) extent b extent 0 r) (request.inputs, true)

/-- The completion record of the job. -/
def completionFor (dag : FoldDag) (g : Guest) (job : JobDescriptor) (issued : Submission) (ok : Bool)
    (index : ℕ) : CompletionRecord where
  magic := RAVEIL_COMPLETION_MAGIC
  schemaVersion := 1
  structSize := 176
  flags := 0
  status := if ok then RAVEIL_COMPLETION_EXECUTED else RAVEIL_COMPLETION_FAULT
  detail := if ok then 0 else RAVEIL_DETAIL_EXECUTION_FAULT
  reserved0 := 0
  jobId := job.jobId
  executionEpoch := issued.executionEpoch
  executionSequence := issued.executionSequence
  completionCookie := issued.completionCookie
  outputCount := if ok then dag.chunks index else 0
  reserved1 := 0
  reserved2 := fun _ => 0
  outputs := fun j =>
    if ok ∧ j.val < dag.chunks index then
      ⟨dag.destination index j + 1, 1, g.versions (dag.destination index j) + 1⟩
    else default

/-- The writes of the chunks; a refused one clears the flag. -/
def writeChunks (caps : Caps) (dag : FoldDag) (binding : Binding) (actual : List ℕ) (index : ℕ) (s : State) :
    State × Bool :=
  (List.range (dag.chunks index)).foldl (fun r j =>
    let w := planeDataShadowWrite r.1 caps.task caps.dataCap (some binding) (dag.destination index j + 1) 0
      (some (memory (actual.drop (128 * j)))) 512
    (w.1, r.2 && w.2)) (s, true)

/-- Write, approve and finalize an executed job; the flag says whether it was committed. -/
def publishJob (caps : Caps) (dag : FoldDag) (binding : Binding) (actual : List ℕ) (index : ℕ) (s : State) :
    State × Bool :=
  let written := writeChunks caps dag binding actual index s
  if !written.2 then (written.1, false)
  else
    let approved := planeProgramApprove written.1 caps.task caps.programCap (some binding)
    if !approved.2 then (approved.1, false)
    else
      let final := planeDataFinalize approved.1 caps.task caps.dataCap (some binding) true
      (final.1, final.2 = .committed)

/-- The bookkeeping after a commit. -/
def recordCommit (dag : FoldDag) (expected : List ℕ) (index : ℕ) (g : Guest) : Guest :=
  (List.range (dag.chunks index)).foldl (fun g j =>
    let slot := dag.destination index j
    { g with
      versions := Function.update g.versions slot (g.versions slot + 1)
      producerVersions := Function.update g.producerVersions index
        (Function.update (g.producerVersions index) j (g.versions slot + 1))
      previous := Function.update g.previous slot fun k =>
        if k < 128 then expected.getD (128 * j + k) 0 else g.previous slot k })
    { g with producerOk := Function.update g.producerOk index true }

/-- The end of one job, from the execution of its request on. -/
def settleJob (caps : Caps) (dag : FoldDag) (g : Guest) (request : Request) (job : JobDescriptor)
    (binding : Binding) (issued : Submission) (e : Execution) (readMask writes count index : ℕ) : Guest :=
  let completed := complete caps g.authority (completionFor dag g job issued e.ok index)
  let g := { g with authority := completed.1 }
  let published := if completed.2 && e.ok then publishJob caps dag binding e.actual index g.authority
    else (g.authority, false)
  let committed := published.2
  let g := { g with authority := published.1 }
  let g := if committed then recordCommit dag e.expected index g else g
  let authorityOk := if completed.2 && e.ok then committed else completed.2
  let rolled := planeDataFinalize g.authority caps.task caps.dataCap (some binding) false
  let g := if committed then g else { g with authority := rolled.1 }
  let authorityOk := if committed then authorityOk else authorityOk && decide (rolled.2 = .rolledBack)
  let read := readState g
  let g := read.1
  let stable := read.2 && decide (g.authority.planeExperienceUsed = index + 1) && authorityOk
  let approved := committed && stable
  let g := { g with
    processed := g.processed + 1
    halted := if !stable then 2 else if !e.framed then 1 else 0 }
  let g := g.say (.state index stable e.framed writes readMask g.versionList
    g.authority.planeExperienceUsed (jobSubmissionCount g.authority) (jobInflightCount g.authority)
    (jobShadowCount g.authority) (jobCompletionCount g.authority) g.content)
  g.say (.result index request.requestId issued.executionEpoch issued.executionSequence
    issued.completionCookie (if approved then 1 else 4) approved (if approved then count else 0)
    (if approved then some ((List.range count).map fun j =>
      g.published (dag.destination index (j / 128)) (j % 128)) else none))

/-- The body of the job loop. -/
def guestJob (caps : Caps) (p : List UInt8) (dag : FoldDag) (rx : ℕ → ℕ → Option Char) (g : Guest)
    (index : ℕ) : Guest :=
  if g.halted ≠ 0 then g
  else match raveilFoldDecode (p.drop (dag.offsets index)) (dag.lengths index) with
    | none => { g with halted := 2 }
    | some request =>
      let writes := slotMask dag index
      let count := cfg request.config 1 * cfg request.config 2
      match resolve dag g request index with
      | (some bad, _) => { g.say (.block index bad) with halted := 3 }
      | (none, readMask) =>
        let job := descriptor dag g request readMask writes index
        if readMask &&& writes ≠ 0 then { g with halted := 2 }
        else match planeJobSubmitBound g.authority caps.task caps.dataCap (some job) true with
          | (s, none) => { g with authority := s, halted := 2 }
          | (s, some binding) =>
            match jobSubmissionTake s true with
            | (s, none) => { g with authority := s, halted := 2 }
            | (s, some issued) =>
              let inputs := materialize dag s issued request index
              let request := { request with inputs := inputs.1 }
              let e := execute request inputs.2 issued count (rx index)
              let g := { g with authority := s }
              let g := match e.envelope with
                | some envelope => g.say (.dispatch issued.job.jobId issued.executionEpoch
                  issued.executionSequence issued.completionCookie count envelope)
                | none => g
              settleJob caps dag g request job binding issued e readMask writes count index

/-- The part before the job loop; `none` is a rejection. -/
def guestStart (caps : Caps) (dag : FoldDag) (s : State) : Option Guest := do
  let s ← prepare caps dag.epoch 8 s
  let read := readState
    { authority := s
      versions := fun _ => 1
      producerVersions := fun _ _ => 0
      producerOk := fun _ => false
      previous := fun _ _ => 0
      published := fun _ _ => 0
      processed := 0
      halted := 0
      log := [] }
  if !read.2 ∨ read.1.authority.planeExperienceUsed ≠ 0 then none
  else some (read.1.say (.start dag.epoch dag.count dag.output read.1.versionList))

/-- The job loop, up to job `k`. -/
def guestLoop (caps : Caps) (p : List UInt8) (dag : FoldDag) (rx : ℕ → ℕ → Option Char) (g : Guest) (k : ℕ) :
    Guest :=
  (List.range k).foldl (guestJob caps p dag rx) g

/-- The part after the job loop. -/
def guestFinish (p : List UInt8) (dag : FoldDag) (g : Guest) : Guest :=
  let ok := available dag g dag.output
  let count := match raveilFoldDecode (p.drop (dag.offsets dag.output)) (dag.lengths dag.output) with
    | some request => if ok then cfg request.config 1 * cfg request.config 2 else 0
    | none => 0
  let g := g.say (.output dag.output ok count (if ok then some ((List.range count).map fun j =>
    g.published (dag.destination dag.output (j / 128)) (j % 128)) else none))
  g.say (.finish dag.epoch g.processed dag.count g.halted g.versionList)

/-- `fold_dag_run_if_present` on an envelope of `n` bytes; `none` is the reject line. -/
def foldDagRun (caps : Caps) (p : List UInt8) (n : ℕ) (rx : ℕ → ℕ → Option Char) (s : State) :
    Option Guest := do
  let dag ← raveilFoldDagDecode p n
  let g ← guestStart caps dag s
  pure (guestFinish p dag (guestLoop caps p dag rx g dag.count))

end Raveil.Dag
