import Raveil.Chain.State

/-! The guest loop `fold_chain_run_if_present`: it runs the jobs of a decoded chain over the authority. -/
namespace Raveil.Chain
open Raveil.Lib Raveil.Fold Raveil.Dispatch
open Raveil.Authority hiding State

/-- The static variables of the guest, its locals, the tables of the authority and the console. -/
structure Guest where
  authority : Authority.State
  versions : ℕ → ℕ
  producerVersions : ℕ → ℕ
  producerBanks : ℕ → ℕ
  producerOk : ℕ → Bool
  previous : ℕ → ℕ → ℕ
  published : ℕ → ℕ → ℕ
  active : ℕ
  processed : ℕ
  halted : ℕ
  log : List Line

namespace Guest

def versionList (g : Guest) : List ℕ := (List.range 2).map g.versions

def content (g : Guest) : List ℕ := (List.range 2).flatMap fun b => (List.range 256).map (g.published b)

def say (g : Guest) (line : Line) : Guest := { g with log := g.log ++ [line] }

end Guest

/-- `empty`. -/
def empty (s : Authority.State) : Bool :=
  jobSubmissionCount s = 0 ∧ jobInflightCount s = 0 ∧ jobCompletionCount s = 0 ∧ jobShadowCount s = 0

/-- What `read_state` stores for object `i`; a refused check or read stores nothing. -/
def readObject (g : Guest) (i : ℕ) : Option (List UInt8) :=
  if (jobObjectLookup g.authority (i + 1)).any fun object =>
      object.generation = 1 ∧ object.version = g.versions (i / 2) ∧ object.byteLength = 512 then
    jobObjectRead g.authority (i + 1) 0 512
  else none

/-- `published[b][i]` after the reads of `read_state`. -/
def publishedWord (g : Guest) (b i : ℕ) : ℕ :=
  if b < 2 ∧ i < 256 then
    match readObject g (2 * b + i / 128) with
    | some bytes => word bytes (4 * (i % 128))
    | none => g.published b i
  else g.published b i

/-- `read_state`. -/
def readState (g : Guest) : Guest × Bool :=
  let stable := empty g.authority && (List.range 4).all (fun i => (readObject g i).isSome) &&
    (List.range 2).all fun b => (List.range 256).all fun i => publishedWord g b i = g.previous b i
  ({ g with published := publishedWord g }, stable)

local instance contractIndex : NeZero 16 := ⟨by decide⟩

/-- The descriptor of a job from bank `source` to bank `destination`. -/
def descriptor (g : Guest) (request : Request) (mask destination source : ℕ) : JobDescriptor where
  magic := RAVEIL_JOB_MAGIC
  schemaVersion := 1
  structSize := 320
  flags := 0
  objectCount := if mask ≠ 0 then 4 else 2
  reserved0 := 0
  jobId := request.requestId
  programIdentity := program
  graphVariantIdentity := graph
  executionContractIdentity := fun i => if i = 0 then 0xf4 else 0
  targetSignature := fun i => if i = 0 then 1 else 0
  resources := ⟨1, if mask ≠ 0 then 1024 else 1, 1024, 1⟩
  reserved1 := 0
  objects := fun i =>
    if i.val < 2 then ⟨2 * destination + i.val + 1, 1, g.versions destination, 0, 512, RAVEIL_OBJECT_WRITE, 0⟩
    else if mask ≠ 0 then
      ⟨2 * source + (i.val - 2) + 1, 1, g.versions source, 0, 512, RAVEIL_OBJECT_READ, 0⟩
    else default

/-- The snapshot of the source bank; `none` when a read was refused. -/
def readSnapshot (s : Authority.State) (issued : Submission) (source : ℕ) : Option (List ℕ) :=
  match jobSubmissionRead s issued (2 * source + 1) 0 512, jobSubmissionRead s issued (2 * source + 2) 0 512 with
  | some low, some high => some (((List.range 128).map fun i => word low (4 * i)) ++
      (List.range 128).map fun i => word high (4 * i))
  | _, _ => none

/-- The inputs of the request, and whether every read succeeded. -/
def materialize (s : Authority.State) (issued : Submission) (request : Request) (mask source : ℕ) :
    List ℕ × Bool :=
  if mask = 0 then (request.inputs, true)
  else match readSnapshot s issued source with
    | none => (request.inputs, false)
    | some snapshot =>
      ((List.range 2).foldl (fun inputs b =>
        if mask &&& 1 <<< b ≠ 0 then
          storeAt inputs (324 * b) ((List.range (cfg request.config (5 + b))).map fun i => snapshot.getD i 0)
        else inputs) request.inputs, true)

/-- The completion record of the job. -/
def completionFor (g : Guest) (job : JobDescriptor) (issued : Submission) (ok : Bool) (destination : ℕ) :
    CompletionRecord where
  magic := RAVEIL_COMPLETION_MAGIC
  schemaVersion := 1
  structSize := 176
  flags := 0
  status := if ok then RAVEIL_COMPLETION_EXECUTED else RAVEIL_COMPLETION_FAULT
  detail := if ok then 0 else RAVEIL_DETAIL_EXECUTION_FAULT
  reserved0 := 0
  jobId := job.jobId
  executionEpoch := issued.executionEpoch
  executionSequence := issued.executionSequence
  completionCookie := issued.completionCookie
  outputCount := if ok then 2 else 0
  reserved1 := 0
  reserved2 := fun _ => 0
  outputs := fun i =>
    if ok ∧ i.val < 2 then ⟨2 * destination + i.val + 1, 1, g.versions destination + 1⟩ else default

/-- Write both halves, approve and finalize; the flag says whether the job was committed. -/
def publishJob (caps : Caps) (binding : Binding) (actual : List ℕ) (destination : ℕ) (s : Authority.State) :
    Authority.State × Bool :=
  let low := planeDataShadowWrite s caps.task caps.dataCap (some binding) (2 * destination + 1) 0
    (some (memory actual)) 512
  if !low.2 then (low.1, false)
  else
    let high := planeDataShadowWrite low.1 caps.task caps.dataCap (some binding) (2 * destination + 2) 0
      (some (memory (actual.drop 128))) 512
    if !high.2 then (high.1, false)
    else
      let approved := planeProgramApprove high.1 caps.task caps.programCap (some binding)
      if !approved.2 then (approved.1, false)
      else
        let final := planeDataFinalize approved.1 caps.task caps.dataCap (some binding) true
        (final.1, final.2 = .committed)

/-- The bookkeeping after a commit. -/
def recordCommit (g : Guest) (expected : List ℕ) (destination index : ℕ) : Guest :=
  let version := g.versions destination + 1
  { g with
    versions := Function.update g.versions destination version
    active := destination
    producerOk := Function.update g.producerOk index true
    producerBanks := Function.update g.producerBanks index destination
    producerVersions := Function.update g.producerVersions index version
    previous := Function.update g.previous destination fun i =>
      if i < 256 then expected.getD i 0 else g.previous destination i }

/-- Complete the job, then commit it or roll it back; the flags are `authority_ok` and `committed`. -/
def commitJob (caps : Caps) (g : Guest) (job : JobDescriptor) (binding : Binding) (issued : Submission)
    (e : Execution) (destination index : ℕ) : Guest × Bool × Bool :=
  let completed := complete caps g.authority (completionFor g job issued e.ok destination)
  let published := if completed.2 && e.ok then publishJob caps binding e.actual destination completed.1
    else (completed.1, false)
  let committed := published.2
  let authorityOk := if completed.2 && e.ok then committed else completed.2
  let g := { g with authority := published.1 }
  if committed then (recordCommit g e.expected destination index, authorityOk, true)
  else
    let rolled := planeDataFinalize g.authority caps.task caps.dataCap (some binding) false
    ({ g with authority := rolled.1 }, authorityOk && decide (rolled.2 = .rolledBack), false)

/-- Read the state back and write the two lines about the job. -/
def reportJob (g : Guest) (requestId : ℕ) (issued : Submission) (framed authorityOk committed : Bool)
    (destination source count index : ℕ) : Guest :=
  let read := readState g
  let g := read.1
  let stable := read.2 && decide (g.authority.planeExperienceUsed = index + 1) && authorityOk
  let approved := committed && stable
  let g := { g with
    processed := g.processed + 1
    halted := if !stable then 2 else if !framed then 1 else g.halted }
  let g := g.say (.state index stable framed destination source g.versionList
    g.authority.planeExperienceUsed (jobSubmissionCount g.authority) (jobInflightCount g.authority)
    (jobShadowCount g.authority) (jobCompletionCount g.authority) g.content)
  g.say (.result index requestId issued.executionEpoch issued.executionSequence
    issued.completionCookie (if approved then 1 else 4) approved (g.versions destination)
    (if approved then count else 0)
    (if approved then some ((List.range count).map (g.published destination)) else none))

/-- A job whose banks are known, from the descriptor on. -/
def dispatchJob (caps : Caps) (rx : ℕ → Option Char) (g : Guest) (request : Request)
    (mask destination source index : ℕ) : Guest :=
  let count := cfg request.config 1 * cfg request.config 2
  let job := descriptor g request mask destination source
  match planeJobSubmitBound g.authority caps.task caps.dataCap (some job) true with
  | (s, none) => { g with authority := s, halted := 2 }
  | (s, some binding) =>
    match jobSubmissionTake s true with
    | (s, none) => { g with authority := s, halted := 2 }
    | (s, some issued) =>
      let inputs := materialize s issued request mask source
      let request := { request with inputs := inputs.1 }
      let e := execute request inputs.2 issued count rx
      let g := { g with authority := s }
      let g := match e.envelope with
        | some envelope => g.say (.dispatch issued.job.jobId issued.executionEpoch
          issued.executionSequence issued.completionCookie count envelope)
        | none => g
      let r := commitJob caps g job binding issued e destination index
      reportJob r.1 request.requestId issued e.framed r.2.1 r.2.2 destination source count index

/-- The body of the job loop. -/
def guestJob (caps : Caps) (p : List UInt8) (chain : FoldChain) (rx : ℕ → ℕ → Option Char) (g : Guest)
    (index : ℕ) : Guest :=
  if g.halted ≠ 0 then g
  else match raveilFoldDecode (p.drop (chain.jobs.offsets index)) (chain.jobs.lengths index) with
    | none => { g with halted := 2 }
    | some request =>
      let source := chain.sources index
      let mask := chain.masks index
      if mask ≠ 0 then
        if !g.producerOk source ∨ g.producerVersions source ≠ g.versions (g.producerBanks source) then
          { g.say (.block index source) with halted := 3 }
        else dispatchJob caps (rx index) g request mask (g.producerBanks source ^^^ 1) (g.producerBanks source)
          index
      else dispatchJob caps (rx index) g request mask (g.active ^^^ 1) UINT32_MAX index

/-- The part before the job loop; `none` is a rejection. -/
def guestStart (caps : Caps) (chain : FoldChain) (s : Authority.State) : Option Guest := do
  let s ← prepare caps chain.jobs.epoch 4 s
  let read := readState
    { authority := s
      versions := fun _ => 1
      producerVersions := fun _ => 0
      producerBanks := fun _ => 0
      producerOk := fun _ => false
      previous := fun _ _ => 0
      published := fun _ _ => 0
      active := 1
      processed := 0
      halted := 0
      log := [] }
  if !read.2 ∨ read.1.authority.planeExperienceUsed ≠ 0 then none
  else some (read.1.say (.start chain.jobs.epoch chain.jobs.count [1, 1]))

/-- The job loop, up to job `k`. -/
def guestLoop (caps : Caps) (p : List UInt8) (chain : FoldChain) (rx : ℕ → ℕ → Option Char) (g : Guest)
    (k : ℕ) : Guest :=
  (List.range k).foldl (guestJob caps p chain rx) g

/-- How a boot goes on at the request address. -/
inductive Boot
  | absent
  | rejected
  | ran (g : Guest)

/-- `fold_chain_run_if_present` on the bytes at the request address. -/
def foldChainRunIfPresent (caps : Caps) (source : List UInt8) (rx : ℕ → ℕ → Option Char)
    (s : Authority.State) : Boot :=
  if word source 0 ≠ RAVEIL_FOLD_CHAIN_MAGIC then .absent
  else
    let size := word source 8
    if size < 340 ∨ size > RAVEIL_FOLD_CHAIN_MAX_BYTES then .rejected
    else
      let envelope := source.take size
      match raveilFoldChainDecode envelope size with
      | none => .rejected
      | some chain =>
        match guestStart caps chain s with
        | none => .rejected
        | some g =>
          let g := guestLoop caps envelope chain rx g chain.jobs.count
          .ran (g.say (.finish chain.jobs.epoch g.processed chain.jobs.count g.halted g.versionList))

end Raveil.Chain
