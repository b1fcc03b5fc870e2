import Mathlib.Data.UInt
import Mathlib.Logic.Function.Basic
import Raveil.Authority.JobAuthority
import Raveil.Lib.Hash

/-! The broker of the operator demo: fixed commands that drive one job of the authority at a time, and two files. -/
namespace Raveil.Demo

def VFS_ROOT_OBJECT : ℕ := 1
def VFS_NODE_HELLO : ℕ := 1
def VFS_NODE_SCRATCH : ℕ := 2
def VFS_FILE_CAPACITY : ℕ := 64

inductive VfsResult where
  | ok
  | notFound
  | denied
  | invalid
  | noSpace
  deriving DecidableEq

structure VfsNode where
  data : ℕ → UInt8
  size : ℕ
  writable : Bool

abbrev Vfs := Fin 2 → VfsNode

def getNode (node : ℕ) : Option (Fin 2) :=
  if h : 1 ≤ node ∧ node ≤ 2 then some ⟨node - 1, by omega⟩ else none

/-- `vfs_stat`: the size and whether the node is writable. -/
def vfsStat (vfs : Vfs) (node : ℕ) : Option (ℕ × Bool) :=
  (getNode node).map fun i => ((vfs i).size, (vfs i).writable)

def vfsRead (vfs : Vfs) (node offset : ℕ) : Except VfsResult UInt8 :=
  match getNode node with
  | none => .error .invalid
  | some i => if offset ≥ (vfs i).size then .error .notFound else .ok ((vfs i).data offset)

def vfsWrite (vfs : Vfs) (node offset : ℕ) (value : UInt8) : Vfs × VfsResult :=
  match getNode node with
  | none => (vfs, .invalid)
  | some i =>
    if !(vfs i).writable then (vfs, .denied)
    else if offset > (vfs i).size ∨ offset ≥ VFS_FILE_CAPACITY then (vfs, .noSpace)
    else
      (Function.update vfs i { vfs i with
        data := Function.update (vfs i).data offset value
        size := if offset = (vfs i).size then (vfs i).size + 1 else (vfs i).size }, .ok)

/-- Whether `print_hello` reads the whole file. -/
def printHello (vfs : Vfs) : Bool :=
  match vfsStat vfs VFS_NODE_HELLO with
  | none => false
  | some (size, writable) =>
    !writable && (List.range size).all fun offset => (vfsRead vfs VFS_NODE_HELLO offset).isOk

/-- The loop of `append_demo_value` over the bytes that are left. -/
def appendFrom (vfs : Vfs) (size : ℕ) : List UInt8 → ℕ → Vfs × VfsResult
  | [], _ => (vfs, .ok)
  | byte :: bytes, index =>
    let written := vfsWrite vfs VFS_NODE_SCRATCH (size + index) byte
    if written.2 ≠ .ok then (written.1, .invalid) else appendFrom written.1 size bytes (index + 1)

def demoValue : List UInt8 := "demo\n".toList.map fun c => UInt8.ofNat c.toNat

def appendDemoValue (vfs : Vfs) : Vfs × VfsResult :=
  match vfsStat vfs VFS_NODE_SCRATCH with
  | none => (vfs, .denied)
  | some (size, writable) =>
    if !writable then (vfs, .denied)
    else if size > VFS_FILE_CAPACITY - demoValue.length then (vfs, .noSpace)
    else appendFrom vfs size demoValue 0

open Lib Authority

def SONATINE_DEMO_AUTHORITY_OBJECT : ℕ := 2
def DEMO_OBJECT_ID : ℕ := 0xd092

inductive DemoState where
  | empty
  | dispatched
  | cancelRequested
  | completed
  | cancelled
  | fault
  deriving DecidableEq

/-- `enum sonatine_demo_command`, and the values that are none of its names. -/
inductive Command where
  | ls
  | cat
  | echo
  | write
  | stat
  | jobs
  | run
  | cancel
  | result
  | invalid
  deriving DecidableEq

inductive Status where
  | ok
  | empty
  | busy
  | tooLate
  | denied
  | noSpace
  | invalidOrder
  | completed
  | cancelled
  | fault
  deriving DecidableEq

/-- `struct demo_context`. -/
structure DemoContext where
  initialized : Bool
  owner : ℕ
  programCap : ℕ
  dataCap : ℕ
  experienceCap : ℕ
  filesystemCap : ℕ
  state : DemoState
  nextJobId : ℕ
  frameSequence : ℕ
  checksum : UInt64
  semantic : Bool
  staleCompletionRejected : Bool
  binding : Binding
  issued : Submission

/-- The broker, the authority under it and the files. -/
structure Machine where
  authority : State
  demo : DemoContext
  vfs : Vfs

/-- What `emit_frame` writes. -/
structure Frame where
  command : Command
  sequence : ℕ
  status : Status
  job : ℕ
  state : DemoState
  semantic : Bool
  checksum : UInt64
  deriving DecidableEq

section Product

/-- The loops of `compute_demo_gemm`. -/
def computeDemoGemm : List ℤ :=
  let left : List ℤ := [1, 2, 3, 4]
  let right : List ℤ := [5, 6, 7, 8]
  (List.range 2).foldl (fun output row => (List.range 2).foldl (fun output column =>
    (List.range 2).foldl (fun output inner =>
      output.set (row * 2 + column)
        (output.getD (row * 2 + column) 0 + left.getD (row * 2 + inner) 0 * right.getD (inner * 2 + column) 0))
      output) output) [0, 0, 0, 0]

def expectedDemoGemm : List ℤ := [1 * 5 + 2 * 7, 1 * 6 + 2 * 8, 3 * 5 + 4 * 7, 3 * 6 + 4 * 8]

def valuesChecksum (values : List ℤ) : UInt64 := values.foldl hashWord 1469598103934665603

/-- The bytes of an array of `int64_t` on the little-endian target. -/
def valuesBytes (values : List ℤ) (byte : ℕ) : UInt8 :=
  UInt8.ofNat ((UInt64.ofInt (values.getD (byte / 8) 0)).toNat >>> (8 * (byte % 8)))

end Product

section Broker

variable (m : Machine)

/-- The answer of a command after `emit_frame`: the frame and the value returned. -/
def answer (command : Command) (status : Status) (value : ℕ) : Machine × Frame × ℕ :=
  let d := m.demo
  ({ m with demo.frameSequence := if d.frameSequence ≠ 2 ^ 64 - 1 then d.frameSequence + 1 else d.frameSequence },
    { command, status, sequence := d.frameSequence, job := if d.state = .empty then 0 else d.issued.job.jobId,
      state := d.state, semantic := d.semantic, checksum := d.checksum }, value)

def brokerAuthorized (task brokerCap : ℕ) : Bool :=
  m.demo.initialized && task == m.demo.owner &&
    (capResolve m.authority.capTable task brokerCap CAP_OBJECT_DEMO_AUTHORITY CAP_RIGHT_CONTROL).any fun view =>
      view.objectId == SONATINE_DEMO_AUTHORITY_OBJECT

def filesystemAllowed (task right : ℕ) : Bool :=
  (capResolve m.authority.capTable task m.demo.filesystemCap CAP_OBJECT_FILESYSTEM right).any fun view =>
    view.objectId == VFS_ROOT_OBJECT

local instance identityIndex : NeZero 16 := ⟨by decide⟩

local instance objectIndex : NeZero 4 := ⟨by decide⟩

/-- An identity of two bytes and zeros. -/
def identity (first second : UInt8) : Identity := fun i => if i = 0 then first else if i = 1 then second else 0

/-- The descriptor of `submit_demo`. -/
def demoJob (jobId : ℕ) (object : ObjectManifest) : JobDescriptor :=
  { magic := RAVEIL_JOB_MAGIC
    schemaVersion := 1
    structSize := 320
    flags := 0
    objectCount := 1
    reserved0 := 0
    jobId
    programIdentity := identity 0x92 1
    graphVariantIdentity := identity 0x92 2
    executionContractIdentity := identity 0x92 3
    targetSignature := identity 1 0
    resources := ⟨1, 1, 32, 1⟩
    reserved1 := 0
    objects := fun i => if i = 0 then ⟨DEMO_OBJECT_ID, object.generation, object.version, 0, 32, RAVEIL_OBJECT_WRITE, 0⟩
      else default }

def submitDemo (task : ℕ) : Machine × Bool :=
  match jobObjectLookup m.authority DEMO_OBJECT_ID with
  | none => (m, false)
  | some object =>
    let job := demoJob m.demo.nextJobId object
    let m := { m with demo.nextJobId := (m.demo.nextJobId + 1) % 2 ^ 64 }
    match planeJobSubmitBound m.authority task m.demo.dataCap (some job) true with
    | (authority, none) => ({ m with authority }, false)
    | (authority, some binding) =>
      let m := { m with authority, demo.binding := binding }
      match jobSubmissionTake m.authority true with
      | (authority, some issued) => ({ m with authority, demo.issued := issued }, true)
      | (authority, none) =>
        -- what was popped for no slot is cleared
        ({ m with authority, demo.issued := if m.authority.submissions.used = 0 then m.demo.issued else default }, false)

def fillCompletion (status : ℕ) : CompletionRecord :=
  let executed := status = RAVEIL_COMPLETION_EXECUTED
  let output : ObjectVersion := ⟨DEMO_OBJECT_ID, 1, ((m.demo.issued.job.objects 0).expectedVersion + 1) % 2 ^ 64⟩
  { magic := RAVEIL_COMPLETION_MAGIC
    schemaVersion := 1
    structSize := 176
    flags := 0
    status
    detail := if executed then 0 else RAVEIL_DETAIL_CANCEL_REQUESTED
    reserved0 := 0
    jobId := m.demo.issued.job.jobId
    executionEpoch := m.demo.issued.executionEpoch
    executionSequence := m.demo.issued.executionSequence
    completionCookie := m.demo.issued.completionCookie
    outputCount := if executed then 1 else 0
    reserved1 := 0
    reserved2 := fun _ => 0
    outputs := fun i => if executed ∧ i = 0 then output else default }

/-- `stale_completion_rejected`, with the authority after the attempt. -/
def staleCompletionRejected : Machine × Bool :=
  let filled := fillCompletion m RAVEIL_COMPLETION_EXECUTED
  let stale := { filled with executionSequence := filled.executionSequence ^^^ 1 }
  let posted := jobCompletionPost m.authority (some stale)
  ({ m with authority := posted.1 }, !posted.2)

def terminalFault (task : ℕ) : Machine :=
  let authority := (planeDataFinalize m.authority task m.demo.dataCap (some m.demo.binding) false).1
  { m with authority, demo.state := .fault, demo.semantic := false, demo.checksum := 0 }

/-- The completion that `finish_demo` takes, after the cancellation that replaces one it cannot post. -/
def takeCompletion (cancelled : Bool) : Machine × Option CompletionRecord :=
  let completion := fillCompletion m (if cancelled then RAVEIL_COMPLETION_CANCELLED else RAVEIL_COMPLETION_EXECUTED)
  if jobCompletionPending m.authority m.demo.binding then
    let taken := jobCompletionTakeBound m.authority (some m.demo.binding) true
    ({ m with authority := taken.1 }, taken.2)
  else
    match jobCompletionPost m.authority (some completion) with
    | (authority, true) =>
      let taken := jobCompletionTakeBound authority (some m.demo.binding) true
      ({ m with authority := taken.1 }, taken.2)
    | (authority, false) =>
      let authority := (jobCancel authority (some m.demo.binding)).1
      match jobCompletionPost authority (some (fillCompletion m RAVEIL_COMPLETION_CANCELLED)) with
      | (authority, false) => ({ m with authority }, none)
      | (authority, true) =>
        let taken := jobCompletionTakeBound authority (some m.demo.binding) true
        ({ m with authority := taken.1 }, taken.2)

/-- The end of `finish_demo` for a job that was not cancelled. -/
def publishDemo (task : ℕ) : Machine :=
  if computeDemoGemm ≠ expectedDemoGemm ∨ valuesChecksum computeDemoGemm ≠ valuesChecksum expectedDemoGemm then
    terminalFault m task
  else
    match planeDataShadowWrite m.authority task m.demo.dataCap (some m.demo.binding) DEMO_OBJECT_ID 0
        (some (valuesBytes computeDemoGemm)) 32 with
    | (authority, false) => terminalFault { m with authority } task
    | (authority, true) =>
      match planeProgramApprove authority task m.demo.programCap (some m.demo.binding) with
      | (authority, false) => terminalFault { m with authority } task
      | (authority, true) =>
        match planeDataFinalize authority task m.demo.dataCap (some m.demo.binding) true with
        | (authority, .committed) =>
          { m with authority, demo.state := .completed, demo.checksum := valuesChecksum computeDemoGemm,
                   demo.semantic := true }
        | (authority, _) => terminalFault { m with authority } task

def finishDemo (task : ℕ) (cancelled : Bool) : Machine :=
  match takeCompletion m cancelled with
  | (m, none) => terminalFault m task
  | (m, some taken) =>
    match planeExperienceRecord m.authority task m.demo.experienceCap (some taken) with
    | (authority, false) => terminalFault { m with authority } task
    | (authority, true) =>
      let m := { m with authority }
      if cancelled then
        match planeDataFinalize m.authority task m.demo.dataCap (some m.demo.binding) false with
        | (authority, .rolledBack) =>
          { m with authority, demo.state := .cancelled, demo.semantic := false, demo.checksum := 0 }
        | (authority, _) => terminalFault { m with authority } task
      else publishDemo m task

/-- The manifest that `sonatine_demo_init` registers. -/
def demoObject : ObjectManifest :=
  { magic := RAVEIL_OBJECT_MANIFEST_MAGIC
    schemaVersion := 1
    structSize := 64
    flags := 0
    permittedAccess := RAVEIL_OBJECT_READ ||| RAVEIL_OBJECT_WRITE
    objectId := DEMO_OBJECT_ID
    generation := 1
    version := 1
    byteLength := 32
    backing := RAVEIL_OBJECT_BACKING_VOLATILE
    reserved0 := 0
    reserved1 := fun _ => 0 }

end Broker

/-- `sonatine_demo_init`; a refused step leaves the later ones undone. -/
def sonatineDemoInit (m : Machine) (task brokerCap programCap graphCap dataCap experienceCap filesystemCap : ℕ) :
    Machine × Bool :=
  let demo : DemoContext :=
    { initialized := false, owner := task, programCap, dataCap, experienceCap, filesystemCap, state := .empty,
      nextJobId := 0x9200, frameSequence := 1, checksum := 0, semantic := false, staleCompletionRejected := false,
      binding := default, issued := default }
  let broker := (capResolve m.authority.capTable task brokerCap CAP_OBJECT_DEMO_AUTHORITY CAP_RIGHT_CONTROL).any
    fun view => view.objectId == SONATINE_DEMO_AUTHORITY_OBJECT
  if !broker then ({ m with demo }, false)
  else match planeProgramInstall m.authority task programCap (some (identity 0x92 1)) with
    | (authority, false) => ({ m with authority, demo }, false)
    | (authority, true) =>
      match planeGraphInstall authority task graphCap (some (identity 0x92 1)) (some (identity 0x92 2)) with
      | (authority, false) => ({ m with authority, demo }, false)
      | (authority, true) =>
        match planeDataObjectRegister authority task dataCap (some demoObject) with
        | (authority, initialized) => ({ m with authority, demo := { demo with initialized } }, initialized)

section Commands

variable (m : Machine) (task : ℕ)

/-- The `RUN` branch. -/
def runDemo : Machine × Frame × ℕ :=
  if m.demo.state = .dispatched ∨ m.demo.state = .cancelRequested then answer m .run .busy 1
  else if m.demo.state = .fault then answer m .run .fault 1
  else match submitDemo m task with
    | (m, false) => answer m .run .fault 1
    | (m, true) =>
      let (m, rejected) := staleCompletionRejected m
      let m := { m with demo.staleCompletionRejected := rejected }
      if !rejected then answer (terminalFault m task) .run .fault 1
      else answer { m with demo.state := .dispatched, demo.checksum := 0, demo.semantic := false } .run .ok 0

/-- The `CANCEL` branch. -/
def cancelDemo : Machine × Frame × ℕ :=
  if m.demo.state = .empty then answer m .cancel .empty 0
  else if m.demo.state ≠ .dispatched then answer m .cancel .tooLate 1
  else match jobCancel m.authority (some m.demo.binding) with
    | (authority, false) => answer { m with authority } .cancel .tooLate 1
    | (authority, true) => answer { m with authority, demo.state := .cancelRequested } .cancel .ok 0

def terminalStatus : Status :=
  match m.demo.state with
  | .completed => .completed
  | .cancelled => .cancelled
  | _ => .fault

/-- The `RESULT` branch. -/
def resultDemo : Machine × Frame × ℕ :=
  if m.demo.state = .empty then answer m .result .empty 0
  else if (m.demo.state = .dispatched ∨ m.demo.state = .cancelRequested) ∧ jobCompletionCount m.authority = 4 then
    answer m .result .busy 1
  else
    let m := if m.demo.state = .dispatched then finishDemo m task false
      else if m.demo.state = .cancelRequested then finishDemo m task true
      else m
    if m.demo.state = .completed ∨ m.demo.state = .cancelled ∨ m.demo.state = .fault then
      answer m .result (terminalStatus m) (if m.demo.state = .fault then 1 else 0)
    else answer m .result .fault 1

/-- The `WRITE` branch. -/
def writeDemo : Machine × Frame × ℕ :=
  if !filesystemAllowed m task CAP_RIGHT_WRITE then answer m .write .denied 1
  else
    let (vfs, wrote) := appendDemoValue m.vfs
    let m := { m with vfs }
    if wrote ≠ .ok then answer m .write (if wrote = .noSpace then .noSpace else .fault) 1
    else answer m .write .ok 0

/-- The two checks every command passes. -/
def permitted (consoleCap brokerCap : ℕ) : Bool :=
  brokerAuthorized m task brokerCap &&
    (capResolve m.authority.capTable task consoleCap CAP_OBJECT_CONSOLE CAP_RIGHT_WRITE).isSome

/-- `sonatine_demo_command_run`. -/
def sonatineDemoCommandRun (consoleCap brokerCap : ℕ) (command : Command) : Machine × Frame × ℕ :=
  if !permitted m task consoleCap brokerCap then answer m command .denied 1
  else match command with
    | .ls | .stat =>
      if !filesystemAllowed m task CAP_RIGHT_READ then answer m command .denied 1 else answer m command .ok 0
    | .cat =>
      if !filesystemAllowed m task CAP_RIGHT_READ || !printHello m.vfs then answer m command .denied 1
      else answer m command .ok 0
    | .echo => answer m command .ok 0
    | .write => writeDemo m task
    | .jobs => answer m command (if m.demo.state = .empty then .empty else .ok) 0
    | .run => runDemo m task
    | .cancel => cancelDemo m
    | .result => resultDemo m task
    | .invalid => answer m command .invalidOrder 1

end Commands

end Raveil.Demo
