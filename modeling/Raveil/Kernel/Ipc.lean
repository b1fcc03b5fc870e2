import Raveil.Kernel.Tasks
import Raveil.Lib.RingBuffer

/-! Endpoints with bounded queues of messages between tasks. -/
namespace Raveil.Kernel

open Raveil.Authority Raveil.Lib

def CAP_OBJECT_ENDPOINT : ℕ := 2

def ENDPOINT_QUEUE_DEPTH : ℕ := 4

structure Message where
  sender : ℕ
  tag : ℕ
  words : Fin 4 → BitVec 64
  deriving Inhabited

inductive IpcResult where
  | ok
  | blocked
  | denied
  | invalid
  deriving DecidableEq

structure Endpoint where
  active : Bool
  ownerTask : ℕ
  ring : RingBuffer Message

structure IpcState where
  tasks : TaskState
  endpoints : Fin 8 → Endpoint
  caps : CapTable

def ipcInit (s : IpcState) : IpcState :=
  { s with endpoints := fun i => { s.endpoints i with active := false } }

def ipcEndpointCreate (s : IpcState) (ownerTask : ℕ) : IpcState × ℕ :=
  match firstSlot fun i => !(s.endpoints i).active with
  | some i =>
    let ring := { (s.endpoints i).ring with read := 0, write := 0, used := 0 }
    ({ s with endpoints := Function.update s.endpoints i ⟨true, ownerTask, ring⟩ }, i + 1)
  | none => (s, 0)

theorem endpoint_lt {objectId : ℕ} (h : ¬ (objectId = 0 ∨ objectId > 8)) : objectId - 1 < 8 := by omega

def resolveEndpoint (s : IpcState) (task handle right : ℕ) : Except IpcResult (Fin 8) :=
  match capResolve s.caps task handle CAP_OBJECT_ENDPOINT right with
  | none => .error .denied
  | some view =>
    if h : view.objectId = 0 ∨ view.objectId > 8 then .error .invalid
    else
      let i : Fin 8 := ⟨view.objectId - 1, endpoint_lt h⟩
      if (s.endpoints i).active then .ok i else .error .invalid

def IpcState.setRing (s : IpcState) (i : Fin 8) (ring : RingBuffer Message) : IpcState :=
  { s with endpoints := Function.update s.endpoints i { s.endpoints i with ring := ring } }

/-- The result of a call that has to wait at an endpoint. -/
def waitAt (s : IpcState) (task : ℕ) (kind : WaitKind) (i : Fin 8) : IpcState × IpcResult :=
  let (tasks, done) := taskBlock s.tasks task kind (i + 1)
  ({ s with tasks := tasks }, if done then .blocked else .invalid)

/-- One task that waits at an endpoint becomes ready. -/
def wakeAt (s : IpcState) (kind : WaitKind) (i : Fin 8) : IpcState :=
  { s with tasks := (taskWakeOne s.tasks kind (i + 1)).1 }

def ipcSend (s : IpcState) (senderTask endpointCap : ℕ) (message : Option Message) :
    IpcState × IpcResult :=
  match message with
  | none => (s, .invalid)
  | some message =>
    match resolveEndpoint s senderTask endpointCap CAP_RIGHT_SEND with
    | .error result => (s, result)
    | .ok i =>
      let ring := (s.endpoints i).ring
      if ring.used = ENDPOINT_QUEUE_DEPTH then waitAt s senderTask .ipcSend i
      else
        let s := s.setRing i (ring.push ENDPOINT_QUEUE_DEPTH { message with sender := senderTask })
        (wakeAt s .ipcReceive i, .ok)

/-- `buffer` tells whether the caller gave a place for the message. -/
def ipcReceive (s : IpcState) (receiverTask endpointCap : ℕ) (buffer : Bool) :
    IpcState × IpcResult × Option Message :=
  if buffer then
    match resolveEndpoint s receiverTask endpointCap CAP_RIGHT_RECEIVE with
    | .error result => (s, result, none)
    | .ok i =>
      let ring := (s.endpoints i).ring
      if ring.used = 0 then
        let (s, result) := waitAt s receiverTask .ipcReceive i
        (s, result, none)
      else
        let s := s.setRing i (ring.advance ENDPOINT_QUEUE_DEPTH)
        (wakeAt s .ipcSend i, .ok, some (ring.buf ring.read))
  else (s, .invalid, none)

inductive IpcCall where
  | send (senderTask endpointCap : ℕ) (message : Option Message)
  | receive (receiverTask endpointCap : ℕ) (buffer : Bool)
  | setCurrent (taskId : ℕ)
  | block (taskId : ℕ) (kind : WaitKind) (objectId : ℕ)
  | stop (taskId : ℕ)
  | wakeOne (kind : WaitKind) (objectId : ℕ)

inductive Reply where
  | sent (result : IpcResult)
  | received (result : IpcResult) (message : Option Message)
  | done (accepted : Bool)
  | woken (taskId : Option ℕ)

def ipcStep (s : IpcState) : IpcCall → IpcState × Reply
  | .send senderTask endpointCap message =>
    let (s', result) := ipcSend s senderTask endpointCap message
    (s', .sent result)
  | .receive receiverTask endpointCap buffer =>
    let (s', result, message) := ipcReceive s receiverTask endpointCap buffer
    (s', .received result message)
  | .setCurrent taskId =>
    let (tasks, accepted) := taskSetCurrent s.tasks taskId
    ({ s with tasks := tasks }, .done accepted)
  | .block taskId kind objectId =>
    let (tasks, accepted) := taskBlock s.tasks taskId kind objectId
    ({ s with tasks := tasks }, .done accepted)
  | .stop taskId =>
    let (tasks, accepted) := taskStop s.tasks taskId
    ({ s with tasks := tasks }, .done accepted)
  | .wakeOne kind objectId =>
    let (tasks, taskId) := taskWakeOne s.tasks kind objectId
    ({ s with tasks := tasks }, .woken taskId)

def ipcRun (s : IpcState) : List IpcCall → IpcState × List (IpcCall × Reply)
  | [] => (s, [])
  | call :: calls =>
    let (s', reply) := ipcStep s call
    let (s'', trace) := ipcRun s' calls
    (s'', (call, reply) :: trace)

/-- Initialisation: fresh tables, tasks that are ready, and endpoints for the given owners. -/
def ipcBoot (memory : IpcState) (taskCount : ℕ) (owners : List ℕ) : IpcState :=
  let tasks := (List.range taskCount).foldl (fun s _ => (taskCreate s .ready).1) (taskInit memory.tasks)
  owners.foldl (fun s owner => (ipcEndpointCreate s owner).1) (ipcInit { memory with tasks := tasks })

/-! ### What the queues and the tables keep -/

/-- The queue of an endpoint in the order in which it will be received. -/
def IpcState.queue (s : IpcState) (e : Fin 8) : List Message :=
  (s.endpoints e).ring.contents ENDPOINT_QUEUE_DEPTH

structure IpcState.Ok (s : IpcState) : Prop where
  tasks : s.tasks.Ok
  rings : ∀ e, (s.endpoints e).active = true → (s.endpoints e).ring.Ok ENDPOINT_QUEUE_DEPTH

variable {s : IpcState} {i e : Fin 8} {task handle right : ℕ}

/-- The task has a capability with the right for the endpoint. -/
def Holds (caps : CapTable) (task handle right : ℕ) (e : Fin 8) : Prop :=
  (capResolve caps task handle CAP_OBJECT_ENDPOINT right).map CapView.objectId = some (e.val + 1)

instance (caps : CapTable) (task handle right : ℕ) (e : Fin 8) : Decidable (Holds caps task handle right e) :=
  inferInstanceAs (Decidable (_ = _))

theorem resolveEndpoint_eq_ok (h : resolveEndpoint s task handle right = .ok i) :
    Holds s.caps task handle right i ∧ (s.endpoints i).active = true := by
  unfold resolveEndpoint at h
  unfold Holds
  cases hv : capResolve s.caps task handle CAP_OBJECT_ENDPOINT right with
  | none =>
    rw [hv] at h
    cases h
  | some view =>
    simp only [hv] at h
    split at h
    · cases h
    · rename_i hid
      split at h
      · rename_i hactive
        obtain rfl := Except.ok.inj h
        refine ⟨?_, hactive⟩
        rw [Option.map_some]
        congr 1
        simp only
        omega
      · cases h

theorem resolveEndpoint_ne_ok {result : IpcResult} (h : resolveEndpoint s task handle right = .error result) :
    result ≠ .ok := by
  unfold resolveEndpoint at h
  split at h
  · cases h
    simp
  · split at h
    · cases h
      simp
    · simp only at h
      split at h
      · cases h
      · cases h
        simp

theorem holds_unique {e' : Fin 8} {caps : CapTable} (h : Holds caps task handle right e)
    (h' : Holds caps task handle right e') : e = e' := by
  have hid := Option.some.inj (h.symm.trans h')
  exact Fin.ext (by omega)

@[simp] theorem setRing_active {ring : RingBuffer Message} :
    ((s.setRing i ring).endpoints e).active = (s.endpoints e).active := by
  by_cases h : e = i
  · subst e
    simp [IpcState.setRing]
  · simp [IpcState.setRing, h]

theorem setRing_ring {ring : RingBuffer Message} :
    ((s.setRing i ring).endpoints e).ring = if e = i then ring else (s.endpoints e).ring := by
  by_cases h : e = i
  · subst e
    simp [IpcState.setRing]
  · simp [IpcState.setRing, h]

/-- A call that does not succeed changes the task table only. -/
structure Refused (s s' : IpcState) (result : IpcResult) : Prop where
  result : result ≠ .ok
  endpoints : s'.endpoints = s.endpoints
  caps : s'.caps = s.caps
  tasks : s.tasks.Ok → s'.tasks.Ok

theorem refused_self {result : IpcResult} (h : result ≠ .ok) : Refused s s result := ⟨h, rfl, rfl, id⟩

theorem refused_waitAt {kind : WaitKind} : Refused s (waitAt s task kind i).1 (waitAt s task kind i).2 := by
  refine ⟨?_, rfl, rfl, fun h => ok_taskBlock h⟩
  unfold waitAt
  cases taskBlock s.tasks task kind (i + 1) with
  | mk tasks done => cases done <;> simp

theorem ipcSend_cases (s : IpcState) (senderTask endpointCap : ℕ) (message : Option Message) :
    (∃ m i, message = some m ∧ Holds s.caps senderTask endpointCap CAP_RIGHT_SEND i ∧
      (s.endpoints i).active = true ∧ (s.endpoints i).ring.used ≠ ENDPOINT_QUEUE_DEPTH ∧
      ipcSend s senderTask endpointCap message =
        (wakeAt (s.setRing i ((s.endpoints i).ring.push ENDPOINT_QUEUE_DEPTH { m with sender := senderTask }))
          .ipcReceive i, .ok)) ∨
    Refused s (ipcSend s senderTask endpointCap message).1 (ipcSend s senderTask endpointCap message).2 := by
  cases message with
  | none => exact .inr (@refused_self s .invalid (by simp))
  | some m =>
    unfold ipcSend
    cases hr : resolveEndpoint s senderTask endpointCap CAP_RIGHT_SEND with
    | error result => exact .inr (refused_self (resolveEndpoint_ne_ok hr))
    | ok i =>
      obtain ⟨hholds, hactive⟩ := resolveEndpoint_eq_ok hr
      by_cases hfull : (s.endpoints i).ring.used = ENDPOINT_QUEUE_DEPTH
      · simp only [if_pos hfull]
        exact .inr refused_waitAt
      · simp only [if_neg hfull]
        exact .inl ⟨m, i, rfl, hholds, hactive, hfull, rfl⟩

theorem ipcReceive_cases (s : IpcState) (receiverTask endpointCap : ℕ) (buffer : Bool) :
    (∃ i, Holds s.caps receiverTask endpointCap CAP_RIGHT_RECEIVE i ∧ (s.endpoints i).active = true ∧
      (s.endpoints i).ring.used ≠ 0 ∧ ipcReceive s receiverTask endpointCap buffer =
        (wakeAt (s.setRing i ((s.endpoints i).ring.advance ENDPOINT_QUEUE_DEPTH)) .ipcSend i, .ok,
          some ((s.endpoints i).ring.buf (s.endpoints i).ring.read))) ∨
    Refused s (ipcReceive s receiverTask endpointCap buffer).1
      (ipcReceive s receiverTask endpointCap buffer).2.1 := by
  cases buffer with
  | false => exact .inr (@refused_self s .invalid (by simp))
  | true =>
    unfold ipcReceive
    cases hr : resolveEndpoint s receiverTask endpointCap CAP_RIGHT_RECEIVE with
    | error result => exact .inr (refused_self (resolveEndpoint_ne_ok hr))
    | ok i =>
      obtain ⟨hholds, hactive⟩ := resolveEndpoint_eq_ok hr
      by_cases hempty : (s.endpoints i).ring.used = 0
      · simp only [if_pos hempty]
        exact .inr refused_waitAt
      · simp only [if_neg hempty]
        exact .inl ⟨i, hholds, hactive, hempty, rfl⟩

theorem ok_setRing {ring : RingBuffer Message} (hs : s.Ok)
    (hr : (s.endpoints i).active = true → ring.Ok ENDPOINT_QUEUE_DEPTH) : (s.setRing i ring).Ok := by
  refine ⟨hs.tasks, fun e he => ?_⟩
  rw [setRing_active] at he
  rw [setRing_ring]
  by_cases h : e = i
  · subst e
    rw [if_pos rfl]
    exact hr he
  · rw [if_neg h]
    exact hs.rings e he

theorem ok_wakeAt {kind : WaitKind} (hs : s.Ok) : (wakeAt s kind i).Ok := ⟨ok_taskWakeOne hs.tasks, hs.rings⟩

theorem queue_setRing {ring : RingBuffer Message} {kind : WaitKind} :
    (wakeAt (s.setRing i ring) kind i).queue e =
      if e = i then ring.contents ENDPOINT_QUEUE_DEPTH else s.queue e := by
  show ((s.setRing i ring).endpoints e).ring.contents ENDPOINT_QUEUE_DEPTH = _
  rw [setRing_ring]
  by_cases h : e = i
  · rw [if_pos h, if_pos h]
  · rw [if_neg h, if_neg h]
    rfl

end Raveil.Kernel
