import Raveil.Kernel.Ipc

/-! Messages arrive in the order in which they were sent, over every run of calls. -/
namespace Raveil.Kernel

open Raveil.Authority Raveil.Lib

abbrev Trace := List (IpcCall × Reply)

/-- The message that an event puts into the queue of `e`, with its true sender. -/
def sentTo (caps : CapTable) (e : Fin 8) : IpcCall × Reply → Option Message
  | (.send senderTask endpointCap (some m), .sent .ok) =>
    if Holds caps senderTask endpointCap CAP_RIGHT_SEND e then some { m with sender := senderTask } else none
  | _ => none

/-- The message that an event takes out of the queue of `e`. -/
def receivedFrom (caps : CapTable) (e : Fin 8) : IpcCall × Reply → Option Message
  | (.receive receiverTask endpointCap _, .received .ok message) =>
    if Holds caps receiverTask endpointCap CAP_RIGHT_RECEIVE e then message else none
  | _ => none

def accepted (caps : CapTable) (e : Fin 8) (trace : Trace) : List Message := trace.filterMap (sentTo caps e)

def returned (caps : CapTable) (e : Fin 8) (trace : Trace) : List Message :=
  trace.filterMap (receivedFrom caps e)

variable {s s' : IpcState} {e : Fin 8} {call : IpcCall} {trace : Trace}

/-- What one event does to the state and to the queue of every endpoint. -/
structure Moves (s s' : IpcState) (event : IpcCall × Reply) : Prop where
  ok : s'.Ok
  caps : s'.caps = s.caps
  active : ∀ e, (s'.endpoints e).active = (s.endpoints e).active
  queue : ∀ e, s.queue e ++ (sentTo s.caps e event).toList = (receivedFrom s.caps e event).toList ++ s'.queue e

/-- An event that moves no message. -/
theorem moves_of_tasks {event : IpcCall × Reply} {tasks : TaskState} (hs : s.Ok) (ht : tasks.Ok)
    (hsent : ∀ e, sentTo s.caps e event = none) (hreceived : ∀ e, receivedFrom s.caps e event = none) :
    Moves s { s with tasks := tasks } event := by
  refine ⟨⟨ht, hs.rings⟩, rfl, fun e => rfl, fun e => ?_⟩
  rw [hsent, hreceived, Option.toList_none, List.append_nil, List.nil_append]
  rfl

theorem moves_of_refused {event : IpcCall × Reply} {result : IpcResult} (hs : s.Ok)
    (h : Refused s s' result) (hsent : ∀ e, sentTo s.caps e event = none)
    (hreceived : ∀ e, receivedFrom s.caps e event = none) : Moves s s' event := by
  have he : s' = { s with tasks := s'.tasks } := by
    cases s'
    cases h.endpoints
    cases h.caps
    rfl
  rw [he]
  exact moves_of_tasks hs (h.tasks hs.tasks) hsent hreceived

theorem moves_send (hs : s.Ok) (senderTask endpointCap : ℕ) (message : Option Message) :
    Moves s (ipcStep s (.send senderTask endpointCap message)).1
      (.send senderTask endpointCap message, (ipcStep s (.send senderTask endpointCap message)).2) := by
  rcases ipcSend_cases s senderTask endpointCap message with ⟨m, i, rfl, hholds, hactive, hroom, he⟩ | hrefused
  · simp only [ipcStep, he]
    have hring := hs.rings i hactive
    have hused : (s.endpoints i).ring.used < ENDPOINT_QUEUE_DEPTH := lt_of_le_of_ne hring.used hroom
    refine ⟨ok_wakeAt (ok_setRing hs fun _ => RingBuffer.ok_push hring hused), rfl,
      fun e => setRing_active, fun e => ?_⟩
    rw [queue_setRing]
    by_cases hei : e = i
    · subst e
      rw [if_pos rfl, RingBuffer.contents_push hring hused]
      simp [sentTo, receivedFrom, hholds, IpcState.queue]
    · have hother : ¬ Holds s.caps senderTask endpointCap CAP_RIGHT_SEND e :=
        fun h => hei (holds_unique h hholds)
      simp [sentTo, receivedFrom, hother, hei]
  · apply moves_of_refused hs hrefused
    · intro e
      have hresult := hrefused.result
      cases message with
      | none => rfl
      | some m =>
        simp only [ipcStep]
        cases hr : (ipcSend s senderTask endpointCap (some m)).2 <;> simp_all [sentTo]
    · intro e
      rfl

theorem moves_receive (hs : s.Ok) (receiverTask endpointCap : ℕ) (buffer : Bool) :
    Moves s (ipcStep s (.receive receiverTask endpointCap buffer)).1
      (.receive receiverTask endpointCap buffer, (ipcStep s (.receive receiverTask endpointCap buffer)).2) := by
  rcases ipcReceive_cases s receiverTask endpointCap buffer with ⟨i, hholds, hactive, hsome, he⟩ | hrefused
  · simp only [ipcStep, he]
    have hring := hs.rings i hactive
    have hused : 0 < (s.endpoints i).ring.used := Nat.pos_of_ne_zero hsome
    refine ⟨ok_wakeAt (ok_setRing hs fun _ => RingBuffer.ok_advance hring hused), rfl,
      fun e => setRing_active, fun e => ?_⟩
    rw [queue_setRing]
    by_cases hei : e = i
    · subst e
      rw [if_pos rfl]
      have hfirst := RingBuffer.contents_advance hring hused
      simpa [sentTo, receivedFrom, hholds, IpcState.queue] using hfirst
    · have hother : ¬ Holds s.caps receiverTask endpointCap CAP_RIGHT_RECEIVE e :=
        fun h => hei (holds_unique h hholds)
      simp [sentTo, receivedFrom, hother, hei]
  · apply moves_of_refused hs hrefused
    · intro e
      rfl
    · intro e
      have hresult := hrefused.result
      simp only [ipcStep]
      cases hr : (ipcReceive s receiverTask endpointCap buffer).2.1 <;> simp_all [receivedFrom]

theorem moves_step (hs : s.Ok) (call : IpcCall) : Moves s (ipcStep s call).1 (call, (ipcStep s call).2) := by
  cases call with
  | send senderTask endpointCap message => exact moves_send hs senderTask endpointCap message
  | receive receiverTask endpointCap buffer => exact moves_receive hs receiverTask endpointCap buffer
  | setCurrent taskId => exact moves_of_tasks hs (ok_taskSetCurrent hs.tasks) (fun e => rfl) fun e => rfl
  | block taskId kind objectId =>
    exact moves_of_tasks hs (ok_taskBlock hs.tasks) (fun e => rfl) fun e => rfl
  | stop taskId => exact moves_of_tasks hs (ok_taskStop hs.tasks) (fun e => rfl) fun e => rfl
  | wakeOne kind objectId =>
    exact moves_of_tasks hs (ok_taskWakeOne hs.tasks) (fun e => rfl) fun e => rfl

theorem filterMap_cons_toList {α β : Type} (f : α → Option β) (a : α) (l : List α) :
    (a :: l).filterMap f = (f a).toList ++ l.filterMap f := by
  cases h : f a <;> simp [h]

/-- Over a run, what was queued and then accepted is what was returned and is still queued. -/
theorem run_moves (hs : s.Ok) (calls : List IpcCall) :
    (ipcRun s calls).1.Ok ∧ (ipcRun s calls).1.caps = s.caps ∧
      (∀ e, ((ipcRun s calls).1.endpoints e).active = (s.endpoints e).active) ∧
      ∀ e, s.queue e ++ accepted s.caps e (ipcRun s calls).2 =
        returned s.caps e (ipcRun s calls).2 ++ (ipcRun s calls).1.queue e := by
  induction calls generalizing s with
  | nil => exact ⟨hs, rfl, fun e => rfl, fun e => by simp [ipcRun, accepted, returned]⟩
  | cons call calls ih =>
    have hstep := moves_step hs call
    obtain ⟨hok, hcaps, hactive, hqueue⟩ := ih hstep.ok
    refine ⟨hok, hcaps.trans hstep.caps, fun e => (hactive e).trans (hstep.active e), fun e => ?_⟩
    have hrest := hqueue e
    rw [hstep.caps] at hrest
    unfold accepted returned at hrest ⊢
    simp only [ipcRun, filterMap_cons_toList]
    rw [← List.append_assoc, hstep.queue e, List.append_assoc, hrest, List.append_assoc]

theorem ok_ipcEndpointCreate (owner : ℕ) (hs : s.Ok)
    (hempty : ∀ e, (s.endpoints e).active = true → (s.endpoints e).ring.used = 0) :
    (ipcEndpointCreate s owner).1.Ok ∧ ∀ e, ((ipcEndpointCreate s owner).1.endpoints e).active = true →
      ((ipcEndpointCreate s owner).1.endpoints e).ring.used = 0 := by
  unfold ipcEndpointCreate
  split
  · rename_i i hi
    refine ⟨⟨hs.tasks, fun e he => ?_⟩, fun e he => ?_⟩
    · by_cases hei : e = i
      · subst e
        simp only [Function.update_self]
        exact ⟨Nat.zero_le _, Nat.zero_lt_succ 3, rfl⟩
      · simp only [Function.update_of_ne hei] at he ⊢
        exact hs.rings e he
    · by_cases hei : e = i
      · subst e
        simp only [Function.update_self]
      · simp only [Function.update_of_ne hei] at he ⊢
        exact hempty e he
  · exact ⟨hs, hempty⟩

theorem ipcBoot_spec (memory : IpcState) (taskCount : ℕ) (owners : List ℕ) :
    (ipcBoot memory taskCount owners).Ok ∧ ∀ e,
      ((ipcBoot memory taskCount owners).endpoints e).active = true →
        (ipcBoot memory taskCount owners).queue e = [] := by
  have htasks : ∀ s : TaskState, s.Ok → ∀ l : List ℕ, (l.foldl (fun s _ => (taskCreate s .ready).1) s).Ok := by
    intro s hs l
    induction l generalizing s with
    | nil => exact hs
    | cons _ l ih => exact ih _ (ok_taskCreate hs)
  have hendpoints : ∀ s : IpcState, s.Ok →
      (∀ e, (s.endpoints e).active = true → (s.endpoints e).ring.used = 0) → ∀ l : List ℕ,
      (l.foldl (fun s owner => (ipcEndpointCreate s owner).1) s).Ok ∧
      ∀ e, ((l.foldl (fun s owner => (ipcEndpointCreate s owner).1) s).endpoints e).active = true →
        ((l.foldl (fun s owner => (ipcEndpointCreate s owner).1) s).endpoints e).ring.used = 0 := by
    intro s hs hempty l
    induction l generalizing s with
    | nil => exact ⟨hs, hempty⟩
    | cons owner l ih =>
      obtain ⟨hok, hnone⟩ := ok_ipcEndpointCreate owner hs hempty
      exact ih _ hok hnone
  obtain ⟨hok, hempty⟩ := hendpoints (ipcInit { memory with tasks := _ })
    ⟨htasks _ (ok_taskInit memory.tasks) (List.range taskCount), fun e he => by cases he⟩
    (fun e he => by cases he) owners
  refine ⟨hok, fun e he => ?_⟩
  apply List.length_eq_zero_iff.mp
  rw [IpcState.queue, RingBuffer.length_contents]
  exact hempty e he

/-- What holds of the tables and of the trace after any calls. -/
structure Delivers (s : IpcState) (trace : Trace) : Prop where
  inOrder : ∀ e, (s.endpoints e).active = true →
    returned s.caps e trace <+: accepted s.caps e trace ∧
      accepted s.caps e trace = returned s.caps e trace ++ s.queue e
  genuine : ∀ e message, (s.endpoints e).active = true → message ∈ returned s.caps e trace →
    ∃ senderTask endpointCap content,
      (.send senderTask endpointCap (some content), .sent .ok) ∈ trace ∧
        message = { content with sender := senderTask }
  ring : ∀ e, (s.endpoints e).active = true → (s.endpoints e).ring.used ≤ 4 ∧
    (s.endpoints e).ring.write = ((s.endpoints e).ring.read + (s.endpoints e).ring.used) % 4
  sendRefused : ∀ senderTask endpointCap message, (ipcSend s senderTask endpointCap message).2 ≠ .ok →
    (ipcSend s senderTask endpointCap message).1.endpoints = s.endpoints
  receiveRefused : ∀ receiverTask endpointCap buffer,
    (ipcReceive s receiverTask endpointCap buffer).2.1 ≠ .ok →
      (ipcReceive s receiverTask endpointCap buffer).1.endpoints = s.endpoints
  maySend : ∀ senderTask endpointCap message, (ipcSend s senderTask endpointCap message).2 = .ok →
    ∃ view, capResolve s.caps senderTask endpointCap CAP_OBJECT_ENDPOINT CAP_RIGHT_SEND = some view
  mayReceive : ∀ receiverTask endpointCap buffer,
    (ipcReceive s receiverTask endpointCap buffer).2.1 = .ok →
      ∃ view, capResolve s.caps receiverTask endpointCap CAP_OBJECT_ENDPOINT CAP_RIGHT_RECEIVE = some view
  running : ∀ i, (s.tasks.table i).active = true → (s.tasks.table i).state = .running →
    s.tasks.current = i.val + 1
  blocked : ∀ i, (s.tasks.table i).active = true → ((s.tasks.table i).state = .blocked ↔
    (s.tasks.table i).waitKind ≠ .none ∧ (s.tasks.table i).waitObject ≠ 0)

theorem holds_view {caps : CapTable} {task handle right : ℕ} (h : Holds caps task handle right e) :
    ∃ view, capResolve caps task handle CAP_OBJECT_ENDPOINT right = some view := by
  obtain ⟨view, hv, -⟩ := Option.map_eq_some_iff.mp h
  exact ⟨view, hv⟩

theorem sentTo_eq_some {caps : CapTable} {event : IpcCall × Reply} {message : Message}
    (h : sentTo caps e event = some message) : ∃ senderTask endpointCap content,
      event = (.send senderTask endpointCap (some content), .sent .ok) ∧
        message = { content with sender := senderTask } := by
  unfold sentTo at h
  split at h
  · rename_i senderTask endpointCap content
    split at h
    · exact ⟨senderTask, endpointCap, content, rfl, (Option.some.inj h).symm⟩
    · cases h
  · cases h

/-- From initialisation on, whatever the calls and the capabilities. -/
theorem ipc_delivers (memory : IpcState) (taskCount : ℕ) (owners : List ℕ) (calls : List IpcCall) :
    Delivers (ipcRun (ipcBoot memory taskCount owners) calls).1
      (ipcRun (ipcBoot memory taskCount owners) calls).2 := by
  obtain ⟨hboot, hempty⟩ := ipcBoot_spec memory taskCount owners
  obtain ⟨hok, hcaps, hactive, hqueue⟩ := run_moves hboot calls
  generalize ipcRun (ipcBoot memory taskCount owners) calls = run at hok hcaps hactive hqueue
  have hfifo : ∀ e, (run.1.endpoints e).active = true →
      accepted run.1.caps e run.2 = returned run.1.caps e run.2 ++ run.1.queue e := by
    intro e he
    have hmoved := hqueue e
    rw [hempty e ((hactive e).symm.trans he), List.nil_append] at hmoved
    rw [hcaps]
    exact hmoved
  constructor
  · intro e he
    refine ⟨?_, hfifo e he⟩
    rw [hfifo e he]
    exact List.prefix_append _ _
  · intro e message he hm
    have hmem : message ∈ accepted run.1.caps e run.2 := by
      rw [hfifo e he]
      exact List.mem_append_left _ hm
    obtain ⟨event, hevent, hsent⟩ := List.mem_filterMap.mp hmem
    obtain ⟨senderTask, endpointCap, content, rfl, hcontent⟩ := sentTo_eq_some hsent
    exact ⟨senderTask, endpointCap, content, hevent, hcontent⟩
  · intro e he
    exact ⟨(hok.rings e he).used, (hok.rings e he).write⟩
  · intro senderTask endpointCap message hne
    rcases ipcSend_cases run.1 senderTask endpointCap message with ⟨m, i, -, -, -, -, h⟩ | hrefused
    · exact absurd (congrArg Prod.snd h) hne
    · exact hrefused.endpoints
  · intro receiverTask endpointCap buffer hne
    rcases ipcReceive_cases run.1 receiverTask endpointCap buffer with ⟨i, -, -, -, h⟩ | hrefused
    · exact absurd (congrArg (fun r => r.2.1) h) hne
    · exact hrefused.endpoints
  · intro senderTask endpointCap message heq
    rcases ipcSend_cases run.1 senderTask endpointCap message with ⟨m, i, -, hholds, -⟩ | hrefused
    · exact holds_view hholds
    · exact absurd heq hrefused.result
  · intro receiverTask endpointCap buffer heq
    rcases ipcReceive_cases run.1 receiverTask endpointCap buffer with ⟨i, hholds, -⟩ | hrefused
    · exact holds_view hholds
    · exact absurd heq hrefused.result
  · exact hok.tasks.running
  · exact hok.tasks.blocked

end Raveil.Kernel
