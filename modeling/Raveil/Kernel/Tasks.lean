import Raveil.Authority.Capability

/-! The task table. -/
namespace Raveil.Kernel

open Raveil.Authority

inductive TaskRun where
  | unused
  | ready
  | running
  | blocked
  | stopped
  deriving DecidableEq, Inhabited

inductive WaitKind where
  | none
  | ipcSend
  | ipcReceive
  deriving DecidableEq, Inhabited

structure TaskEntry where
  active : Bool
  id : ℕ
  state : TaskRun
  waitKind : WaitKind
  waitObject : ℕ
  deriving DecidableEq, Inhabited

structure TaskState where
  table : Fin 8 → TaskEntry
  current : ℕ

def TaskState.setEntry (s : TaskState) (i : Fin 8) (entry : TaskEntry) : TaskState :=
  { s with table := Function.update s.table i entry }

def taskInit (s : TaskState) : TaskState :=
  { table := fun i => { s.table i with active := false }, current := 0 }

def taskCreate (s : TaskState) (state : TaskRun) : TaskState × ℕ :=
  match firstSlot fun i => !(s.table i).active with
  | some i => (s.setEntry i ⟨true, i + 1, state, .none, 0⟩, i + 1)
  | none => (s, 0)

/-- The place of a task id that the table has. -/
def taskSlot (taskId : ℕ) : Option (Fin 8) :=
  if h : taskId = 0 ∨ taskId > 8 then none else some ⟨taskId - 1, by omega⟩

/-- The current task, if it runs, goes back among the ready ones. -/
def yieldCurrent (s : TaskState) : TaskState :=
  match taskSlot s.current with
  | some c => if (s.table c).state = .running then s.setEntry c { s.table c with state := .ready } else s
  | none => s

def taskSetCurrent (s : TaskState) (taskId : ℕ) : TaskState × Bool :=
  match taskSlot taskId with
  | none => (s, false)
  | some i =>
    if !(s.table i).active ∨ ((s.table i).state ≠ .ready ∧ (s.table i).state ≠ .running) then (s, false)
    else
      let yielded := yieldCurrent s
      ({ yielded with current := taskId }.setEntry i { yielded.table i with state := .running }, true)

def taskBlock (s : TaskState) (taskId : ℕ) (kind : WaitKind) (objectId : ℕ) : TaskState × Bool :=
  match taskSlot taskId with
  | none => (s, false)
  | some i =>
    if !(s.table i).active ∨ kind = .none ∨ objectId = 0 then (s, false)
    else
      (s.setEntry i { s.table i with state := .blocked, waitKind := kind, waitObject := objectId }, true)

def taskStop (s : TaskState) (taskId : ℕ) : TaskState × Bool :=
  match taskSlot taskId with
  | none => (s, false)
  | some i =>
    if !(s.table i).active then (s, false)
    else
      (s.setEntry i { s.table i with state := .stopped, waitKind := .none, waitObject := 0 }, true)

/-- The id of the task that was woken, if one waited. -/
def taskWakeOne (s : TaskState) (kind : WaitKind) (objectId : ℕ) : TaskState × Option ℕ :=
  match firstSlot fun i => (s.table i).active && (s.table i).state = .blocked &&
      (s.table i).waitKind = kind && (s.table i).waitObject = objectId with
  | some i =>
    (s.setEntry i { s.table i with state := .ready, waitKind := .none, waitObject := 0 },
      some (s.table i).id)
  | none => (s, none)

/-- Only the current task runs, and exactly the blocked tasks wait for something. -/
structure TaskState.Ok (s : TaskState) : Prop where
  running : ∀ i, (s.table i).active = true → (s.table i).state = .running → s.current = i.val + 1
  blocked : ∀ i, (s.table i).active = true →
    ((s.table i).state = .blocked ↔ (s.table i).waitKind ≠ .none ∧ (s.table i).waitObject ≠ 0)

variable {s : TaskState} {i : Fin 8} {taskId : ℕ}

theorem taskSlot_eq_some (h : taskSlot taskId = some i) : taskId = i.val + 1 := by
  unfold taskSlot at h
  split at h
  · cases h
  · obtain rfl := Option.some.inj h
    simp only
    omega

theorem taskSlot_succ (i : Fin 8) : taskSlot (i.val + 1) = some i := by
  unfold taskSlot
  rw [dif_neg (by omega)]
  rfl

@[simp] theorem setEntry_self {entry : TaskEntry} : (s.setEntry i entry).table i = entry := by
  simp [TaskState.setEntry]

theorem setEntry_of_ne {entry : TaskEntry} {j : Fin 8} (h : j ≠ i) :
    (s.setEntry i entry).table j = s.table j := by
  simp [TaskState.setEntry, h]

@[simp] theorem setEntry_current {entry : TaskEntry} : (s.setEntry i entry).current = s.current := rfl

theorem ok_taskInit (s : TaskState) : (taskInit s).Ok := by
  constructor
  · intro i ha
    cases ha
  · intro i ha
    cases ha

/-- Replacing one entry by one that does not run keeps the table in order. -/
theorem ok_setEntry {entry : TaskEntry} (hs : s.Ok) (hr : entry.state ≠ .running)
    (hb : entry.active = true →
      (entry.state = .blocked ↔ entry.waitKind ≠ .none ∧ entry.waitObject ≠ 0)) :
    (s.setEntry i entry).Ok := by
  constructor
  · intro j
    by_cases hj : j = i
    · subst j
      rw [setEntry_self]
      intro _ hrun
      exact absurd hrun hr
    · rw [setEntry_of_ne hj]
      exact hs.running j
  · intro j
    by_cases hj : j = i
    · subst j
      rw [setEntry_self]
      exact hb
    · rw [setEntry_of_ne hj]
      exact hs.blocked j

theorem ok_taskCreate (hs : s.Ok) : (taskCreate s .ready).1.Ok := by
  unfold taskCreate
  split
  · exact ok_setEntry hs (by simp) (by simp)
  · exact hs

theorem ok_taskBlock {kind : WaitKind} {objectId : ℕ} (hs : s.Ok) :
    (taskBlock s taskId kind objectId).1.Ok := by
  unfold taskBlock
  split
  · exact hs
  · split
    · exact hs
    · rename_i hguard
      rw [not_or, not_or] at hguard
      apply ok_setEntry hs
      · simp
      · simp [hguard.2.1, hguard.2.2]

theorem ok_taskStop (hs : s.Ok) : (taskStop s taskId).1.Ok := by
  unfold taskStop
  split
  · exact hs
  · split
    · exact hs
    · exact ok_setEntry hs (by simp) (by simp)

theorem ok_taskWakeOne {kind : WaitKind} {objectId : ℕ} (hs : s.Ok) :
    (taskWakeOne s kind objectId).1.Ok := by
  unfold taskWakeOne
  split
  · exact ok_setEntry hs (by simp) (by simp)
  · exact hs

/-- After the current task was put back nobody runs. -/
theorem ok_yieldCurrent (hs : s.Ok) : (yieldCurrent s).Ok ∧
    (∀ i, ((yieldCurrent s).table i).active = true → ((yieldCurrent s).table i).state ≠ .running) ∧
    ∀ i, ((yieldCurrent s).table i).active = (s.table i).active ∧
      ((s.table i).state ≠ .blocked → ((yieldCurrent s).table i).state ≠ .blocked) := by
  unfold yieldCurrent
  cases hc : taskSlot s.current with
  | none =>
    refine ⟨hs, fun i ha hr => ?_, fun i => ⟨rfl, id⟩⟩
    rw [hs.running i ha hr, taskSlot_succ] at hc
    cases hc
  | some c =>
    have hcurrent := taskSlot_eq_some hc
    have hother : ∀ i, i ≠ c → (s.table i).active = true → (s.table i).state ≠ .running := by
      intro i hi ha hr
      have hrun := hs.running i ha hr
      exact hi (Fin.ext (by omega))
    by_cases hr : (s.table c).state = .running
    · simp only [if_pos hr]
      refine ⟨?_, fun i => ?_, fun i => ?_⟩
      · apply ok_setEntry hs
        · simp
        · intro ha
          have hwait := hs.blocked c ha
          simpa [hr] using hwait
      · by_cases hi : i = c
        · subst i
          simp
        · rw [setEntry_of_ne hi]
          exact hother i hi
      · by_cases hi : i = c
        · subst i
          simp
        · rw [setEntry_of_ne hi]
          exact ⟨rfl, id⟩
    · simp only [if_neg hr]
      refine ⟨hs, fun i ha => ?_, fun i => ⟨trivial, id⟩⟩
      by_cases hi : i = c
      · subst i
        exact hr
      · exact hother i hi ha

theorem ok_taskSetCurrent (hs : s.Ok) : (taskSetCurrent s taskId).1.Ok := by
  unfold taskSetCurrent
  split
  · exact hs
  · rename_i i hi
    split
    · exact hs
    · rename_i hguard
      obtain ⟨hyielded, hidle, hkeep⟩ := ok_yieldCurrent hs
      have hid := taskSlot_eq_some hi
      have hnotBlocked : (s.table i).state ≠ .blocked := by
        rintro hb
        simp [hb] at hguard
      constructor
      · intro j ha hr
        by_cases hj : j = i
        · subst j
          exact hid
        · rw [setEntry_of_ne hj] at ha hr
          exact absurd hr (hidle j ha)
      · intro j ha
        by_cases hj : j = i
        · subst j
          rw [setEntry_self] at ha ⊢
          have hwait := hyielded.blocked i ha
          simpa [(hkeep i).2 hnotBlocked] using hwait
        · rw [setEntry_of_ne hj] at ha ⊢
          exact hyielded.blocked j ha

end Raveil.Kernel
