import Raveil.Authority.Contract

/-! The capability table. -/
namespace Raveil.Authority

def CAP_OBJECT_CONSOLE : ℕ := 4
def CAP_OBJECT_FILESYSTEM : ℕ := 6
def CAP_OBJECT_PROGRAM_AUTHORITY : ℕ := 7
def CAP_OBJECT_GRAPH_AUTHORITY : ℕ := 8
def CAP_OBJECT_DATA_AUTHORITY : ℕ := 9
def CAP_OBJECT_EXPERIENCE_AUTHORITY : ℕ := 10
def CAP_OBJECT_DEMO_AUTHORITY : ℕ := 11

def CAP_RIGHT_READ : ℕ := 1
def CAP_RIGHT_WRITE : ℕ := 2
def CAP_RIGHT_SEND : ℕ := 4
def CAP_RIGHT_RECEIVE : ℕ := 8
def CAP_RIGHT_CONTROL : ℕ := 16

structure CapView where
  ownerTask : ℕ
  objectType : ℕ
  objectId : ℕ
  rights : ℕ
  deriving DecidableEq, Inhabited

structure CapEntry where
  active : Bool
  retired : Bool
  generation : ℕ
  view : CapView
  deriving Inhabited

abbrev CapTable := Fin 64 → CapEntry

/-- The first index of a table at which `p` holds. -/
def firstSlot {n : ℕ} (p : Fin n → Bool) : Option (Fin n) := (List.finRange n).find? p

theorem firstSlot_eq_some {n : ℕ} {p : Fin n → Bool} {i : Fin n} (h : firstSlot p = some i) :
    p i = true :=
  List.find?_some h

theorem firstSlot_eq_none {n : ℕ} {p : Fin n → Bool} : firstSlot p = none ↔ ∀ i, p i = false := by
  simp [firstSlot]

/-- Where the predicate holds at one index only, that index is found. -/
theorem firstSlot_eq_some_of_unique {n : ℕ} {p : Fin n → Bool} {i : Fin n} (hi : p i = true)
    (hu : ∀ j, p j = true → j = i) : firstSlot p = some i := by
  cases h : firstSlot p with
  | none => simp [firstSlot_eq_none.mp h i] at hi
  | some j => rw [hu j (firstSlot_eq_some h)]

def makeHandle (slot : Fin 64) (generation : ℕ) : ℕ := (generation <<< 16) ||| (slot + 1)

def decodeHandle (handle : ℕ) : Option (Fin 64 × ℕ) :=
  let encodedSlot := handle &&& 0xffff
  if h : encodedSlot = 0 ∨ encodedSlot > 64 then none
  else some (⟨encodedSlot - 1, by omega⟩, (handle >>> 16) % 2 ^ 16)

def capInit (table : CapTable) : CapTable := fun i =>
  { table i with active := false, retired := false, generation := 1 }

/-- The argument checks of `cap_create`. -/
def capAllowed (ownerTask objectType objectId rights : ℕ) : Bool :=
  let without (mask : ℕ) := rights &&& (2 ^ 32 - 1 - mask)
  let allRights := CAP_RIGHT_READ ||| CAP_RIGHT_WRITE ||| CAP_RIGHT_SEND ||| CAP_RIGHT_RECEIVE |||
    CAP_RIGHT_CONTROL
  !(ownerTask = 0 ∨ objectType = 0 ∨ objectType > CAP_OBJECT_DEMO_AUTHORITY ∨ objectId = 0 ∨
      rights = 0 ∨ without allRights ≠ 0) &&
  !(objectType = CAP_OBJECT_FILESYSTEM ∧ without (CAP_RIGHT_READ ||| CAP_RIGHT_WRITE) ≠ 0) &&
  !((objectType = CAP_OBJECT_PROGRAM_AUTHORITY ∨ objectType = CAP_OBJECT_GRAPH_AUTHORITY) ∧
      rights ≠ CAP_RIGHT_CONTROL) &&
  !((objectType = CAP_OBJECT_DATA_AUTHORITY ∨ objectType = CAP_OBJECT_EXPERIENCE_AUTHORITY) ∧
      without (CAP_RIGHT_WRITE ||| CAP_RIGHT_CONTROL) ≠ 0) &&
  !(objectType = CAP_OBJECT_DEMO_AUTHORITY ∧ rights ≠ CAP_RIGHT_CONTROL)

def capCreate (table : CapTable) (ownerTask objectType objectId rights : ℕ) : CapTable × ℕ :=
  if capAllowed ownerTask objectType objectId rights then
    match firstSlot fun i => !(table i).active && !(table i).retired with
    | some i =>
      (Function.update table i
        { table i with active := true, view := ⟨ownerTask, objectType, objectId, rights⟩ },
        makeHandle i (table i).generation)
    | none => (table, 0)
  else (table, 0)

def capDelegate (table : CapTable) (sourceOwner source targetOwner rights : ℕ) : CapTable × ℕ :=
  if targetOwner = 0 ∨ rights = 0 ∨ rights &&& CAP_RIGHT_CONTROL ≠ 0 then (table, 0)
  else match decodeHandle source with
    | none => (table, 0)
    | some (slot, generation) =>
      let entry := table slot
      if !entry.active ∨ entry.generation ≠ generation ∨ entry.view.ownerTask ≠ sourceOwner ∨
          entry.view.rights &&& CAP_RIGHT_CONTROL = 0 ∨ entry.view.rights &&& rights ≠ rights then
        (table, 0)
      else capCreate table targetOwner entry.view.objectType entry.view.objectId rights

def capResolve (table : CapTable) (ownerTask handle requiredType requiredRights : ℕ) :
    Option CapView :=
  match decodeHandle handle with
  | none => none
  | some (slot, generation) =>
    let entry := table slot
    if !entry.active ∨ entry.generation ≠ generation ∨ entry.view.ownerTask ≠ ownerTask ∨
        entry.view.objectType ≠ requiredType ∨
        entry.view.rights &&& requiredRights ≠ requiredRights then none
    else some entry.view

def capRevoke (table : CapTable) (handle : ℕ) : CapTable × Bool :=
  match decodeHandle handle with
  | none => (table, false)
  | some (slot, generation) =>
    let entry := table slot
    if !entry.active ∨ entry.generation ≠ generation then (table, false)
    else if entry.generation = 2 ^ 16 - 1 then
      (Function.update table slot { entry with active := false, retired := true }, true)
    else
      (Function.update table slot { entry with active := false, generation := entry.generation + 1 },
        true)

end Raveil.Authority
