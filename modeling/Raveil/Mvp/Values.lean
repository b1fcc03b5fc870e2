import Raveil.Telemetry.FailedIngest

/-! Python values as `asdict` writes them and `from_dict` reads them, and the identities of values. -/
namespace Raveil.Mvp

open Lib

inductive PyValue (F : Type) where
  | none
  | bool (b : Bool)
  | int (i : ℤ)
  | float (x : F)
  | str (s : String)
  | list (items : List (PyValue F))
  | tuple (items : List (PyValue F))
  | dict (fields : List (String × PyValue F))

abbrev Fields (F : Type) : Type := List (String × PyValue F)

/-- The exceptions the readers raise, with their texts. -/
inductive PyError where
  | valueError (message : String)
  | typeError (message : String)
  | overflowError (message : String)
  | indexError (message : String)
  | stopIteration
  deriving DecidableEq

/-- `except (TypeError, ValueError) as error: raise ValueError(f"{note}: {error}") from error`. -/
def PyError.wrap (note : String) : PyError → PyError
  | valueError message => .valueError (note ++ ": " ++ message)
  | typeError message => .valueError (note ++ ": " ++ message)
  | error => error

def wrapping {α : Type} (note : String) (x : Except PyError α) : Except PyError α :=
  match x with
  | .ok a => .ok a
  | .error error => .error (error.wrap note)

@[simp] theorem wrapping_ok {α : Type} (note : String) (a : α) : wrapping note (.ok a) = .ok a := rfl

section Checks

variable {α : Type} {p : Prop} [Decidable p] {message : String} {x : Except PyError Unit}

/-- `if not p: raise ValueError(message)`; what follows may use that `p` holds. -/
def ensure (p : Prop) [Decidable p] (message : String) : Except PyError (PLift p) :=
  if h : p then .ok ⟨h⟩ else .error (.valueError message)

theorem ensure_of (h : p) : ensure p message = .ok ⟨h⟩ := dif_pos h

/-- A check made by another function. -/
def checked (x : Except PyError Unit) : Except PyError (PLift (x = .ok ())) :=
  match x with
  | .ok () => .ok ⟨rfl⟩
  | .error error => .error error

theorem checked_of (h : x = .ok ()) : checked x = .ok ⟨h⟩ := by
  subst h
  rfl

end Checks

section Readers

variable {F : Type}

/-- `value[key]`, for a key that is there. -/
def item (value : Fields F) (key : String) : PyValue F := (value.lookup key).getD .none

/-- `_require_exact_keys`. -/
def requireExactKeys (value : Fields F) (expected : List String) (kind : String) : Except PyError Unit :=
  require ((∀ field ∈ value, field.1 ∈ expected) ∧ ∀ key ∈ expected, key ∈ value.map Prod.fst)
    (.valueError (kind ++ " fields do not match schema"))

def readStr (message : String) : PyValue F → Except PyError String
  | .str s => .ok s
  | _ => .error (.valueError message)

def readInt (message : String) : PyValue F → Except PyError ℤ
  | .int i => .ok i
  | _ => .error (.valueError message)

def readBool (message : String) : PyValue F → Except PyError Bool
  | .bool b => .ok b
  | _ => .error (.valueError message)

def readDict (message : String) : PyValue F → Except PyError (Fields F)
  | .dict fields => .ok fields
  | _ => .error (.valueError message)

/-- `type(value) in {list, tuple}`. -/
def readArray (message : String) : PyValue F → Except PyError (List (PyValue F))
  | .list items => .ok items
  | .tuple items => .ok items
  | _ => .error (.valueError message)

/-- A text or `None`. -/
def readOptionalStr (message : String) : PyValue F → Except PyError (Option String)
  | .none => .ok none
  | .str s => .ok (some s)
  | _ => .error (.valueError message)

def ofOptionalStr : Option String → PyValue F
  | none => .none
  | some s => .str s

def ofOptionalInt : Option ℤ → PyValue F
  | none => .none
  | some i => .int i

/-- The items that are dictionaries. -/
def dicts (items : List (PyValue F)) : List (Fields F) :=
  items.filterMap fun value => match value with
    | .dict fields => some fields
    | _ => none

variable {message : String}

@[simp] theorem readStr_str (s : String) : readStr (F := F) message (.str s) = .ok s := rfl

@[simp] theorem readInt_int (i : ℤ) : readInt (F := F) message (.int i) = .ok i := rfl

@[simp] theorem readBool_bool (b : Bool) : readBool (F := F) message (.bool b) = .ok b := rfl

@[simp] theorem readDict_dict (fields : Fields F) : readDict message (.dict fields) = .ok fields := rfl

@[simp] theorem readArray_tuple (items : List (PyValue F)) : readArray message (.tuple items) = .ok items := rfl

@[simp] theorem readOptionalStr_of (s : Option String) :
    readOptionalStr (F := F) message (ofOptionalStr s) = .ok s := by
  cases s <;> rfl

@[simp] theorem dicts_map_dict {α : Type} (l : List α) (f : α → Fields F) :
    dicts (l.map fun a => .dict (f a)) = l.map f := by
  induction l with
  | nil => rfl
  | cons a l ih =>
    simp only [dicts, List.map_cons, List.filterMap_cons] at ih ⊢
    rw [ih]

end Readers

section Identities

/-- A value without floats, as the JSON encoder sees it. -/
def PyValue.toJson : PyValue Empty → Command.Json
  | none => .null
  | bool b => .bool b
  | int i => .int i
  | str s => .str s
  | list items => .list (items.map fun value => value.toJson)
  | tuple items => .list (items.map fun value => value.toJson)
  | dict fields => .dict (fields.map fun field => (field.1, field.2.toJson))
termination_by value => sizeOf value
decreasing_by
  · have := List.sizeOf_lt_of_mem ‹_›
    simp only [PyValue.list.sizeOf_spec]
    omega
  · have := List.sizeOf_lt_of_mem ‹_›
    simp only [PyValue.tuple.sizeOf_spec]
    omega
  · have h := List.sizeOf_lt_of_mem ‹_›
    have hsize : sizeOf field = 1 + sizeOf field.1 + sizeOf field.2 := by cases field; rfl
    simp only [PyValue.dict.sizeOf_spec]
    omega

/-- A text that `_valid_identity` accepts. -/
structure Identity where
  text : String
  valid : Telemetry.isDigest text = true
  deriving DecidableEq

/-- `_identity`. -/
def identityOf (value : PyValue Empty) : Identity where
  text := Command.hexdigest (Command.canonical value.toJson)
  valid := Telemetry.isDigest_hexdigest _

/-- A value that `_valid_identity` accepts. -/
def readIdentity {F : Type} (message : String) (value : PyValue F) : Except PyError Identity := do
  let text ← readStr message value
  let ⟨valid⟩ ← ensure (Telemetry.isDigest text = true) message
  return ⟨text, valid⟩

@[simp] theorem readIdentity_text {F : Type} {message : String} (i : Identity) :
    readIdentity (F := F) message (.str i.text) = .ok i := by
  simp [readIdentity, ensure_of i.valid, bind, Except.bind, pure, Except.pure]

end Identities

end Raveil.Mvp
