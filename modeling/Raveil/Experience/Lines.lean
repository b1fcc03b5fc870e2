import Mathlib.Data.String.Basic
import Raveil.Experience.Store

/-! The lines of the experience log: `to_dict` and `from_dict` over JSON values, and the text between. -/
namespace Raveil.Experience

inductive JsonValue (F : Type) where
  | null
  | bool (b : Bool)
  | int (i : ℤ)
  | float (x : F)
  | str (s : String)
  | list (items : List (JsonValue F))
  | dict (fields : List (String × JsonValue F))

/-- The exceptions of `from_dict`. -/
inductive LoadError where
  | schema
  | missing (key : String)
  | unexpected
  | wrongType
  | wrongValue
  deriving DecidableEq

/-- The JSON module and the built-in conversion to `int`; `dumps` refuses floats that are not finite. -/
structure JsonText (F L : Type) where
  dumps : JsonValue F → Option L
  loads : L → Except String (JsonValue F)
  blank : L → Bool
  toInt : JsonValue F → Except LoadError ℤ
  describe : LoadError → String

/-- What the JSON module and `int` promise: a written line is not blank and reads back as it was. -/
structure JsonText.Documented {F L : Type} (json : JsonText F L) : Prop where
  loads : ∀ value line, json.dumps value = some line → json.loads line = .ok value
  blank : ∀ value line, json.dumps value = some line → json.blank line = false
  toInt : ∀ i, json.toInt (.int i) = .ok i

def SCHEMA : String := "raveil.experience/v0.0000000000001"

def version : String := "0.0000000000007"

section Dict

variable {F : Type}

def Hardware.toDict (h : Hardware) : JsonValue F := .dict [
  ("name", .str h.name),
  ("lanes", .int h.lanes),
  ("local_memory_kib", .int h.localMemoryKib),
  ("external_bytes_per_cycle", .int h.externalBytesPerCycle)]

def Context.toDict (c : Context) : JsonValue F := .dict [
  ("workload", .str c.workload),
  ("shape", .int c.shape),
  ("memory_budget_kib", .int c.memoryBudgetKib),
  ("hardware", c.hardware.toDict)]

def Candidate.toDict (c : Candidate F) : JsonValue F := .dict [
  ("candidate_id", .str c.candidateId),
  ("vector_width", .int c.vectorWidth),
  ("tile_length", .int c.tileLength),
  ("memory_policy", .str c.memoryPolicy),
  ("cold_prior", .float c.coldPrior)]

def Metrics.toDict (m : Metrics F) : JsonValue F := .dict [
  ("cycles", .int m.cycles),
  ("peak_memory_kib", .float m.peakMemoryKib),
  ("external_bytes", .int m.externalBytes),
  ("energy_units", .float m.energyUnits),
  ("valid", .bool m.valid),
  ("reason", .str m.reason)]

def ExperienceRecord.toDict (record : ExperienceRecord F) : JsonValue F := .dict [
  ("schema", .str SCHEMA),
  ("raveil_version", .str version),
  ("sequence", .int record.sequence),
  ("samples", .int record.samples),
  ("context", record.context.toDict),
  ("candidate", record.candidate.toDict),
  ("metrics", record.metrics.toDict),
  ("baseline_cycles", .int record.baselineCycles)]

abbrev Load := Except LoadError

/-- `value[key]`. -/
def subscript (fields : List (String × JsonValue F)) (key : String) : Load (JsonValue F) :=
  match fields.lookup key with
  | some value => .ok value
  | none => .error (.missing key)

/-- A value that is used as a dictionary. -/
def asDict : JsonValue F → Load (List (String × JsonValue F))
  | .dict fields => .ok fields
  | _ => .error .wrongType

/-- The keyword arguments of a data class, without and with a default. Values of other types than the annotated
ones, which Python would keep as they are, are refused here. -/
def argument {α : Type} (read : JsonValue F → Load α) (fields : List (String × JsonValue F)) (key : String) :
    Load α :=
  match fields.lookup key with
  | some value => read value
  | none => .error .wrongType

def argumentOr {α : Type} (read : JsonValue F → Load α) (fields : List (String × JsonValue F)) (key : String)
    (default : α) : Load α :=
  match fields.lookup key with
  | some value => read value
  | none => .ok default

/-- `cls(**value)` takes no other keywords than the fields. -/
def onlyFields (names : List String) (fields : List (String × JsonValue F)) : Load Unit :=
  if fields.all fun field => names.contains field.1 then .ok () else .error .unexpected

def readStr : JsonValue F → Load String
  | .str s => .ok s
  | _ => .error .wrongType

def readInt : JsonValue F → Load ℤ
  | .int i => .ok i
  | _ => .error .wrongType

def readFloat : JsonValue F → Load F
  | .float x => .ok x
  | _ => .error .wrongType

def readBool : JsonValue F → Load Bool
  | .bool b => .ok b
  | _ => .error .wrongType

/-- A count, which the store never writes below zero. -/
def asNat (i : ℤ) : Load ℕ := if 0 ≤ i then .ok i.toNat else .error .wrongValue

def Hardware.fromDict (value : JsonValue F) : Load Hardware := do
  let fields ← asDict value
  onlyFields ["name", "lanes", "local_memory_kib", "external_bytes_per_cycle"] fields
  return {
    name := ← argumentOr readStr fields "name" "toy-daphnis-v1"
    lanes := ← argumentOr readInt fields "lanes" 16
    localMemoryKib := ← argumentOr readInt fields "local_memory_kib" 64
    externalBytesPerCycle := ← argumentOr readInt fields "external_bytes_per_cycle" 32 }

def Candidate.fromDict (value : JsonValue F) : Load (Candidate F) := do
  let fields ← asDict value
  onlyFields ["candidate_id", "vector_width", "tile_length", "memory_policy", "cold_prior"] fields
  return {
    candidateId := ← argument readStr fields "candidate_id"
    vectorWidth := ← argument readInt fields "vector_width"
    tileLength := ← argument readInt fields "tile_length"
    memoryPolicy := ← argument readStr fields "memory_policy"
    coldPrior := ← argument readFloat fields "cold_prior" }

def Metrics.fromDict (value : JsonValue F) : Load (Metrics F) := do
  let fields ← asDict value
  onlyFields ["cycles", "peak_memory_kib", "external_bytes", "energy_units", "valid", "reason"] fields
  return {
    cycles := ← argument readInt fields "cycles"
    peakMemoryKib := ← argument readFloat fields "peak_memory_kib"
    externalBytes := ← argument readInt fields "external_bytes"
    energyUnits := ← argument readFloat fields "energy_units"
    valid := ← argument readBool fields "valid"
    reason := ← argumentOr readStr fields "reason" "" }

variable {L : Type} (json : JsonText F L)

/-- `Context(...)` with its check of positive sizes. -/
def mkContext (workload : String) (shape memoryBudgetKib : ℤ) (hardware : Hardware) : Load Context :=
  if hs : 0 < shape then
    if hm : 0 < memoryBudgetKib then .ok ⟨workload, shape, memoryBudgetKib, hardware, hs, hm⟩
    else .error .wrongValue
  else .error .wrongValue

def Context.fromDict (value : JsonValue F) : Load Context := do
  let fields ← asDict value
  let workload ← readStr (← subscript fields "workload")
  let shape ← json.toInt (← subscript fields "shape")
  let memoryBudgetKib ← json.toInt (← subscript fields "memory_budget_kib")
  let hardware ← Hardware.fromDict (← subscript fields "hardware")
  mkContext workload shape memoryBudgetKib hardware

def checkSchema (fields : List (String × JsonValue F)) : Load Unit :=
  match fields.lookup "schema" with
  | some (.str schema) => if schema = SCHEMA then .ok () else .error .schema
  | _ => .error .schema

def readSamples (fields : List (String × JsonValue F)) : Load ℤ :=
  match fields.lookup "samples" with
  | some value => json.toInt value
  | none => json.toInt (.int 1)

def ExperienceRecord.fromDict (value : JsonValue F) : Load (ExperienceRecord F) := do
  let fields ← asDict value
  checkSchema fields
  let sequence ← asNat (← json.toInt (← subscript fields "sequence"))
  let samples ← asNat (← readSamples json fields)
  let context ← Context.fromDict json (← subscript fields "context")
  let candidate ← Candidate.fromDict (← subscript fields "candidate")
  let metrics ← Metrics.fromDict (← subscript fields "metrics")
  let baselineCycles ← json.toInt (← subscript fields "baseline_cycles")
  return { context, candidate, metrics, baselineCycles, sequence, samples }

/-- A record and its line. -/
def codecOf : Codec F L where
  dumps record := json.dumps record.toDict
  loads line :=
    match json.loads line with
    | .error error => .error error
    | .ok value =>
      match ExperienceRecord.fromDict json value with
      | .error error => .error (json.describe error)
      | .ok record => .ok record
  blank := json.blank

variable {json}

theorem hardware_fromDict (h : Hardware) : Hardware.fromDict (F := F) h.toDict = .ok h := by
  simp [Hardware.fromDict, Hardware.toDict, asDict, onlyFields, argumentOr, readStr, readInt, List.lookup_cons, pure,
    bind, Except.bind, Except.pure]

theorem candidate_fromDict (c : Candidate F) : Candidate.fromDict c.toDict = .ok c := by
  simp [Candidate.fromDict, Candidate.toDict, asDict, onlyFields, argument, readStr, readInt, readFloat,
    List.lookup_cons, pure, bind, Except.bind, Except.pure]

theorem metrics_fromDict (m : Metrics F) : Metrics.fromDict m.toDict = .ok m := by
  simp [Metrics.fromDict, Metrics.toDict, asDict, onlyFields, argument, argumentOr, readStr, readInt, readFloat,
    readBool, List.lookup_cons, pure, bind, Except.bind, Except.pure]

theorem mkContext_self (c : Context) : mkContext c.workload c.shape c.memoryBudgetKib c.hardware = .ok c := by
  rw [mkContext, dif_pos c.shape_pos, dif_pos c.memoryBudgetKib_pos]

theorem context_fromDict (hjson : json.Documented) (c : Context) : Context.fromDict json c.toDict = .ok c := by
  have hhardware : Hardware.fromDict (F := F) c.hardware.toDict = .ok c.hardware := hardware_fromDict c.hardware
  simp [Context.fromDict, Context.toDict, asDict, subscript, readStr, List.lookup_cons, bind, Except.bind,
    hjson.toInt, hhardware, mkContext_self]

theorem asNat_natCast (n : ℕ) : asNat (n : ℤ) = .ok n := by
  simp [asNat]

/-- What `to_dict` makes of a record, `from_dict` takes back. -/
theorem record_fromDict (hjson : json.Documented) (record : ExperienceRecord F) :
    ExperienceRecord.fromDict json record.toDict = .ok record := by
  simp [ExperienceRecord.fromDict, ExperienceRecord.toDict, asDict, checkSchema, subscript, readSamples,
    List.lookup_cons, bind, Except.bind, pure, Except.pure, hjson.toInt, asNat_natCast, context_fromDict hjson,
    candidate_fromDict, metrics_fromDict]

/-- Every line that is written reads back as the record it was written for. -/
theorem faithful_codecOf (hjson : json.Documented) : (codecOf json).Faithful := by
  intro record line hdumps
  refine ⟨?_, hjson.blank _ line hdumps⟩
  simp only [codecOf, hjson.loads _ line hdumps, record_fromDict hjson]

end Dict

end Raveil.Experience
