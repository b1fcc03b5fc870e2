import Mathlib.Data.Prod.Lex
import Mathlib.Data.Rat.Defs
import Mathlib.Order.Fin.Basic
import Raveil.Lib.Best
import Raveil.Lib.Dict

/-! The experience store: an append-only log and the bounded index that is kept of it in memory. The type `F`
stands for the source's floats. -/
namespace Raveil.Experience

structure Hardware where
  name : String
  lanes : ℤ
  localMemoryKib : ℤ
  externalBytesPerCycle : ℤ
  deriving DecidableEq

structure Context where
  workload : String
  shape : ℤ
  memoryBudgetKib : ℤ
  hardware : Hardware
  shape_pos : 0 < shape
  memoryBudgetKib_pos : 0 < memoryBudgetKib
  deriving DecidableEq

structure Candidate (F : Type) where
  candidateId : String
  vectorWidth : ℤ
  tileLength : ℤ
  memoryPolicy : String
  coldPrior : F
  deriving DecidableEq

structure Metrics (F : Type) where
  cycles : ℤ
  peakMemoryKib : F
  externalBytes : ℤ
  energyUnits : F
  valid : Bool
  reason : String
  deriving DecidableEq

/-- What one call of `append` is given. -/
structure Evidence (F : Type) where
  context : Context
  candidate : Candidate F
  metrics : Metrics F
  baselineCycles : ℤ
  deriving DecidableEq

structure ExperienceRecord (F : Type) extends Evidence F where
  sequence : ℕ
  samples : ℕ := 1
  deriving DecidableEq

structure ExactKey where
  workload : String
  shape : ℤ
  memoryBudgetKib : ℤ
  hardwareName : String
  candidateId : String
  valid : Bool
  deriving DecidableEq

def Evidence.exactKey {F : Type} (e : Evidence F) : ExactKey where
  workload := e.context.workload
  shape := e.context.shape
  memoryBudgetKib := e.context.memoryBudgetKib
  hardwareName := e.context.hardware.name
  candidateId := e.candidate.candidateId
  valid := e.metrics.valid

/-- Float arithmetic, and the hash of a record as a fraction of one. -/
structure Arithmetic (F : Type) where
  infinity : F
  literal : ℚ → F
  ofInt : ℤ → F
  add : F → F → F
  mul : F → F → F
  div : F → F → F
  /-- The true division of two integers. -/
  quotient : ℤ → ℤ → F
  round : F → ℤ
  absLog2 : F → F
  jitter : ExperienceRecord F → F

/-- A line of the log: what is written for a record, and what is read back from it. -/
structure Codec (F L : Type) where
  /-- `none` when a value of the record is not JSON. -/
  dumps : ExperienceRecord F → Option L
  loads : L → Except String (ExperienceRecord F)
  blank : L → Bool

/-- Records survive the round trip through a line unchanged. -/
def Codec.Faithful {F L : Type} (codec : Codec F L) : Prop :=
  ∀ record line, codec.dumps record = some line → codec.loads line = .ok record ∧ codec.blank line = false

section Arithmetic

variable {F : Type} [LinearOrder F] (A : Arithmetic F)

def Context.distance (c other : Context) : F :=
  let workload := if c.workload = other.workload then A.literal 0 else A.literal 8
  let hardware := if c.hardware.name = other.hardware.name then A.literal 0 else A.literal 4
  let lanes := A.absLog2 (A.quotient c.hardware.lanes other.hardware.lanes)
  let shape := A.absLog2 (A.quotient c.shape other.shape)
  let memory := A.absLog2 (A.quotient c.memoryBudgetKib other.memoryBudgetKib)
  A.add (A.add (A.add (A.add workload hardware) lanes) shape) (A.mul (A.literal (3 / 4)) memory)

def ExperienceRecord.relativeCycles (record : ExperienceRecord F) : F :=
  if record.metrics.valid then A.quotient record.metrics.cycles (max 1 record.baselineCycles) else A.infinity

/-- `_retention_score`, compared from left to right. -/
def ExperienceRecord.retentionScore (record : ExperienceRecord F) : F ×ₗ F ×ₗ ℕ :=
  let tail :=
    if record.metrics.valid then
      let tail := A.absLog2 (max (record.relativeCycles A) (A.literal (1 / 10 ^ 9)))
      if A.literal 1 < record.relativeCycles A then A.add tail (A.literal 1) else tail
    else A.literal 8
  toLex (tail, toLex (A.jitter record, record.sequence))

/-- The mean of two integers, weighed by their numbers of samples. -/
def weightedMean (a : ℤ) (n : ℕ) (b : ℤ) (m : ℕ) : ℤ :=
  A.round (A.quotient (a * n + b * m) (n + m))

/-- Two records of one key: the later one, with the means of both. -/
def ExperienceRecord.merge (previous record : ExperienceRecord F) : ExperienceRecord F :=
  let total := previous.samples + record.samples
  let metrics :=
    if previous.metrics.valid && record.metrics.valid then
      { record.metrics with
        cycles := weightedMean A previous.metrics.cycles previous.samples record.metrics.cycles record.samples
        energyUnits := A.div
          (A.add (A.mul previous.metrics.energyUnits (A.ofInt previous.samples))
            (A.mul record.metrics.energyUnits (A.ofInt record.samples)))
          (A.ofInt total) }
    else record.metrics
  { record with
    metrics := metrics
    baselineCycles := weightedMean A previous.baselineCycles previous.samples record.baselineCycles record.samples
    samples := total }

/-- One round of the merging loop on the dictionary's entries. -/
def mergeInto (merged : List (ExactKey × ExperienceRecord F)) (record : ExperienceRecord F) :
    List (ExactKey × ExperienceRecord F) :=
  match merged.lookup record.exactKey with
  | none => Lib.assign record.exactKey record merged
  | some previous => Lib.assign record.exactKey (previous.merge A record) merged

def mergeAll (active : List (ExperienceRecord F)) : List (ExperienceRecord F) :=
  (active.foldl (mergeInto A) []).map Prod.snd

/-- The order of the sort by retention score, the greatest score first. -/
def Retained (a b : ExperienceRecord F) : Prop := b.retentionScore A ≤ a.retentionScore A

instance : DecidableRel (Retained A) := fun a b =>
  inferInstanceAs (Decidable (b.retentionScore A ≤ a.retentionScore A))

/-- `_consolidate`, as what the index becomes. -/
def consolidate (activeLimit : ℕ) (active : List (ExperienceRecord F)) : List (ExperienceRecord F) :=
  if active.length ≤ activeLimit then active
  else Lib.best (Retained A) activeLimit (mergeAll A active)

structure ExperienceStore (F : Type) where
  active : List (ExperienceRecord F) := []
  coldCount : ℕ := 0
  nextSequence : ℕ := 1
  deriving DecidableEq

/-- The slice `xs[:n]`. -/
def slice {α : Type} (xs : List α) (n : ℤ) : List α :=
  xs.take (if 0 ≤ n then n.toNat else (xs.length + n).toNat)

def ExperienceStore.nearest (store : ExperienceStore F) (context : Context) (candidateId : String)
    (limit : ℤ := 12) : List (F × ExperienceRecord F) :=
  let found := (store.active.filter fun record => record.candidate.candidateId = candidateId).map fun record =>
    (context.distance A record.context, record)
  let key : F × ExperienceRecord F → F ×ₗ ℤ := fun item => toLex (item.1, -(item.2.sequence : ℤ))
  slice (found.insertionSort fun a b => key a ≤ key b) limit

/-- The part of `append` before the log is opened. -/
def ExperienceStore.remember (activeLimit : ℕ) (store : ExperienceStore F) (e : Evidence F) :
    ExperienceRecord F × ExperienceStore F :=
  let record : ExperienceRecord F := { e with sequence := store.nextSequence }
  (record, {
    nextSequence := store.nextSequence + 1
    coldCount := store.coldCount + 1
    active := consolidate A activeLimit (store.active ++ [record]) })

/-- The part of `_load` that follows the checks of one record. -/
def ExperienceStore.recall (activeLimit : ℕ) (store : ExperienceStore F) (record : ExperienceRecord F) :
    ExperienceStore F :=
  let active := store.active ++ [record]
  { coldCount := store.coldCount + record.samples
    nextSequence := max store.nextSequence (record.sequence + 1)
    active := if activeLimit * 2 ≤ active.length then consolidate A activeLimit active else active }

variable {L : Type} (codec : Codec F L)

/-- The file at the store's path; `unbacked` is a store without a path. -/
inductive ColdLog (L : Type) where
  | unbacked
  | missing
  | lines (ls : List L)

structure Session (F L : Type) where
  store : ExperienceStore F
  log : ColdLog L

inductive AppendError where
  | unopened
  | notJson
  deriving DecidableEq

/-- The output part of `append`; opening a missing file creates it. -/
def writeRecord (opens : Bool) (record : ExperienceRecord F) (log : ColdLog L) : Except AppendError Unit × ColdLog L :=
  let write (ls : List L) : Except AppendError Unit × ColdLog L :=
    match codec.dumps record with
    | none => (.error .notJson, .lines ls)
    | some line => (.ok (), .lines (ls ++ [line]))
  match log with
  | .unbacked => (.ok (), .unbacked)
  | .missing => if opens then write [] else (.error .unopened, .missing)
  | .lines ls => if opens then write ls else (.error .unopened, .lines ls)

/-- `append`: the index in memory changes first, whatever becomes of the write. -/
def Session.append (activeLimit : ℕ) (opens : Bool) (s : Session F L) (e : Evidence F) :
    Except AppendError (ExperienceRecord F) × Session F L :=
  let (record, store) := s.store.remember A activeLimit e
  let (written, log) := writeRecord codec opens record s.log
  (written.map fun _ => record, { store, log })

structure Loading (F : Type) where
  expectedSequence : ℕ := 1
  store : ExperienceStore F := {}

/-- The loop body of `_load`, on a line and its number. -/
def loadLine (activeLimit : ℕ) (loading : Loading F) (line : L × ℕ) : Except String (Loading F) :=
  if codec.blank line.1 then .ok loading
  else match codec.loads line.1 with
    | .error error => .error s!"invalid Experience record at line {line.2}: {error}"
    | .ok record =>
      if record.sequence ≠ loading.expectedSequence then
        .error (s!"invalid Experience record at line {line.2}: " ++
          s!"expected sequence {loading.expectedSequence}, found {record.sequence}")
      else .ok {
        expectedSequence := loading.expectedSequence + 1
        store := loading.store.recall A activeLimit record }

/-- `_load`. -/
def load (activeLimit : ℕ) (ls : List L) : Except String (ExperienceStore F) :=
  match (ls.zipIdx 1).foldlM (loadLine A codec activeLimit) {} with
  | .error error => .error error
  | .ok loading =>
    .ok { loading.store with active := consolidate A activeLimit loading.store.active }

/-- The constructor: a new store on a path. -/
def openStore (activeLimit : ℕ) (log : ColdLog L) : Except String (ExperienceStore F) :=
  if activeLimit < 4 then .error "active_limit must be at least 4"
  else match log with
    | .lines ls => load A codec activeLimit ls
    | _ => .ok {}

/-- The sessions after some successful appends to a new store whose path has no records yet. -/
inductive Appends (activeLimit : ℕ) : List (Evidence F) → Session F L → Prop where
  | missing : Appends activeLimit [] { store := {}, log := .missing }
  | empty : Appends activeLimit [] { store := {}, log := .lines [] }
  | append {es : List (Evidence F)} {s s' : Session F L} {opens : Bool} {e : Evidence F}
      {record : ExperienceRecord F} (h : Appends activeLimit es s)
      (ha : s.append A codec activeLimit opens e = (.ok record, s')) : Appends activeLimit (es ++ [e]) s'

end Arithmetic

end Raveil.Experience
