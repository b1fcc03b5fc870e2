import Raveil.Command.Text
import Raveil.Telemetry.Frame

/-! The completion telemetry journal: its records, the loader and the ingestion of a log. -/
namespace Raveil.Telemetry
open Raveil.Lib Raveil.Authority
open Raveil.Command (Json canonical encode)

def SCHEMA : String := "raveil.completion-telemetry/v1"
def SOURCE : String := "sonatine-qemu"
def BACKEND : String := "qemu-telemetry"
def EVIDENCE_CLASS : String := "emulation"
def PLATFORM : String := "qemu-virt-rv64-v1"
def ZERO_HASH : String := "0000000000000000000000000000000000000000000000000000000000000000"

/-- What the journal uses of Python's library: `str.isalnum` of a character, whether
`datetime.fromisoformat` accepts a text, `json.loads` with the pairs of every object in their order, and
the hexadecimal SHA-256 digest. -/
structure Library where
  isalnum : Char → Bool
  fromisoformat : String → Bool
  loads : List UInt8 → Except String Json
  sha256 : List UInt8 → String

structure CompletionTelemetryRecord where
  sequence : ℤ
  runId : String
  capturedAtUtc : String
  rawLogSha256 : String
  rawLine : ℤ
  eventId : String
  bindingId : String
  jobId : ℤ
  executionEpoch : ℤ
  executionSequence : ℤ
  cookieSha256 : String
  observedStatus : ℤ
  observedDetail : ℤ
  observedSmokePathTicks : ℤ
  observedOutputs : List CompletionOutput
  previousHash : String
  recordHash : String
  schema : String
  source : String
  backend : String
  evidenceClass : String
  platform : String
  deriving DecidableEq

section Dict

def CompletionOutput.toDict (output : CompletionOutput) : Json :=
  .dict [("object_id", .int output.objectId), ("generation", .int output.generation),
    ("version", .int output.version)]

/-- The pairs of `payload()`. -/
def payloadFields (r : CompletionTelemetryRecord) : List (String × Json) :=
  [("sequence", .int r.sequence), ("run_id", .str r.runId), ("captured_at_utc", .str r.capturedAtUtc),
    ("raw_log_sha256", .str r.rawLogSha256), ("raw_line", .int r.rawLine), ("event_id", .str r.eventId),
    ("binding_id", .str r.bindingId), ("job_id", .int r.jobId),
    ("execution_epoch", .int r.executionEpoch), ("execution_sequence", .int r.executionSequence),
    ("cookie_sha256", .str r.cookieSha256), ("observed_status", .int r.observedStatus),
    ("observed_detail", .int r.observedDetail),
    ("observed_smoke_path_ticks", .int r.observedSmokePathTicks),
    ("observed_outputs", .list (r.observedOutputs.map CompletionOutput.toDict)),
    ("previous_hash", .str r.previousHash), ("schema", .str r.schema), ("source", .str r.source),
    ("backend", .str r.backend), ("evidence_class", .str r.evidenceClass), ("platform", .str r.platform)]

def toDict (r : CompletionTelemetryRecord) : Json :=
  .dict (payloadFields r ++ [("record_hash", .str r.recordHash)])

def withHash (lib : Library) (r : CompletionTelemetryRecord) : CompletionTelemetryRecord :=
  { r with recordHash := lib.sha256 (canonical (.dict (payloadFields r))) }

end Dict

section Validate

variable (lib : Library)

/-- `_bounded_token`. -/
def boundedToken (value : String) (limit : ℕ) : Bool :=
  0 < value.length && value.length ≤ limit &&
    value.toList.all fun c => lib.isalnum c || "._:-".toList.contains c

def validateBackendEvidence (backend evidenceClass : String) : Except String Unit :=
  match [("native-c", "silicon"), ("tvm-meta-schedule", "silicon"),
      ("qemu-telemetry", "emulation")].lookup backend with
  | some required => require (evidenceClass = required)
      (backend ++ " evidence must be classified as " ++ required)
  | none => .ok ()

/-- `_parse_utc`. -/
def parseUtc (value : String) : Except String Unit := do
  require (value.length ≤ 40 ∧ ['Z'].isSuffixOf value.toList = true) "captured_at_utc must be bounded UTC"
  require (lib.fromisoformat (String.ofList value.toList.dropLast ++ "+00:00") = true) "Invalid isoformat string"

def isDigest (digest : String) : Bool := digest.length = 64 && digest.toList.all isLowerHex

/-- The completion a record stands for; its cookie was checked before it was hashed. -/
def CompletionTelemetryRecord.parsed (r : CompletionTelemetryRecord) : ParsedCompletion where
  jobId := r.jobId
  executionEpoch := r.executionEpoch
  executionSequence := r.executionSequence
  cookie := '1' :: List.replicate 31 '0'
  status := r.observedStatus
  detail := r.observedDetail
  smokePathTicks := r.observedSmokePathTicks
  outputs := r.observedOutputs
  rawLine := r.rawLine

def CompletionTelemetryRecord.validate (r : CompletionTelemetryRecord) : Except String Unit := do
  validateBackendEvidence r.backend r.evidenceClass
  require (r.schema = SCHEMA ∧ r.source = SOURCE ∧ r.backend = BACKEND ∧
    r.evidenceClass = EVIDENCE_CLASS ∧ r.platform = PLATFORM) "completion telemetry provenance is invalid"
  require (1 ≤ r.sequence ∧ r.sequence ≤ UINT64_MAX ∧ 1 ≤ r.rawLine ∧ r.rawLine ≤ UINT64_MAX ∧
    boundedToken lib r.runId 128 = true) "completion telemetry sequence/run is invalid"
  parseUtc lib r.capturedAtUtc
  require (∀ digest ∈ [r.rawLogSha256, r.eventId, r.bindingId, r.cookieSha256, r.previousHash, r.recordHash],
    isDigest digest = true) "completion telemetry hash is invalid"
  r.parsed.validate
  require ((withHash lib r).recordHash = r.recordHash) "completion telemetry record hash mismatch"

end Validate

section Load

variable (lib : Library)

/-- Whether an object of the text repeats a key. -/
def distinctKeys : Json → Bool
  | .list items => items.attach.all fun item => distinctKeys item.1
  | .dict fields => (fields.map Prod.fst).Nodup && fields.attach.all fun field => distinctKeys field.1.2
  | _ => true
termination_by value => sizeOf value
decreasing_by
  · have := List.sizeOf_lt_of_mem item.2
    simp only [Json.list.sizeOf_spec]
    omega
  · have h := List.sizeOf_lt_of_mem field.2
    have hsize : sizeOf field.1 = 1 + sizeOf field.1.1 + sizeOf field.1.2 := by cases field.1; rfl
    simp only [Json.dict.sizeOf_spec]
    omega

/-- `_strict_json`: the pairs of the object that a line holds. -/
def strictJson (raw : List UInt8) : Except String (List (String × Json)) := do
  let value ← lib.loads raw
  require (distinctKeys value = true) "duplicate JSON key"
  match value with
  | .dict fields => .ok fields
  | _ => .error "telemetry journal record must be an object"

/-- The keys of an object are the expected ones. -/
def exactKeys (fields : List (String × Json)) (expected : List String) : Bool :=
  (fields.map Prod.fst).all (expected.contains ·) && expected.all ((fields.map Prod.fst).contains ·)

def outputFields : List String := ["object_id", "generation", "version"]

def recordFields : List String :=
  ["sequence", "run_id", "captured_at_utc", "raw_log_sha256", "raw_line", "event_id", "binding_id", "job_id",
    "execution_epoch", "execution_sequence", "cookie_sha256", "observed_status", "observed_detail",
    "observed_smoke_path_ticks", "observed_outputs", "previous_hash", "record_hash", "schema", "source",
    "backend", "evidence_class", "platform"]

def exactInt (message : String) : Json → Except String ℤ
  | .int n => .ok n
  | _ => .error message

def exactStr : Json → Except String String
  | .str s => .ok s
  | _ => .error "completion telemetry strings must be exact strings"

/-- One item of `observed_outputs`. -/
def outputOfDict : Json → Except String CompletionOutput
  | .dict fields => do
    require (exactKeys fields outputFields = true) "completion output fields are not exact"
    let number (key : String) : Except String ℤ :=
      exactInt "completion output values must be exact integers" (Command.item fields key)
    .ok ⟨← number "object_id", ← number "generation", ← number "version"⟩
  | _ => .error "completion output fields are not exact"

/-- `from_dict`. -/
def fromDict (fields : List (String × Json)) : Except String CompletionTelemetryRecord := do
  require (exactKeys fields recordFields = true) "completion telemetry fields are not exact"
  let outputs ← match Command.item fields "observed_outputs" with
    | .list items => items.mapM outputOfDict
    | _ => .error "observed_outputs must be a list"
  let text (key : String) : Except String String := exactStr (Command.item fields key)
  let number (key : String) : Except String ℤ :=
    exactInt "completion telemetry integers must be exact integers" (Command.item fields key)
  let record : CompletionTelemetryRecord :=
    { sequence := ← number "sequence"
      runId := ← text "run_id"
      capturedAtUtc := ← text "captured_at_utc"
      rawLogSha256 := ← text "raw_log_sha256"
      rawLine := ← number "raw_line"
      eventId := ← text "event_id"
      bindingId := ← text "binding_id"
      jobId := ← number "job_id"
      executionEpoch := ← number "execution_epoch"
      executionSequence := ← number "execution_sequence"
      cookieSha256 := ← text "cookie_sha256"
      observedStatus := ← number "observed_status"
      observedDetail := ← number "observed_detail"
      observedSmokePathTicks := ← number "observed_smoke_path_ticks"
      observedOutputs := outputs
      previousHash := ← text "previous_hash"
      recordHash := ← text "record_hash"
      schema := ← text "schema"
      source := ← text "source"
      backend := ← text "backend"
      evidenceClass := ← text "evidence_class"
      platform := ← text "platform" }
  record.validate lib
  .ok record

/-- The record of a journal line, with the line number in the message of an error. -/
def recordOfLine (raw : List UInt8) (lineNumber : ℕ) : Except String CompletionTelemetryRecord :=
  match strictJson lib raw >>= fromDict lib with
  | .ok record => .ok record
  | .error error => .error ("invalid telemetry journal line " ++ toString lineNumber ++ ": " ++ error)

def lastHash (records : List CompletionTelemetryRecord) : String :=
  (records.getLast?.map CompletionTelemetryRecord.recordHash).getD ZERO_HASH

/-- One turn of the loop over the lines of the journal. -/
def loadStep (records : List CompletionTelemetryRecord) (line : List UInt8 × ℕ) :
    Except String (List CompletionTelemetryRecord) := do
  require (line.1 ≠ [] ∧ line.1.length ≤ 16384) ("invalid telemetry journal line " ++ toString line.2)
  let record ← recordOfLine lib line.1 line.2
  require (record.sequence = line.2 ∧ record.previousHash = lastHash records ∧
      record.eventId ∉ records.map CompletionTelemetryRecord.eventId ∧
      record.bindingId ∉ records.map CompletionTelemetryRecord.bindingId)
    ("telemetry journal chain/sequence failure at line " ++ toString line.2)
  .ok (records ++ [record])

/-- `_load_descriptor`, of the bytes read. -/
def loadDescriptor (data : List UInt8) : Except String (List CompletionTelemetryRecord) := do
  require (data = [] ∨ data.getLast? = some 10) "telemetry journal has a partial final record"
  ((splitLines [] data).zipIdx 1).foldlM (loadStep lib) []

/-- `load`; there is no file before the first ingest. -/
def load (journal : Option LogFile) : Except String (List CompletionTelemetryRecord) :=
  match journal with
  | none => .ok []
  | some file => do
    require (file.regular = true ∧ file.links = 1) "telemetry store must be a single-link regular file"
    loadDescriptor lib file.data

end Load

section Ingest

variable (lib : Library)

/-- What the host does in one ingest: whether the parent is a real directory, the time of the capture,
the number of bytes `os.write` takes (none if it raises), and whether `os.fsync` returns. -/
structure Host where
  parent : Bool
  captured : String
  write : Option ℕ
  fsync : Bool

def eventText (rawHash : String) (event : ParsedCompletion) : String :=
  rawHash ++ ":" ++ toString event.rawLine ++ ":" ++ toString event.jobId ++ ":" ++
    toString event.executionEpoch ++ ":" ++ toString event.executionSequence ++ ":" ++
    String.ofList event.cookie

def bindingText (runId : String) (event : ParsedCompletion) : String :=
  runId ++ ":" ++ toString event.jobId ++ ":" ++ toString event.executionEpoch ++ ":" ++
    toString event.executionSequence ++ ":" ++ String.ofList event.cookie

def eventIdOf (rawHash : String) (event : ParsedCompletion) : String :=
  lib.sha256 (encode (eventText rawHash event).toList)

def bindingIdOf (runId : String) (event : ParsedCompletion) : String :=
  lib.sha256 (encode (bindingText runId event).toList)

/-- The record of a new event after the given ones. -/
def newRecord (rawHash runId captured : String) (records : List CompletionTelemetryRecord)
    (event : ParsedCompletion) : CompletionTelemetryRecord :=
  withHash lib
    { sequence := records.length + 1
      runId := runId
      capturedAtUtc := captured
      rawLogSha256 := rawHash
      rawLine := event.rawLine
      eventId := eventIdOf lib rawHash event
      bindingId := bindingIdOf lib runId event
      jobId := event.jobId
      executionEpoch := event.executionEpoch
      executionSequence := event.executionSequence
      cookieSha256 := lib.sha256 (fromHex event.cookie)
      observedStatus := event.status
      observedDetail := event.detail
      observedSmokePathTicks := event.smokePathTicks
      observedOutputs := event.outputs
      previousHash := lastHash records
      recordHash := ""
      schema := SCHEMA
      source := SOURCE
      backend := BACKEND
      evidenceClass := EVIDENCE_CLASS
      platform := PLATFORM }

/-- One turn of the loop over the events, with the additions so far. -/
def addStep (rawHash runId captured : String) (existing additions : List CompletionTelemetryRecord)
    (event : ParsedCompletion) : Except String (List CompletionTelemetryRecord) :=
  let records := existing ++ additions
  if eventIdOf lib rawHash event ∈ records.map CompletionTelemetryRecord.eventId then .ok additions
  else do
    require (bindingIdOf lib runId event ∉ records.map CompletionTelemetryRecord.bindingId)
      "conflicting telemetry for an existing run binding"
    let record := newRecord lib rawHash runId captured records event
    record.validate lib
    .ok (additions ++ [record])

def additionsOf (rawHash runId captured : String) (events : List ParsedCompletion)
    (existing : List CompletionTelemetryRecord) : Except String (List CompletionTelemetryRecord) :=
  events.foldlM (addStep lib rawHash runId captured existing) []

def payloadOf (additions : List CompletionTelemetryRecord) : List UInt8 :=
  additions.flatMap fun record => canonical (toDict record) ++ [10]

/-- The append of the additions, and what the journal then holds. -/
def appendPayload (host : Host) (file : LogFile) (additions : List CompletionTelemetryRecord) :
    LogFile × Except String ℕ :=
  if additions = [] then (file, .ok 0)
  else
    match host.write with
    | none => (file, .error "OSError")
    | some written =>
      let appended := { file with data := file.data ++ (payloadOf additions).take written }
      if written < (payloadOf additions).length then (appended, .error "short telemetry journal write")
      else if !host.fsync then (appended, .error "OSError")
      else (appended, .ok additions.length)

/-- `ingest_qemu_log`: the journal afterwards and the number of records added. -/
def ingestQemuLog (host : Host) (journal : Option LogFile) (log : LogFile) (runId : String) :
    Option LogFile × Except String ℕ :=
  if !boundedToken lib runId 128 then (journal, .error "run_id is invalid")
  else match parseQemuLog lib.sha256 log with
  | .error error => (journal, .error error)
  | .ok (rawHash, events) =>
    if !host.parent then (journal, .error "telemetry store parent must be a real directory")
    else
      let file := journal.getD ⟨true, 1, []⟩
      if ¬ (file.regular = true ∧ file.links = 1) then
        (some file, .error "telemetry store must be a single-link regular file")
      else match loadDescriptor lib file.data >>= additionsOf lib rawHash runId host.captured events with
      | .error error => (some file, .error error)
      | .ok additions => ((appendPayload host file additions).1, (appendPayload host file additions).2)

end Ingest

end Raveil.Telemetry
