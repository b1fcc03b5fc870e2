import Raveil.Authority.Contract
import Raveil.Command.Json
import Raveil.Lib.Decimal
import Raveil.Lib.Pattern

/-! Completion frames: the guest prints them on the console, the host reads them from its log. -/
namespace Raveil.Telemetry
open Raveil.Lib Raveil.Authority Decimal Pattern

section Emit

/-- The console writes characters one byte each. -/
def consoleBytes (chars : List Char) : List UInt8 := chars.map fun c => UInt8.ofNat c.toNat

/-- `console_write`, which starts a line break with a carriage return. -/
def consoleWrite (text : String) : List Char :=
  text.toList.flatMap fun c => if c = '\n' then ['\r', c] else [c]

def writeCookie (cookie : Identity) : List Char :=
  (List.ofFn cookie).flatMap fun b => [Command.hexDigit (b.toNat / 16), Command.hexDigit (b.toNat % 16)]

/-- The three numbers of one output. -/
def writeOutput (output : ObjectVersion) : List Char :=
  print output.objectId ++ ':' :: print output.generation ++ ':' :: print output.version

/-- The loop over the outputs, with a comma before each but the first. -/
def writeOutputs (completion : CompletionRecord) : List Char :=
  if completion.outputCount = 0 then ['-']
  else (indices 4 completion.outputCount).flatMap fun i =>
    if i.val ≠ 0 then ',' :: writeOutput (completion.outputs i) else writeOutput (completion.outputs i)

/-- `completion_telemetry_emit`: the bytes it puts on the console. -/
def completionTelemetryEmit (completion : CompletionRecord) (smokePathTicks : ℕ) : List UInt8 :=
  consoleBytes <| consoleWrite "RAVEIL-COMPLETION-V1 job=" ++ print completion.jobId ++
    consoleWrite " epoch=" ++ print completion.executionEpoch ++
    consoleWrite " sequence=" ++ print completion.executionSequence ++
    consoleWrite " cookie=" ++ writeCookie completion.completionCookie ++
    consoleWrite " status=" ++ print completion.status ++
    consoleWrite " detail=" ++ print completion.detail ++
    consoleWrite " smoke_path_ticks=" ++ print smokePathTicks ++
    consoleWrite " outputs=" ++ writeOutputs completion ++ consoleWrite "\n"

end Emit

def MAX_LINE_BYTES : ℕ := 1024
def MAX_LOG_BYTES : ℕ := 16 * 1024 * 1024

structure CompletionOutput where
  objectId : ℤ
  generation : ℤ
  version : ℤ
  deriving DecidableEq

def CompletionOutput.validate (output : CompletionOutput) : Except String Unit :=
  require (1 ≤ min output.objectId (min output.generation output.version) ∧
    max output.objectId (max output.generation output.version) ≤ UINT64_MAX)
    "completion output values must be positive"

structure ParsedCompletion where
  jobId : ℤ
  executionEpoch : ℤ
  executionSequence : ℤ
  cookie : List Char
  status : ℤ
  detail : ℤ
  smokePathTicks : ℤ
  outputs : List CompletionOutput
  rawLine : ℤ
  deriving DecidableEq

def isLowerHex (c : Char) : Bool := "0123456789abcdef".toList.contains c

/-- `{1: 0, 2: 1, 3: 2, 4: 3}.get(status)`. -/
def expectedDetail (status : ℤ) : Option ℤ :=
  if status = 1 then some 0 else if status = 2 then some 1 else if status = 3 then some 2
  else if status = 4 then some 3 else none

/-- One turn of the loop over the outputs, which collects the pairs seen. -/
def validateOutput (pairs : List (ℤ × ℤ)) (output : CompletionOutput) : Except String (List (ℤ × ℤ)) := do
  output.validate
  let pair := (output.objectId, output.generation)
  require (pair ∉ pairs) "completion outputs contain duplicates"
  .ok (pair :: pairs)

def ParsedCompletion.validate (e : ParsedCompletion) : Except String Unit := do
  require (1 ≤ min (min e.jobId (min e.executionEpoch (min e.executionSequence e.smokePathTicks))) e.rawLine ∧
      max e.jobId (max e.executionEpoch (max e.executionSequence e.smokePathTicks)) ≤ UINT64_MAX)
    "completion identifiers and counters must be positive"
  require (e.cookie.length = 32 ∧ e.cookie ≠ List.replicate 32 '0' ∧ e.cookie.all isLowerHex = true)
    "completion cookie must be 16-byte lowercase hex"
  require (expectedDetail e.status = some e.detail) "completion status/detail is invalid"
  require (e.outputs.length ≤ 4 ∧ (e.status = 1 ∨ e.outputs = [])) "completion outputs are invalid for status"
  let _ ← e.outputs.foldlM validateOutput []
  .ok ()

section Parse

/-- `data.splitlines()` of bytes, after the part of a line already read. -/
def splitLines : List UInt8 → List UInt8 → List (List UInt8)
  | line, [] => if line = [] then [] else [line]
  | line, 13 :: 10 :: rest => line :: splitLines [] rest
  | line, b :: rest => if b = 10 ∨ b = 13 then line :: splitLines [] rest else splitLines (line ++ [b]) rest

/-- `raw.decode("ascii")`. -/
def decodeAscii (raw : List UInt8) : Option (List Char) :=
  raw.mapM fun b => if b < 128 then some (Char.ofNat b.toNat) else none

def isPositive (c : Char) : Bool := '1' ≤ c && c ≤ '9'

def isOutputChar (c : Char) : Bool := isDigit c || c = ':' || c = ','

def positive : Item := .many isPositive isDigit

/-- `_FRAME`; the groups stand at the odd places. -/
def frame : List Item :=
  [.text "RAVEIL-COMPLETION-V1 job=".toList, positive, .text " epoch=".toList, positive,
    .text " sequence=".toList, positive, .text " cookie=".toList, .exactly 32 isLowerHex,
    .text " status=".toList, .exactly 1 fun c => '1' ≤ c && c ≤ '4',
    .text " detail=".toList, .exactly 1 fun c => '0' ≤ c && c ≤ '3',
    .text " smoke_path_ticks=".toList, positive,
    .text " outputs=".toList, .either (.text ['-']) (.many isOutputChar isOutputChar)]

/-- `int(part)` of a text of digits. -/
def parseInt (part : List Char) : Option ℤ := if part = [] then none else some (Int.ofNat (read part))

def parseOutput (item : List Char) : Option CompletionOutput :=
  match (item.splitOn ':').mapM parseInt with
  | some [objectId, generation, version] => some ⟨objectId, generation, version⟩
  | _ => none

def parseOutputs (text : List Char) : Option (List CompletionOutput) :=
  if text = ['-'] then some [] else (text.splitOn ',').mapM parseOutput

def framePrefix : List UInt8 := consoleBytes "RAVEIL-COMPLETION-".toList

/-- The event of a frame text. -/
def parseFrame (text : List Char) (lineNumber : ℕ) : Except String ParsedCompletion :=
  match fullmatch frame text with
  | some [_, job, _, epoch, _, sequence, _, cookie, _, status, _, detail, _, ticks, _, outputText] =>
    match parseOutputs outputText with
    | none => .error s!"malformed completion outputs at line {lineNumber}"
    | some outputs =>
      .ok ⟨read job, read epoch, read sequence, cookie, read status, read detail, read ticks, outputs,
        lineNumber⟩
  | _ => .error s!"malformed completion telemetry at line {lineNumber}"

/-- The event of a line, if it is a frame. -/
def parseLine (raw : List UInt8) (lineNumber : ℕ) : Except String (Option ParsedCompletion) :=
  if raw.length > MAX_LINE_BYTES then
    if framePrefix.isPrefixOf raw then .error s!"oversized completion telemetry at line {lineNumber}"
    else .ok none
  else if !framePrefix.isPrefixOf raw then .ok none
  else match decodeAscii raw with
    | none => .error s!"non-ASCII completion telemetry at line {lineNumber}"
    | some text => do
      let text := if ['\r'].isSuffixOf text then text.dropLast else text
      let event ← parseFrame text lineNumber
      event.validate
      .ok (some event)

def ParsedCompletion.binding (e : ParsedCompletion) : ℤ × ℤ × ℤ × List Char :=
  (e.jobId, e.executionEpoch, e.executionSequence, e.cookie)

/-- A binding may occur once in a log. -/
def addEvent (events : List ParsedCompletion) (lineNumber : ℕ) :
    Option ParsedCompletion → Except String (List ParsedCompletion)
  | none => .ok events
  | some event => do
    require (event.binding ∉ events.map ParsedCompletion.binding)
      s!"duplicate completion telemetry at line {lineNumber}"
    .ok (events ++ [event])

/-- One turn of the loop over the lines. -/
def parseStep (events : List ParsedCompletion) (line : List UInt8 × ℕ) :
    Except String (List ParsedCompletion) :=
  parseLine line.1 line.2 >>= addEvent events line.2

def hexValue (c : Char) : ℕ := "0123456789abcdef".toList.idxOf c

/-- `bytes.fromhex` of a validated cookie. -/
def fromHex : List Char → List UInt8
  | high :: low :: rest => UInt8.ofNat (16 * hexValue high + hexValue low) :: fromHex rest
  | _ => []

/-- A file as `os.fstat` and `os.read` see it. -/
structure LogFile where
  regular : Bool
  links : ℕ
  data : List UInt8

variable (sha256 : List UInt8 → String)

/-- `parse_qemu_log`, of a file that opens; `sha256` is the hexadecimal digest. -/
def parseQemuLog (log : LogFile) : Except String (String × List ParsedCompletion) := do
  require (log.regular = true ∧ log.links = 1 ∧ log.data.length ≤ MAX_LOG_BYTES)
    "telemetry input must be a bounded single-link regular file"
  let lines := splitLines [] log.data
  let events ← (lines.zipIdx 1).foldlM parseStep []
  require (¬ (log.data ≠ [] ∧ log.data.getLast? ≠ some 10 ∧ log.data.getLast? ≠ some 13 ∧
      lines.getLast?.any framePrefix.isPrefixOf = true)) "truncated completion telemetry final line"
  require (events ≠ []) "no completion telemetry found"
  .ok (sha256 log.data, events)

end Parse

end Raveil.Telemetry
