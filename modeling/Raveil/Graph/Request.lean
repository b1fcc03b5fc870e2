import Raveil.Graph.Correct
import Raveil.Graph.Validators

/-! Dynamic requests: the directory the host writes, and the reader of the device side. -/
namespace Raveil.Graph
open Raveil.Lib

/-- `struct.unpack` of `n` words; the reader fills its arrays with the same loop. -/
def unpackWords (n : ℕ) (bytes : List UInt8) : List ℕ := (List.range n).map fun index => word bytes (4 * index)

/-- The files of a directory by name. -/
abbrev Files := List (String × List UInt8)

/-- A request directory: its files, and those of `inputs` once that directory exists. -/
structure Directory where
  files : Files
  inputs : Option Files
  deriving DecidableEq

/-- The name `seed-<seed>.bin`. -/
def seedFile (seed : ℕ) : String := "seed-" ++ toString seed ++ ".bin"

section Profiles

/-- The value of a profile name in `PROFILE_BASES`. -/
structure ProfileBase where
  rows : ℕ
  columns : ℕ
  inputStride : ℕ
  outputStride : ℕ
  activeOutputs : ℕ
  transactionsPerOutput : ℕ

structure Profile extends ProfileBase where
  name : String
  configurationSha256 : Digest

def PROFILE_BASES : List (String × ProfileBase) :=
  [("baseline", ⟨16, 16, 18, 16, 256, 6⟩), ("compact", ⟨8, 8, 10, 8, 64, 6⟩)]

/-- `_canonical_bytes` of a named base. -/
def canonicalProfile (name : String) (base : ProfileBase) : List UInt8 :=
  (jsonObject [("active_outputs", toString base.activeOutputs), ("columns", toString base.columns),
    ("input_stride", toString base.inputStride), ("name", quoted name),
    ("output_stride", toString base.outputStride), ("rows", toString base.rows),
    ("transactions_per_output", toString base.transactionsPerOutput)]).toUTF8.toList

variable (sha256 : List UInt8 → Digest)

def profiles : List Profile :=
  PROFILE_BASES.map fun item =>
    { item.2 with name := item.1, configurationSha256 := sha256 (canonicalProfile item.1 item.2) }

def validateProfile (value : Profile) : Except String Unit := do
  require (1 ≤ value.rows ∧ value.rows ≤ 16 ∧ 1 ≤ value.columns ∧ value.columns ≤ 16)
    "profile shape is outside the bounded domain"
  require (value.activeOutputs = value.rows * value.columns ∧ value.activeOutputs ≤ 256)
    "active output count changed"
  require (value.columns + 2 ≤ value.inputStride ∧ value.columns ≤ value.outputStride)
    "profile stride is too small"
  require (value.transactionsPerOutput = 6) "transaction count changed"
  require (value.rows * value.inputStride + value.columns + value.inputStride < 324 ∧
    (value.rows - 1) * value.outputStride + value.columns - 1 < 256) "profile escapes a fixed physical window"

/-- The words of a profile: magic, version, shape and digest. -/
def profilePayload (profile : Profile) : List ℕ :=
  [0x52414631, 1, profile.rows, profile.columns, profile.inputStride, profile.outputStride,
    profile.activeOutputs, profile.transactionsPerOutput] ++ digestWords profile.configurationSha256

/-- `config_words`; the value is one of `profiles` already, so that its fields are the canonical ones. -/
def configWords (value : Profile) : Except String (List ℕ) := do
  validateProfile value
  match (profiles sha256).find? fun item => item.name = value.name with
  | none => .error "configuration identity mismatch"
  | some canonical =>
    require (value.rows = canonical.rows ∧ value.columns = canonical.columns ∧
      value.inputStride = canonical.inputStride ∧ value.outputStride = canonical.outputStride ∧
      value.activeOutputs = canonical.activeOutputs ∧
      value.transactionsPerOutput = canonical.transactionsPerOutput ∧
      value.configurationSha256 = canonical.configurationSha256) "configuration identity mismatch"
    pure ([0x52414631, 1, canonical.rows, canonical.columns, canonical.inputStride, canonical.outputStride,
      canonical.activeOutputs, canonical.transactionsPerOutput] ++ digestWords canonical.configurationSha256)

/-- The payloads that `_generated_header` writes into `kProfiles`. -/
def generatedProfiles : Except String (List (List ℕ)) := (profiles sha256).mapM (configWords sha256)

def PROFILE_BY_SHAPE (rows columns : ℤ) : Option String :=
  if rows = 16 ∧ columns = 16 then some "baseline"
  else if rows = 8 ∧ columns = 8 then some "compact"
  else none

/-- `_profile_for`. -/
def profileFor (affine : Affine) : Except String Profile :=
  match PROFILE_BY_SHAPE affine.rows affine.columns with
  | none => .error "dynamic request must use the baseline or compact affine profile"
  | some name =>
    if affine.inputStride ≠ (if name = "baseline" then 18 else 10) ∨
        affine.outputStride ≠ (if name = "baseline" then 16 else 8) then
      .error "dynamic request must use the baseline or compact affine profile"
    else match (profiles sha256).find? fun item => item.name = name with
      | none => .error "StopIteration"
      | some profile => .ok profile

end Profiles

section Writer

def INPUT_WORDS : ℕ := 324
def GRAPH_ID_BYTES : ℕ := 32

/-- `input_words`. -/
def inputWords (seed : ℤ) : Except String (List ℕ) := do
  require (¬ (seed < 0 ∨ seed > 0xFFFFFFFF)) "seed must be uint32"
  let seed := seed.toNat
  pure ((List.range 324).map fun index =>
    (((index + 1) * (seed * 2654435761 &&& 0xFFFFFFFF)) ^^^ index <<< (seed &&& 7) ^^^ seed * 17) &&&
      0xFFFFFFFF)

/-- The identifier with its terminator and padding. -/
def graphIdBytes (graphId : String) : List UInt8 :=
  let bytes := graphId.toList.map (fun c => UInt8.ofNat c.toNat) ++ [0]
  bytes ++ List.replicate (GRAPH_ID_BYTES - bytes.length) 0

/-- The version that goes into the request, by the program's and whether the input is explicit. -/
def requestVersion (version : ℕ) (explicit : Bool) : ℕ :=
  if explicit then if version ≥ 5 then version + 1 else 5 else version

/-- `selected_input`. -/
def selectedInput (seed : ℤ) (inputBytes : Option (List UInt8)) : Except String (List UInt8) :=
  match inputBytes with
  | some bytes => .ok bytes
  | none => wordBytes <$> inputWords seed

/-- `_request_bytes`. -/
def requestBytes (program : Program) (profile : Profile) (seed : ℤ) (inputBytes : Option (List UInt8)) :
    Except String (List UInt8) := do
  require (identifier program.graphId = true) "graph_id is not a bounded ASCII identifier"
  require (0 ≤ seed ∧ seed ≤ 0xFFFFFFFF) "seed is outside u32"
  require (∀ bytes ∈ inputBytes, ¬ (seed ≠ 0 ∨ bytes.length ≠ INPUT_WORDS * 4))
    "explicit input requires seed slot zero and exactly 324 words"
  let graphIdBytes := graphIdBytes program.graphId
  require (graphIdBytes.length = GRAPH_ID_BYTES) "graph_id is too long"
  let version := program.payload.getD 1 0
  require (version ∈ [1, 2, 3, 4, 5, 6]) "program version is unsupported"
  require (¬ (version ≥ 5 ∧ inputBytes = none))
    ("program v" ++ toString version ++ " requires explicit snapshot input")
  let header := packWords [0x52445731, requestVersion version inputBytes.isSome, 64,
    if profile.name = "baseline" then 0 else 1, seed.toNat, 32, 16, INPUT_WORDS]
  let input ← selectedInput seed inputBytes
  pure (header ++ (List.replicate 32 0 ++ (graphIdBytes ++ (wordBytes program.payload ++
    (wordBytes (profilePayload profile) ++ input)))))

/-- `_write_new`: the name must be free. -/
def writeNew (files : Files) (name : String) (payload : List UInt8) : Except String Files := do
  require (files.lookup name = none) "FileExistsError"
  pure (files ++ [(name, payload)])

/-- What `prepare_request` returns, with the directory it leaves behind. -/
structure Prepared where
  directory : Directory
  program : Program
  profile : Profile
  request : List UInt8

/-- The input under the name of its seed; that of seed one is there already. -/
def writeSeedInput (inputs : Files) (seed : ℤ) (inputBytes : Option (List UInt8)) (selected : List UInt8) :
    Except String Files :=
  if inputBytes.isSome then writeNew inputs "seed-0.bin" selected
  else if seed ≠ 1 then writeNew inputs (seedFile seed.toNat) selected
  else pure inputs

/-- The files that `prepare_request` writes for the reader. -/
def writeRequest (descriptor : Descriptor) (seed : ℤ) (inputBytes : Option (List UInt8))
    (request : List UInt8) : Except String Directory := do
  let files ← writeNew [] "request.bin" request
  let selected ← selectedInput seed inputBytes
  let files ← writeNew files "request-input.bin" selected
  let seedOne ← inputWords 1
  let inputs ← writeNew [] "seed-1.bin" (wordBytes seedOne)
  let inputs ← writeSeedInput inputs seed inputBytes selected
  let oracle ← graphOracle descriptor (unpackWords INPUT_WORDS selected)
  let files ← writeNew files "request-oracle.bin" (wordBytes oracle)
  pure ⟨files, some inputs⟩

/-- `prepare_request` from the descriptor it loads; `output` is what stands at the output path. -/
def prepareRequest (sha256 : List UInt8 → Digest) (output : Option Directory) (descriptor : Descriptor)
    (seed : ℤ) (inputBytes : Option (List UInt8)) : Except String Prepared := do
  require (∀ directory ∈ output, directory = ⟨[], none⟩) "request output must be a new or empty directory"
  let program ← (do validateDescriptor descriptor; compileDescriptor sha256 descriptor).mapError
    fun error => "descriptor admission failed: " ++ error
  let profile ← profileFor sha256 program.affine
  require (∀ bytes ∈ inputBytes, bytes.length = INPUT_WORDS * 4)
    "explicit input must be exactly 324 packed uint32 words"
  let request ← requestBytes program profile seed inputBytes
  let directory ← writeRequest descriptor seed inputBytes request
  pure ⟨directory, program, profile, request⟩

end Writer

section Reader

/-- `DynamicGraphDeviceRequest`. -/
structure DynamicGraphDeviceRequest where
  graphId : String
  affine : String
  seed : ℕ
  program : List ℕ
  configuration : List ℕ
  input : List ℕ
  deriving DecidableEq

def kRequestBytes : ℕ := 64 + 32 + (32 + 16 + 324) * 4

/-- `read_request`. -/
def readRequest (root : Directory) : Except String (List UInt8) :=
  match root.files.lookup "request.bin" with
  | none => .error "dynamic request must be an exact regular file"
  | some bytes => do
    require (bytes.length = kRequestBytes) "dynamic request must be an exact regular file"
    pure bytes

/-- `read_input_file`. -/
def readInputFile (files : Files) (name : String) : Except String (List ℕ) :=
  match files.lookup name with
  | none => .error "dynamic input is not an exact regular file"
  | some bytes => do
    require (bytes.length = 324 * 4) "dynamic input is not an exact regular file"
    pure (unpackWords 324 bytes)

/-- `expected` in `validate_input`. -/
def expectedWord (seed : UInt32) (index : ℕ) : UInt32 :=
  let multiplier := seed * 2654435761
  (UInt32.ofNat (index + 1) * multiplier) ^^^ (UInt32.ofNat index <<< (seed &&& 7)) ^^^ (seed * 17)

/-- `validate_input`. -/
def validateInput (words : List ℕ) (seed : ℕ) : Except String Unit :=
  require (∀ index ∈ List.range 324, words.getD index 0 = (expectedWord (UInt32.ofNat seed) index).toNat)
    "dynamic request input does not match seed"

/-- The request versions whose input is explicit. -/
def explicitVersion (version : ℕ) : Bool := version == 5 || version == 6 || version == 7

/-- Only a seeded input is checked against its seed. -/
def validateSeededInput (version : ℕ) (words : List ℕ) (seed : ℕ) : Except String Unit :=
  if !explicitVersion version then validateInput words seed else pure ()

def alphanumeric (value : UInt8) : Bool :=
  (0x41 ≤ value && value ≤ 0x5a) || (0x61 ≤ value && value ≤ 0x7a) || (0x30 ≤ value && value ≤ 0x39)

/-- The identity field: valid characters up to the first zero byte, then zeros. -/
def readGraphId (id : List UInt8) : Except String String := do
  let text := id.takeWhile (· ≠ 0)
  require (text.all (fun value => alphanumeric value || value == 0x2e || value == 0x5f || value == 0x2d) = true)
    "dynamic graph identity is invalid"
  require (¬ (text.length = 0 ∨ text.length > 31 ∨ id.getD text.length 0 ≠ 0))
    "dynamic graph identity is invalid"
  require ((id.drop (text.length + 1)).all (· == 0) = true) "dynamic graph identity padding is invalid"
  require (alphanumeric (id.getD 0 0) = true) "dynamic graph identity must start alphanumeric"
  pure (String.ofList (text.map fun value => Char.ofNat value.toNat))

/-- The program words of a request, as the validator takes them. -/
def programWords (bytes : List UInt8) : Payload where
  words := unpackWords 32 (bytes.drop 96)
  length := by simp [unpackWords]
  lt := by
    intro w hw
    obtain ⟨index, -, rfl⟩ := List.mem_map.mp hw
    exact word_lt _ _

/-- `read_dynamic_graph_device_request`, with the profiles of the generated header. -/
def readDynamicGraphDeviceRequest (sha256 : List UInt8 → Digest) (kProfiles : List (List ℕ))
    (root : Directory) : Except String DynamicGraphDeviceRequest := do
  let bytes ← readRequest root
  match root.inputs with
  | none => .error "dynamic inputs must be a direct directory"
  | some inputs =>
    let version := word bytes 4
    require (word bytes 0 = 0x52445731 ∧ version ∈ List.range' 1 7 ∧ word bytes 8 = 64 ∧
      word bytes 20 = 32 ∧ word bytes 24 = 16 ∧ word bytes 28 = 324) "dynamic request header is invalid"
    let profile := word bytes 12
    require (¬ profile > 1) "dynamic affine profile is invalid"
    require (∀ index ∈ List.range' 32 32, bytes.getD index 0 = 0) "dynamic request reserved prefix is nonzero"
    let seed := word bytes 16
    let graphId ← readGraphId ((bytes.drop 64).take 32)
    let affine := if profile = 0 then "baseline" else "compact"
    let program := programWords bytes
    let configuration := unpackWords 16 (bytes.drop 224)
    let input := unpackWords 324 (bytes.drop 288)
    let canonical := if affine = "baseline" then kProfiles.getD 0 [] else kProfiles.getD 1 []
    require (∀ index ∈ List.range 16, configuration.getD index 0 = canonical.getD index 0)
      "dynamic affine payload is not canonical"
    validateProgram sha256 program version
    require (¬ (explicitVersion version = true ∧ seed ≠ 0)) "explicit dynamic input must use seed slot zero"
    validateSeededInput version input seed
    let requestInput ← readInputFile root.files "request-input.bin"
    let selectedInput ← readInputFile inputs (seedFile seed)
    let seedOneInput ← readInputFile inputs "seed-1.bin"
    require (requestInput = input ∧ selectedInput = input) "dynamic input files are not bound to request"
    validateInput seedOneInput 1
    pure ⟨graphId, affine, seed, program.words, configuration, input⟩

end Reader

end Raveil.Graph
