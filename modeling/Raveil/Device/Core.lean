import Raveil.Device.Config

/-! The executor: a sequential controller over an installed program, with one outstanding request. -/
namespace Raveil.Device

inductive CoreState
  | idle | fetch | loadRequest | loadResponse | storeRequest | storeResponse
  deriving DecidableEq

/-- The registers of `RaveilStaticStencilCore`. -/
structure Core where
  busy : Bool
  outputIndex : BitVec 8
  programCounter : BitVec 4
  values : Fin 8 → BitVec 32
  cycleCount : BitVec 14
  checksum : BitVec 64
  graphInputReadsAccepted : BitVec 16
  graphOutputWritesAccepted : BitVec 16
  cancelRequested : Bool
  state : CoreState

/-- What the installers hold out to the executor. -/
structure Wiring where
  shape : Shape
  programVersion : BitVec 3
  programLength : BitVec 5
  program : Fin 16 → BitVec 32

/-- The other inputs: control, and the side of the memory port that the memory drives. -/
structure CoreInput where
  start : Bool
  cancel : Bool
  requestReady : Bool
  responseValid : Bool
  readData : BitVec 32
  error : Bool
  pending : Bool

/-- A request on the memory port. -/
structure Request where
  write : Bool
  address : BitVec 10
  writeData : BitVec 32
  writeMask : BitVec 4

namespace Core

variable (wiring : Wiring) (s : Core) (io : CoreInput)

def instruction : BitVec 32 := wiring.program s.programCounter.toFin

def opcode : BitVec 4 := (s.instruction wiring).extractLsb 31 28
def destination : Fin 8 := ((s.instruction wiring).extractLsb 27 25).toFin
def sourceA : Fin 8 := ((s.instruction wiring).extractLsb 24 22).toFin
def sourceB : Fin 8 := ((s.instruction wiring).extractLsb 21 19).toFin

/-- `instruction(21, 0)`, as wide as a value. -/
def immediate : BitVec 32 := ((s.instruction wiring).extractLsb 21 0).setWidth 32

def logicalRow : BitVec 5 := (s.outputIndex / wiring.shape.columns.setWidth 8).setWidth 5
def logicalColumn : BitVec 5 := (s.outputIndex % wiring.shape.columns.setWidth 8).setWidth 5

def center : BitVec 10 :=
  ((s.logicalRow wiring + 1).setWidth 14 * wiring.shape.inputStride.setWidth 14 +
    (s.logicalColumn wiring).setWidth 14 + 1).setWidth 10

def outputAddress : BitVec 10 :=
  324 + ((s.logicalRow wiring).setWidth 14 * wiring.shape.outputStride.setWidth 14).setWidth 10 +
    (s.logicalColumn wiring).setWidth 10

def legacyInputAddress : BitVec 10 :=
  let selector := (s.instruction wiring).extractLsb 24 22
  if selector = 1 then s.center wiring - wiring.shape.inputStride.setWidth 10
  else if selector = 2 then s.center wiring + wiring.shape.inputStride.setWidth 10
  else if selector = 3 then s.center wiring - 1
  else if selector = 4 then s.center wiring + 1
  else s.center wiring

/-- `relativeInputAddress`, a signed sum of 16 bits. -/
def relativeInputAddress : BitVec 16 :=
  let relativeRow := (s.instruction wiring).extractLsb 24 20
  let relativeColumn := (s.instruction wiring).extractLsb 19 15
  (s.center wiring).setWidth 16 + relativeRow.signExtend 16 * wiring.shape.inputStride.setWidth 16 +
    relativeColumn.signExtend 16

def inputAddress : BitVec 10 :=
  if wiring.programVersion ≥ 3 then (s.relativeInputAddress wiring).extractLsb 9 0
  else s.legacyInputAddress wiring

def storeData : BitVec 32 := s.values (s.destination wiring)

def cancelling : Bool := io.cancel || s.cancelRequested

def graphInputRequest : Bool := s.busy && !s.cancelling io && s.state == .loadRequest
def graphOutputRequest : Bool := s.busy && !s.cancelling io && s.state == .storeRequest

def requestValid : Bool := s.graphInputRequest io || s.graphOutputRequest io

def request : Request where
  write := s.graphOutputRequest io
  address := if s.graphOutputRequest io then s.outputAddress wiring else s.inputAddress wiring
  writeData := s.storeData wiring
  writeMask := if s.graphOutputRequest io then 0xf else 0

def responseReady : Bool := s.state == .loadResponse || s.state == .storeResponse

def requestFire : Bool := s.requestValid io && io.requestReady
def responseFire : Bool := io.responseValid && s.responseReady

def finalInstruction : Bool := s.programCounter.setWidth 5 == wiring.programLength - 1
def lastOutput : Bool := s.outputIndex.setWidth 9 == wiring.shape.activeOutputs - 1

def completion : Bool :=
  s.busy && !s.cancelling io && s.state == .storeResponse && s.finalInstruction wiring &&
    s.lastOutput wiring && s.responseFire io && !io.error

def storeFailure : Bool := s.busy && s.state == .storeResponse && s.responseFire io && io.error

/-- `io.cancellation`. -/
def cancellation : Bool := (s.busy && s.cancelling io && !io.pending) || s.storeFailure io

/-- A value into the destination register, and on to the next instruction. -/
def produce (value : BitVec 32) : Core :=
  { s with
    values := Function.update s.values (s.destination wiring) value
    programCounter := s.programCounter + 1 }

/-- The core stops without a result. -/
def stop : Core := { s with busy := false, state := .idle }

/-- `is(fetch)`. -/
def stepFetch : Core :=
  let a := s.values (s.sourceA wiring)
  let b := s.values (s.sourceB wiring)
  let version := wiring.programVersion
  if s.opcode wiring = 1 then { s with state := .loadRequest }
  else if s.opcode wiring = 2 then s.produce wiring (a + b)
  else if s.opcode wiring = 4 then s.produce wiring (if a ≥ b then a else b)
  else if s.opcode wiring = 5 ∧ (version = 4 ∨ version = 5 ∨ version = 6) then s.produce wiring (a * b)
  else if s.opcode wiring = 6 ∧ (version = 5 ∨ version = 6) then s.produce wiring (a + s.immediate wiring)
  else if s.opcode wiring = 3 then { s with state := .storeRequest }
  else if s.opcode wiring = 7 ∧ version = 6 then
    s.produce wiring (if a ≥ s.immediate wiring then 1 else 0)
  else s.stop

/-- `is(loadResponse)`, when the response fires. -/
def stepLoaded : Core :=
  if io.error then s.stop else { s.produce wiring io.readData with state := .fetch }

/-- The word that was stored is counted, and the registers are cleared. -/
def stored : Core :=
  { s with checksum := s.checksum + (s.storeData wiring).setWidth 64, values := fun _ => 0 }

/-- `is(storeResponse)`, when the response fires. -/
def stepStored : Core :=
  if io.error || !s.finalInstruction wiring then s.stop
  else if s.lastOutput wiring then (s.stored wiring).stop
  else { s.stored wiring with outputIndex := s.outputIndex + 1, programCounter := 0, state := .fetch }

/-- One cycle of a busy core that is not cancelled. -/
def stepBusy : Core :=
  match s.state with
  | .idle => s
  | .fetch => s.stepFetch wiring
  | .loadRequest =>
    if s.requestFire io then
      { s with graphInputReadsAccepted := s.graphInputReadsAccepted + 1, state := .loadResponse }
    else s
  | .loadResponse => if s.responseFire io then s.stepLoaded wiring io else s
  | .storeRequest =>
    if s.requestFire io then
      { s with graphOutputWritesAccepted := s.graphOutputWritesAccepted + 1, state := .storeResponse }
    else s
  | .storeResponse => if s.responseFire io then s.stepStored wiring io else s

/-- The registers when a run starts. -/
def started : Core where
  busy := true
  outputIndex := 0
  programCounter := 0
  values := fun _ => 0
  cycleCount := 0
  checksum := 0
  graphInputReadsAccepted := 0
  graphOutputWritesAccepted := 0
  cancelRequested := false
  state := .loadRequest

/-- One clock cycle. -/
def step : Core :=
  if s.cancelling io && s.busy then
    if !io.pending then { s with busy := false, cancelRequested := false, state := .idle }
    else { s with cancelRequested := true }
  else if s.busy then { s.stepBusy wiring io with cycleCount := s.cycleCount + 1 }
  else if io.start then started
  else s

/-- The registers after reset. -/
def reset : Core where
  busy := false
  outputIndex := 0
  programCounter := 0
  values := fun _ => 0
  cycleCount := 0
  checksum := 0
  graphInputReadsAccepted := 0
  graphOutputWritesAccepted := 0
  cancelRequested := false
  state := .idle

end Core

end Raveil.Device
