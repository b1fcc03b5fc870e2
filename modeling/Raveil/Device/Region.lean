import Raveil.Graph.Installer
import Raveil.Device.Core

/-! The region: one scratchpad shared by staging, execution and validation, with the two installers. -/
namespace Raveil.Device
open Raveil.Graph (Installer InstallerInput)

section Scratchpad

/-- The registers of `OwnedFixedLatencyScratchpad(1024, 580)`. -/
structure Scratchpad where
  storage : BitVec 10 → BitVec 32
  responseValid : Bool
  responseReadData : BitVec 32
  responseError : Bool
  responseWrite : Bool
  acceptedCount : BitVec 32
  completedCount : BitVec 32

/-- Four bytes, each from the new word or from the old one. -/
def mergedBytes (mask : BitVec 4) (data old : BitVec 32) : BitVec 32 :=
  let byte (lane : ℕ) : BitVec 8 :=
    if mask.getLsbD lane then data.extractLsb' (8 * lane) 8 else old.extractLsb' (8 * lane) 8
  byte 3 ++ byte 2 ++ byte 1 ++ byte 0

namespace Scratchpad

variable (s : Scratchpad)

def requestReady : Bool := !s.responseValid

/-- The registers after a request is accepted. -/
def accept (request : Request) : Scratchpad :=
  let requestError := !(request.address < 580)
  { s with
    responseValid := true
    responseReadData := if !requestError && !request.write then s.storage request.address else 0
    responseError := requestError
    responseWrite := request.write
    acceptedCount := s.acceptedCount + 1
    storage := if !requestError && request.write then
        Function.update s.storage request.address
          (mergedBytes request.writeMask request.writeData (s.storage request.address))
      else s.storage }

/-- One clock cycle. -/
def step (requestValid : Bool) (request : Request) (responseReady : Bool) : Scratchpad :=
  if requestValid && s.requestReady then s.accept request
  else if s.responseValid && responseReady then
    { s with responseValid := false, completedCount := s.completedCount + 1 }
  else s

def reset : Scratchpad where
  storage := fun _ => 0
  responseValid := false
  responseReadData := 0
  responseError := false
  responseWrite := false
  acceptedCount := 0
  completedCount := 0

end Scratchpad

end Scratchpad

section Provider

/-- The registers of `RaveilFixtureInputProvider`. -/
structure Provider where
  active : Bool
  waitingForResponse : Bool
  seed : BitVec 32
  index : BitVec 9
  accepted : BitVec 10
  completed : BitVec 10
  done : Bool

structure ProviderInput where
  start : Bool
  seed : BitVec 32
  requestReady : Bool
  responseValid : Bool
  responseError : Bool

namespace Provider

variable (s : Provider) (io : ProviderInput)

def requestValid : Bool := s.active && !s.waitingForResponse
def responseReady : Bool := s.active && s.waitingForResponse
def ready : Bool := !s.active && !s.waitingForResponse

def requestData : BitVec 32 :=
  let seedProduct := s.seed * 2654435761
  let indexedProduct := ((s.index.setWidth 10 + 1).setWidth 32) * seedProduct
  let shiftedIndex := s.index.setWidth 32 <<< (s.seed.extractLsb 2 0).toNat
  let seedAddend := s.seed * 17
  indexedProduct ^^^ shiftedIndex ^^^ seedAddend

def requestFire : Bool := s.active && !s.waitingForResponse && io.requestReady
def responseFire : Bool := s.active && s.waitingForResponse && io.responseValid && !io.responseError

/-- `io.release`: the response to the last word. -/
def finalResponse : Bool := s.responseFire io && s.index == 323

/-- The registers after `io.start`. -/
def begin (seed : BitVec 32) : Provider :=
  { s with active := true, waitingForResponse := false, seed := seed, index := 0, accepted := 0, completed := 0 }

/-- One clock cycle; later assignments win. -/
def step : Provider :=
  let t := { (if io.start then s.begin io.seed else s) with done := false }
  let t := if s.requestFire io then { t with waitingForResponse := true, accepted := s.accepted + 1 } else t
  if s.responseFire io then
    let t := { t with waitingForResponse := false, completed := s.completed + 1 }
    if s.finalResponse io then { t with active := false, done := true } else { t with index := s.index + 1 }
  else t

def reset : Provider where
  active := false
  waitingForResponse := false
  seed := 0
  index := 0
  accepted := 0
  completed := 0
  done := false

end Provider

end Provider

/-- The command wires of an installer. -/
structure Command (w : ℕ) where
  clear : Bool
  write : Bool
  commit : Bool
  address : BitVec w
  data : BitVec 32

def Command.config (c : Command 5) (busy : Bool) : ConfigInput :=
  ⟨c.clear, c.write, c.commit, c.address, c.data, busy⟩

def Command.program (c : Command 6) (busy : Bool) : InstallerInput :=
  ⟨c.clear, c.write, c.commit, c.address, c.data, busy⟩

/-- The registers of `StaticStencilRegion` and of the modules in it. -/
structure Region where
  scratchpad : Scratchpad
  provider : Provider
  core : Core
  config : ConfigInstaller
  program : Installer
  outputValid : Bool
  done : Bool
  cancelled : Bool
  fixtureMode : Bool
  legacyMode : Bool
  fixtureCanStage : Bool
  fixtureValidationResponses : BitVec 9
  controlResponseIsValidation : Bool

/-- Every input but the commands. -/
structure Control where
  inputStageValid : Bool
  inputStageAddress : BitVec 9
  inputStageData : BitVec 32
  inputStageResponseReady : Bool
  fixtureStageStart : Bool
  fixtureStageSeed : BitVec 32
  start : Bool
  cancel : Bool
  outputValidationValid : Bool
  outputValidationAddress : BitVec 8
  outputValidationResponseReady : Bool

structure RegionInput extends Control where
  config : Command 5
  program : Command 6

namespace Region

variable (s : Region) (io : Control)

def wiring : Wiring := ⟨s.config.shape, s.program.programVersion, s.program.programLength, s.program.program⟩

/-- `busy` of the installers. -/
def installerBusy : Bool := s.core.busy || s.scratchpad.responseValid || s.provider.active

def fixtureSelected : Bool := !s.core.busy && s.provider.active

def controlStageSelected : Bool := !s.core.busy && !s.fixtureSelected && io.inputStageValid

def controlValidationSelected : Bool :=
  !s.core.busy && !s.fixtureSelected && !io.inputStageValid && io.outputValidationValid && s.outputValid

def configReady : Bool := s.config.installed && !s.config.fault
def programReady : Bool := s.program.installed && !s.program.fault

def directStart : Bool :=
  io.start && !s.core.busy && !s.scratchpad.responseValid && !s.provider.active && s.configReady &&
    s.programReady

def inputStageReady : Bool :=
  !s.fixtureMode && !s.core.busy && !s.provider.active && s.scratchpad.requestReady

def inputStageResponseValid : Bool :=
  !s.core.busy && !s.provider.active && s.scratchpad.responseValid && !s.controlResponseIsValidation

def outputValidationReady : Bool :=
  !s.core.busy && !s.provider.active && !io.inputStageValid && s.outputValid && s.scratchpad.requestReady

def outputValidationResponseValid : Bool :=
  !s.core.busy && !s.provider.active && s.scratchpad.responseValid && s.controlResponseIsValidation

def fixtureStageReady : Bool :=
  !s.legacyMode && s.fixtureCanStage && !s.core.busy && !s.scratchpad.responseValid && s.provider.ready &&
    !io.inputStageValid && !io.outputValidationValid

def providerInput : ProviderInput where
  start := io.fixtureStageStart && s.fixtureStageReady io
  seed := io.fixtureStageSeed
  requestReady := s.fixtureSelected && s.scratchpad.requestReady
  responseValid := s.fixtureSelected && s.scratchpad.responseValid
  responseError := s.scratchpad.responseError

def graphStart : Bool :=
  (s.provider.finalResponse (s.providerInput io) || s.directStart io) && s.configReady && s.programReady

def coreInput : CoreInput where
  start := s.graphStart io
  cancel := io.cancel
  requestReady := s.scratchpad.requestReady
  responseValid := s.scratchpad.responseValid
  readData := s.scratchpad.responseReadData
  error := s.scratchpad.responseError
  pending := s.scratchpad.responseValid

def requestValid : Bool :=
  if s.core.busy then s.core.requestValid (s.coreInput io)
  else s.provider.requestValid || s.controlStageSelected io || s.controlValidationSelected io

def request : Request :=
  if s.core.busy then s.core.request s.wiring (s.coreInput io)
  else
    { write := s.fixtureSelected || s.controlStageSelected io
      address :=
        if s.fixtureSelected then s.provider.index.setWidth 10
        else if s.controlStageSelected io then io.inputStageAddress.setWidth 10
        else 324 + io.outputValidationAddress.setWidth 10
      writeData := if s.fixtureSelected then s.provider.requestData else io.inputStageData
      writeMask := if s.fixtureSelected || s.controlStageSelected io then 0xf else 0 }

def responseReady : Bool :=
  if s.core.busy then s.core.responseReady
  else if s.fixtureSelected then s.provider.responseReady
  else if s.controlResponseIsValidation then io.outputValidationResponseReady
  else io.inputStageResponseReady

def completion : Bool := s.core.completion s.wiring (s.coreInput io)
def cancellation : Bool := s.core.cancellation (s.coreInput io)

/-- A request that the memory takes from the executor in this cycle. -/
def accepted : Option Request :=
  if s.core.requestFire (s.coreInput io) then some (s.core.request s.wiring (s.coreInput io)) else none

/-- `outputValidReg`. -/
def outputValidNext : Bool :=
  if s.cancellation io then false
  else if s.completion io then true
  else if s.graphStart io then false
  else if io.inputStageValid && s.inputStageReady then false
  else s.outputValid

/-- A validation response that the host takes in fixture mode. -/
def fixtureValidated : Bool :=
  s.fixtureMode && s.outputValidationResponseValid && io.outputValidationResponseReady

/-- One clock cycle. -/
def step (io : RegionInput) : Region where
  scratchpad := s.scratchpad.step (s.requestValid io.toControl) (s.request io.toControl) (s.responseReady io.toControl)
  provider := s.provider.step (s.providerInput io.toControl)
  core := s.core.step s.wiring (s.coreInput io.toControl)
  config := s.config.step (io.config.config s.installerBusy)
  program := s.program.step (io.program.program s.installerBusy)
  outputValid := s.outputValidNext io.toControl
  done := s.completion io.toControl
  cancelled := s.cancellation io.toControl
  fixtureMode := s.fixtureMode || (io.fixtureStageStart && s.fixtureStageReady io.toControl)
  legacyMode := s.legacyMode || (io.inputStageValid && s.inputStageReady) ||
    (io.start && !s.core.busy && !s.provider.active)
  fixtureCanStage :=
    if s.fixtureValidated io.toControl && s.fixtureValidationResponses == 255 then true
    else if io.fixtureStageStart && s.fixtureStageReady io.toControl then false
    else s.fixtureCanStage
  fixtureValidationResponses :=
    if s.fixtureValidated io.toControl then
      if s.fixtureValidationResponses == 255 then 0 else s.fixtureValidationResponses + 1
    else if io.fixtureStageStart && s.fixtureStageReady io.toControl then 0
    else s.fixtureValidationResponses
  controlResponseIsValidation :=
    if !s.core.busy && s.requestValid io.toControl && s.scratchpad.requestReady then
      s.controlValidationSelected io.toControl
    else s.controlResponseIsValidation

/-- The registers after reset. -/
def reset : Region where
  scratchpad := .reset
  provider := .reset
  core := .reset
  config := .reset
  program := .reset
  outputValid := false
  done := false
  cancelled := false
  fixtureMode := false
  legacyMode := false
  fixtureCanStage := true
  fixtureValidationResponses := 0
  controlResponseIsValidation := false

/-- The state after a sequence of cycles. -/
def run (s : Region) (ios : List RegionInput) : Region := ios.foldl step s

theorem run_append (s : Region) (ios : List RegionInput) (io : RegionInput) :
    s.run (ios ++ [io]) = (s.run ios).step io := by
  rw [run, List.foldl_append]
  rfl

end Region

end Raveil.Device
