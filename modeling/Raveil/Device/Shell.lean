import Raveil.Device.Assertions

/-! The AXI4-Lite shell over the region: one transaction at a time, applied after its response. -/
namespace Raveil.Device

/-- The codes that the shell gives in `bresp` and `rresp`. -/
inductive Response
  | okay | slverr | decerr
  deriving DecidableEq

/-- `mutationKind`, each kind named after the wire of the core that it drives. -/
inductive Mutation
  | none | configClear | configWrite | configCommit | programClear | programWrite | programCommit
  | inputStage | start | cancel
  deriving DecidableEq

/-- What the master drives in one cycle. -/
structure Master where
  awaddr : BitVec 32
  awvalid : Bool
  wdata : BitVec 32
  wstrb : BitVec 4
  wvalid : Bool
  bready : Bool
  araddr : BitVec 32
  arvalid : Bool
  rready : Bool

/-- The registers of `GraphDeviceAxi4LiteTop` and of the core in it. -/
structure Shell where
  haveAw : Bool
  savedAw : BitVec 32
  haveW : Bool
  savedW : BitVec 32
  savedStrb : BitVec 4
  haveB : Bool
  savedBresp : Response
  haveR : Bool
  savedRdata : BitVec 32
  savedRresp : Response
  pendingReset : Bool
  resetBarrier : Bool
  pendingMutation : Bool
  mutationApply : Bool
  mutationBarrier : Bool
  mutationKind : Mutation
  mutationAddress : BitVec 9
  mutationData : BitVec 32
  inputActive : Bool
  inputIssued : Bool
  stagedWords : BitVec 10
  outputActive : Bool
  outputIssued : Bool
  outputAddress : BitVec 8
  completedSticky : Bool
  cancelledSticky : Bool
  transportFault : Bool
  outputSuppressed : Bool
  core : Region

section Address

variable (a : BitVec 32)

def execution : Bool := a < 0x2000
def configuration : Bool := a ≥ 0x2000 && a < 0x3000
def programming : Bool := a ≥ 0x3000 && a < 0x4000

/-- The word of an address in its window: execution spans 8 KiB, each install namespace 4 KiB. -/
def wordOf : BitVec 11 := if execution a then a.extractLsb 12 2 else (a.extractLsb 11 2).setWidth 11

def aligned : Bool := a.extractLsb 1 0 == 0

end Address

namespace Shell

variable (s : Shell) (io : Master)

/-- The core as it shows itself: `resetBarrier` is its asynchronous reset. -/
def device : Region := if s.resetBarrier then Region.reset else s.core

def applies (kind : Mutation) : Bool := s.mutationApply && s.mutationKind == kind

/-- The wires into the core. -/
def coreInput : RegionInput where
  inputStageValid := s.inputActive && !s.inputIssued
  inputStageAddress := s.mutationAddress
  inputStageData := s.mutationData
  inputStageResponseReady := s.inputActive && s.inputIssued
  fixtureStageStart := false
  fixtureStageSeed := 0
  start := s.applies .start
  cancel := s.applies .cancel
  outputValidationValid := s.outputActive && !s.outputIssued
  outputValidationAddress := s.outputAddress
  outputValidationResponseReady := s.outputActive && s.outputIssued
  config := ⟨s.applies .configClear, s.applies .configWrite, s.applies .configCommit,
    s.mutationAddress.extractLsb 4 0, s.mutationData⟩
  program := ⟨s.applies .programClear, s.applies .programWrite, s.applies .programCommit,
    s.mutationAddress.extractLsb 5 0, s.mutationData⟩

section Handshake

def busy : Bool :=
  s.haveAw || s.haveW || s.haveB || s.haveR || s.pendingReset || s.pendingMutation || s.resetBarrier ||
    s.mutationApply || s.mutationBarrier || s.inputActive || s.outputActive

def awready : Bool :=
  !s.haveAw && !s.haveB && !s.haveR && !s.pendingReset && !s.pendingMutation && !s.resetBarrier &&
    !s.mutationApply && !s.mutationBarrier && !s.inputActive && !s.outputActive

def wready : Bool :=
  !s.haveW && !s.haveB && !s.haveR && !s.pendingReset && !s.pendingMutation && !s.resetBarrier &&
    !s.mutationApply && !s.mutationBarrier && !s.inputActive && !s.outputActive

/-- Either write channel goes before a read. -/
def arready : Bool := !s.busy && !io.awvalid && !io.wvalid

def takesAw : Bool := io.awvalid && s.awready
def takesW : Bool := io.wvalid && s.wready
def takesAr : Bool := io.arvalid && s.arready io
def givesB : Bool := s.haveB && io.bready
def givesR : Bool := s.haveR && io.rready

end Handshake

section Write

/-- A write is decoded in the cycle after both of its channels are there. -/
def decodes : Bool := s.haveAw && s.haveW && !s.haveB && !s.resetBarrier

def writeInAperture : Bool := s.savedAw < 0x4000
def full : Bool := s.savedStrb == 0xf
def resetWrite : Bool := s.savedAw == 0x0010 && s.savedW == 4 && s.full

def inputPayload : Bool :=
  execution s.savedAw && wordOf s.savedAw ≥ 256 && wordOf s.savedAw < 580 &&
    wordOf s.savedAw - 256 == s.stagedWords.setWidth 11 && !s.device.core.busy

def executionStart : Bool :=
  execution s.savedAw && wordOf s.savedAw == 4 && s.savedW == 1 && s.stagedWords == 324 &&
    !s.device.core.busy && s.device.config.installed && !s.device.config.loading && !s.device.config.fault &&
    s.device.program.installed && !programLoading s.device.program && !s.device.program.fault

def executionCancel : Bool :=
  execution s.savedAw && wordOf s.savedAw == 4 && s.savedW == 2 && s.device.core.busy

def configControl : Bool :=
  configuration s.savedAw && wordOf s.savedAw == 4 && (s.savedW == 1 || s.savedW == 2)

def configPayload : Bool := configuration s.savedAw && wordOf s.savedAw ≥ 256 && wordOf s.savedAw < 272

def programControl : Bool :=
  programming s.savedAw && wordOf s.savedAw == 4 && (s.savedW == 1 || s.savedW == 2)

def programPayload : Bool := programming s.savedAw && wordOf s.savedAw ≥ 256 && wordOf s.savedAw < 288

def mutation : Bool :=
  s.full && (s.configControl || s.configPayload || s.programControl || s.programPayload || s.inputPayload ||
    s.executionStart || s.executionCancel)

def acceptedReset : Bool := aligned s.savedAw && s.writeInAperture && s.resetWrite
def acceptedMutation : Bool := aligned s.savedAw && s.writeInAperture && s.mutation

/-- The code that a decoded write is answered with. -/
def writeResponse : Response :=
  if !aligned s.savedAw || !s.writeInAperture then .decerr
  else if s.acceptedReset || s.acceptedMutation then .okay
  else .slverr

def decodedKind : Mutation :=
  if s.configControl then if s.savedW == 1 then .configClear else .configCommit
  else if s.configPayload then .configWrite
  else if s.programControl then if s.savedW == 1 then .programClear else .programCommit
  else if s.programPayload then .programWrite
  else if s.inputPayload then .inputStage
  else if s.executionStart then .start
  else .cancel

/-- A control word that the shell has no use for. -/
def controlFault : Bool :=
  aligned s.savedAw && s.writeInAperture && s.full && execution s.savedAw && wordOf s.savedAw == 4 &&
    !s.resetWrite && !s.executionStart && !s.executionCancel

end Write

section Read

variable (a : BitVec 32)

def readInAperture : Bool := execution a || configuration a || programming a

def identity : BitVec 32 :=
  if execution a then 0x52560101 else if configuration a then 0x52564901 else 0x52565001

def executionFault : Bool := s.transportFault || s.device.config.fault || s.device.program.fault
def authorizedOutput : Bool := s.device.outputValid && !s.outputSuppressed
def completedStatus : Bool := s.completedSticky || s.device.done
def cancelledStatus : Bool := s.cancelledSticky || s.device.cancelled

def status : BitVec 32 :=
  if execution a then
    (BitVec.ofBool s.authorizedOutput ++ BitVec.ofBool s.executionFault ++ BitVec.ofBool s.cancelledStatus ++
      BitVec.ofBool s.completedStatus ++ BitVec.ofBool s.device.core.busy).setWidth 32
  else if configuration a then
    (BitVec.ofBool s.device.config.fault ++ BitVec.ofBool s.device.config.installed ++
      BitVec.ofBool s.device.config.loading).setWidth 32
  else
    (BitVec.ofBool s.device.program.fault ++ BitVec.ofBool s.device.program.installed ++
      BitVec.ofBool (programLoading s.device.program)).setWidth 32

def count : BitVec 32 :=
  if execution a then if wordOf a == 6 then 324 else 256
  else if configuration a then s.device.config.nextIndex.setWidth 32
  else s.device.program.payloadCount.setWidth 32

def digestWord : Bool := (configuration a || programming a) && wordOf a ≥ 16 && wordOf a < 24
def checksumWord : Bool := execution a && s.authorizedOutput && (wordOf a == 40 || wordOf a == 41)
def outputWord : Bool := execution a && wordOf a ≥ 1024 && wordOf a < 1280

def readable : Bool :=
  wordOf a == 0 || wordOf a == 1 || wordOf a == 5 || wordOf a == 6 || (execution a && wordOf a == 7) ||
    digestWord a || s.checksumWord a

def digestData : BitVec 32 :=
  let index : Fin 8 := ((wordOf a - 16).extractLsb 2 0).toFin
  if configuration a then s.device.config.digest index else s.device.program.digest index

/-- A read that goes on to the scratchpad; every other read is answered from the registers. -/
def readsOutput : Bool := aligned a && outputWord a && s.authorizedOutput && !s.device.core.busy

def readResponse : Response :=
  if !aligned a || !readInAperture a then .decerr else if s.readable a then .okay else .slverr

def readData : BitVec 32 :=
  if wordOf a == 0 then identity a
  else if wordOf a == 1 then 1
  else if wordOf a == 5 then s.status a
  else if wordOf a == 6 || (execution a && wordOf a == 7) then s.count a
  else if s.checksumWord a then
    if wordOf a == 40 then s.device.core.checksum.extractLsb 31 0 else s.device.core.checksum.extractLsb 63 32
  else s.digestData a

end Read

section Step

/-- The core takes the staged word, and gives back that it did. -/
def issuesInput : Bool := s.inputActive && !s.inputIssued && s.device.inputStageReady
def closesInput : Bool := s.inputActive && s.inputIssued && s.device.inputStageResponseValid

def issuesOutput : Bool :=
  s.outputActive && !s.outputIssued && s.device.outputValidationReady s.coreInput.toControl

def closesOutput : Bool := s.outputActive && s.outputIssued && s.device.outputValidationResponseValid

/-- The master accepts the response of a mutation. -/
def releases : Bool := s.givesB io && s.pendingMutation

def beginsOutput : Bool := s.takesAr io && s.readsOutput io.araddr
def answersRead : Bool := s.takesAr io && !s.readsOutput io.araddr

/-- One clock cycle; in each register the last assignment of the source stands first. -/
def step : Shell where
  haveAw := if s.decodes then false else if s.takesAw io then true else s.haveAw
  savedAw := if s.takesAw io then io.awaddr else s.savedAw
  haveW := if s.decodes then false else if s.takesW io then true else s.haveW
  savedW := if s.takesW io then io.wdata else s.savedW
  savedStrb := if s.takesW io then io.wstrb else s.savedStrb
  haveB := if s.decodes then true else if s.givesB io then false else s.haveB
  savedBresp := if s.decodes then s.writeResponse else s.savedBresp
  haveR :=
    if s.answersRead io then true else if s.closesOutput then true else if s.givesR io then false else s.haveR
  savedRdata :=
    if s.answersRead io then s.readData io.araddr
    else if s.closesOutput then s.device.scratchpad.responseReadData
    else s.savedRdata
  savedRresp :=
    if s.answersRead io then s.readResponse io.araddr
    else if s.closesOutput then if s.device.scratchpad.responseError then .slverr else .okay
    else s.savedRresp
  pendingReset :=
    if s.decodes && s.acceptedReset then true
    else if s.givesB io && s.pendingReset then false
    else s.pendingReset
  resetBarrier := if s.resetBarrier then false else s.givesB io && s.pendingReset
  pendingMutation :=
    if s.decodes && s.acceptedMutation then true else if s.releases io then false else s.pendingMutation
  mutationApply := if s.mutationApply then false else s.releases io && s.mutationKind != .inputStage
  mutationBarrier := if s.mutationBarrier then false else s.releases io && s.mutationKind != .inputStage
  mutationKind := if s.decodes && s.acceptedMutation then s.decodedKind else s.mutationKind
  mutationAddress :=
    if s.decodes && s.acceptedMutation then (wordOf s.savedAw - 256).extractLsb 8 0 else s.mutationAddress
  mutationData := if s.decodes && s.acceptedMutation then s.savedW else s.mutationData
  inputActive :=
    if s.resetBarrier then false
    else if s.closesInput then false
    else if s.releases io && s.mutationKind == .inputStage then true
    else s.inputActive
  inputIssued :=
    if s.resetBarrier then false
    else if s.closesInput then false
    else if s.issuesInput then true
    else if s.releases io && s.mutationKind == .inputStage then false
    else s.inputIssued
  stagedWords :=
    if s.resetBarrier then 0
    else if s.applies .start then 0
    else if s.closesInput && !s.device.scratchpad.responseError then s.stagedWords + 1
    else s.stagedWords
  outputActive :=
    if s.resetBarrier then false
    else if s.beginsOutput io then true
    else if s.closesOutput then false
    else s.outputActive
  outputIssued :=
    if s.resetBarrier then false
    else if s.beginsOutput io then false
    else if s.closesOutput then false
    else if s.issuesOutput then true
    else s.outputIssued
  outputAddress :=
    if s.beginsOutput io then (wordOf io.araddr - 1024).extractLsb 7 0 else s.outputAddress
  completedSticky :=
    if s.resetBarrier then false
    else if s.applies .cancel then false
    else if s.applies .start then false
    else if s.device.done then true
    else s.completedSticky
  cancelledSticky :=
    if s.resetBarrier then false
    else if s.applies .cancel && !s.device.core.busy then true
    else if s.applies .start then false
    else if s.device.cancelled then true
    else s.cancelledSticky
  transportFault :=
    if s.resetBarrier then false
    else if s.decodes && s.controlFault then true
    else if s.applies .start then false
    else if s.closesOutput && s.device.scratchpad.responseError then true
    else if s.closesInput && s.device.scratchpad.responseError then true
    else s.transportFault
  outputSuppressed :=
    if s.resetBarrier then false
    else if s.applies .cancel then true
    else if s.applies .start then false
    else s.outputSuppressed
  core := if s.resetBarrier then Region.reset else s.core.step s.coreInput

/-- The registers after `aresetn`; three of them have no reset value. -/
def reset (aw w : BitVec 32) (strb : BitVec 4) : Shell where
  haveAw := false
  savedAw := aw
  haveW := false
  savedW := w
  savedStrb := strb
  haveB := false
  savedBresp := .okay
  haveR := false
  savedRdata := 0
  savedRresp := .okay
  pendingReset := false
  resetBarrier := false
  pendingMutation := false
  mutationApply := false
  mutationBarrier := false
  mutationKind := .none
  mutationAddress := 0
  mutationData := 0
  inputActive := false
  inputIssued := false
  stagedWords := 0
  outputActive := false
  outputIssued := false
  outputAddress := 0
  completedSticky := false
  cancelledSticky := false
  transportFault := false
  outputSuppressed := false
  core := Region.reset

end Step

end Shell

end Raveil.Device
