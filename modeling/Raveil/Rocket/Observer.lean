import Mathlib.Data.BitVec

/-! The lifecycle ledger of the Rocket core: the registers of the observer and what one event does to them. -/
namespace Raveil.Rocket

inductive Event where
  | allocate
  | coreAttempt
  | coreReplay
  | dcacheRetry
  | aAccept
  | dComplete
  | dError
  | retire
  | storeAuthorize
  | kill
  | exception
  | redirect
  | rollback
  | resetInvalidate
  deriving DecidableEq

/-- The event of a code; there is none from `Count` on. -/
def Event.ofCode (code : BitVec 4) : Option Event :=
  [.allocate, .coreAttempt, .coreReplay, .dcacheRetry, .aAccept, .dComplete, .dError, .retire, .storeAuthorize,
    .kill, .exception, .redirect, .rollback, .resetInvalidate][code.toNat]?

inductive Classification where
  | none
  | committedLoad
  | committedStore
  | nonCommitted
  | unknown
  | violation
  deriving DecidableEq

inductive Violation where
  | none
  | missingMetadata
  | unexpectedEvent
  | tokenMismatch
  | duplicateToken
  | duplicateOutcome
  | invalidTransition
  | postTerminalSideEffect
  | sequenceExhausted
  | epochExhausted
  | staleEpoch
  deriving DecidableEq

/-- The inputs of one clock cycle; `e` and `q` are the widths of an epoch and of a sequence number. -/
structure Input (e q : ℕ) where
  eventValid : Bool
  eventKind : BitVec 4
  metadataPresent : Bool
  eventEpoch : BitVec e
  eventSequence : BitVec q
  eventStore : Bool
  eventPc : BitVec 64

/-- The registers of the active token. -/
structure Token (e q : ℕ) where
  epoch : BitVec e
  sequence : BitVec q
  store : Bool
  pc : BitVec 64
  coreAttempt : Bool
  aAccepted : Bool
  dCompleted : Bool
  retired : Bool
  storeAuthorized : Bool

/-- The registers that decide about tokens and count their ends. -/
structure Ledger (e q : ℕ) where
  currentEpoch : BitVec e
  nextSequence : BitVec q
  sequenceExhausted : Bool
  active : Bool
  token : Token e q
  allocatedCount : BitVec 32
  dCompletedCount : BitVec 32
  retireCount : BitVec 32
  storeAuthorizedCount : BitVec 32
  committedLoadCount : BitVec 32
  committedStoreCount : BitVec 32
  nonCommittedCount : BitVec 32

structure Observer (e q : ℕ) extends Ledger e q where
  epochExhausted : Bool
  terminalValid : Bool
  terminalEpoch : BitVec e
  terminalSequence : BitVec q
  terminalAAccepted : Bool
  terminalFatal : Bool
  coreAttemptCount : BitVec 32
  coreReplayCount : BitVec 32
  dcacheRetryCount : BitVec 32
  aAcceptedCount : BitVec 32
  unknownCount : BitVec 32
  violationCount : BitVec 32
  lastClassification : Classification
  lastViolation : Violation
  lastEpoch : BitVec e
  lastSequence : BitVec q
  lastPc : BitVec 64

variable {e q : ℕ}

def Token.reset : Token e q where
  epoch := 0
  sequence := 0
  store := false
  pc := 0
  coreAttempt := false
  aAccepted := false
  dCompleted := false
  retired := false
  storeAuthorized := false

def Ledger.reset : Ledger e q where
  currentEpoch := 1
  nextSequence := 1
  sequenceExhausted := false
  active := false
  token := .reset
  allocatedCount := 0
  dCompletedCount := 0
  retireCount := 0
  storeAuthorizedCount := 0
  committedLoadCount := 0
  committedStoreCount := 0
  nonCommittedCount := 0

namespace Observer

def reset : Observer e q where
  toLedger := .reset
  epochExhausted := false
  terminalValid := false
  terminalEpoch := 0
  terminalSequence := 0
  terminalAAccepted := false
  terminalFatal := false
  coreAttemptCount := 0
  coreReplayCount := 0
  dcacheRetryCount := 0
  aAcceptedCount := 0
  unknownCount := 0
  violationCount := 0
  lastClassification := .none
  lastViolation := .none
  lastEpoch := 0
  lastSequence := 0
  lastPc := 0

/- In this section `s` has the registers as they are read, and `t` what has been assigned to them so far. -/
variable (s : Observer e q) (io : Input e q)

def eventMatchesActive : Bool :=
  s.active && io.metadataPresent && io.eventEpoch == s.token.epoch && io.eventSequence == s.token.sequence

def eventMatchesTerminal : Bool :=
  s.terminalValid && io.metadataPresent && io.eventEpoch == s.terminalEpoch && io.eventSequence == s.terminalSequence

def recordViolation (code : Violation) (unknown : Bool) (t : Observer e q) : Observer e q :=
  { t with
    violationCount := s.violationCount + 1
    unknownCount := if unknown then s.unknownCount + 1 else t.unknownCount
    lastClassification := if unknown then .unknown else .violation
    lastViolation := code
    lastEpoch := io.eventEpoch
    lastSequence := io.eventSequence }

def terminalize (fatal : Bool) (t : Observer e q) : Observer e q :=
  { t with
    active := false
    terminalValid := true
    terminalEpoch := s.token.epoch
    terminalSequence := s.token.sequence
    terminalAAccepted := s.token.aAccepted
    terminalFatal := fatal
    nonCommittedCount := s.nonCommittedCount + 1
    lastClassification := .nonCommitted
    lastViolation := .none
    lastEpoch := s.token.epoch
    lastSequence := s.token.sequence
    lastPc := s.token.pc }

/-- The last branch of `Allocate`. -/
def take : Observer e q :=
  { s with
    active := true
    token := {
      epoch := io.eventEpoch
      sequence := io.eventSequence
      store := io.eventStore
      pc := io.eventPc
      coreAttempt := false
      aAccepted := false
      dCompleted := false
      retired := false
      storeAuthorized := false }
    allocatedCount := s.allocatedCount + 1
    lastClassification := .none
    lastViolation := .none
    lastEpoch := io.eventEpoch
    lastSequence := io.eventSequence
    lastPc := io.eventPc
    sequenceExhausted := if io.eventSequence = BitVec.allOnes q then true else s.sequenceExhausted
    nextSequence := if io.eventSequence = BitVec.allOnes q then s.nextSequence else io.eventSequence + 1 }

def allocate : Observer e q :=
  if !io.metadataPresent then s.recordViolation io .missingMetadata true s
  else if s.active then s.recordViolation io .duplicateToken false s
  else if s.sequenceExhausted then s.recordViolation io .sequenceExhausted false s
  else if s.epochExhausted then s.recordViolation io .epochExhausted false s
  else if io.eventEpoch ≠ s.currentEpoch then s.recordViolation io .staleEpoch false s
  else if io.eventSequence ≠ s.nextSequence then s.recordViolation io .duplicateToken false s
  else s.take io

def validDCompletion (kind : Event) : Bool := kind == .dComplete && s.token.aAccepted && !s.token.dCompleted

def validRetirement (kind : Event) : Bool := kind == .retire && !s.token.retired

def validStoreAuthorization (kind : Event) : Bool :=
  kind == .storeAuthorize && s.token.store && !s.token.storeAuthorized

def commitEligibleEvent (kind : Event) : Bool :=
  s.validDCompletion kind || s.validRetirement kind || s.validStoreAuthorization kind

def loadWillCommit (kind : Event) : Bool :=
  !s.token.store && (s.token.dCompleted || s.validDCompletion kind) &&
    (s.token.retired || s.validRetirement kind) && s.commitEligibleEvent kind

def storeWillCommit (kind : Event) : Bool :=
  s.token.store && (s.token.dCompleted || s.validDCompletion kind) &&
    (s.token.retired || s.validRetirement kind) &&
    (s.token.storeAuthorized || s.validStoreAuthorization kind) && s.commitEligibleEvent kind

/-- `Redirect` and `ResetInvalidate`. -/
def newEpoch : Observer e q :=
  let t := s.terminalize true s
  if s.currentEpoch = BitVec.allOnes e then s.recordViolation io .epochExhausted false { t with epochExhausted := true }
  else { t with
    currentEpoch := s.currentEpoch + 1
    nextSequence := 1
    sequenceExhausted := false }

/-- The switch on the kind of an event of the active token. -/
def effect : Event → Observer e q
  | .allocate => s
  | .coreAttempt =>
    if s.token.coreAttempt then s.recordViolation io .invalidTransition false s
    else { s with token := { s.token with coreAttempt := true }, coreAttemptCount := s.coreAttemptCount + 1 }
  | .coreReplay =>
    if !s.token.coreAttempt then s.recordViolation io .invalidTransition false s
    else { s with coreReplayCount := s.coreReplayCount + 1 }
  | .dcacheRetry =>
    if !s.token.coreAttempt || s.token.dCompleted then s.recordViolation io .invalidTransition false s
    else { s with dcacheRetryCount := s.dcacheRetryCount + 1 }
  | .aAccept =>
    if !s.token.coreAttempt || s.token.aAccepted then s.recordViolation io .invalidTransition false s
    else { s with token := { s.token with aAccepted := true }, aAcceptedCount := s.aAcceptedCount + 1 }
  | .dComplete =>
    if !s.token.aAccepted || s.token.dCompleted then s.recordViolation io .invalidTransition false s
    else { s with token := { s.token with dCompleted := true }, dCompletedCount := s.dCompletedCount + 1 }
  | .dError =>
    if !s.token.aAccepted || s.token.dCompleted then s.recordViolation io .invalidTransition false s
    else s.terminalize true
      { s with token := { s.token with dCompleted := true }, dCompletedCount := s.dCompletedCount + 1 }
  | .retire =>
    if s.token.retired then s.recordViolation io .duplicateOutcome false s
    else { s with token := { s.token with retired := true }, retireCount := s.retireCount + 1 }
  | .storeAuthorize =>
    if !s.token.store || s.token.storeAuthorized then s.recordViolation io .invalidTransition false s
    else { s with
      token := { s.token with storeAuthorized := true }
      storeAuthorizedCount := s.storeAuthorizedCount + 1 }
  | .kill => s.terminalize false s
  | .exception => s.terminalize true s
  | .rollback => s.terminalize true s
  | .redirect => s.newEpoch io
  | .resetInvalidate => s.newEpoch io

/-- The commit that may follow the switch in the same cycle. -/
def commit (kind : Event) (t : Observer e q) : Observer e q :=
  if s.loadWillCommit kind || s.storeWillCommit kind then
    { t with
      active := false
      terminalValid := true
      terminalEpoch := s.token.epoch
      terminalSequence := s.token.sequence
      terminalAAccepted := s.token.aAccepted
      terminalFatal := false
      committedLoadCount :=
        if s.loadWillCommit kind then s.committedLoadCount + 1 else t.committedLoadCount
      committedStoreCount :=
        if s.loadWillCommit kind then t.committedStoreCount else s.committedStoreCount + 1
      lastClassification := if s.loadWillCommit kind then .committedLoad else .committedStore
      lastViolation := .none
      lastEpoch := s.token.epoch
      lastSequence := s.token.sequence
      lastPc := s.token.pc }
  else t

def isDOutcome (kind : Event) : Bool := kind == .dComplete || kind == .dError

/-- An event that has its metadata and does not match the active token. -/
def unmatched (kind : Event) : Observer e q :=
  if io.eventEpoch ≠ s.currentEpoch then
    let t := s.recordViolation io .staleEpoch false s
    if isDOutcome kind then { t with dCompletedCount := s.dCompletedCount + 1 } else t
  else if s.eventMatchesTerminal io then
    if isDOutcome kind && s.terminalAAccepted && s.terminalFatal then
      s.recordViolation io .postTerminalSideEffect false { s with dCompletedCount := s.dCompletedCount + 1 }
    else s.recordViolation io .duplicateOutcome false s
  else s.recordViolation io .tokenMismatch false s

/-- One clock cycle. -/
def step : Observer e q :=
  if io.eventValid then
    match Event.ofCode io.eventKind with
    | none => s.recordViolation io .unexpectedEvent false s
    | some kind =>
      if kind = .allocate then s.allocate io
      else if !io.metadataPresent then s.recordViolation io .missingMetadata true s
      else if s.eventMatchesActive io then s.commit kind (s.effect io kind)
      else s.unmatched io kind
  else s

/-- The module's own assertions. -/
structure Asserts : Prop where
  retired : s.committedLoadCount + s.committedStoreCount ≤ s.retireCount
  completed : s.committedLoadCount + s.committedStoreCount ≤ s.dCompletedCount
  authorized : s.committedStoreCount ≤ s.storeAuthorizedCount
  allocated : s.allocatedCount = s.committedLoadCount + s.committedStoreCount + s.nonCommittedCount +
    (if s.active then 1 else 0)
  epoch : s.active = true → s.token.epoch = s.currentEpoch

end Observer

end Raveil.Rocket
