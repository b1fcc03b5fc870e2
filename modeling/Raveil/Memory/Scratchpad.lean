import Mathlib.Data.List.Induction
import Raveil.Device.Region

/-! The owned scratchpad for any size and any access policy: a memory behind one registered response. -/
namespace Raveil.Memory

/-- The module's parameters; it has `2 ^ w` physical words. -/
structure Config (w : ℕ) where
  validWords : ℕ
  allowRead : Bool := true
  allowWrite : Bool := true
  validWords_pos : 0 < validWords
  validWords_le : validWords ≤ 2 ^ w

structure Request (w : ℕ) where
  write : Bool
  address : BitVec w
  writeData : BitVec 32
  writeMask : BitVec 4
  initiator : BitVec 2
  phase : BitVec 3

@[ext] structure Response where
  readData : BitVec 32
  error : Bool
  write : Bool
  initiator : BitVec 2
  phase : BitVec 3
  deriving DecidableEq

/-- The inputs of one clock cycle. -/
structure Input (w : ℕ) where
  requestValid : Bool
  request : Request w
  responseReady : Bool

/-- The registers. The last three feed the assertions only. -/
structure Scratchpad (w : ℕ) where
  storage : BitVec w → BitVec 32
  responseValid : Bool
  response : Response
  acceptedCount : BitVec 32
  completedCount : BitVec 32
  requestStallCount : BitVec 32
  responseStallCount : BitVec 32
  acceptedPreviousCycle : Bool
  responseWasStalled : Bool
  previousResponse : Response

variable {w : ℕ} (cfg : Config w)

def Response.zero : Response where
  readData := 0
  error := false
  write := false
  initiator := 0
  phase := 0

def Config.inRange (request : Request w) : Bool := request.address.toNat < cfg.validWords

def Config.operationAllowed (request : Request w) : Bool :=
  if request.write then cfg.allowWrite else cfg.allowRead

def Config.requestError (request : Request w) : Bool := !cfg.inRange request || !cfg.operationAllowed request

namespace Scratchpad

variable (s : Scratchpad w) (io : Input w)

def reset : Scratchpad w where
  storage _ := 0
  responseValid := false
  response := .zero
  acceptedCount := 0
  completedCount := 0
  requestStallCount := 0
  responseStallCount := 0
  acceptedPreviousCycle := false
  responseWasStalled := false
  previousResponse := .zero

def requestReady : Bool := !s.responseValid

def accepts : Bool := io.requestValid && s.requestReady

def retires : Bool := s.responseValid && io.responseReady

/-- The word of storage after an accepted request. -/
def stored (request : Request w) : BitVec w → BitVec 32 :=
  if !cfg.requestError request && request.write then
    Function.update s.storage request.address
      (Device.mergedBytes request.writeMask request.writeData (s.storage request.address))
  else s.storage

/-- The response registers after an accepted request. -/
def answered (request : Request w) : Response where
  readData := if !cfg.requestError request && !request.write then s.storage request.address else 0
  error := cfg.requestError request
  write := request.write
  initiator := request.initiator
  phase := request.phase

/-- One clock cycle; an accepted request overrides what a retired response writes. -/
def step : Scratchpad w where
  storage := if s.accepts io then s.stored cfg io.request else s.storage
  responseValid := if s.accepts io then true else if s.retires io then false else s.responseValid
  response := if s.accepts io then s.answered cfg io.request else s.response
  acceptedCount := if s.accepts io then s.acceptedCount + 1 else s.acceptedCount
  completedCount := if s.retires io then s.completedCount + 1 else s.completedCount
  requestStallCount :=
    if io.requestValid && !s.requestReady then s.requestStallCount + 1 else s.requestStallCount
  responseStallCount :=
    if s.responseValid && !io.responseReady then s.responseStallCount + 1 else s.responseStallCount
  acceptedPreviousCycle := s.accepts io
  responseWasStalled := s.responseValid && !io.responseReady
  previousResponse := s.response

/-- The module's own assertions. -/
structure Asserts : Prop where
  counts : s.acceptedCount = s.completedCount + (if s.responseValid then 1 else 0)
  exclusive : ¬ (s.responseValid = true ∧ s.requestReady = true)
  available : s.acceptedPreviousCycle = true → s.responseValid = true
  held : s.responseWasStalled = true → s.responseValid = true
  stable : s.responseWasStalled = true → s.response = s.previousResponse

end Scratchpad

/-- A run: the registers, the requests that were accepted and the responses that were taken. -/
structure Session (w : ℕ) where
  state : Scratchpad w := .reset
  accepted : List (Request w) := []
  retired : List Response := []

def Session.step (x : Session w) (io : Input w) : Session w where
  state := x.state.step cfg io
  accepted := if x.state.accepts io then x.accepted ++ [io.request] else x.accepted
  retired := if x.state.retires io then x.retired ++ [x.state.response] else x.retired

def run (ios : List (Input w)) : Session w := ios.foldl (Session.step cfg) {}

/-- The response that waits to be taken. -/
def Session.pending (x : Session w) : List Response :=
  if x.state.responseValid then [x.state.response] else []

/-- The contract's memory: one word after the writes of some requests, byte by byte under their masks. -/
def replay (requests : List (Request w)) (address : BitVec w) : BitVec 32 :=
  requests.foldl (fun word request =>
    if request.write && request.address == address && !cfg.requestError request then
      Device.mergedBytes request.writeMask request.writeData word
    else word) 0

/-- The contract's response to a request, after earlier ones. -/
def respond (earlier : List (Request w)) (request : Request w) : Response where
  readData := if request.write || cfg.requestError request then 0 else replay cfg earlier request.address
  error := cfg.requestError request
  write := request.write
  initiator := request.initiator
  phase := request.phase

/-- The contract's responses, each to its own request. -/
def responses (requests : List (Request w)) : List Response :=
  requests.mapIdx fun i request => respond cfg (requests.take i) request

variable {cfg} {x : Session w} {io : Input w} {requests : List (Request w)} {request : Request w}

theorem replay_append (address : BitVec w) : replay cfg (requests ++ [request]) address =
    if request.write && request.address == address && !cfg.requestError request then
      Device.mergedBytes request.writeMask request.writeData (replay cfg requests address)
    else replay cfg requests address := by
  simp [replay]

theorem responses_append :
    responses cfg (requests ++ [request]) = responses cfg requests ++ [respond cfg requests request] := by
  unfold responses
  rw [List.mapIdx_append]
  congr 1
  · apply List.ext_getElem
    · simp
    · intro i hi hi'
      rw [List.getElem_mapIdx, List.getElem_mapIdx, List.take_append_of_le_length]
      rw [List.length_mapIdx] at hi'
      omega
  · simp

/-- Each byte of a merged word comes from the new word where the mask has it, and from the old one elsewhere. -/
theorem mergedBytes_byte {mask : BitVec 4} {data old : BitVec 32} {lane : ℕ} (h : lane < 4) :
    (Device.mergedBytes mask data old).extractLsb' (8 * lane) 8 =
      if mask.getLsbD lane then data.extractLsb' (8 * lane) 8 else old.extractLsb' (8 * lane) 8 := by
  have hlane : lane = 0 ∨ lane = 1 ∨ lane = 2 ∨ lane = 3 := by omega
  apply BitVec.eq_of_getLsbD_eq
  intro i hi
  unfold Device.mergedBytes
  rcases hlane with rfl | rfl | rfl | rfl
  all_goals
    simp only [BitVec.getLsbD_extractLsb', BitVec.getLsbD_append]
    grind

/-- A byte of a replayed word: the last write whose mask has it. -/
theorem replay_append_byte (address : BitVec w) {lane : ℕ} (h : lane < 4) :
    (replay cfg (requests ++ [request]) address).extractLsb' (8 * lane) 8 =
      if request.write && request.address == address && !cfg.requestError request && request.writeMask.getLsbD lane then
        request.writeData.extractLsb' (8 * lane) 8
      else (replay cfg requests address).extractLsb' (8 * lane) 8 := by
  rw [replay_append]
  cases request.write && request.address == address && !cfg.requestError request with
  | false => rfl
  | true =>
    rw [if_pos rfl, Bool.true_and]
    exact mergedBytes_byte h

/-- The registers carry out the contract on the requests accepted so far. -/
structure Contract (cfg : Config w) (x : Session w) : Prop where
  storage : ∀ address, x.state.storage address = replay cfg x.accepted address
  answers : x.retired ++ x.pending = responses cfg x.accepted
  acceptedCount : x.state.acceptedCount = BitVec.ofNat 32 x.accepted.length
  completedCount : x.state.completedCount = BitVec.ofNat 32 x.retired.length

theorem contract_reset : Contract cfg ({} : Session w) := ⟨fun _ => rfl, rfl, rfl, rfl⟩

theorem Contract.answered (h : Contract cfg x) (request : Request w) :
    x.state.answered cfg request = respond cfg x.accepted request := by
  unfold Scratchpad.answered respond
  ext1
  case readData =>
    dsimp only
    rw [h.storage]
    cases cfg.requestError request <;> cases request.write <;> rfl
  all_goals rfl

theorem Contract.stored (h : Contract cfg x) (request : Request w) (address : BitVec w) :
    x.state.stored cfg request address = replay cfg (x.accepted ++ [request]) address := by
  rw [replay_append, Scratchpad.stored]
  by_cases ha : request.address = address
  · subst ha
    cases cfg.requestError request <;> cases request.write <;> simp [h.storage]
  · have hne : (request.address == address) = false := beq_eq_false_iff_ne.mpr ha
    rw [hne, Bool.and_false, Bool.false_and, if_neg Bool.false_ne_true]
    split
    case isTrue =>
      rw [Function.update_of_ne (Ne.symm ha)]
      exact h.storage address
    case isFalse => exact h.storage address

theorem accepts_iff : x.state.accepts io = true ↔ io.requestValid = true ∧ x.state.responseValid = false := by
  simp [Scratchpad.accepts, Scratchpad.requestReady]

theorem ofNat_succ (n : ℕ) : BitVec.ofNat 32 n + 1 = BitVec.ofNat 32 (n + 1) := by
  rw [BitVec.ofNat_add]
  rfl

/-- One cycle keeps the contract, whatever is requested and whether or not the response is taken. -/
theorem Contract.step (h : Contract cfg x) (io : Input w) : Contract cfg (x.step cfg io) := by
  by_cases hacc : x.state.accepts io = true
  · obtain ⟨-, hvalid⟩ := accepts_iff.mp hacc
    have hret : x.state.retires io = false := by simp [Scratchpad.retires, hvalid]
    have hnone : x.retired = responses cfg x.accepted := by
      have := h.answers
      rwa [Session.pending, hvalid, if_neg Bool.false_ne_true, List.append_nil] at this
    have haccepted : (x.step cfg io).accepted = x.accepted ++ [io.request] := if_pos hacc
    have hretired : (x.step cfg io).retired = x.retired := by
      change (if _ then _ else _) = _
      rw [hret, if_neg Bool.false_ne_true]
    constructor
    · intro address
      rw [haccepted, ← h.stored]
      exact congrFun (if_pos hacc) address
    · have hpending : (x.step cfg io).pending = [respond cfg x.accepted io.request] := by
        have hnext : (x.step cfg io).state.responseValid = true := if_pos hacc
        have hresp : (x.step cfg io).state.response = x.state.answered cfg io.request := if_pos hacc
        rw [Session.pending, hnext, if_pos rfl, hresp, h.answered]
      rw [haccepted, hretired, hpending, responses_append, hnone]
    · rw [haccepted, List.length_append]
      have : (x.step cfg io).state.acceptedCount = x.state.acceptedCount + 1 := if_pos hacc
      rw [this, h.acceptedCount]
      exact ofNat_succ _
    · rw [hretired, ← h.completedCount]
      change (if _ then _ else _) = _
      rw [hret, if_neg Bool.false_ne_true]
  · have haccepted : (x.step cfg io).accepted = x.accepted := if_neg hacc
    have hcount : (x.step cfg io).state.acceptedCount = x.state.acceptedCount := if_neg hacc
    have hstorage : (x.step cfg io).state.storage = x.state.storage := if_neg hacc
    have hresp : (x.step cfg io).state.response = x.state.response := if_neg hacc
    have hnext : (x.step cfg io).state.responseValid =
        if x.state.retires io then false else x.state.responseValid := if_neg hacc
    by_cases hret : x.state.retires io = true
    · have hvalid : x.state.responseValid = true := (Bool.and_eq_true _ _ ▸ hret).1
      have hretired : (x.step cfg io).retired = x.retired ++ [x.state.response] := if_pos hret
      constructor
      · rw [hstorage, haccepted]
        exact h.storage
      · rw [haccepted, hretired, ← h.answers, Session.pending, Session.pending, hnext, hret, hvalid]
        simp
      · rw [haccepted, hcount, h.acceptedCount]
      · have : (x.step cfg io).state.completedCount = x.state.completedCount + 1 := if_pos hret
        rw [hretired, List.length_append, this, h.completedCount]
        exact ofNat_succ _
    · have hretired : (x.step cfg io).retired = x.retired := if_neg hret
      constructor
      · rw [hstorage, haccepted]
        exact h.storage
      · rw [haccepted, hretired, ← h.answers, Session.pending, Session.pending, hnext, hresp, if_neg hret]
      · rw [haccepted, hcount, h.acceptedCount]
      · have : (x.step cfg io).state.completedCount = x.state.completedCount := if_neg hret
        rw [hretired, this, h.completedCount]

theorem run_append (ios : List (Input w)) (io : Input w) : run cfg (ios ++ [io]) = (run cfg ios).step cfg io := by
  simp [run]

theorem contract_run (ios : List (Input w)) : Contract cfg (run cfg ios) := by
  induction ios using List.reverseRecOn with
  | nil => exact contract_reset
  | append_singleton ios io ih =>
    rw [run_append]
    exact ih.step io

/-- What is counted as accepted and not as completed is the pending response. -/
theorem Contract.counts (h : Contract cfg x) :
    x.state.acceptedCount = x.state.completedCount + (if x.state.responseValid then 1 else 0) := by
  have hlen := congrArg List.length h.answers
  simp only [responses, List.length_append, List.length_mapIdx] at hlen
  rw [h.acceptedCount, h.completedCount, ← hlen, Session.pending]
  split
  case isTrue => exact (ofNat_succ _).symm
  case isFalse => simp

/-- An accepted request is answered in the next cycle, and only a permitted write reaches the storage. -/
theorem Contract.accepted (h : Contract cfg x) (hacc : x.state.accepts io = true) :
    (x.step cfg io).state.responseValid = true ∧
      (x.step cfg io).state.response = respond cfg x.accepted io.request ∧
      (cfg.requestError io.request = true → (x.step cfg io).state.storage = x.state.storage) := by
  have hstorage : (x.step cfg io).state.storage = x.state.stored cfg io.request := if_pos hacc
  have hresp : (x.step cfg io).state.response = x.state.answered cfg io.request := if_pos hacc
  refine ⟨if_pos hacc, hresp.trans (h.answered _), ?_⟩
  intro herror
  rw [hstorage, Scratchpad.stored, herror]
  rfl

/-- A response that is not taken stays as it is. -/
theorem stalled (hvalid : x.state.responseValid = true) (hready : io.responseReady = false) :
    (x.step cfg io).state.responseValid = true ∧ (x.step cfg io).state.response = x.state.response := by
  have hacc : ¬ x.state.accepts io = true := by simp [Scratchpad.accepts, Scratchpad.requestReady, hvalid]
  have hret : ¬ x.state.retires io = true := by simp [Scratchpad.retires, hready]
  refine ⟨?_, if_neg hacc⟩
  exact (if_neg hacc).trans ((if_neg hret).trans hvalid)

/-- The monitors of the assertions say what the previous cycle did. -/
theorem asserts_run (ios : List (Input w)) : (run cfg ios).state.Asserts := by
  have hheld : (run cfg ios).state.responseWasStalled = true → (run cfg ios).state.responseValid = true ∧
      (run cfg ios).state.response = (run cfg ios).state.previousResponse := by
    rcases List.eq_nil_or_concat' ios with rfl | ⟨ios, io, rfl⟩
    · exact fun h => nomatch h
    · rw [run_append]
      intro h
      obtain ⟨hvalid, hready⟩ := Bool.and_eq_true_iff.mp h
      exact stalled hvalid (by simpa using hready)
  refine ⟨(contract_run ios).counts, ?_, ?_, fun h => (hheld h).1, fun h => (hheld h).2⟩
  · simp [Scratchpad.requestReady]
  · rcases List.eq_nil_or_concat' ios with rfl | ⟨ios, io, rfl⟩
    · exact fun h => nomatch h
    · rw [run_append]
      exact fun h => if_pos h

/-- The transaction contract, in every cycle of every run from reset. -/
theorem transaction_contract (cfg : Config w) (ios : List (Input w)) :
    (run cfg ios).retired ++ (run cfg ios).pending = responses cfg (run cfg ios).accepted ∧
    (∀ io, (run cfg ios).state.accepts io = true →
      (run cfg (ios ++ [io])).state.responseValid = true ∧
      (run cfg (ios ++ [io])).state.response = respond cfg (run cfg ios).accepted io.request ∧
      (cfg.requestError io.request = true →
        (run cfg (ios ++ [io])).state.response.error = true ∧
        (run cfg (ios ++ [io])).state.storage = (run cfg ios).state.storage)) ∧
    (∀ io, (run cfg ios).state.responseValid = true → io.responseReady = false →
      (run cfg (ios ++ [io])).state.responseValid = true ∧
      (run cfg (ios ++ [io])).state.response = (run cfg ios).state.response) ∧
    (run cfg ios).state.acceptedCount =
      (run cfg ios).state.completedCount + (if (run cfg ios).state.responseValid then 1 else 0) ∧
    (run cfg ios).state.Asserts := by
  have h : Contract cfg (run cfg ios) := contract_run ios
  refine ⟨h.answers, ?_, ?_, h.counts, asserts_run ios⟩
  · intro io hacc
    obtain ⟨hvalid, hresp, hstorage⟩ := h.accepted hacc
    rw [run_append]
    refine ⟨hvalid, hresp, ?_⟩
    intro herror
    refine ⟨?_, hstorage herror⟩
    rw [hresp]
    exact herror
  · intro io hvalid hready
    rw [run_append]
    exact stalled hvalid hready

section Region

def Request.toDevice (request : Request 10) : Device.Request where
  write := request.write
  address := request.address
  writeData := request.writeData
  writeMask := request.writeMask

def Scratchpad.toDevice (s : Scratchpad 10) : Device.Scratchpad where
  storage := s.storage
  responseValid := s.responseValid
  responseReadData := s.response.readData
  responseError := s.response.error
  responseWrite := s.response.write
  acceptedCount := s.acceptedCount
  completedCount := s.completedCount

/-- The parameters of the stencil region's scratchpad. -/
def regionConfig : Config 10 where
  validWords := 580
  validWords_pos := by decide
  validWords_le := by decide

/-- The stencil region's scratchpad is this one, less the fields that the region does not read. -/
theorem toDevice_step (s : Scratchpad 10) (io : Input 10) : (s.step regionConfig io).toDevice =
    s.toDevice.step io.requestValid io.request.toDevice io.responseReady := by
  have herror : regionConfig.requestError io.request = !(io.request.toDevice.address < 580) := by
    have hallowed : regionConfig.operationAllowed io.request = true := by
      unfold Config.operationAllowed
      split <;> rfl
    rw [Config.requestError, hallowed, Bool.not_true, Bool.or_false]
    rfl
  unfold Scratchpad.step Device.Scratchpad.step Scratchpad.accepts Scratchpad.retires
  cases hvalid : s.responseValid <;> cases io.requestValid <;> cases io.responseReady <;>
    simp [Scratchpad.toDevice, Device.Scratchpad.requestReady, Scratchpad.requestReady, hvalid,
      Device.Scratchpad.accept, Scratchpad.stored, Scratchpad.answered, herror, Request.toDevice]

end Region

end Raveil.Memory
