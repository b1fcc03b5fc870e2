import Raveil.Device.Datapath
import Raveil.Device.Region

/-! A run of the executor against a memory that answers when it likes. -/
namespace Raveil.Device
open Raveil.Lib Raveil.Graph

section Bench

/-- A memory without errors; `response` is what it owes. -/
structure Memory where
  storage : BitVec 10 → BitVec 32
  response : Option (BitVec 32)

/-- What the host and the memory choose in one cycle; `echo` answers a write, and `noise` is on the data
lines when there is no answer. -/
structure Cycle where
  cancel : Bool
  ready : Bool
  deliver : Bool
  echo : BitVec 32
  noise : BitVec 32

structure Bench where
  core : Core
  memory : Memory

def Memory.accept (m : Memory) (echo : BitVec 32) (request : Request) : Memory :=
  if request.write then
    { storage := Function.update m.storage request.address
        (mergedBytes request.writeMask request.writeData (m.storage request.address))
      response := some echo }
  else { m with response := some (m.storage request.address) }

def Request.transaction (request : Request) : Transaction :=
  ⟨request.write, request.address.toNat, if request.write then request.writeData.toNat else 0⟩

namespace Bench

variable (wiring : Wiring) (b : Bench) (start : Bool) (c : Cycle)

def coreInput : CoreInput where
  start := start
  cancel := c.cancel
  requestReady := c.ready
  responseValid := c.deliver && b.memory.response.isSome
  readData := b.memory.response.getD c.noise
  error := false
  pending := b.memory.response.isSome

/-- One clock cycle. -/
def step : Bench where
  core := b.core.step wiring (b.coreInput start c)
  memory :=
    if b.core.requestFire (b.coreInput start c) then
      b.memory.accept c.echo (b.core.request wiring (b.coreInput start c))
    else if b.core.responseFire (b.coreInput start c) then { b.memory with response := none }
    else b.memory

/-- The request that is accepted in a cycle. -/
def accepted : List Transaction :=
  if b.core.requestFire (b.coreInput start c) then [(b.core.request wiring (b.coreInput start c)).transaction]
  else []

def completion : Bool := b.core.completion wiring (b.coreInput start c)
def cancellation : Bool := b.core.cancellation (b.coreInput start c)

end Bench

theorem mergedBytes_full (data old : BitVec 32) : mergedBytes 0xf data old = data := by
  apply BitVec.eq_of_getLsbD_eq
  intro i hi
  have h3 : (0xf : BitVec 4).getLsbD 3 = true := rfl
  have h2 : (0xf : BitVec 4).getLsbD 2 = true := rfl
  have h1 : (0xf : BitVec 4).getLsbD 1 = true := rfl
  have h0 : (0xf : BitVec 4).getLsbD 0 = true := rfl
  simp only [mergedBytes, h3, h2, h1, h0, if_true, BitVec.getLsbD_append, BitVec.getLsbD_extractLsb']
  rcases (by omega : i < 8 ∨ (8 ≤ i ∧ i < 16) ∨ (16 ≤ i ∧ i < 24) ∨ 24 ≤ i) with h | ⟨h, h'⟩ | ⟨h, h'⟩ | h
  · simp [h]
  · simp [show ¬ i < 8 by omega, show i - 8 < 8 by omega, show 8 + (i - 8) = i by omega]
  · simp [show ¬ i < 8 by omega, show ¬ i - 8 < 8 by omega, show i - 8 - 8 < 8 by omega,
      show 16 + (i - 8 - 8) = i by omega]
  · simp [show ¬ i < 8 by omega, show ¬ i - 8 < 8 by omega, show ¬ i - 8 - 8 < 8 by omega,
      show i - 8 - 8 - 8 < 8 by omega, show 24 + (i - 8 - 8 - 8) = i by omega]

end Bench

section Kernel

variable {version : ℕ} {shape : Shape} {words l : List ℕ} {cell pc : ℕ}

theorem registers_succ (h : pc < l.length) : registers version shape words cell (l.take (pc + 1)) =
    advance version shape words cell (registers version shape words cell (l.take pc)) (l.getD pc 0) := by
  rw [registers, List.take_succ_eq_append_getElem h, List.foldl_append, List.getD_eq_getElem _ _ h]
  rfl

theorem cellWord_eq (h : pc + 1 = l.length) : cellWord version shape words cell l =
    registers version shape words cell (l.take pc) (destinationOf (l.getD pc 0)) := by
  have hlast : l.getLastD 0 = l.getD pc 0 := by
    rw [List.getLastD_eq_getLast?, List.getLast?_eq_getElem?, ← h, Nat.add_sub_cancel, List.getD_eq_getElem?_getD]
  rw [cellWord, hlast, List.dropLast_eq_take, ← h, Nat.add_sub_cancel]

/-- The words of the first cells, over what was there. -/
def written (version : ℕ) (shape : Shape) (words l : List ℕ) (origin : BitVec 10 → BitVec 32) (n : ℕ) :
    BitVec 10 → BitVec 32 := fun a =>
  if 324 ≤ a.toNat ∧ a.toNat < 324 + n then BitVec.ofNat 32 (cellWord version shape words (a.toNat - 324) l)
  else origin a

variable {origin : BitVec 10 → BitVec 32}

theorem written_zero : written version shape words l origin 0 = origin := by
  funext a
  exact if_neg (by omega)

theorem written_succ {a : BitVec 10} {data : BitVec 32} (ha : a.toNat = 324 + cell)
    (hd : data.toNat = cellWord version shape words cell l) :
    Function.update (written version shape words l origin cell) a data =
      written version shape words l origin (cell + 1) := by
  funext x
  by_cases hx : x = a
  · subst hx
    rw [Function.update_self, written, if_pos (by omega), ha, Nat.add_sub_cancel_left, ← hd, BitVec.ofNat_toNat,
      BitVec.setWidth_eq]
  · have hne : x.toNat ≠ 324 + cell := fun h => hx (BitVec.eq_of_toNat_eq (h.trans ha.symm))
    rw [Function.update_of_ne hx]
    unfold written
    refine if_congr ?_ rfl rfl
    omega

end Kernel

section Running

inductive Phase
  | fetch | request | response
  deriving DecidableEq

def Phase.index : Phase → ℕ
  | .fetch => 0
  | .request => 1
  | .response => 2

/-- The state of the controller in a phase of an instruction. -/
def Phase.state (phase : Phase) (opcode : ℕ) : CoreState :=
  match phase with
  | .fetch => .fetch
  | .request => if opcode = 1 then .loadRequest else .storeRequest
  | .response => if opcode = 1 then .loadResponse else .storeResponse

variable (wiring : Wiring) (version : ℕ) (words l : List ℕ) (origin : BitVec 10 → BitVec 32)

/-- The sum of the words of the first cells. -/
def total (shape : Shape) (n : ℕ) : ℕ := ((List.range n).map fun k => cellWord version shape words k l).sum

/-- The run is at an instruction of a cell. -/
structure Running (b : Bench) (trace : List Transaction) (cell pc : ℕ) (phase : Phase) : Prop where
  busy : b.core.busy = true
  calm : b.core.cancelRequested = false
  cell_eq : b.core.outputIndex.toNat = cell
  cell_lt : cell < wiring.shape.activeOutputs.toNat
  counter_eq : b.core.programCounter.toNat = pc
  counter_lt : pc < l.length
  values : b.core.Values (registers version wiring.shape words cell (l.take pc))
  checksum : b.core.checksum.toNat = total version words l wiring.shape cell % 2 ^ 64
  kind : phase ≠ .fetch → opcodeOf (l.getD pc 0) = 1 ∨ opcodeOf (l.getD pc 0) = 3
  state : b.core.state = phase.state (opcodeOf (l.getD pc 0))
  quiet : phase ≠ .response → b.memory.response = none
  owed : phase = .response → ∃ data, b.memory.response = some data ∧ (opcodeOf (l.getD pc 0) = 1 →
    data.toNat = words.getD (loadIndex version wiring.shape cell (l.getD pc 0)) 0)
  storage : b.memory.storage = written version wiring.shape words l origin
    (if phase = .response ∧ opcodeOf (l.getD pc 0) = 3 then cell + 1 else cell)
  trace_eq : trace = accesses version wiring.shape words l cell (if phase = .response then pc + 1 else pc)

/-- The run is over, and every word is stored. -/
structure Finished (b : Bench) (trace : List Transaction) : Prop where
  busy : b.core.busy = false
  quiet : b.memory.response = none
  checksum : b.core.checksum.toNat = total version words l wiring.shape wiring.shape.activeOutputs.toNat % 2 ^ 64
  storage : b.memory.storage = written version wiring.shape words l origin wiring.shape.activeOutputs.toNat
  trace_eq : trace = accesses version wiring.shape words l wiring.shape.activeOutputs.toNat 0

/-- How far a run has come. -/
def position (cell pc : ℕ) (phase : Phase) : ℕ := (cell * l.length + pc) * 3 + phase.index

end Running

section Steps

variable {wiring : Wiring} {version : ℕ} {words l : List ℕ} {origin : BitVec 10 → BitVec 32} {b : Bench}
  {trace : List Transaction} {cell pc : ℕ} {phase : Phase} {start : Bool} {c : Cycle}

/-- What a cycle without a cancel leads to: on, or to the end. -/
inductive Advances (wiring : Wiring) (version : ℕ) (words l : List ℕ) (origin : BitVec 10 → BitVec 32)
    (b : Bench) (trace : List Transaction) (start : Bool) (c : Cycle) (cell pc : ℕ) (phase : Phase) : Prop
  | move (cell' pc' : ℕ) (phase' : Phase) (hcomplete : b.completion wiring start c = false)
      (hnext : Running wiring version words l origin (b.step wiring start c)
        (trace ++ b.accepted wiring start c) cell' pc' phase')
      (hmove : position l cell pc phase < position l cell' pc' phase')
  | wait (hcomplete : b.completion wiring start c = false)
      (hnext : Running wiring version words l origin (b.step wiring start c)
        (trace ++ b.accepted wiring start c) cell pc phase)
      (hwait : phase = .request ∧ c.ready = false ∨ phase = .response ∧ c.deliver = false)
  | finish (hcomplete : b.completion wiring start c = true) (hnone : b.accepted wiring start c = [])
      (hnext : Finished wiring version words l origin (b.step wiring start c)
        (trace ++ b.accepted wiring start c))

theorem step_busy (hb : b.core.busy = true) (hcalm : b.core.cancelRequested = false) (hc : c.cancel = false) :
    (b.step wiring start c).core =
      { b.core.stepBusy wiring (b.coreInput start c) with cycleCount := b.core.cycleCount + 1 } := by
  have hno : b.core.cancelling (b.coreInput start c) = false := by
    simp [Core.cancelling, Bench.coreInput, hcalm, hc]
  change b.core.step wiring (b.coreInput start c) = _
  rw [Core.step, hno, hb]
  rfl

section Fires

variable (h : Running wiring version words l origin b trace cell pc phase) (hc : c.cancel = false)

include h hc

theorem Running.cancelling : b.core.cancelling (b.coreInput start c) = false := by
  simp [Core.cancelling, Bench.coreInput, h.calm, hc]

theorem Running.requestFire : b.core.requestFire (b.coreInput start c) = (decide (phase = .request) && c.ready) := by
  have hcancel : b.core.cancelling (b.coreInput start c) = false := h.cancelling hc
  have hkind := h.kind
  simp only [Core.requestFire, Core.requestValid, Core.graphInputRequest, Core.graphOutputRequest, h.busy, hcancel,
    h.state]
  cases phase with
  | fetch => rfl
  | request =>
    rcases hkind (by simp) with h1 | h3
    · rw [h1]
      simp [Phase.state, Bench.coreInput]
    · rw [h3]
      simp [Phase.state, Bench.coreInput]
  | response =>
    rcases hkind (by simp) with h1 | h3
    · rw [h1]
      simp [Phase.state]
    · rw [h3]
      simp [Phase.state]

omit hc in
theorem Running.responseFire : b.core.responseFire (b.coreInput start c) =
    (decide (phase = .response) && c.deliver) := by
  have hkind := h.kind
  simp only [Core.responseFire, Core.responseReady, h.state]
  cases phase with
  | fetch => simp [Phase.state]
  | request =>
    rcases hkind (by simp) with h1 | h3
    · rw [h1]
      simp [Phase.state]
    · rw [h3]
      simp [Phase.state]
  | response =>
    obtain ⟨data, hdata, -⟩ := h.owed rfl
    rcases hkind (by simp) with h1 | h3
    · rw [h1]
      simp [Phase.state, Bench.coreInput, hdata]
    · rw [h3]
      simp [Phase.state, Bench.coreInput, hdata]

theorem Running.cancellation : b.cancellation start c = false := by
  have hcancel : b.core.cancelling (b.coreInput start c) = false := h.cancelling hc
  have hno : (b.coreInput start c).error = false := rfl
  simp [Bench.cancellation, Core.cancellation, Core.storeFailure, hcancel, hno]

omit hc in
theorem Running.not_complete (hno : ¬ (phase = .response ∧ c.deliver = true)) :
    b.completion wiring start c = false := by
  have hfire : b.core.responseFire (b.coreInput start c) = false := by
    rw [h.responseFire]
    cases hd : c.deliver with
    | false => rw [Bool.and_false]
    | true =>
      rw [decide_eq_false fun hp => hno ⟨hp, hd⟩]
      rfl
  simp [Bench.completion, Core.completion, hfire]

/-- A cycle without a handshake leaves the memory alone. -/
theorem Running.memory_idle (hreq : ¬ (phase = .request ∧ c.ready = true))
    (hres : ¬ (phase = .response ∧ c.deliver = true)) :
    (b.step wiring start c).memory = b.memory ∧ b.accepted wiring start c = [] := by
  have hfire : b.core.requestFire (b.coreInput start c) = false := by
    rw [h.requestFire hc]
    simpa using hreq
  have hfire' : b.core.responseFire (b.coreInput start c) = false := by
    rw [h.responseFire]
    simpa using hres
  constructor
  · change (if b.core.requestFire (b.coreInput start c) = true then _ else _) = _
    rw [hfire, hfire']
    rfl
  · rw [Bench.accepted, hfire]
    rfl

theorem Running.memory_taken (hphase : phase = .response) (hd : c.deliver = true) :
    (b.step wiring start c).memory = { b.memory with response := none } ∧ b.accepted wiring start c = [] := by
  have hfire : b.core.requestFire (b.coreInput start c) = false := by
    rw [h.requestFire hc, hphase]
    rfl
  have hfire' : b.core.responseFire (b.coreInput start c) = true := by
    rw [h.responseFire, hphase, hd]
    rfl
  constructor
  · change (if b.core.requestFire (b.coreInput start c) = true then _ else _) = _
    rw [hfire, hfire']
    rfl
  · rw [Bench.accepted, hfire]
    rfl

end Fires

theorem Running.counter_succ (hh : Holds wiring version l)
    (h : Running wiring version words l origin b trace cell pc phase) :
    (b.core.programCounter + 1).toNat = pc + 1 ∨ pc + 1 = 16 := by
  have hle := hh.le_capacity
  have hlt := h.counter_lt
  rw [BitVec.toNat_add, h.counter_eq]
  simp only [BitVec.reduceToNat]
  omega

theorem Running.instruction (hh : Holds wiring version l)
    (h : Running wiring version words l origin b trace cell pc phase) :
    (b.core.instruction wiring).toNat = l.getD pc 0 := by
  rw [Core.instruction_eq hh (by rw [h.counter_eq]; exact h.counter_lt), h.counter_eq]

/-- The instructions of a program, by what they do. -/
theorem Holds.cases (hh : Holds wiring version l) (hpc : pc < l.length) :
    (opcodeOf (l.getD pc 0) = 3 ∧ pc + 1 = l.length) ∨
    (pc + 1 < l.length ∧ opcodeOf (l.getD pc 0) ≠ 3 ∧ ∃ d, Produces version d (l.getD pc 0)) := by
  rcases Nat.eq_or_lt_of_le (show pc + 1 ≤ l.length from hpc) with heq | hlt
  · exact Or.inl ⟨hh.stores heq, heq⟩
  · obtain ⟨d, hp⟩ := hh.produces hlt
    have := hp.opcode
    exact Or.inr ⟨hlt, by omega, d, hp⟩

/-- The registers advance when an instruction has produced its word. -/
theorem Running.produced (hh : Holds wiring version l)
    (h : Running wiring version words l origin b trace cell pc phase) (hlt : pc + 1 < l.length)
    {v : BitVec 32} (hv : v.toNat = result version wiring.shape words cell (registers version wiring.shape words cell (l.take pc))
      (l.getD pc 0)) {b' : Bench}
    (hcore : b'.core = { b.core.produce wiring v with state := .fetch, cycleCount := b.core.cycleCount + 1 })
    (hquiet : b'.memory.response = none)
    (hstorage : b'.memory.storage = written version wiring.shape words l origin cell)
    (htrace : trace = accesses version wiring.shape words l cell (pc + 1)) :
    Running wiring version words l origin b' trace cell (pc + 1) .fetch := by
  have hle := hh.le_capacity
  have hcounter : (b.core.programCounter + 1).toNat = pc + 1 := by
    rcases h.counter_succ hh with hs | hs
    · exact hs
    · omega
  have hvalues := h.values.update (h.instruction hh) hv
  refine ⟨?_, ?_, ?_, h.cell_lt, ?_, hlt, ?_, ?_, fun hne => absurd rfl hne, ?_, fun _ => hquiet,
    fun hne => (by cases hne), ?_, ?_⟩
  · rw [hcore]
    exact h.busy
  · rw [hcore]
    exact h.calm
  · rw [hcore]
    exact h.cell_eq
  · rw [hcore]
    exact hcounter
  · rw [registers_succ h.counter_lt, hcore]
    exact hvalues
  · rw [hcore]
    exact h.checksum
  · rw [hcore]
    rfl
  · rw [hstorage, if_neg (fun hno => by cases hno.1)]
  · rw [htrace, if_neg (by simp)]

theorem accesses_silent (hpc : pc < l.length) (h1 : opcodeOf (l.getD pc 0) ≠ 1) (h3 : opcodeOf (l.getD pc 0) ≠ 3) :
    accesses version wiring.shape words l cell (pc + 1) = accesses version wiring.shape words l cell pc := by
  rw [accesses_succ hpc, access, if_neg h1, if_neg h3, List.append_nil]

theorem Running.stepFetch (hh : Holds wiring version l)
    (h : Running wiring version words l origin b trace cell pc .fetch) (hc : c.cancel = false) :
    Advances wiring version words l origin b trace start c cell pc .fetch := by
  have hnot : b.completion wiring start c = false := h.not_complete fun hno => by cases hno.1
  obtain ⟨hmemory, hnone⟩ := @Running.memory_idle _ _ _ _ _ _ _ _ _ _ start _ h hc (fun hno => by cases hno.1)
    (fun hno => by cases hno.1)
  have hcore : (b.step wiring start c).core = _ := step_busy h.busy h.calm hc
  have hw := h.instruction hh
  have hbusy : b.core.stepBusy wiring (b.coreInput start c) = b.core.stepFetch wiring := by
    rw [Core.stepBusy, h.state]
    rfl
  rw [hbusy] at hcore
  have hstorage := h.storage
  rw [if_neg (fun hno => by cases hno.1)] at hstorage
  have htrace := h.trace_eq
  rw [if_neg (by simp)] at htrace
  -- a load or a store goes on to its request, and nothing else changes
  have hrequest : ∀ state : CoreState, opcodeOf (l.getD pc 0) = 1 ∨ opcodeOf (l.getD pc 0) = 3 →
      state = Phase.request.state (opcodeOf (l.getD pc 0)) →
      b.core.stepFetch wiring = { b.core with state := state } →
      Advances wiring version words l origin b trace start c cell pc .fetch := by
    intro state hkind hstate hfetch
    rw [hfetch] at hcore
    refine .move cell pc .request hnot ?_ (by simp [position, Phase.index])
    rw [hnone, List.append_nil]
    refine ⟨?_, ?_, ?_, h.cell_lt, ?_, h.counter_lt, ?_, ?_, fun _ => hkind, ?_, fun _ => ?_,
      fun hne => (by cases hne), ?_, ?_⟩
    · rw [hcore]
      exact h.busy
    · rw [hcore]
      exact h.calm
    · rw [hcore]
      exact h.cell_eq
    · rw [hcore]
      exact h.counter_eq
    · rw [hcore]
      exact h.values
    · rw [hcore]
      exact h.checksum
    · rw [hcore]
      exact hstate
    · rw [hmemory]
      exact h.quiet (by simp)
    · rw [hmemory, hstorage, if_neg (fun hno => by cases hno.1)]
    · rw [htrace, if_neg (by simp)]
  rcases hh.cases h.counter_lt with ⟨h3, -⟩ | ⟨hlt, h3, d, hp⟩
  · apply hrequest .storeRequest (Or.inr h3)
    · rw [h3]
      rfl
    · simp only [Core.stepFetch, Core.opcode_eq hw, h3, BitVec.reduceToNat, Nat.reduceEqDiff, false_and, if_false,
        if_true]
  · by_cases h1 : opcodeOf (l.getD pc 0) = 1
    · apply hrequest .loadRequest (Or.inl h1)
      · rw [h1]
        rfl
      · simp only [Core.stepFetch, Core.opcode_eq hw, h1, BitVec.reduceToNat, if_true]
    · obtain ⟨v, hfetch, hv⟩ := Core.stepFetch_produces words cell hh h.values hw hp h1
      rw [hfetch] at hcore
      refine .move cell (pc + 1) .fetch hnot ?_ (by simp [position, Phase.index])
      rw [hnone, List.append_nil]
      refine h.produced hh hlt hv ?_ ?_ ?_ ?_
      · rw [hcore]
        have hstate : b.core.state = .fetch := h.state
        simp only [Core.produce, hstate]
      · rw [hmemory]
        exact h.quiet (by simp)
      · rw [hmemory, hstorage]
      · rw [htrace, accesses_silent h.counter_lt h1 h3]

/-- A cycle that waits changes nothing but the count of cycles. -/
theorem Running.waits (h : Running wiring version words l origin b trace cell pc phase) {b' : Bench}
    (hcore : b'.core = { b.core with cycleCount := b.core.cycleCount + 1 }) (hmemory : b'.memory = b.memory) :
    Running wiring version words l origin b' trace cell pc phase := by
  refine ⟨?_, ?_, ?_, h.cell_lt, ?_, h.counter_lt, ?_, ?_, h.kind, ?_, fun hne => ?_, fun heq => ?_, ?_, h.trace_eq⟩
  · rw [hcore]
    exact h.busy
  · rw [hcore]
    exact h.calm
  · rw [hcore]
    exact h.cell_eq
  · rw [hcore]
    exact h.counter_eq
  · rw [hcore]
    exact h.values
  · rw [hcore]
    exact h.checksum
  · rw [hcore]
    exact h.state
  · rw [hmemory]
    exact h.quiet hne
  · rw [hmemory]
    exact h.owed heq
  · rw [hmemory]
    exact h.storage

/-- An accepted request is the next one that the host expects, and the memory owes its answer. -/
theorem Running.accepts (hh : Holds wiring version l)
    (hwords : ∀ i, i < 324 → (origin (BitVec.ofNat 10 i)).toNat = words.getD i 0)
    (h : Running wiring version words l origin b trace cell pc .request) (hc : c.cancel = false)
    (hr : c.ready = true) :
    b.accepted wiring start c = access version wiring.shape words l cell (l.getD pc 0) ∧
    (∃ data, (b.step wiring start c).memory.response = some data ∧ (opcodeOf (l.getD pc 0) = 1 →
      data.toNat = words.getD (loadIndex version wiring.shape cell (l.getD pc 0)) 0)) ∧
    (b.step wiring start c).memory.storage = written version wiring.shape words l origin
      (if opcodeOf (l.getD pc 0) = 3 then cell + 1 else cell) := by
  have hfire : b.core.requestFire (b.coreInput start c) = true := by
    rw [h.requestFire hc, hr]
    rfl
  have hmemory : (b.step wiring start c).memory =
      b.memory.accept c.echo (b.core.request wiring (b.coreInput start c)) := by
    change (if b.core.requestFire (b.coreInput start c) = true then _ else _) = _
    rw [hfire]
    rfl
  have hcancel : b.core.cancelling (b.coreInput start c) = false := h.cancelling hc
  have hw := h.instruction hh
  have hstorage := h.storage
  rw [if_neg (fun hno => by cases hno.1)] at hstorage
  rw [hmemory, Bench.accepted, hfire, if_pos rfl]
  rcases hh.cases h.counter_lt with ⟨h3, hlast⟩ | ⟨hlt, h3, d, hp⟩
  · have houtput : b.core.graphOutputRequest (b.coreInput start c) = true := by
      rw [Core.graphOutputRequest, h.busy, hcancel, h.state, h3]
      rfl
    have haddress := Core.outputAddress_eq hh.shape h.cell_eq h.cell_lt
    have hdata : (b.core.storeData wiring).toNat = cellWord version wiring.shape words cell l := by
      rw [Core.storeData, h.values, Core.destination_eq hw, cellWord_eq hlast]
    have hrequest : b.core.request wiring (b.coreInput start c) =
        ⟨true, b.core.outputAddress wiring, b.core.storeData wiring, 0xf⟩ := by
      rw [Core.request, houtput]
      rfl
    rw [hrequest, access, if_neg (by omega), if_pos h3, if_pos h3]
    refine ⟨?_, ⟨c.echo, rfl, fun h1 => by omega⟩, ?_⟩
    · simp only [Request.transaction, haddress, hdata, if_true]
      rfl
    · change Function.update b.memory.storage _ (mergedBytes 0xf _ _) = _
      rw [mergedBytes_full, hstorage]
      exact written_succ haddress hdata
  · have h1 : opcodeOf (l.getD pc 0) = 1 := by
      rcases h.kind (by simp) with h1 | h1
      · exact h1
      · exact absurd h1 h3
    have houtput : b.core.graphOutputRequest (b.coreInput start c) = false := by
      rw [Core.graphOutputRequest, h.state, h1]
      exact Bool.and_false _
    have haddress := Core.inputAddress_eq hh h.cell_eq h.cell_lt hw hp h1
    obtain ⟨-, hlt324⟩ := loadAddress_eq hh.shape h.cell_lt hp h1
    have hrequest : b.core.request wiring (b.coreInput start c) =
        ⟨false, b.core.inputAddress wiring, b.core.storeData wiring, 0⟩ := by
      rw [Core.request, houtput]
      rfl
    rw [hrequest, access, if_pos h1, if_neg h3]
    refine ⟨?_, ⟨b.memory.storage (b.core.inputAddress wiring), rfl, fun _ => ?_⟩, hstorage⟩
    · simp only [Request.transaction, haddress]
      rfl
    · rw [hstorage, written, if_neg (by omega), ← hwords _ hlt324]
      congr 2
      apply BitVec.eq_of_toNat_eq
      rw [haddress, BitVec.toNat_ofNat, Nat.mod_eq_of_lt (by omega)]

/-- A request of the core stays in the scratchpad. -/
theorem Running.address_lt (hh : Holds wiring version l)
    (hwords : ∀ i, i < 324 → (origin (BitVec.ofNat 10 i)).toNat = words.getD i 0)
    (h : Running wiring version words l origin b trace cell pc phase) (hc : c.cancel = false)
    (hfire : b.core.requestFire (b.coreInput start c) = true) :
    (b.core.request wiring (b.coreInput start c)).address < 580 := by
  obtain ⟨rfl, hr⟩ : phase = .request ∧ c.ready = true := by
    rw [h.requestFire hc] at hfire
    simpa using hfire
  obtain ⟨haccepted, -, -⟩ := @Running.accepts _ _ _ _ _ _ _ _ _ start _ hh hwords h hc hr
  rw [Bench.accepted, hfire, if_pos rfl, access] at haccepted
  have hle := activeOutputs_le hh.shape
  have hcell := h.cell_lt
  rw [BitVec.lt_def]
  change _ < 580
  rcases hh.cases h.counter_lt with ⟨h3, -⟩ | ⟨-, h3, d, hp⟩
  · rw [if_neg (by omega), if_pos h3] at haccepted
    have haddress := congrArg Transaction.address (List.cons.inj haccepted).1
    simp only [Request.transaction] at haddress
    omega
  · by_cases h1 : opcodeOf (l.getD pc 0) = 1
    · obtain ⟨-, hlt⟩ := loadAddress_eq hh.shape h.cell_lt hp h1
      rw [if_pos h1] at haccepted
      have haddress := congrArg Transaction.address (List.cons.inj haccepted).1
      simp only [Request.transaction] at haddress
      omega
    · rw [if_neg h1, if_neg h3] at haccepted
      cases haccepted

theorem Running.stepRequest (hh : Holds wiring version l)
    (hwords : ∀ i, i < 324 → (origin (BitVec.ofNat 10 i)).toNat = words.getD i 0)
    (h : Running wiring version words l origin b trace cell pc .request) (hc : c.cancel = false) :
    Advances wiring version words l origin b trace start c cell pc .request := by
  have hnot : b.completion wiring start c = false := h.not_complete fun hno => by cases hno.1
  have hcore : (b.step wiring start c).core = _ := step_busy h.busy h.calm hc
  have hfire : b.core.requestFire (b.coreInput start c) = _ := h.requestFire hc
  have htrace := h.trace_eq
  rw [if_neg (by simp)] at htrace
  cases hr : c.ready with
  | false =>
    obtain ⟨hmemory, hnone⟩ := @Running.memory_idle _ _ _ _ _ _ _ _ _ _ start _ h hc (fun hno => by
      rw [hr] at hno
      cases hno.2) (fun hno => by cases hno.1)
    refine .wait hnot ?_ (Or.inl ⟨rfl, hr⟩)
    rw [hnone, List.append_nil]
    refine h.waits ?_ hmemory
    rw [hcore, Core.stepBusy, hfire, hr, h.state]
    rcases h.kind (by simp) with h1 | h3
    · rw [h1]
      rfl
    · rw [h3]
      rfl
  | true =>
    obtain ⟨haccepted, howed, hstorage⟩ := @Running.accepts _ _ _ _ _ _ _ _ _ start _ hh hwords h hc hr
    refine .move cell pc .response hnot ?_ (by simp [position, Phase.index])
    have hcore' : ∃ reads writes, (b.step wiring start c).core = { b.core with
        graphInputReadsAccepted := reads
        graphOutputWritesAccepted := writes
        cycleCount := b.core.cycleCount + 1
        state := Phase.response.state (opcodeOf (l.getD pc 0)) } := by
      rw [hcore, Core.stepBusy, hfire, hr, h.state]
      rcases h.kind (by simp) with h1 | h3
      · rw [h1]
        exact ⟨_, _, rfl⟩
      · rw [h3]
        exact ⟨_, _, rfl⟩
    obtain ⟨reads, writes, hcore'⟩ := hcore'
    refine ⟨?_, ?_, ?_, h.cell_lt, ?_, h.counter_lt, ?_, ?_, fun _ => h.kind (by simp), ?_, fun hne => absurd rfl hne,
      fun _ => howed, ?_, ?_⟩
    · rw [hcore']
      exact h.busy
    · rw [hcore']
      exact h.calm
    · rw [hcore']
      exact h.cell_eq
    · rw [hcore']
      exact h.counter_eq
    · rw [hcore']
      exact h.values
    · rw [hcore']
      exact h.checksum
    · rw [hcore']
    · rw [hstorage]
      simp
    · rw [htrace, haccepted, ← accesses_succ h.counter_lt, if_pos rfl]

theorem total_succ (shape : Shape) (n : ℕ) :
    total version words l shape (n + 1) = total version words l shape n + cellWord version shape words n l := by
  simp [total, List.range_succ]

theorem Running.stepLoaded (hh : Holds wiring version l)
    (h : Running wiring version words l origin b trace cell pc .response) (hc : c.cancel = false)
    (hd : c.deliver = true) (h1 : opcodeOf (l.getD pc 0) = 1) :
    Advances wiring version words l origin b trace start c cell pc .response := by
  have hcore : (b.step wiring start c).core = _ := step_busy h.busy h.calm hc
  obtain ⟨hmemory, hnone⟩ := @Running.memory_taken _ _ _ _ _ _ _ _ _ _ start _ h hc rfl hd
  obtain ⟨data, hdata, hread⟩ := h.owed rfl
  have hfire : b.core.responseFire (b.coreInput start c) = true := by
    rw [h.responseFire, hd]
    rfl
  have hstate : b.core.state = .loadResponse := by
    rw [h.state, h1]
    rfl
  have hnot : b.completion wiring start c = false := by
    simp [Bench.completion, Core.completion, hstate]
  have hbusy : b.core.stepBusy wiring (b.coreInput start c) =
      { b.core.produce wiring data with state := .fetch } := by
    rw [Core.stepBusy, hstate]
    dsimp only
    rw [hfire, if_pos rfl, Core.stepLoaded, if_neg (by simp [Bench.coreInput])]
    simp only [Bench.coreInput, hdata, Option.getD_some]
  rw [hbusy] at hcore
  have hstorage := h.storage
  rw [if_neg (fun hno => by omega)] at hstorage
  have htrace := h.trace_eq
  rw [if_pos rfl] at htrace
  rcases hh.cases h.counter_lt with ⟨h3, -⟩ | ⟨hlt, h3, d, hp⟩
  · omega
  · refine .move cell (pc + 1) .fetch hnot ?_ (by simp [position, Phase.index]; omega)
    rw [hnone, List.append_nil]
    refine h.produced hh hlt (v := data) ?_ hcore ?_ ?_ htrace
    · rw [hread h1, result, if_pos h1]
    · rw [hmemory]
    · rw [hmemory]
      exact hstorage

theorem Running.stepStored (hh : Holds wiring version l)
    (h : Running wiring version words l origin b trace cell pc .response) (hc : c.cancel = false)
    (hd : c.deliver = true) (h3 : opcodeOf (l.getD pc 0) = 3) :
    Advances wiring version words l origin b trace start c cell pc .response := by
  have hcore : (b.step wiring start c).core = _ := step_busy h.busy h.calm hc
  obtain ⟨hmemory, hnone⟩ := @Running.memory_taken _ _ _ _ _ _ _ _ _ _ start _ h hc rfl hd
  have hfire : b.core.responseFire (b.coreInput start c) = true := by
    rw [h.responseFire, hd]
    rfl
  have hstate : b.core.state = .storeResponse := by
    rw [h.state, h3]
    rfl
  have hcancel : b.core.cancelling (b.coreInput start c) = false := h.cancelling hc
  have hlast : pc + 1 = l.length := by
    rcases hh.cases h.counter_lt with ⟨-, hlast⟩ | ⟨-, hno, -⟩
    · exact hlast
    · exact absurd h3 hno
  have hcounter : b.core.programCounter.toNat < l.length := by
    rw [h.counter_eq]
    exact h.counter_lt
  have hfinal : b.core.finalInstruction wiring = true := by
    rw [Core.finalInstruction_eq hh hcounter, h.counter_eq]
    exact hlast
  have hdata : (b.core.storeData wiring).toNat = cellWord version wiring.shape words cell l := by
    rw [Core.storeData, h.values, Core.destination_eq (h.instruction hh), cellWord_eq hlast]
  have hchecksum : (b.core.checksum + (b.core.storeData wiring).setWidth 64).toNat =
      total version words l wiring.shape (cell + 1) % 2 ^ 64 := by
    have hlt := (b.core.storeData wiring).isLt
    rw [BitVec.toNat_add, BitVec.toNat_setWidth, h.checksum, hdata, total_succ]
    rw [hdata] at hlt
    omega
  have hbusy : b.core.stepBusy wiring (b.coreInput start c) = b.core.stepStored wiring (b.coreInput start c) := by
    rw [Core.stepBusy, hstate]
    dsimp only
    rw [hfire, if_pos rfl]
  have herror : (b.coreInput start c).error = false := rfl
  have hcomplete : b.completion wiring start c = b.core.lastOutput wiring := by
    simp [Bench.completion, Core.completion, h.busy, hcancel, hstate, hfinal, hfire, herror]
  rw [hbusy, Core.stepStored, herror, hfinal] at hcore
  have hstorage := h.storage
  rw [if_pos ⟨rfl, h3⟩] at hstorage
  have htrace := h.trace_eq
  rw [if_pos rfl, hlast, ← accesses_cell] at htrace
  have hlastOutput := Core.lastOutput_eq hh h.cell_eq h.cell_lt
  cases hout : b.core.lastOutput wiring with
  | true =>
    have hactive := hlastOutput.mp hout
    rw [hout] at hcore hcomplete
    refine .finish hcomplete hnone ⟨?_, ?_, ?_, ?_, ?_⟩
    · rw [hcore]
      rfl
    · rw [hmemory]
    · rw [hcore, ← hactive]
      exact hchecksum
    · rw [hmemory, ← hactive]
      exact hstorage
    · rw [hnone, List.append_nil, htrace, hactive]
  | false =>
    have hactive : cell + 1 < wiring.shape.activeOutputs.toNat := by
      have hne : ¬ cell + 1 = wiring.shape.activeOutputs.toNat := by
        rw [← hlastOutput, hout]
        exact Bool.false_ne_true
      have := h.cell_lt
      omega
    have hle := activeOutputs_le hh.shape
    rw [hout] at hcore hcomplete
    refine .move (cell + 1) 0 .fetch hcomplete ?_ (by simp only [position, Phase.index, Nat.succ_mul]; omega)
    rw [hnone, List.append_nil]
    refine ⟨?_, ?_, ?_, hactive, ?_, by omega, ?_, ?_, fun hne => absurd rfl hne, ?_, fun _ => ?_,
      fun hne => (by cases hne), ?_, ?_⟩
    · rw [hcore]
      exact h.busy
    · rw [hcore]
      exact h.calm
    · rw [hcore]
      change (b.core.outputIndex + 1).toNat = _
      rw [BitVec.toNat_add, h.cell_eq]
      exact Nat.mod_eq_of_lt (show cell + 1 < 256 by omega)
    · rw [hcore]
      rfl
    · rw [hcore]
      intro r
      rfl
    · rw [hcore]
      exact hchecksum
    · rw [hcore]
      rfl
    · rw [hmemory]
    · rw [hmemory, hstorage, if_neg (fun hno => by cases hno.1)]
    · rw [htrace, if_neg (by simp)]

/-- A cycle without a cancel takes the run on, waits for the memory, or ends the run. -/
theorem Running.step (hh : Holds wiring version l)
    (hwords : ∀ i, i < 324 → (origin (BitVec.ofNat 10 i)).toNat = words.getD i 0)
    (h : Running wiring version words l origin b trace cell pc phase) (start : Bool) (hc : c.cancel = false) :
    Advances wiring version words l origin b trace start c cell pc phase := by
  cases phase with
  | fetch => exact h.stepFetch hh hc
  | request => exact h.stepRequest hh hwords hc
  | response =>
    cases hd : c.deliver with
    | false =>
      have hnot : b.completion wiring start c = false := h.not_complete fun hno => by
        rw [hd] at hno
        cases hno.2
      obtain ⟨hmemory, hnone⟩ := @Running.memory_idle _ _ _ _ _ _ _ _ _ _ start _ h hc (fun hno => by cases hno.1)
        (fun hno => by
          rw [hd] at hno
          cases hno.2)
      have hcore : (b.step wiring start c).core = _ := step_busy h.busy h.calm hc
      have hfire : b.core.responseFire (b.coreInput start c) = _ := h.responseFire
      refine .wait hnot ?_ (Or.inr ⟨rfl, hd⟩)
      rw [hnone, List.append_nil]
      refine h.waits ?_ hmemory
      rw [hcore, Core.stepBusy, hfire, hd, h.state]
      rcases h.kind (by simp) with h1 | h3
      · rw [h1]
        rfl
      · rw [h3]
        rfl
    | true =>
      rcases h.kind (by simp) with h1 | h3
      · exact h.stepLoaded hh hc hd h1
      · exact h.stepStored hh hc hd h3

end Steps

end Raveil.Device
