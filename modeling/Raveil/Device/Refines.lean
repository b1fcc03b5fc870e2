import Raveil.Device.Installers
import Raveil.Device.Execute

/-! The executor refines the schedule of the host, for every program, memory and moment of a cancel. -/
namespace Raveil.Device
open Raveil.Lib Raveil.Graph

section Installed

/-- The payload registers as a payload. -/
def payloadOf (payload : Fin 32 → BitVec 32) : Payload where
  words := List.ofFn fun i => (payload i).toNat
  length := List.length_ofFn
  lt := by
    intro w hw
    obtain ⟨i, rfl⟩ := List.mem_ofFn.mp hw
    exact (payload i).isLt

local instance wordIndex : NeZero 32 := ⟨by decide⟩

/-- The instructions of a payload. -/
def programOf (payload : Fin 32 → BitVec 32) : List ℕ :=
  (List.range ((payload 2).toNat % 32)).map fun i => (payload (Fin.ofNat 32 (12 + i))).toNat

variable {payload : Fin 32 → BitVec 32}

theorem payloadOf_word {i : ℕ} (hi : i < 32) : (payloadOf payload).word i = (payload (Fin.ofNat 32 i)).toNat := by
  have hfin : Fin.ofNat 32 i = ⟨i, hi⟩ := Fin.ext (Nat.mod_eq_of_lt hi)
  rw [Payload.word, payloadOf, List.getD_eq_getElem _ _ (by rw [List.length_ofFn]; exact hi), List.getElem_ofFn, hfin]

theorem admitted_ok (h : Admitted payload) :
    PayloadOk (payloadOf payload) ((payloadOf payload).word 2 % 32) := by
  refine (payloadValid_iff (t := { Installer.reset with payload := payload, payloadCount := 32 }) rfl ?_).mp h
  intro i hi
  exact (payloadOf_word hi).symm

/-- Live registers that show an admitted payload hold its program. -/
theorem holds_of_live {s : Installer} {shape : Shape} (hs : shape = baseline ∨ shape = compact)
    (hl : Live s payload) (ha : Admitted payload) :
    Holds ⟨shape, s.programVersion, s.programLength, s.program⟩ (payload 1).toNat (programOf payload) := by
  have hok := admitted_ok ha
  obtain ⟨hlength, hversion, hprogram, -⟩ := hl
  have h1 : (payloadOf payload).word 1 = (payload 1).toNat := payloadOf_word (by omega)
  have h2 : (payloadOf payload).word 2 = (payload 2).toNat := payloadOf_word (by omega)
  have hv := mem_versions.mp hok.version
  have htwo := hok.two_le
  have hle := hok.le_capacity
  rw [h1] at hv
  rw [h2] at htwo hle
  have hlen : (programOf payload).length = (payload 2).toNat % 32 := by simp [programOf]
  refine ⟨hs, ?_, hv.1, hv.2, ?_, by omega, by omega, fun i hi => ?_, ?_⟩
  · change s.programVersion.toNat = _
    rw [hversion, BitVec.extractLsb_toNat]
    exact Nat.mod_eq_of_lt (show (payload 1).toNat < 8 by omega)
  · change s.programLength.toNat = _
    rw [hlength, hlen, BitVec.extractLsb_toNat]
    rfl
  · have hi' : i < (payload 2).toNat % 32 := by omega
    have hfin : (Fin.ofNat 16 i).val = i := Nat.mod_eq_of_lt (by omega)
    change (s.program (Fin.ofNat 16 i)).toNat = _
    rw [hprogram, programOf, List.getD_eq_getElem _ _ (by simpa using hi'), List.getElem_map, List.getElem_range]
    dsimp only
    rw [hfin]
  · have hp := hok.program
    rw [h1, h2] at hp
    have hlist : ((List.range ((payload 2).toNat % 32)).map fun i => (payloadOf payload).word (12 + i)) =
        programOf payload := by
      refine List.map_congr_left fun i hi => payloadOf_word ?_
      have := List.mem_range.mp hi
      omega
    rwa [hlist] at hp

/-- A payload that the host accepts is one that the installer admits, with the same program. -/
theorem programOf_image {sha256 : List UInt8 → Digest} {program : Image} {l : List ℕ}
    (h : validateFallbackProgram sha256 program = .ok l)
    (hp : payload = fun i : Fin 32 => BitVec.ofNat 32 (program.payload.getD i 0)) :
    (payload 1).toNat = program.payload.getD 1 0 ∧ programOf payload = l := by
  obtain ⟨hok, rfl⟩ := validateFallbackProgram_eq_ok.mp h
  have hword : ∀ i : Fin 32, (payload i).toNat = program.payload.getD i 0 := by
    intro i
    have hi : i.val < program.payload.length := by
      rw [hok.length]
      exact i.isLt
    have hle := hok.words _ (List.getElem_mem hi)
    rw [hp, BitVec.toNat_ofNat, List.getD_eq_getElem _ _ hi, Nat.mod_eq_of_lt (by omega)]
  obtain ⟨-, hle, -, hins, -⟩ := hok.count
  have hle : program.payload.getD 2 0 ≤ 16 := hle
  refine ⟨hword 1, ?_⟩
  have hcount : (payload 2).toNat % 32 = program.payload.getD 2 0 := by
    rw [hword 2]
    exact Nat.mod_eq_of_lt (show program.payload.getD 2 0 < 32 by omega)
  rw [programOf, hcount, hins]
  apply List.ext_getElem
  · rw [List.length_map, List.length_range, List.length_take, List.length_drop, hok.length]
    omega
  · intro i h1 h2
    have hi : i < program.payload.getD 2 0 := by simpa using h1
    rw [List.getElem_map, List.getElem_range, hword, List.getElem_take, List.getElem_drop]
    have hfin : (Fin.ofNat 32 (12 + i)).val = 12 + i := Nat.mod_eq_of_lt (by omega)
    rw [hfin, List.getD_eq_getElem]

end Installed

section Within

variable {version : ℕ} {shape : Shape} {words l : List ℕ}

theorem cellAccesses_within (cell n : ℕ) :
    cellAccesses version shape words l cell n <+: cellAccesses version shape words l cell l.length := by
  have hsplit : l.take l.length = l.take n ++ l.drop n := by rw [List.take_length, List.take_append_drop]
  rw [cellAccesses, cellAccesses, hsplit, List.flatMap_append]
  exact List.prefix_append _ _

theorem accesses_within {cell active : ℕ} (n : ℕ) (h : cell < active) :
    accesses version shape words l cell n <+: accesses version shape words l active 0 := by
  obtain ⟨k, rfl⟩ := Nat.exists_eq_add_of_lt h
  have hcell : accesses version shape words l cell n <+: accesses version shape words l (cell + 1) 0 := by
    rw [accesses_cell]
    exact (List.prefix_append_right_inj _).mpr (cellAccesses_within cell n)
  refine hcell.trans ?_
  have hsplit : List.range (cell + k + 1) = List.range (cell + 1) ++ (List.range k).map (cell + 1 + ·) := by
    rw [show cell + k + 1 = cell + 1 + k by omega, List.range_add]
  rw [accesses_zero, accesses_zero, hsplit, List.flatMap_append]
  exact List.prefix_append _ _

end Within

section Stages

/-- Where a run can be: under way, complete, draining after a cancel, or stopped. -/
inductive Stage (wiring : Wiring) (version : ℕ) (words l : List ℕ) (origin : BitVec 10 → BitVec 32)
    (b : Bench) (trace : List Transaction) : Prop
  | running (cell pc : ℕ) (phase : Phase) (h : Running wiring version words l origin b trace cell pc phase)
  | finished (h : Finished wiring version words l origin b trace)
  | draining (hb : b.core.busy = true) (hr : b.core.cancelRequested = true)
      (hs : b.memory.response.isSome = true → b.core.responseReady = true)
      (hp : trace <+: accesses version wiring.shape words l wiring.shape.activeOutputs.toNat 0)
  | stopped (hb : b.core.busy = false) (hq : b.memory.response = none)
      (hp : trace <+: accesses version wiring.shape words l wiring.shape.activeOutputs.toNat 0)

variable {wiring : Wiring} {version : ℕ} {words l : List ℕ} {origin : BitVec 10 → BitVec 32} {b : Bench}
  {trace : List Transaction} {c : Cycle} {start : Bool}

theorem Running.within {cell pc : ℕ} {phase : Phase}
    (h : Running wiring version words l origin b trace cell pc phase) :
    trace <+: accesses version wiring.shape words l wiring.shape.activeOutputs.toNat 0 := by
  rw [h.trace_eq]
  exact accesses_within _ h.cell_lt

theorem Stage.within (h : Stage wiring version words l origin b trace) :
    trace <+: accesses version wiring.shape words l wiring.shape.activeOutputs.toNat 0 := by
  cases h with
  | running cell pc phase h => exact h.within
  | finished h => rw [h.trace_eq]
  | draining _ _ _ hp => exact hp
  | stopped _ _ hp => exact hp

/-- A cancelled core accepts nothing, waits for its response, and stops. -/
theorem Bench.step_cancelling (wiring : Wiring) (hb : b.core.busy = true)
    (hcancel : b.core.cancelling (b.coreInput start c) = true) :
    b.accepted wiring start c = [] ∧ b.completion wiring start c = false ∧
    (b.memory.response = none → b.cancellation start c = true ∧
      (b.step wiring start c).core.busy = false ∧ (b.step wiring start c).memory = b.memory) ∧
    (b.memory.response.isSome = true → b.cancellation start c = false ∧
      (b.step wiring start c).core = { b.core with cancelRequested := true } ∧
      (b.step wiring start c).memory =
        if b.core.responseFire (b.coreInput start c) then { b.memory with response := none } else b.memory) := by
  have hvalid : b.core.requestFire (b.coreInput start c) = false := by
    simp [Core.requestFire, Core.requestValid, Core.graphInputRequest, Core.graphOutputRequest, hcancel]
  have herror : (b.coreInput start c).error = false := rfl
  have hpending : (b.coreInput start c).pending = b.memory.response.isSome := rfl
  have hcancellation : b.cancellation start c = !b.memory.response.isSome := by
    simp [Bench.cancellation, Core.cancellation, Core.storeFailure, hb, hcancel, herror, hpending]
  refine ⟨?_, ?_, fun hnone => ?_, fun hsome => ?_⟩
  · rw [Bench.accepted, hvalid]
    rfl
  · simp [Bench.completion, Core.completion, hcancel]
  · have hfire : b.core.responseFire (b.coreInput start c) = false := by
      simp [Core.responseFire, Bench.coreInput, hnone]
    refine ⟨by rw [hcancellation, hnone]; rfl, ?_, ?_⟩
    · change (b.core.step wiring (b.coreInput start c)).busy = false
      rw [Core.step, hcancel, hb, hpending, hnone]
      rfl
    · change (if b.core.requestFire (b.coreInput start c) = true then _ else _) = _
      rw [hvalid, hfire]
      rfl
  · refine ⟨by rw [hcancellation, hsome]; rfl, ?_, ?_⟩
    · change b.core.step wiring (b.coreInput start c) = _
      rw [Core.step, if_pos (by rw [hcancel, hb]; rfl), if_neg (by rw [hpending, hsome]; simp)]
    · change (if b.core.requestFire (b.coreInput start c) = true then _ else _) = _
      rw [hvalid]
      rfl

/-- An idle core without a start stays as it is. -/
theorem Bench.step_idle (wiring : Wiring) (c : Cycle) (hb : b.core.busy = false) (hq : b.memory.response = none) :
    b.step wiring false c = b ∧ b.accepted wiring false c = [] ∧ b.completion wiring false c = false ∧
      b.cancellation false c = false := by
  have hrequest : b.core.requestFire (b.coreInput false c) = false := by
    simp [Core.requestFire, Core.requestValid, Core.graphInputRequest, Core.graphOutputRequest, hb]
  have hresponse : b.core.responseFire (b.coreInput false c) = false := by
    simp [Core.responseFire, Bench.coreInput, hq]
  refine ⟨?_, ?_, ?_, ?_⟩
  · unfold Bench.step
    rw [hrequest, hresponse]
    have hcore : b.core.step wiring (b.coreInput false c) = b.core := by
      simp [Core.step, hb, Bench.coreInput]
    rw [hcore]
    rfl
  · rw [Bench.accepted, hrequest]
    rfl
  · simp [Bench.completion, Core.completion, hb]
  · simp [Bench.cancellation, Core.cancellation, Core.storeFailure, hb]

theorem Running.responseReady {cell pc : ℕ} {phase : Phase}
    (h : Running wiring version words l origin b trace cell pc phase)
    (hsome : b.memory.response.isSome = true) : b.core.responseReady = true := by
  have hphase : phase = .response := by
    by_contra hne
    rw [h.quiet hne] at hsome
    cases hsome
  subst hphase
  rw [Core.responseReady, h.state]
  rcases h.kind (by simp) with h1 | h3
  · rw [h1]
    rfl
  · rw [h3]
    rfl

/-- From a cancel on, a run drains and stops. -/
theorem Stage.cancel (hb : b.core.busy = true)
    (hcancel : b.core.cancelling (b.coreInput start c) = true)
    (hs : b.memory.response.isSome = true → b.core.responseReady = true)
    (hp : trace <+: accesses version wiring.shape words l wiring.shape.activeOutputs.toNat 0) :
    Stage wiring version words l origin (b.step wiring start c) (trace ++ b.accepted wiring start c) := by
  obtain ⟨hnone, -, hstop, hwait⟩ := Bench.step_cancelling wiring hb hcancel
  rw [hnone, List.append_nil]
  cases hr : b.memory.response.isSome with
  | false =>
    have hq : b.memory.response = none := by simpa using hr
    obtain ⟨-, hbusy, hmemory⟩ := hstop hq
    exact .stopped hbusy (by rw [hmemory]; exact hq) hp
  | true =>
    obtain ⟨-, hcore, hmemory⟩ := hwait hr
    refine .draining (by rw [hcore]; exact hb) (by rw [hcore]) (fun _ => ?_) hp
    rw [hcore]
    exact hs hr

theorem Stage.step (hh : Holds wiring version l)
    (hwords : ∀ i, i < 324 → (origin (BitVec.ofNat 10 i)).toNat = words.getD i 0)
    (h : Stage wiring version words l origin b trace) (c : Cycle) :
    Stage wiring version words l origin (b.step wiring false c) (trace ++ b.accepted wiring false c) := by
  cases h with
  | running cell pc phase h =>
    cases hc : c.cancel with
    | true =>
      refine Stage.cancel h.busy ?_ h.responseReady h.within
      rw [Core.cancelling, Bench.coreInput, hc]
      rfl
    | false =>
      cases h.step hh hwords false hc with
      | move cell' pc' phase' _ hnext => exact .running cell' pc' phase' hnext
      | wait _ hnext => exact .running cell pc phase hnext
      | finish _ _ hnext => exact .finished hnext
  | finished h =>
    obtain ⟨hstep, hnone, -, -⟩ := Bench.step_idle wiring c h.busy h.quiet
    rw [hstep, hnone, List.append_nil]
    exact .finished h
  | draining hb hr hs hp =>
    refine Stage.cancel hb ?_ hs hp
    rw [Core.cancelling, hr, Bool.or_true]
  | stopped hb hq hp =>
    obtain ⟨hstep, hnone, -, -⟩ := Bench.step_idle wiring c hb hq
    rw [hstep, hnone, List.append_nil]
    exact .stopped hb hq hp

/-- A core that was started is at its first request. -/
theorem running_started (hh : Holds wiring version l) (storage : BitVec 10 → BitVec 32) :
    Running wiring version words l storage ⟨.started, ⟨storage, none⟩⟩ [] 0 0 .request := by
  have hfirst := hh.first
  have htwo := hh.two_le
  have hactive : 0 < wiring.shape.activeOutputs.toNat := by
    rcases Shape.cases hh.shape with ⟨-, -, -, -, h5⟩ | ⟨-, -, -, -, h5⟩ <;> omega
  refine ⟨rfl, rfl, rfl, hactive, rfl, by omega, fun r => rfl, rfl, fun _ => Or.inl hfirst, ?_, fun _ => rfl,
    fun hne => (by cases hne), ?_, ?_⟩
  · rw [hfirst]
    rfl
  · rw [if_neg (fun hno => by cases hno.1), written_zero]
  · rfl

/-- A start puts the core at its first request. -/
theorem running_start (hh : Holds wiring version l) (hb : b.core.busy = false) (hq : b.memory.response = none) :
    b.accepted wiring true c = [] ∧
    Running wiring version words l b.memory.storage (b.step wiring true c) [] 0 0 .request := by
  have hrequest : b.core.requestFire (b.coreInput true c) = false := by
    simp [Core.requestFire, Core.requestValid, Core.graphInputRequest, Core.graphOutputRequest, hb]
  have hresponse : b.core.responseFire (b.coreInput true c) = false := by
    simp [Core.responseFire, Bench.coreInput, hq]
  have hstep : b.step wiring true c = ⟨.started, b.memory⟩ := by
    unfold Bench.step
    rw [hrequest, hresponse]
    have hcore : b.core.step wiring (b.coreInput true c) = .started := by
      simp [Core.step, hb, Bench.coreInput]
    rw [hcore]
    rfl
  constructor
  · rw [Bench.accepted, hrequest]
    rfl
  · have hmemory : b.memory = ⟨b.memory.storage, none⟩ := by rw [← hq]
    rw [hstep]
    nth_rewrite 2 [hmemory]
    exact running_started hh b.memory.storage

end Stages

section Stores

variable {version : ℕ} {shape : Shape} {words l : List ℕ} {d : Finset ℕ}

/-- A program stores once at each cell. -/
theorem cellAccesses_stores (h : ProgramOk version d l) (cell : ℕ) :
    (cellAccesses version shape words l cell l.length).filter (·.write) =
      [⟨true, 324 + cell, cellWord version shape words cell l⟩] := by
  obtain ⟨body, last, hl, hlast, hbody⟩ := ProgramOk.split h
  have hreads : (body.flatMap (access version shape words l cell)).filter (·.write) = [] := by
    rw [List.filter_eq_nil_iff]
    intro transaction hmem
    obtain ⟨w, hw, hin⟩ := List.mem_flatMap.mp hmem
    obtain ⟨d', hp⟩ := hbody w hw
    have hop := hp.opcode
    unfold access at hin
    by_cases h1 : opcodeOf w = 1
    · rw [if_pos h1] at hin
      rw [List.mem_singleton.mp hin]
      exact Bool.false_ne_true
    · rw [if_neg h1, if_neg (by omega)] at hin
      cases hin
  have hstore : access version shape words l cell last =
      [⟨true, 324 + cell, cellWord version shape words cell l⟩] := by
    rw [access, if_neg (by omega), if_pos hlast]
  rw [cellAccesses, List.take_length]
  nth_rewrite 2 [hl]
  rw [List.flatMap_append, List.filter_append, hreads, List.flatMap_singleton, hstore]
  rfl

theorem accesses_stores (h : ProgramOk version d l) (n : ℕ) :
    (accesses version shape words l n 0).filter (·.write) =
      (List.range n).map fun cell => ⟨true, 324 + cell, cellWord version shape words cell l⟩ := by
  simp only [accesses_zero, List.filter_flatMap, cellAccesses_stores h]
  exact List.map_eq_flatMap.symm

end Stores

section Schedule

variable (wiring : Wiring) (b : Bench) (cycle : ℕ → Cycle)

/-- The bench before each cycle; the start is in the first one. -/
def Bench.before : ℕ → Bench
  | 0 => b
  | t + 1 => (before t).step wiring (t == 0) (cycle t)

/-- The requests that were accepted before a cycle. -/
def Bench.trace : ℕ → List Transaction
  | 0 => []
  | t + 1 => trace t ++ (b.before wiring cycle t).accepted wiring (t == 0) (cycle t)

def Bench.completes (t : ℕ) : Bool := (b.before wiring cycle t).completion wiring (t == 0) (cycle t)
def Bench.cancels (t : ℕ) : Bool := (b.before wiring cycle t).cancellation (t == 0) (cycle t)

/-- The memory takes a request again and again, and answers again and again. -/
def Fair : Prop := (∀ t, ∃ u, t ≤ u ∧ (cycle u).ready = true) ∧ ∀ t, ∃ u, t ≤ u ∧ (cycle u).deliver = true

/-- The run of a bench does what the host expects. -/
structure Refines (expected : List Transaction) : Prop where
  accepted : ∀ t, b.trace wiring cycle t <+: expected
  stores : (expected.filter (·.write)).length = wiring.shape.rows.toNat * wiring.shape.columns.toNat
  complete : ∀ t, b.completes wiring cycle t = true → b.trace wiring cycle t = expected ∧
    (b.before wiring cycle (t + 1)).memory.response = none ∧
    (b.before wiring cycle (t + 1)).core.checksum.toNat =
      ((expected.filter (·.write)).map (·.data)).sum % 2 ^ 64 ∧
    ∀ u, b.completes wiring cycle u = true → u = t
  uncancelled : (∀ t, (b.before wiring cycle t).core.busy = true → (cycle t).cancel = false) →
    (∀ t, b.cancels wiring cycle t = false) ∧ (Fair cycle → ∃ t, b.completes wiring cycle t = true)
  cancelled : ∀ t, (b.before wiring cycle t).core.busy = true → (cycle t).cancel = true →
    (∀ u, t ≤ u → b.completes wiring cycle u = false) ∧
    (∀ u, t ≤ u → (b.cancels wiring cycle u = true ↔ (b.before wiring cycle u).core.busy = true ∧
      (b.before wiring cycle u).memory.response = none)) ∧
    (∀ u v, b.cancels wiring cycle u = true → b.cancels wiring cycle v = true → u = v) ∧
    ((∀ t, ∃ u, t ≤ u ∧ (cycle u).deliver = true) → ∃ u, t ≤ u ∧ b.cancels wiring cycle u = true)

variable {wiring b cycle} {version : ℕ} {words l : List ℕ}
  (hh : Holds wiring version l) (hwords : ∀ i, i < 324 → (b.memory.storage (BitVec.ofNat 10 i)).toNat = words.getD i 0)
  (hb : b.core.busy = false) (hq : b.memory.response = none)

include hh hwords hb hq

theorem stage_before (t : ℕ) : Stage wiring version words l b.memory.storage (b.before wiring cycle (t + 1))
    (b.trace wiring cycle (t + 1)) := by
  induction t with
  | zero =>
    obtain ⟨hnone, hrunning⟩ := @running_start wiring version words l b (cycle 0) hh hb hq
    have htrace : b.trace wiring cycle 1 = [] := hnone
    rw [htrace]
    exact .running 0 0 .request hrunning
  | succ t ih => exact ih.step hh hwords (cycle (t + 1))

/-- Once the core is idle after its start, nothing more happens. -/
theorem idle_after {t : ℕ} (hidle : (b.before wiring cycle (t + 1)).core.busy = false) {u : ℕ} (hu : t + 1 ≤ u) :
    b.before wiring cycle u = b.before wiring cycle (t + 1) ∧ b.completes wiring cycle u = false ∧
      b.cancels wiring cycle u = false := by
  have hquiet : (b.before wiring cycle (t + 1)).memory.response = none := by
    cases @stage_before wiring b cycle version words l hh hwords hb hq t with
    | running _ _ _ h => rw [h.busy] at hidle; cases hidle
    | finished h => exact h.quiet
    | draining hbusy => rw [hbusy] at hidle; cases hidle
    | stopped _ hnone => exact hnone
  induction u, hu using Nat.le_induction with
  | base =>
    obtain ⟨-, -, hcomplete, hcancel⟩ := Bench.step_idle wiring (cycle (t + 1)) hidle hquiet
    exact ⟨rfl, hcomplete, hcancel⟩
  | succ u hu ih =>
    obtain ⟨hsame, -, -⟩ := ih
    obtain ⟨v, rfl⟩ : ∃ v, u = v + 1 := ⟨u - 1, by omega⟩
    have hstep : b.before wiring cycle (v + 2) = b.before wiring cycle (t + 1) := by
      change (b.before wiring cycle (v + 1)).step wiring false (cycle (v + 1)) = _
      rw [hsame, (Bench.step_idle wiring (cycle (v + 1)) hidle hquiet).1]
    obtain ⟨-, -, hcomplete, hcancel⟩ := Bench.step_idle wiring (cycle (v + 2)) hidle hquiet
    refine ⟨hstep, ?_, ?_⟩
    · change (b.before wiring cycle (v + 2)).completion wiring false (cycle (v + 2)) = false
      rw [hstep]
      exact hcomplete
    · change (b.before wiring cycle (v + 2)).cancellation false (cycle (v + 2)) = false
      rw [hstep]
      exact hcancel

omit hh hwords hq in
/-- The core is busy in the cycle of an event, which is not the first. -/
theorem busy_of_event {t : ℕ} (h : b.completes wiring cycle t = true ∨ b.cancels wiring cycle t = true) :
    ∃ v, t = v + 1 ∧ (b.before wiring cycle (v + 1)).core.busy = true := by
  have hbusy : (b.before wiring cycle t).core.busy = true := by
    by_contra hno
    rw [Bool.not_eq_true] at hno
    rcases h with h | h
    · simp [Bench.completes, Bench.completion, Core.completion, hno] at h
    · simp [Bench.cancels, Bench.cancellation, Core.cancellation, Core.storeFailure, hno] at h
  cases t with
  | zero =>
    change b.core.busy = true at hbusy
    rw [hb] at hbusy
    cases hbusy
  | succ v => exact ⟨v, rfl, hbusy⟩

/-- A completion is the end of a run that was never cancelled. -/
theorem finished_of_completes {t : ℕ} (h : b.completes wiring cycle t = true) :
    b.trace wiring cycle (t + 1) = b.trace wiring cycle t ∧
      Finished wiring version words l b.memory.storage (b.before wiring cycle (t + 1))
        (b.trace wiring cycle (t + 1)) := by
  obtain ⟨v, rfl, hbusy⟩ := busy_of_event hb (Or.inl h)
  have hcalm : (b.before wiring cycle (v + 1)).core.cancelling
      ((b.before wiring cycle (v + 1)).coreInput false (cycle (v + 1))) = false := by
    by_contra hno
    rw [Bool.not_eq_false] at hno
    have := (Bench.step_cancelling wiring hbusy hno).2.1
    change (b.before wiring cycle (v + 1)).completion wiring false (cycle (v + 1)) = true at h
    rw [this] at h
    cases h
  simp only [Core.cancelling, Bench.coreInput, Bool.or_eq_false_iff] at hcalm
  cases @stage_before wiring b cycle version words l hh hwords hb hq v with
  | running cell pc phase hr =>
    cases hr.step hh hwords false hcalm.1 with
    | move _ _ _ hno =>
      change (b.before wiring cycle (v + 1)).completion wiring false (cycle (v + 1)) = true at h
      rw [hno] at h
      cases h
    | wait hno =>
      change (b.before wiring cycle (v + 1)).completion wiring false (cycle (v + 1)) = true at h
      rw [hno] at h
      cases h
    | finish _ hnone hnext =>
      refine ⟨?_, hnext⟩
      change _ ++ (b.before wiring cycle (v + 1)).accepted wiring false (cycle (v + 1)) = _
      rw [hnone, List.append_nil]
  | finished hf => rw [hf.busy] at hbusy; cases hbusy
  | draining _ hrequested => rw [hrequested] at hcalm; cases hcalm.2
  | stopped hno => rw [hno] at hbusy; cases hbusy

omit hh hwords hq in
/-- A cancellation ends a run whose response is in. -/
theorem stopped_of_cancels {t : ℕ} (h : b.cancels wiring cycle t = true) :
    (b.before wiring cycle t).memory.response = none ∧ (b.before wiring cycle (t + 1)).core.busy = false := by
  obtain ⟨v, rfl, hbusy⟩ := busy_of_event hb (Or.inr h)
  change (b.before wiring cycle (v + 1)).cancellation false (cycle (v + 1)) = true at h
  have herror : ((b.before wiring cycle (v + 1)).coreInput false (cycle (v + 1))).error = false := rfl
  have hpending : ((b.before wiring cycle (v + 1)).coreInput false (cycle (v + 1))).pending =
    (b.before wiring cycle (v + 1)).memory.response.isSome := rfl
  simp only [Bench.cancellation, Core.cancellation, Core.storeFailure, hbusy, herror, hpending, Bool.and_false,
    Bool.or_false, Bool.true_and, Bool.and_eq_true, Bool.not_eq_true', Option.isSome_eq_false_iff,
    Option.isNone_iff_eq_none] at h
  exact ⟨h.2, ((Bench.step_cancelling wiring hbusy h.1).2.2.1 h.2).2.1⟩

/-- Two events are one. -/
theorem event_unique {t u : ℕ}
    (ht : b.completes wiring cycle t = true ∨ b.cancels wiring cycle t = true)
    (hu : b.completes wiring cycle u = true ∨ b.cancels wiring cycle u = true) : t = u := by
  have hend : ∀ v, b.completes wiring cycle v = true ∨ b.cancels wiring cycle v = true →
      (b.before wiring cycle (v + 1)).core.busy = false := by
    rintro v (hv | hv)
    · exact (finished_of_completes hh hwords hb hq hv).2.busy
    · exact (stopped_of_cancels hb hv).2
  have hlate : ∀ v w, v < w → (b.completes wiring cycle v = true ∨ b.cancels wiring cycle v = true) →
      ¬ (b.completes wiring cycle w = true ∨ b.cancels wiring cycle w = true) := by
    rintro v w hlt hv hw
    obtain ⟨-, h1, h2⟩ := idle_after hh hwords hb hq (hend v hv) (show v + 1 ≤ w from hlt)
    rcases hw with hw | hw
    · rw [h1] at hw
      cases hw
    · rw [h2] at hw
      cases hw
  rcases Nat.lt_trichotomy t u with hlt | heq | hgt
  · exact absurd hu (hlate t u hlt ht)
  · exact heq
  · exact absurd ht (hlate u t hgt hu)

/-- From a cancel on, the core is idle or cancelling. -/
theorem cancelling_after {t : ℕ} (hbusy : (b.before wiring cycle t).core.busy = true)
    (hc : (cycle t).cancel = true) {u : ℕ} (hu : t ≤ u) (hbusyu : (b.before wiring cycle u).core.busy = true) :
    (b.before wiring cycle u).core.cancelling ((b.before wiring cycle u).coreInput (u == 0) (cycle u)) = true := by
  have hpos : 0 < t := by
    rcases Nat.eq_zero_or_pos t with rfl | hpos
    · change b.core.busy = true at hbusy
      rw [hb] at hbusy
      cases hbusy
    · exact hpos
  induction u, hu using Nat.le_induction with
  | base => simp [Core.cancelling, Bench.coreInput, hc]
  | succ u hu ih =>
    obtain ⟨v, rfl⟩ : ∃ v, u = v + 1 := ⟨u - 1, by omega⟩
    have hbefore : (b.before wiring cycle (v + 1)).core.busy = true := by
      by_contra hno
      rw [Bool.not_eq_true] at hno
      rw [(idle_after hh hwords hb hq hno (Nat.le_succ (v + 1))).1, hno] at hbusyu
      cases hbusyu
    obtain ⟨-, -, hstop, hwait⟩ := Bench.step_cancelling wiring hbefore (ih hbefore)
    cases hr : (b.before wiring cycle (v + 1)).memory.response.isSome with
    | false =>
      have := (hstop (by simpa using hr)).2.1
      change ((b.before wiring cycle (v + 1)).step wiring _ (cycle (v + 1))).core.busy = true at hbusyu
      rw [this] at hbusyu
      cases hbusyu
    | true =>
      have hcore : (b.before wiring cycle (v + 2)).core = _ := (hwait hr).2.1
      rw [Core.cancelling, hcore, Bool.or_true]

/-- A memory that answers lets a cancelled run stop. -/
theorem cancels_eventually {t : ℕ} (hbusy : (b.before wiring cycle t).core.busy = true)
    (hc : (cycle t).cancel = true) (hfair : ∀ t, ∃ u, t ≤ u ∧ (cycle u).deliver = true) :
    ∃ u, t ≤ u ∧ b.cancels wiring cycle u = true := by
  obtain ⟨u, hu, hdeliver⟩ := hfair t
  have hcancelling := fun {u} => @cancelling_after wiring b cycle version words l hh hwords hb hq t hbusy hc u
  -- while the response is out the core stays busy, so it is there to take the one that is delivered
  have hdrain : ∀ k v, t ≤ v → v + k = u → (b.before wiring cycle v).core.busy = true →
      ((b.before wiring cycle v).memory.response.isSome = true →
        (b.before wiring cycle v).core.responseReady = true) →
      ∃ w, t ≤ w ∧ b.cancels wiring cycle w = true := by
    intro k
    induction k with
    | zero =>
      intro v hv hk hbusyv hready
      obtain rfl : v = u := by omega
      obtain ⟨-, -, hstop, hwait⟩ := Bench.step_cancelling wiring hbusyv (hcancelling hv hbusyv)
      cases hr : (b.before wiring cycle v).memory.response.isSome with
      | false => exact ⟨v, hv, (hstop (by simpa using hr)).1⟩
      | true =>
        obtain ⟨-, hcore, hmemory⟩ := hwait hr
        have hfire : (b.before wiring cycle v).core.responseFire
            ((b.before wiring cycle v).coreInput (v == 0) (cycle v)) = true := by
          simp [Core.responseFire, Bench.coreInput, hdeliver, hr, hready hr]
        rw [hfire, if_pos rfl] at hmemory
        have hbusynext : (b.before wiring cycle (v + 1)).core.busy = true := by
          change ((b.before wiring cycle v).step wiring (v == 0) (cycle v)).core.busy = true
          rw [hcore]
          exact hbusyv
        have hnone : (b.before wiring cycle (v + 1)).memory.response = none := by
          change ((b.before wiring cycle v).step wiring (v == 0) (cycle v)).memory.response = none
          rw [hmemory]
        have hnext := Bench.step_cancelling wiring hbusynext (hcancelling (Nat.le_succ_of_le hv) hbusynext)
        exact ⟨v + 1, by omega, (hnext.2.2.1 hnone).1⟩
    | succ k ih =>
      intro v hv hk hbusyv hready
      obtain ⟨-, -, hstop, hwait⟩ := Bench.step_cancelling wiring hbusyv (hcancelling hv hbusyv)
      cases hr : (b.before wiring cycle v).memory.response.isSome with
      | false => exact ⟨v, hv, (hstop (by simpa using hr)).1⟩
      | true =>
        obtain ⟨-, hcore, -⟩ := hwait hr
        have hcore' : (b.before wiring cycle (v + 1)).core = _ := hcore
        refine ih (v + 1) (by omega) (by omega) ?_ fun _ => ?_
        · rw [hcore']
          exact hbusyv
        · rw [hcore']
          exact hready hr
  refine hdrain (u - t) t (Nat.le_refl t) (by omega) hbusy fun hsome => ?_
  cases t with
  | zero =>
    change b.core.busy = true at hbusy
    rw [hb] at hbusy
    cases hbusy
  | succ v =>
    cases @stage_before wiring b cycle version words l hh hwords hb hq v with
    | running _ _ _ hr => exact hr.responseReady hsome
    | finished hf => rw [hf.busy] at hbusy; cases hbusy
    | draining _ _ hs => exact hs hsome
    | stopped hno => rw [hno] at hbusy; cases hbusy

/-- Without a cancel a run is under way or complete. -/
theorem running_or_finished (hcalm : ∀ t, (b.before wiring cycle t).core.busy = true → (cycle t).cancel = false)
    (t : ℕ) :
    (∃ cell pc phase, Running wiring version words l b.memory.storage (b.before wiring cycle (t + 1))
      (b.trace wiring cycle (t + 1)) cell pc phase) ∨
    Finished wiring version words l b.memory.storage (b.before wiring cycle (t + 1)) (b.trace wiring cycle (t + 1)) := by
  induction t with
  | zero =>
    obtain ⟨hnone, hrunning⟩ := @running_start wiring version words l b (cycle 0) hh hb hq
    have htrace : b.trace wiring cycle 1 = [] := hnone
    rw [htrace]
    exact Or.inl ⟨0, 0, .request, hrunning⟩
  | succ t ih =>
    rcases ih with ⟨cell, pc, phase, h⟩ | h
    · cases h.step hh hwords false (hcalm (t + 1) h.busy) with
      | move cell' pc' phase' _ hnext => exact Or.inl ⟨cell', pc', phase', hnext⟩
      | wait _ hnext => exact Or.inl ⟨cell, pc, phase, hnext⟩
      | finish _ _ hnext => exact Or.inr hnext
    · obtain ⟨hstep, hnone, -, -⟩ := Bench.step_idle wiring (cycle (t + 1)) h.busy h.quiet
      right
      change Finished wiring version words l b.memory.storage
        ((b.before wiring cycle (t + 1)).step wiring false (cycle (t + 1)))
        (_ ++ (b.before wiring cycle (t + 1)).accepted wiring false (cycle (t + 1)))
      rw [hstep, hnone, List.append_nil]
      exact h

theorem cancels_never (hcalm : ∀ t, (b.before wiring cycle t).core.busy = true → (cycle t).cancel = false) (t : ℕ) :
    b.cancels wiring cycle t = false := by
  by_contra hno
  rw [Bool.not_eq_false] at hno
  obtain ⟨v, rfl, hbusy⟩ := busy_of_event hb (Or.inr hno)
  rcases running_or_finished hh hwords hb hq hcalm v with ⟨cell, pc, phase, h⟩ | h
  · have : b.cancels wiring cycle (v + 1) = false := h.cancellation (hcalm (v + 1) hbusy)
    rw [this] at hno
    cases hno
  · rw [h.busy] at hbusy
    cases hbusy

omit hb hq in
/-- A memory that takes requests and answers lets a run get on. -/
theorem progress (hcalm : ∀ t, (b.before wiring cycle t).core.busy = true → (cycle t).cancel = false)
    (hfair : Fair cycle) {t cell pc : ℕ} {phase : Phase}
    (h : Running wiring version words l b.memory.storage (b.before wiring cycle (t + 1))
      (b.trace wiring cycle (t + 1)) cell pc phase) :
    ∃ u, t ≤ u ∧ (b.completes wiring cycle (u + 1) = true ∨ ∃ cell' pc' phase',
      Running wiring version words l b.memory.storage (b.before wiring cycle (u + 2))
        (b.trace wiring cycle (u + 2)) cell' pc' phase' ∧
      position l cell pc phase < position l cell' pc' phase') := by
  obtain ⟨u, hu, hhelp⟩ : ∃ u, t + 1 ≤ u ∧
      ¬ (phase = .request ∧ (cycle u).ready = false ∨ phase = .response ∧ (cycle u).deliver = false) := by
    cases phase with
    | fetch => exact ⟨t + 1, Nat.le_refl _, by simp⟩
    | request =>
      obtain ⟨u, hu, hr⟩ := hfair.1 (t + 1)
      exact ⟨u, hu, by simp [hr]⟩
    | response =>
      obtain ⟨u, hu, hd⟩ := hfair.2 (t + 1)
      exact ⟨u, hu, by simp [hd]⟩
  obtain ⟨k, rfl⟩ : ∃ k, u = t + 1 + k := ⟨u - (t + 1), by omega⟩
  clear hu
  induction k generalizing t with
  | zero =>
    cases h.step hh hwords false (hcalm (t + 1) h.busy) with
    | move cell' pc' phase' _ hnext hmove => exact ⟨t, Nat.le_refl t, Or.inr ⟨cell', pc', phase', hnext, hmove⟩⟩
    | wait _ _ hwait => exact absurd hwait hhelp
    | finish hcomplete => exact ⟨t, Nat.le_refl t, Or.inl hcomplete⟩
  | succ k ih =>
    cases h.step hh hwords false (hcalm (t + 1) h.busy) with
    | move cell' pc' phase' _ hnext hmove => exact ⟨t, Nat.le_refl t, Or.inr ⟨cell', pc', phase', hnext, hmove⟩⟩
    | wait _ hnext _ =>
      rw [show t + 1 + (k + 1) = t + 1 + 1 + k by omega] at hhelp
      obtain ⟨v, hv, hrest⟩ := ih hnext hhelp
      exact ⟨v, by omega, hrest⟩
    | finish hcomplete => exact ⟨t, Nat.le_refl t, Or.inl hcomplete⟩

omit hh hwords hb hq in
theorem Running.position_lt {trace : List Transaction} {bench : Bench} {origin : BitVec 10 → BitVec 32}
    {cell pc : ℕ} {phase : Phase}
    (h : Running wiring version words l origin bench trace cell pc phase) :
    position l cell pc phase < wiring.shape.activeOutputs.toNat * l.length * 3 := by
  have hcell := Nat.mul_le_mul_right l.length (show cell + 1 ≤ wiring.shape.activeOutputs.toNat from h.cell_lt)
  have hpc := h.counter_lt
  rw [Nat.succ_mul] at hcell
  have hindex : phase.index ≤ 2 := by cases phase <;> decide
  unfold position
  omega

theorem completes_eventually
    (hcalm : ∀ t, (b.before wiring cycle t).core.busy = true → (cycle t).cancel = false) (hfair : Fair cycle) :
    ∃ t, b.completes wiring cycle t = true := by
  -- the position grows until the run completes, and it is bounded
  have hrun : ∀ n t cell pc phase, Running wiring version words l b.memory.storage (b.before wiring cycle (t + 1))
      (b.trace wiring cycle (t + 1)) cell pc phase →
      wiring.shape.activeOutputs.toNat * l.length * 3 ≤ position l cell pc phase + n →
      ∃ t, b.completes wiring cycle t = true := by
    intro n
    induction n with
    | zero =>
      intro t cell pc phase h hn
      have := h.position_lt
      omega
    | succ n ih =>
      intro t cell pc phase h hn
      obtain ⟨u, -, hcomplete | ⟨cell', pc', phase', hnext, hmove⟩⟩ := progress hh hwords hcalm hfair h
      · exact ⟨u + 1, hcomplete⟩
      · exact ih (u + 1) cell' pc' phase' hnext (by omega)
  obtain ⟨hnone, hrunning⟩ := @running_start wiring version words l b (cycle 0) hh hb hq
  have htrace : b.trace wiring cycle 1 = [] := hnone
  rw [← htrace] at hrunning
  exact hrun _ 0 0 0 .request hrunning (Nat.le_add_left _ _)

/-- The run of a program that the wiring holds. -/
theorem refines_of_holds : Refines wiring b cycle
    (accesses version wiring.shape words l wiring.shape.activeOutputs.toNat 0) := by
  refine ⟨fun t => ?_, ?_, fun t ht => ?_, fun hcalm => ?_, fun t hbusy hc => ?_⟩
  · cases t with
    | zero => exact List.nil_prefix
    | succ t => exact (stage_before hh hwords hb hq t).within
  · rw [accesses_stores hh.program, List.length_map, List.length_range, activeOutputs_eq hh.shape]
  · obtain ⟨htrace, hf⟩ := finished_of_completes hh hwords hb hq ht
    refine ⟨htrace.symm.trans hf.trace_eq, hf.quiet, ?_, fun u hu =>
      event_unique hh hwords hb hq (Or.inl hu) (Or.inl ht)⟩
    rw [hf.checksum, accesses_stores hh.program, List.map_map]
    rfl
  · exact ⟨cancels_never hh hwords hb hq hcalm, completes_eventually hh hwords hb hq hcalm⟩
  · refine ⟨fun u hu => ?_, fun u hu => ?_, fun u v hu hv =>
      event_unique hh hwords hb hq (Or.inr hu) (Or.inr hv),
      cancels_eventually hh hwords hb hq hbusy hc⟩
    · by_contra hno
      rw [Bool.not_eq_false] at hno
      obtain ⟨v, rfl, hbusyu⟩ := busy_of_event hb (Or.inl hno)
      have hcancelling := cancelling_after hh hwords hb hq hbusy hc hu hbusyu
      have hnot : b.completes wiring cycle (v + 1) = false :=
        (Bench.step_cancelling wiring hbusyu hcancelling).2.1
      rw [hnot] at hno
      cases hno
    · constructor
      · intro hcancels
        obtain ⟨v, rfl, hbusyu⟩ := busy_of_event hb (Or.inr hcancels)
        exact ⟨hbusyu, (stopped_of_cancels hb hcancels).1⟩
      · rintro ⟨hbusyu, hnone⟩
        have hcancelling := cancelling_after hh hwords hb hq hbusy hc hu hbusyu
        exact ((Bench.step_cancelling wiring hbusyu hcancelling).2.2.1 hnone).1

end Schedule

section Main

variable {shape : Shape} {words l : List ℕ}

/-- A program that the host accepts and the installer holds runs as the host expects, whatever the memory
does and whenever it is cancelled. -/
theorem executor_refines {sha256 : List UInt8 → Digest} {program : Image} {cs : List InstallerInput} {b : Bench}
    (s : Installer) (cycle : ℕ → Cycle) (haccept : validateFallbackProgram sha256 program = .ok l)
    (hinstalls : Installs (fun i => BitVec.ofNat 32 (program.payload.getD i 0)) cs)
    (hshape : shape = baseline ∨ shape = compact) (haffine : program.affine = shape.affine)
    (hlength : words.length = 324)
    (hstaged : ∀ i, i < 324 → (b.memory.storage (BitVec.ofNat 10 i)).toNat = words.getD i 0)
    (hidle : b.core.busy = false) (hquiet : b.memory.response = none) :
    ∃ expected, expectedTransactions sha256 program words = .ok expected ∧
      Refines ⟨shape, (runInstaller s cs).programVersion, (runInstaller s cs).programLength,
        (runInstaller s cs).program⟩ b cycle expected := by
  obtain ⟨hversion, hprogram⟩ := programOf_image haccept rfl
  have hadm : Admitted fun i => BitVec.ofNat 32 (program.payload.getD i 0) := by
    obtain ⟨_, _, _, _, _, -, -, -, -, -, h, -⟩ := hinstalls
    exact h
  have hh := holds_of_live hshape (installs_shows s hinstalls).live hadm
  rw [hversion, hprogram] at hh
  exact ⟨_, expectedTransactions_eq hshape hlength haccept haffine,
    refines_of_holds hh hstaged hidle hquiet⟩

/-- The commands that install a payload without a pause. -/
def installInputs (payload : Payload) : List InstallerInput :=
  clearInput :: ((List.range 32).map (writeInput payload) ++ [commitInput])

theorem installs_inputs (payload : Payload) (h : Admitted fun i => BitVec.ofNat 32 (payload.word i)) :
    Installs (fun i => BitVec.ofNat 32 (payload.word i)) (installInputs payload) := by
  have hall : ((List.range 32).map (writeInput payload)).filter commands = (List.range 32).map (writeInput payload) := by
    rw [List.filter_eq_self]
    intro io hio
    obtain ⟨i, -, rfl⟩ := List.mem_map.mp hio
    rfl
  refine ⟨[], clearInput, _, commitInput, [], rfl, rfl, rfl, ⟨?_, fun i io hio => ?_⟩, ⟨rfl, rfl, rfl, rfl⟩, h,
    fun io hio => by cases hio⟩
  · rw [hall, List.length_map, List.length_range]
  · rw [hall, List.getElem?_map] at hio
    obtain ⟨k, hk, rfl⟩ := Option.map_eq_some_iff.mp hio
    obtain ⟨hlt, hk⟩ := List.getElem?_eq_some_iff.mp hk
    rw [List.getElem_range] at hk
    subst hk
    have hi : i < 32 := by simpa using hlt
    have hfin : (Fin.ofNat 32 i).val = i := Nat.mod_eq_of_lt hi
    refine ⟨rfl, rfl, rfl, Nat.mod_eq_of_lt (show i < 64 by omega), ?_⟩
    dsimp only
    rw [hfin]
    rfl

theorem executor_refines_copy :
    validateFallbackProgram Sha256.digest (copyPayload.image Sha256.digest baseline.affine) =
      .ok [0x10000000, 0x30000000] ∧
    ∃ expected, expectedTransactions Sha256.digest (copyPayload.image Sha256.digest baseline.affine)
      (List.replicate 324 0) = .ok expected ∧
      Refines ⟨baseline, (runInstaller Installer.reset (installInputs copyPayload)).programVersion,
        (runInstaller Installer.reset (installInputs copyPayload)).programLength,
        (runInstaller Installer.reset (installInputs copyPayload)).program⟩
        ⟨Core.reset, ⟨fun _ => 0, none⟩⟩ (fun _ => ⟨false, true, true, 0, 0⟩) expected := by
  have haccept : validateFallbackProgram Sha256.digest (copyPayload.image Sha256.digest baseline.affine) =
      .ok [0x10000000, 0x30000000] := by decide +kernel
  have hadm : Admitted fun i => BitVec.ofNat 32 (copyPayload.word i) := by
    unfold Admitted
    decide +kernel
  refine ⟨haccept, executor_refines _ _ haccept (installs_inputs copyPayload hadm) (Or.inl rfl) rfl
    List.length_replicate (fun i hi => ?_) rfl rfl⟩
  rw [List.getD_replicate _ hi]
  rfl

end Main

end Raveil.Device
