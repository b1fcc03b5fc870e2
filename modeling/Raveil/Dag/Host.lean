import Raveil.Dag.Runs
import Raveil.Chain.Simulation
import Mathlib.Combinatorics.Colex

/-! The class `State` that follows a DAG on the host stays in step with the guest, job after job. -/
namespace Raveil.Dag
open Raveil.Lib Raveil.Fold Raveil.Authority Raveil.Dispatch

/-- `class State`; `producers` holds the versions a job left with its output. -/
structure HostState where
  versions : List ℕ
  banks : List (List ℕ)
  producers : ℕ → Option (List ℕ × List ℕ)

/-- What `resolve` returns: the job with its inputs filled in, and the two masks. -/
structure Resolved where
  name : String
  region : Region
  inputs : List (List ℕ)
  source : ℕ
  destination : ℕ

/-- `read_slots`. -/
def planReadSlots (plan : Plan) (index : ℕ) : Finset ℕ :=
  let sources := plan.sources.getD index []
  ((List.range sources.length).flatMap fun b =>
    if sources.getD b 0 = UINT32_MAX then []
    else (chunkRange ((plan.offsets.getD index []).getD b 0) ((plan.lengths.getD index []).getD b 0)).map fun chunk =>
      (plan.slots.getD (sources.getD b 0) []).getD chunk 0).toFinset

def slotSum (slots : List ℕ) : ℕ := (slots.map fun s => 1 <<< s).sum

namespace HostState

/-- `State.__init__`. -/
def init : HostState := ⟨List.replicate 8 1, List.replicate 8 (List.replicate 128 0), fun _ => none⟩

def available (plan : Plan) (s : HostState) (index : ℕ) : Bool :=
  (s.producers index).any fun saved => saved.1 = (plan.slots.getD index []).map fun slot => s.versions.getD slot 0

def badSource (plan : Plan) (s : HostState) (index : ℕ) : Option ℕ :=
  (plan.sources.getD index []).find? fun q => q ≠ UINT32_MAX ∧ !s.available plan q

/-- The input of one operand that `resolve` fills in. -/
def input (plan : Plan) (s : HostState) (index : ℕ) (operand : (Operand × ℕ) × ℕ) : Except String (List ℕ) :=
  let b := operand.2
  let source := operand.1.2
  if source ≠ UINT32_MAX then
    match s.producers source with
    | none => .error "KeyError"
    | some saved => .ok ((saved.2.drop ((plan.offsets.getD index []).getD b 0)).take
        ((plan.lengths.getD index []).getD b 0))
  else
    match operand.1.1 with
    | .link _ _ _ => .error "TypeError"
    | .literal values => .ok values

/-- `State.resolve`; `none` is an unavailable producer. -/
def resolve (session : Session) (plan : Plan) (s : HostState) (index : ℕ) : Except String (Option Resolved) :=
  if (s.badSource plan index).isSome then pure none
  else match session.jobs[index]? with
    | none => .error "IndexError"
    | some job => do
      let inputs ← (job.inputs.zip (plan.sources.getD index [])).zipIdx.mapM (s.input plan index)
      pure (some ⟨job.name, job.region, inputs, ∑ slot ∈ planReadSlots plan index, 1 <<< slot,
        slotSum (plan.slots.getD index [])⟩)

/-- `State.commit`. -/
def commit (plan : Plan) (s : HostState) (index destination : ℕ) (expected : List ℕ) (success : Bool) :
    Except String HostState := do
  let slots := plan.slots.getD index []
  require (destination = slotSum slots) "destination allocation mismatch"
  if success then
    let padded := expected ++ List.replicate (128 * slots.length - expected.length) 0
    let t := (List.range slots.length).foldl (fun (t : List ℕ × List (List ℕ)) j =>
      let slot := slots.getD j 0
      (t.1.set slot (t.1.getD slot 0 + 1), t.2.set slot ((padded.drop (128 * j)).take 128))) (s.versions, s.banks)
    pure ⟨t.1, t.2, Function.update s.producers index (some (slots.map fun slot => t.1.getD slot 0, expected))⟩
  else pure s

end HostState

/-- What a receipt says about one job. -/
structure HostRow where
  index : ℕ
  name : String
  inputs : List (List ℕ)
  approved : Bool
  writes : ℕ
  reads : ℕ
  output : List ℕ

/-- The locals of the loop of `run`, with the lines it waits for. -/
structure HostLoop where
  state : HostState
  rows : List HostRow
  halted : ℕ
  lines : List Event

/-- The lines that `check_step` demands after the exchange, and the row it returns. -/
def hostCheckStep (plan : Plan) (h : HostLoop) (epoch id : ℕ) (cookie : Identity) (index : ℕ) (r : Resolved)
    (expected : List ℕ) (o : Outcome) : Except String HostLoop := do
  let success := decide (o = .correct)
  let state ← h.state.commit plan index r.destination expected success
  pure
    { state := state
      rows := h.rows ++ [⟨index, r.name, r.inputs, success, r.destination, r.source, if success then expected else []⟩]
      halted := if o = .lost then 1 else h.halted
      lines := h.lines ++
        [.state index true (decide (o ≠ .lost)) r.destination r.source state.versions (index + 1) 0 0 0 0 state.banks,
        .result index id epoch (index + 1) cookie (if success then 1 else 4) success
          (if success then expected.length else 0) (if success then some expected else none)] }

/-- The body of the loop over the jobs in `run`. -/
def hostJob (session : Session) (plan : Plan) (epoch : ℕ) (ids : List ℕ) (device : Chain.Device) (h : HostLoop)
    (index : ℕ) : Except String HostLoop :=
  if h.halted ≠ 0 then pure h
  else do
    match ← h.state.resolve session plan index with
    | none => pure { h with halted := 3, lines := h.lines ++ [.block index ((h.state.badSource plan index).getD 0)] }
    | some r =>
      let id := ids.getD index 0
      let config ← compileRegion r.region
      let request ← requestBytes config r.inputs id
      let expected ← reference r.region r.inputs
      let h := { h with lines := h.lines ++
        [.dispatch id epoch (index + 1) (device.cookie index) expected.length request] }
      hostCheckStep plan h epoch id (device.cookie index) index r expected (device.outcome index expected)

/-- The loop of `run`, up to job `k`. -/
def hostLoop (session : Session) (plan : Plan) (epoch : ℕ) (ids : List ℕ) (device : Chain.Device) (k : ℕ) :
    Except String HostLoop :=
  (List.range k).foldlM (hostJob session plan epoch ids device)
    ⟨.init, [], 0, [.start epoch session.jobs.length plan.output HostState.init.versions]⟩

/-- The last lines the host waits for: `final_line` and the end of the session. -/
def hostFinish (session : Session) (plan : Plan) (epoch : ℕ) (h : HostLoop) : List Event :=
  let ok := h.state.available plan plan.output
  let values := if ok then ((h.state.producers plan.output).map Prod.snd).getD [] else []
  [.output plan.output ok values.length (if ok then some values else none),
    .finish epoch h.rows.length session.jobs.length h.halted h.state.versions]

section Masks

theorem slotSum_eq {slots : List ℕ} (h : slots.Nodup) : slotSum slots = ∑ s ∈ slots.toFinset, 2 ^ s := by
  rw [List.sum_toFinset _ h, slotSum]
  simp only [Nat.one_shiftLeft]

/-- A mask is the sum of its bits. -/
theorem sum_maskOf (slots : List ℕ) : ∑ s ∈ slots.toFinset, 2 ^ s = maskOf slots := by
  have hbits : (maskOf slots).bitIndices.toFinset = slots.toFinset := by
    ext s
    rw [List.mem_toFinset, List.mem_toFinset, Nat.mem_bitIndices, ← mask_test, maskOf_test]
  rw [← hbits]
  exact Finset.sum_toFinset_bitIndices_two_pow _

end Masks

section Plan

variable {session : Session} {plan : Plan} {d : ℕ → PlanData} {epoch i : ℕ} {ids : List ℕ} {p : List UInt8}

/-- The host's plan of the envelope `p`. -/
structure Planned (session : Session) (plan : Plan) (epoch : ℕ) (ids : List ℕ) (p : List UInt8) : Prop where
  accepted : Accepted p p.length
  epoch : word64 p 16 = epoch
  count : word p 12 = session.jobs.length
  output : word p 24 = plan.output
  id : ∀ i, i < word p 12 → idAt p i = ids.getD i 0
  sources : ∀ i, i < word p 12 → plan.sources.getD i [] = [sourceAt p i 0, sourceAt p i 1]
  offsets : ∀ i, i < word p 12 → plan.offsets.getD i [] = [startAt p i 0, startAt p i 1]
  lengths : ∀ i, i < word p 12 → plan.lengths.getD i [] = [extentAt p i 0, extentAt p i 1]
  slots : ∀ i, i < word p 12 → plan.slots.getD i [] = destinationsAt p i
  job : ∀ i, i < word p 12 → ∃ job x y, session.jobs[i]? = some job ∧ compileRegion job.region = .ok (configAt p i) ∧
    job.inputs = [x, y] ∧ (sourceAt p i 0 = UINT32_MAX → x = .literal (literalAt p i 0)) ∧
    (sourceAt p i 1 = UINT32_MAX → y = .literal (literalAt p i 1))

theorem Planned.operand (hp : Planned session plan epoch ids p) (hi : i < word p 12) {b : ℕ} (hb : b < 2) :
    (plan.sources.getD i []).getD b 0 = sourceAt p i b ∧ (plan.offsets.getD i []).getD b 0 = startAt p i b ∧
      (plan.lengths.getD i []).getD b 0 = extentAt p i b := by
  rw [hp.sources i hi, hp.offsets i hi, hp.lengths i hi]
  obtain rfl | rfl : b = 0 ∨ b = 1 := by omega
  · exact ⟨rfl, rfl, rfl⟩
  · exact ⟨rfl, rfl, rfl⟩

theorem PlanOk.literalAt_eq (h : PlanOk session plan d) (hids : IdsOk session ids)
    (hepoch : 0 < epoch ∧ epoch < 2 ^ 64) (hi : i < session.jobs.length) {b : ℕ} (hb : b < 2) :
    literalAt (planLayout session plan d epoch ids).bytes i b = (d i).values b := by
  obtain ⟨ha, hb', -, -⟩ := h.inputs hi
  obtain ⟨hla, -⟩ := (h.wireJob_ok hids hi).request.lengths
  obtain ⟨h0, h1⟩ := @take_drop_placed ((d i).values 0) ((d i).values 1) hla
  rw [literalAt, h.extentAt_eq hids hepoch hi, (h.reads hids hepoch hi).request]
  obtain rfl | rfl : b = 0 ∨ b = 1 := by omega
  · rw [← ha]
    exact h0
  · rw [← hb']
    exact h1

/-- The envelope that `encode` writes is planned as the host planned it. -/
theorem PlanOk.planned (h : PlanOk session plan d) (hids : IdsOk session ids)
    (hepoch : 0 < epoch ∧ epoch < 2 ^ 64) :
    Planned session plan epoch ids (planLayout session plan d epoch ids).bytes := by
  have hl := h.layout_ok hids hepoch
  have hcount : word (planLayout session plan d epoch ids).bytes 12 = session.jobs.length := by
    rw [Layout.count_bytes hl]
    simp [planLayout]
  constructor
  case accepted => exact h.accepted hids hepoch
  case epoch => exact Layout.epoch_bytes hl
  case count => exact hcount
  case output => exact Layout.output_bytes hl
  case id =>
    intro i hi
    rw [idAt_eq (h.reads hids hepoch (hcount ▸ hi)).request]
    rfl
  case sources =>
    intro i hi
    rw [hcount] at hi
    rw [h.sources, getD_map_range _ _ hi, h.sourceAt_eq hids hepoch hi (by omega),
      h.sourceAt_eq hids hepoch hi (by omega)]
    rfl
  case offsets =>
    intro i hi
    rw [hcount] at hi
    rw [h.offsets, getD_map_range _ _ hi, h.startAt_eq hids hepoch hi (by omega),
      h.startAt_eq hids hepoch hi (by omega)]
    rfl
  case lengths =>
    intro i hi
    rw [hcount] at hi
    rw [h.lengths, getD_map_range _ _ hi, h.extentAt_eq hids hepoch hi, h.extentAt_eq hids hepoch hi]
    rfl
  case slots =>
    intro i hi
    rw [hcount] at hi
    rw [h.slots, getD_map_range _ _ hi, h.destinationsAt_eq hids hepoch hi]
  case job =>
    intro i hi
    rw [hcount] at hi
    have hjob := List.getElem?_eq_getElem hi
    obtain ⟨x, y, hxy⟩ := List.length_eq_two.mp (h.two i _ hjob)
    have hoperand : ∀ b z, b < 2 → [x, y][b]? = some z →
        sourceAt (planLayout session plan d epoch ids).bytes i b = UINT32_MAX →
        z = .literal (literalAt (planLayout session plan d epoch ids).bytes i b) := by
      intro b z hb hz hs
      obtain ⟨z', hz', hplan⟩ := h.planOperand hi hb
      rw [hxy, hz] at hz'
      obtain rfl := Option.some.inj hz'
      rw [h.sourceAt_eq hids hepoch hi hb] at hs
      rw [h.literalAt_eq hids hepoch hi hb]
      exact (hplan.literal hs).1
    refine ⟨_, x, y, hjob, ?_, hxy, hoperand 0 x (by omega) rfl, hoperand 1 y (by omega) rfl⟩
    rw [h.configAt_eq hids hepoch hi]
    exact h.compiled i _ hjob

end Plan

section State

variable {session : Session} {plan : Plan} {epoch i : ℕ} {ids : List ℕ} {p : List UInt8} {st : Store} {s : HostState}

/-- The host's lists hold what the store holds. -/
structure Mirrors (st : Store) (s : HostState) : Prop where
  versions : s.versions = st.versionList
  banks : s.banks = st.content
  producers : s.producers = st.producers

theorem mirrors_init : Mirrors .initial .init := ⟨by decide, by decide, rfl⟩

theorem Mirrors.version (h : Mirrors st s) {slot : ℕ} (hslot : slot < 8) : s.versions.getD slot 0 = st.versions slot := by
  rw [h.versions, Store.versionList, getD_map_range _ _ hslot]

variable (hp : Planned session plan epoch ids p) (hi : i < word p 12) (h : Mirrors st s)

include hp hi h

theorem Mirrors.available_eq : s.available plan i = st.available p i := by
  have hslots : (destinationsAt p i).map (fun slot => s.versions.getD slot 0) =
      (destinationsAt p i).map st.versions :=
    List.map_congr_left fun slot hslot => h.version (mem_slotsAt hslot).1
  unfold HostState.available Store.available
  rw [h.producers, hp.slots i hi, hslots]

theorem Mirrors.badSource_eq : s.badSource plan i = st.badSource p i := by
  have hsource : ∀ q ∈ usesAt p i, s.available plan q = st.available p q := by
    intro q hq
    obtain ⟨b, hb, rfl⟩ := List.mem_map.mp hq
    obtain ⟨hb2, hl⟩ := mem_linksBelow.mp hb
    exact h.available_eq hp ((hp.accepted.link hi hb2 hl).1.trans hi)
  have huses : usesAt p i = [sourceAt p i 0, sourceAt p i 1].filter fun q => q ≠ UINT32_MAX := by
    have hmap : [sourceAt p i 0, sourceAt p i 1] = (List.range 2).map (sourceAt p i) := rfl
    rw [hmap, List.filter_map]
    rfl
  have hfind : st.badSource p i = (usesAt p i).find? fun q => !s.available plan q := by
    unfold Store.badSource
    refine List.find?_congr fun q hq => ?_
    rw [hsource q hq]
  rw [hfind, huses, List.find?_filter, HostState.badSource, hp.sources i hi]
  simp

omit h in
theorem Planned.readSlots_eq : planReadSlots plan i = (readSlots p i).toFinset := by
  have hslots : ∀ b, b < 2 → sourceAt p i b ≠ UINT32_MAX → ∀ j,
      (plan.slots.getD (sourceAt p i b) []).getD j 0 = slotAt p (sourceAt p i b) j := by
    intro b hb hl j
    rw [hp.slots _ ((hp.accepted.link hi hb hl).1.trans hi)]
    rfl
  simp only [List.getD_eq_getElem?_getD] at hslots
  have hrange : List.range 2 = [0, 1] := rfl
  unfold planReadSlots readSlots linksBelow operandSlots
  rw [hp.sources i hi, hp.offsets i hi, hp.lengths i hi]
  by_cases h0 : sourceAt p i 0 = UINT32_MAX
  · by_cases h1 : sourceAt p i 1 = UINT32_MAX
    · simp [hrange, h0, h1]
    · simp [hrange, h0, h1, hslots 1 (by omega) h1]
  · by_cases h1 : sourceAt p i 1 = UINT32_MAX
    · simp [hrange, h0, h1, hslots 0 (by omega) h0]
    · simp [hrange, h0, h1, hslots 0 (by omega) h0, hslots 1 (by omega) h1]

omit h in
theorem Planned.masks : ∑ slot ∈ planReadSlots plan i, 1 <<< slot = maskOf (readSlots p i) ∧
    slotSum (plan.slots.getD i []) = maskOf (destinationsAt p i) := by
  constructor
  · rw [hp.readSlots_eq hi, ← sum_maskOf]
    simp only [Nat.one_shiftLeft]
  · have hunique : (destinationsAt p i).Nodup := slotsAt_nodup i
    rw [hp.slots i hi, slotSum_eq hunique, sum_maskOf]

/-- The input the host fills in is the one the guest copies. -/
theorem Mirrors.input_eq (hbad : st.badSource p i = none) {b : ℕ} (hb : b < 2) {x : Operand}
    (hx : sourceAt p i b = UINT32_MAX → x = .literal (literalAt p i b)) :
    s.input plan i ((x, sourceAt p i b), b) = .ok (linked p st.value i b) := by
  obtain ⟨-, hoffset, hlength⟩ := hp.operand hi hb
  unfold HostState.input linked
  by_cases hl : sourceAt p i b = UINT32_MAX
  · dsimp only
    rw [if_neg (not_not.mpr hl), if_pos hl, hx hl]
  · have hav := badSource_eq_none hbad hb hl
    dsimp only
    rw [if_pos hl, if_neg hl, h.producers, hoffset, hlength]
    cases hq : st.producers (sourceAt p i b) with
    | none => simp [Store.available, hq] at hav
    | some saved => simp [Store.value, hq]

theorem Mirrors.resolve_eq (hbad : st.badSource p i = none) :
    ∃ job, session.jobs[i]? = some job ∧ compileRegion job.region = .ok (configAt p i) ∧
      s.resolve session plan i = .ok (some ⟨job.name, job.region, [linked p st.value i 0, linked p st.value i 1],
        maskOf (readSlots p i), maskOf (destinationsAt p i)⟩) := by
  obtain ⟨job, x, y, hjob, hregion, hxy, hx, hy⟩ := hp.job i hi
  obtain ⟨hreads, hwrites⟩ := hp.masks hi
  refine ⟨job, hjob, hregion, ?_⟩
  have hinputs : (job.inputs.zip (plan.sources.getD i [])).zipIdx.mapM (s.input plan i) =
      .ok [linked p st.value i 0, linked p st.value i 1] := by
    rw [hxy, hp.sources i hi]
    simp only [List.zip_cons_cons, List.zip_nil_right, List.zipIdx_cons, List.zipIdx_nil, List.mapM_cons,
      List.mapM_nil, Nat.zero_add, h.input_eq hp hi hbad Nat.zero_lt_two hx,
      h.input_eq hp hi hbad Nat.one_lt_two hy]
    rfl
  unfold HostState.resolve
  rw [h.badSource_eq hp hi, hbad, hjob]
  dsimp only
  rw [if_neg (by decide), hinputs, hreads, hwrites]
  rfl

end State

section Commit

variable {session : Session} {plan : Plan} {epoch i : ℕ} {ids : List ℕ} {p : List UInt8} {st : Store} {s : HostState}

theorem set_map_range {α : Type} (f : ℕ → α) (n k : ℕ) (v : α) :
    ((List.range n).map f).set k v = (List.range n).map (Function.update f k v) := by
  refine List.ext_getElem (by simp) fun j hj hj' => ?_
  rw [List.getElem_set, List.getElem_map, List.getElem_map, List.getElem_range]
  split
  · rename_i hk
    rw [hk, Function.update_self]
  · rename_i hk
    rw [Function.update_of_ne (Ne.symm hk)]

/-- Chunk `j` of the padded output. -/
theorem take_padded {out : List ℕ} {j m : ℕ} (hj : j < m) :
    ((out ++ List.replicate (128 * m - out.length) 0).drop (128 * j)).take 128 =
      (List.range 128).map (chunkWords out j) := by
  refine List.ext_getElem (by simp; omega) fun k hk hk' => ?_
  have hlt : k < 128 := by simpa using hk'
  rw [List.getElem_take, List.getElem_drop, List.getElem_map, List.getElem_range, chunkWords, if_pos hlt,
    ← getD_padded out (128 * m - out.length), List.getD_eq_getElem]

/-- The slots of a job, one after another, take their next version and their chunk. -/
theorem commitLoop_eq {dests out : List ℕ} (hunique : dests.Nodup) (hlt : ∀ slot ∈ dests, slot < 8)
    (versions : ℕ → ℕ) (banks : ℕ → List ℕ) {m : ℕ} (hm : m ≤ dests.length) :
    (List.range m).foldl (fun (t : List ℕ × List (List ℕ)) j =>
        let slot := dests.getD j 0
        (t.1.set slot (t.1.getD slot 0 + 1), t.2.set slot
          (((out ++ List.replicate (128 * dests.length - out.length) 0).drop (128 * j)).take 128)))
        ((List.range 8).map versions, (List.range 8).map banks) =
      ((List.range 8).map fun slot => if dests.idxOf slot < m then versions slot + 1 else versions slot,
        (List.range 8).map fun slot =>
          if dests.idxOf slot < m then (List.range 128).map (chunkWords out (dests.idxOf slot)) else banks slot) := by
  induction m with
  | zero => simp
  | succ m ih =>
    have hslot : dests.getD m 0 ∈ dests := by
      rw [List.getD_eq_getElem _ _ (by omega)]
      exact List.getElem_mem _
    have hidx : dests.idxOf (dests.getD m 0) = m := by
      rw [List.getD_eq_getElem _ _ (by omega)]
      exact hunique.idxOf_getElem m (by omega)
    have hother : ∀ slot, slot ≠ dests.getD m 0 → (dests.idxOf slot < m + 1 ↔ dests.idxOf slot < m) :=
      fun slot hne => idxOf_lt_succ (by omega) hne
    rw [@List.range_succ m, List.foldl_append, ih (by omega)]
    simp only [List.foldl_cons, List.foldl_nil, getD_map_range _ _ (hlt _ hslot),
      take_padded (show m < dests.length by omega), set_map_range, hidx, Nat.lt_irrefl, if_false]
    refine congrArg₂ Prod.mk (List.map_congr_left fun slot _ => ?_) (List.map_congr_left fun slot _ => ?_)
    · by_cases hs : slot = dests.getD m 0
      · rw [hs, Function.update_self, hidx, if_pos (Nat.lt_succ_self m)]
      · rw [Function.update_of_ne hs]
        simp only [hother slot hs]
    · by_cases hs : slot = dests.getD m 0
      · rw [hs, Function.update_self, hidx, if_pos (Nat.lt_succ_self m)]
      · rw [Function.update_of_ne hs]
        simp only [hother slot hs]

/-- The commit of the host is the commit of the store. -/
theorem Mirrors.commit_eq (hp : Planned session plan epoch ids p) (hi : i < word p 12) (h : Mirrors st s)
    (success : Bool) :
    ∃ t, s.commit plan i (maskOf (destinationsAt p i)) (st.expected p i) success = .ok t ∧
      Mirrors (answered p st i success) t := by
  have hmask := (hp.masks hi).2
  rw [hp.slots i hi] at hmask
  unfold HostState.commit
  rw [hp.slots i hi]
  dsimp only
  cases success with
  | false =>
    refine ⟨s, ?_, h⟩
    rw [require_of hmask.symm]
    rfl
  | true =>
    have hunique : (destinationsAt p i).Nodup := slotsAt_nodup i
    have hlt : ∀ slot ∈ destinationsAt p i, slot < 8 := fun slot hslot => (mem_slotsAt hslot).1
    have hloop := @commitLoop_eq _ (st.expected p i) hunique hlt st.versions
      (fun slot => (List.range 128).map (st.banks slot)) _ le_rfl
    have hmem : ∀ slot, (destinationsAt p i).idxOf slot < (destinationsAt p i).length ↔ slot ∈ destinationsAt p i :=
      fun slot => List.idxOf_lt_length_iff
    simp only [hmem] at hloop
    have hversions : s.versions = (List.range 8).map st.versions := h.versions
    have hbanks : s.banks = (List.range 8).map fun slot => (List.range 128).map (st.banks slot) := h.banks
    rw [require_of hmask.symm]
    refine ⟨_, rfl, ?_⟩
    rw [hversions, hbanks, hloop]
    have hsaved : (destinationsAt p i).map (fun slot => ((List.range 8).map fun slot =>
        if slot ∈ destinationsAt p i then st.versions slot + 1 else st.versions slot).getD slot 0) =
        (destinationsAt p i).map fun slot => st.versions slot + 1 := by
      refine List.map_congr_left fun slot hslot => ?_
      rw [getD_map_range _ _ (hlt slot hslot), if_pos hslot]
    refine ⟨rfl, List.map_congr_left fun slot _ => ?_, ?_⟩
    · simp only [answered, if_true, Store.commit]
      split
      · rfl
      · rfl
    · change Function.update s.producers i (some (_, _)) = _
      rw [hsaved, h.producers]
      rfl

end Commit

/-- What a job that ran read and gave. -/
structure RowOk (session : Session) (plan : Plan) (rows : List HostRow) (i : ℕ) (row : HostRow) : Prop where
  index : row.index = i
  output : ∃ job out, session.jobs[i]? = some job ∧ row.name = job.name ∧ reference job.region row.inputs = .ok out ∧
    row.output = if row.approved then out else []
  literal : ∀ b, b < 2 → (plan.sources.getD i []).getD b 0 = UINT32_MAX → ∃ job values, session.jobs[i]? = some job ∧
    job.inputs[b]? = some (.literal values) ∧ row.inputs[b]? = some values
  link : ∀ b, b < 2 → (plan.sources.getD i []).getD b 0 ≠ UINT32_MAX → ∃ producer, (plan.sources.getD i []).getD b 0 < i ∧
    rows[(plan.sources.getD i []).getD b 0]? = some producer ∧ producer.approved = true ∧
    row.inputs[b]? = some ((producer.output.drop ((plan.offsets.getD i []).getD b 0)).take
      ((plan.lengths.getD i []).getD b 0))

/-- The host is where the run is. -/
structure HostFollows (session : Session) (plan : Plan) (r : Run) (h : HostLoop) : Prop where
  state : Mirrors r.store h.state
  rows : h.rows.length = r.processed
  halted : h.halted = r.halted
  lines : h.lines = r.log
  saved : ∀ i vs out, r.store.producers i = some (vs, out) → ∃ row, h.rows[i]? = some row ∧ row.approved = true ∧
    row.output = out
  row : ∀ (i : ℕ) row, h.rows[i]? = some row → RowOk session plan h.rows i row

section Step

variable {session : Session} {plan : Plan} {epoch i : ℕ} {ids : List ℕ} {p : List UInt8} {r : Run} {h : HostLoop}
  {rx : ℕ → ℕ → Option Char}

theorem RowOk.append {rows : List HostRow} {row : HostRow} (hr : RowOk session plan rows i row) (new : HostRow) :
    RowOk session plan (rows ++ [new]) i row := by
  refine ⟨hr.index, hr.output, hr.literal, fun b hb hl => ?_⟩
  obtain ⟨producer, hlt, hp, hrest⟩ := hr.link b hb hl
  refine ⟨producer, hlt, ?_, hrest⟩
  rw [List.getElem?_append_left (List.getElem?_eq_some_iff.mp hp).1]
  exact hp

variable (hp : Planned session plan epoch ids p) (hi : i < word p 12) (hok : RunOk p i r)
  (hf : HostFollows session plan r h) (hrun : r.halted = 0) (hbad : r.store.badSource p i = none)

/-- The row of a job that ran. -/
def ranRow (p : List UInt8) (rx : ℕ → ℕ → Option Char) (r : Run) (i : ℕ) (name : String) : HostRow :=
  let ok : Bool := Run.outcomeAt p rx r.store i = .correct
  ⟨i, name, [linked p r.store.value i 0, linked p r.store.value i 1], ok, maskOf (destinationsAt p i),
    maskOf (readSlots p i), if ok then r.store.expected p i else []⟩

theorem ranRow_approved (name : String) :
    (ranRow p rx r i name).approved = decide (Run.outcomeAt p rx r.store i = .correct) := rfl

theorem ranRow_output (name : String) : (ranRow p rx r i name).output =
    if decide (Run.outcomeAt p rx r.store i = .correct) then r.store.expected p i else [] := rfl

include hf in
theorem HostFollows.row_append (new : HostRow) {j : ℕ} {vs out : List ℕ} (hq : r.store.producers j = some (vs, out)) :
    ∃ row, (h.rows ++ [new])[j]? = some row ∧ row.approved = true ∧ row.output = out := by
  obtain ⟨row, hrow, hrest⟩ := hf.saved j vs out hq
  refine ⟨row, ?_, hrest⟩
  rw [List.getElem?_append_left (List.getElem?_eq_some_iff.mp hrow).1]
  exact hrow

include hf in
/-- Every committed output has an approved row. -/
theorem HostFollows.saved_ran (hrows : h.rows.length = i) (name : String) {j : ℕ} {vs out : List ℕ}
    (hq : (Run.settle p rx r.store i).producers j = some (vs, out)) :
    ∃ row, (h.rows ++ [ranRow p rx r i name])[j]? = some row ∧ row.approved = true ∧ row.output = out := by
  unfold Run.settle at hq
  by_cases hcorrect : Run.outcomeAt p rx r.store i = .correct
  · rw [if_pos hcorrect] at hq
    change Function.update r.store.producers i _ j = _ at hq
    by_cases hji : j = i
    · rw [hji, Function.update_self] at hq
      obtain ⟨-, hout⟩ := Prod.mk.inj (Option.some.inj hq)
      refine ⟨ranRow p rx r i name, ?_, ?_, ?_⟩
      · rw [hji, List.getElem?_append_right hrows.le, hrows, Nat.sub_self]
        rfl
      · rw [ranRow_approved, decide_eq_true hcorrect]
      · rw [ranRow_output, if_pos (decide_eq_true hcorrect), hout]
    · rw [Function.update_of_ne hji] at hq
      exact hf.row_append _ hq
  · rw [if_neg hcorrect] at hq
    exact hf.row_append _ hq

include hp hi hok hf hrun hbad

omit hrun in
theorem HostFollows.ranRow_ok : ∃ job, session.jobs[i]? = some job ∧
    RowOk session plan (h.rows ++ [ranRow p rx r i job.name]) i (ranRow p rx r i job.name) := by
  obtain ⟨job, x, y, hjob, hregion, hxy, hx, hy⟩ := hp.job i hi
  have hrequest := hok.store.request hp.accepted hi hbad
  have hreference := reference_placed hregion hrequest
  have hinput : ∀ b, b < 2 → (ranRow p rx r i job.name).inputs[b]? = some (linked p r.store.value i b) := by
    intro b hb
    obtain rfl | rfl : b = 0 ∨ b = 1 := by omega
    · rfl
    · rfl
  refine ⟨job, hjob, rfl, ⟨job, _, hjob, rfl, hreference, rfl⟩, fun b hb hl => ?_, fun b hb hl => ?_⟩
  · rw [(hp.operand hi hb).1] at hl
    refine ⟨job, literalAt p i b, hjob, ?_, ?_⟩
    · rw [hxy]
      obtain rfl | rfl : b = 0 ∨ b = 1 := by omega
      · exact congrArg some (hx hl)
      · exact congrArg some (hy hl)
    · rw [hinput b hb, linked, if_pos hl]
  · obtain ⟨hsource, hoffset, hlength⟩ := hp.operand hi hb
    rw [hsource] at hl ⊢
    have hav := badSource_eq_none hbad hb hl
    have hlt := (hp.accepted.link hi hb hl).1
    cases hq : r.store.producers (sourceAt p i b) with
    | none => simp [Store.available, hq] at hav
    | some saved =>
      obtain ⟨producer, hrow, happroved, houtput⟩ := hf.saved _ saved.1 saved.2 hq
      refine ⟨producer, hlt, ?_, happroved, ?_⟩
      · rw [List.getElem?_append_left (List.getElem?_eq_some_iff.mp hrow).1]
        exact hrow
      · rw [hinput b hb, linked, if_neg hl, hoffset, hlength, houtput, Store.value, hq]
        rfl

/-- The host accepts the lines of a job that ran. -/
theorem HostFollows.ran (hids : idAt p i = ids.getD i 0) :
    ∃ h', hostJob session plan epoch ids (Chain.deviceOf rx epoch ids) h i = .ok h' ∧
      HostFollows session plan (Run.step p rx r i) h' := by
  have hprocessed := hok.running hrun
  have hrequest := hok.store.request hp.accepted hi hbad
  obtain ⟨hlen, -⟩ := evaluated_ok hrequest
  obtain ⟨job, hjob, hrowok⟩ := @HostFollows.ranRow_ok _ _ _ _ _ _ _ _ rx hp hi hok hf hbad
  obtain ⟨job', hjob', hconfig, hresolve⟩ := hf.state.resolve_eq hp hi hbad
  obtain rfl := Option.some.inj (hjob.symm.trans hjob')
  have hreference := reference_placed hconfig hrequest
  have hbytes : requestBytes (configAt p i) [linked p r.store.value i 0, linked p r.store.value i 1] (ids.getD i 0) =
      .ok (Run.dispatched p r.store i) := by
    rw [← hids]
    exact requestBytes_eq_ok.mpr ⟨hrequest, rfl⟩
  have houtcome : (Chain.deviceOf rx epoch ids).outcome i (r.store.expected p i) = Run.outcomeAt p rx r.store i := by
    rw [Run.outcomeAt, Run.cookieAt, hids, hp.epoch]
    rfl
  have hcookie : (Chain.deviceOf rx epoch ids).cookie i = Run.cookieAt p i := by
    rw [Run.cookieAt, hids, hp.epoch]
    rfl
  obtain ⟨t, hcommit, hmirrors⟩ :=
    hf.state.commit_eq hp hi (decide (Run.outcomeAt p rx r.store i = .correct))
  rw [answered_eq] at hmirrors
  refine ⟨⟨t, h.rows ++ [ranRow p rx r i job.name], if Run.outcomeAt p rx r.store i = .lost then 1 else h.halted,
    h.lines ++ Run.lines p rx r.store i⟩, ?_, ?_⟩
  · unfold hostJob
    rw [if_neg (by rw [hf.halted]; exact not_not.mpr hrun)]
    refine except_bind_eq_ok.mpr ⟨_, hresolve, ?_⟩
    refine except_bind_eq_ok.mpr ⟨_, hconfig, ?_⟩
    refine except_bind_eq_ok.mpr ⟨_, hbytes, except_bind_eq_ok.mpr ⟨_, hreference, ?_⟩⟩
    change hostCheckStep plan { h with lines := h.lines ++ [.dispatch _ _ _ _ (r.store.expected p i).length _] } _ _ _ _ _
      (r.store.expected p i) ((Chain.deviceOf rx epoch ids).outcome i (r.store.expected p i)) = _
    unfold hostCheckStep
    rw [houtcome, hcookie]
    refine except_bind_eq_ok.mpr ⟨t, hcommit, ?_⟩
    rw [except_pure_eq_ok, HostLoop.mk.injEq]
    refine ⟨rfl, rfl, rfl, ?_⟩
    have hlength : (r.store.expected p i).length = cellsAt p i := hlen
    rw [hlength, ← hids, ← hp.epoch, hmirrors.versions, hmirrors.banks, List.append_assoc]
    rfl
  · have hstep : Run.step p rx r i = ⟨Run.settle p rx r.store i, r.processed + 1,
        if Run.outcomeAt p rx r.store i = .lost then 1 else 0, r.log ++ Run.lines p rx r.store i⟩ := by
      unfold Run.step
      rw [if_neg (not_not.mpr hrun), hbad]
    rw [hstep]
    refine ⟨hmirrors, ?_, ?_, ?_, fun j vs out hq => ?_, fun j row hrow => ?_⟩
    · rw [List.length_append, hf.rows]
      rfl
    · rw [hf.halted, hrun]
    · rw [hf.lines]
    · exact hf.saved_ran (hf.rows.trans hprocessed) _ hq
    · by_cases hlt : j < h.rows.length
      · rw [List.getElem?_append_left hlt] at hrow
        exact (hf.row j row hrow).append _
      · have hge := not_lt.mp hlt
        rw [List.getElem?_append_right hge, List.getElem?_singleton] at hrow
        split at hrow
        · rename_i hzero
          obtain rfl : j = i := by
            rw [hf.rows] at hzero hge
            omega
          obtain rfl := Option.some.inj hrow
          exact hrowok
        · cases hrow

omit hbad hrun in
/-- One job: the host and the run stay in step. -/
theorem HostFollows.step (hids : idAt p i = ids.getD i 0) :
    ∃ h', hostJob session plan epoch ids (Chain.deviceOf rx epoch ids) h i = .ok h' ∧
      HostFollows session plan (Run.step p rx r i) h' := by
  by_cases hrun : r.halted = 0
  · cases hbad : r.store.badSource p i with
    | none => exact hf.ran hp hi hok hrun hbad hids
    | some bad =>
      have hsource : h.state.badSource plan i = some bad := (hf.state.badSource_eq hp hi).trans hbad
      have hresolve : h.state.resolve session plan i = .ok none := by
        unfold HostState.resolve
        rw [hsource]
        rfl
      have hstep : Run.step p rx r i = { r with halted := 3, log := r.log ++ [.block i bad] } := by
        unfold Run.step
        rw [if_neg (not_not.mpr hrun), hbad]
      refine ⟨{ h with halted := 3, lines := h.lines ++ [.block i bad] }, ?_, ?_⟩
      · unfold hostJob
        rw [if_neg (by rw [hf.halted]; exact not_not.mpr hrun)]
        refine except_bind_eq_ok.mpr ⟨_, hresolve, ?_⟩
        rw [hsource]
        rfl
      · rw [hstep]
        exact ⟨hf.state, hf.rows, rfl, congrArg (· ++ [Event.block i bad]) hf.lines, hf.saved, hf.row⟩
  · have hhost : hostJob session plan epoch ids (Chain.deviceOf rx epoch ids) h i = .ok h :=
      if_pos (by rw [hf.halted]; exact hrun)
    have hstep : Run.step p rx r i = r := if_pos hrun
    rw [hstep]
    exact ⟨h, hhost, hf⟩

end Step

section Run

variable {session : Session} {plan : Plan} {epoch k : ℕ} {ids : List ℕ} {p : List UInt8} {caps : Caps} {s : State}
  {g : Guest} {r : Run} {h : HostLoop}

theorem HostFollows.start (hp : Planned session plan epoch ids p) :
    HostFollows session plan (Run.start p)
      ⟨.init, [], 0, [.start epoch session.jobs.length plan.output HostState.init.versions]⟩ := by
  refine ⟨mirrors_init, rfl, rfl, ?_, fun i vs out hq => ?_, fun i row hrow => ?_⟩
  · rw [← hp.epoch, ← hp.count, ← hp.output, mirrors_init.versions]
    rfl
  · cases hq
  · cases hrow

/-- The host's loop over the first `k` jobs. -/
theorem HostFollows.run (hp : Planned session plan epoch ids p)
    (rx : ℕ → ℕ → Option Char) (hk : k ≤ word p 12) :
    ∃ h, hostLoop session plan epoch ids (Chain.deviceOf rx epoch ids) k = .ok h ∧
      HostFollows session plan (Run.upTo p rx k) h := by
  induction k with
  | zero => exact ⟨_, rfl, .start hp⟩
  | succ k ih =>
    obtain ⟨h, hloop, hf⟩ := ih (by omega)
    obtain ⟨h', hstep, hf'⟩ := @HostFollows.step _ _ _ _ _ _ _ _ rx hp (by omega) (.upTo hp.accepted (by omega)) hf
      (hp.id k (by omega))
    refine ⟨h', ?_, ?_⟩
    · rw [hostLoop] at hloop ⊢
      rw [List.range_succ, List.foldlM_append, hloop]
      change hostJob session plan epoch ids (Chain.deviceOf rx epoch ids) h k >>= pure = _
      rw [hstep]
      rfl
    · rw [Run.upTo_succ]
      exact hf'

/-- What the guest and the host agree on after every job. -/
structure HostAgrees (plan : Plan) (dag : FoldDag) (g : Guest) (h : HostLoop) : Prop where
  versions : g.versionList = h.state.versions
  content : g.content = h.state.banks
  objects : ∀ slot, slot < 8 →
    (jobObjectLookup g.authority (slot + 1)).map (fun object => object.version) = some (h.state.versions.getD slot 0) ∧
    jobObjectRead g.authority (slot + 1) 0 512 = some (packWords (h.state.banks.getD slot []))
  available : ∀ i, i < dag.count → available dag g i = h.state.available plan i
  processed : g.processed = h.rows.length
  halted : g.halted = h.halted
  log : g.log = h.lines

theorem Sim.hostAgrees (hp : Planned session plan epoch ids p) (hs : Sim caps p g r) (hok : RunOk p k r)
    (hf : HostFollows session plan r h) : HostAgrees plan (decoded p) g h := by
  have hbanks : ∀ slot, slot < 8 → h.state.banks.getD slot [] = (List.range 128).map (r.store.banks slot) := by
    intro slot hslot
    rw [hf.state.banks, Store.content, getD_map_range _ _ hslot]
  constructor
  case versions =>
    rw [hf.state.versions, Guest.versionList, hs.books.versions]
    rfl
  case content =>
    rw [hf.state.banks]
    refine List.map_congr_left fun slot hslot => List.map_congr_left fun j hj => ?_
    exact hs.published slot (List.mem_range.mp hslot) j (List.mem_range.mp hj)
  case objects =>
    intro slot hslot
    rw [hs.ready.lookup le_rfl hslot, hs.ready.read le_rfl hslot, hf.state.version hslot, hbanks slot hslot]
    exact ⟨rfl, rfl⟩
  case available =>
    intro i hi
    rw [available_eq hp.accepted hok.store hs.books hi, hf.state.available_eq hp hi]
  case processed => exact hs.processed.trans hf.rows.symm
  case halted => exact hs.halted.trans hf.halted.symm
  case log => exact hs.log.trans hf.lines.symm

/-- The closing lines that the host waits for. -/
theorem HostFollows.finish (hp : Planned session plan epoch ids p) (hok : RunOk p (word p 12) r)
    (hf : HostFollows session plan r h) : r.finish p = h.lines ++ hostFinish session plan epoch h := by
  have hout : word p 24 < word p 12 := hp.accepted.header.output.1
  have hav := hf.state.available_eq hp hout
  unfold Run.finish hostFinish
  rw [← hp.output, hav, hf.lines, hf.rows, hf.halted, hf.state.versions, hf.state.producers, hp.epoch, hp.count]
  cases hav' : r.store.available p (word p 24) with
  | false => rfl
  | true =>
    have hlen : (r.store.value (word p 24)).length = cellsAt p (word p 24) := by
      rw [hok.store.output_available hp.accepted le_rfl] at hav'
      obtain ⟨⟨vs, out⟩, hq⟩ := Option.isSome_iff_exists.mp hav'
      rw [Store.value, hq]
      have hcomposed : out = composed p (word p 12) (word p 24) := (hok.store.saved _ vs out hq).2
      change out.length = _
      rw [hcomposed]
      exact (composed_ok hp.accepted le_rfl hout).1
    rw [← hlen]
    rfl

/-- For every accepted session and every device, the host's model and the guest stay in step after every job:
same versions, same words, same lines, and every row of the host is the reference on its inputs. -/
theorem host_follows_guest (hplan : compilePlan session = .ok plan) (hepoch : 0 < epoch ∧ epoch < 2 ^ 64)
    (hids : IdsOk session ids) (hcaps : Authorized caps s) (rx : ℕ → ℕ → Option Char) :
    ∃ bytes children dag start final, encodeDag session epoch ids = .ok (bytes, children) ∧
      raveilFoldDagDecode bytes bytes.length = some dag ∧ guestStart caps dag s = some start ∧
      (∀ k, k ≤ session.jobs.length →
        ∃ h, hostLoop session plan epoch ids (Chain.deviceOf rx epoch ids) k = .ok h ∧
          HostAgrees plan dag (guestLoop caps bytes dag rx start k) h ∧
          ∀ (i : ℕ) row, h.rows[i]? = some row → RowOk session plan h.rows i row) ∧
      ∃ h, hostLoop session plan epoch ids (Chain.deviceOf rx epoch ids) session.jobs.length = .ok h ∧
        foldDagRun caps bytes bytes.length rx s = some final ∧
        final.log = h.lines ++ hostFinish session plan epoch h := by
  obtain ⟨d, hd⟩ := compilePlan_eq_ok hplan
  have hp := hd.planned hids hepoch
  set p := (planLayout session plan d epoch ids).bytes with hbytes
  have hdag : raveilFoldDagDecode p p.length = some (decoded p) := raveilFoldDagDecode_eq_some.mpr ⟨hp.accepted, rfl⟩
  obtain ⟨start, hstart, hsim⟩ := Sim.start hp.accepted hcaps
  have hrun : foldDagRun caps p p.length rx s =
      some (guestFinish p (decoded p) (guestLoop caps p (decoded p) rx start (word p 12))) := by
    unfold foldDagRun
    rw [hdag]
    simp only [Option.bind_eq_bind, Option.bind_some, hstart]
    rfl
  refine ⟨p, _, decoded p, start, guestFinish p (decoded p) (guestLoop caps p (decoded p) rx start (word p 12)),
    hd.encodeDag_eq hplan hids hepoch, hdag, hstart, fun k hk => ?_, ?_⟩
  · rw [← hp.count] at hk
    obtain ⟨hs, hok⟩ := @Sim.run _ _ _ _ _ rx hp.accepted hsim hk
    obtain ⟨h, hloop, hf⟩ := HostFollows.run hp rx hk
    exact ⟨h, hloop, hs.hostAgrees hp hok hf, hf.row⟩
  · obtain ⟨hs, hok⟩ := @Sim.run _ _ _ _ _ rx hp.accepted hsim le_rfl
    obtain ⟨h, hloop, hf⟩ := HostFollows.run hp rx le_rfl
    rw [hp.count] at hloop
    exact ⟨h, hloop, hrun, (hs.finish hp.accepted hok).trans (hf.finish hp hok)⟩

/-- The device answers both copies with the composed words: the host has two rows. -/
theorem host_follows_guest_copy : ∃ bytes children dag start h, encodeDag copySession 5 [3, 4] = .ok (bytes, children) ∧
    raveilFoldDagDecode bytes bytes.length = some dag ∧ guestStart bootCaps dag bootState = some start ∧
    hostLoop copySession copyPlan 5 [3, 4] (Chain.deviceOf (composedAnswers bytes) 5 [3, 4]) 2 = .ok h ∧
    HostAgrees copyPlan dag (guestLoop bootCaps bytes dag (composedAnswers bytes) start 2) h ∧
    h.rows.length = 2 ∧ h.halted = 0 := by
  have hplan : compilePlan copySession = .ok copyPlan := by decide
  have hids : IdsOk copySession [3, 4] := ⟨rfl, by decide, by decide⟩
  obtain ⟨d, hd⟩ := compilePlan_eq_ok hplan
  have hepoch : 0 < 5 ∧ 5 < 2 ^ 64 := by decide
  have hp := hd.planned hids hepoch
  set p := (planLayout copySession copyPlan d 5 [3, 4]).bytes
  obtain ⟨bytes, children, dag, start, final, hencode, hdecode, hstart, hloop, -⟩ :=
    host_follows_guest hplan hepoch hids authorized_boot (composedAnswers p)
  obtain ⟨rfl, -⟩ := Prod.ext_iff.mp (Except.ok.inj ((hd.encodeDag_eq hplan hids hepoch).symm.trans hencode))
  obtain ⟨haccepted, rfl⟩ := raveilFoldDagDecode_eq_some.mp hdecode
  obtain ⟨h, hhost, hagrees, -⟩ := hloop 2 le_rfl
  obtain ⟨start', hstart', hsim⟩ := Sim.start haccepted authorized_boot
  obtain rfl := Option.some.inj (hstart.symm.trans hstart')
  have hcount : 2 ≤ word p 12 := hp.count.ge
  obtain ⟨hprocessed, hhalted⟩ := Run.unblocked haccepted hcount fun i _ => answerAt_composedAnswers p i
  have hlast := (@Sim.run _ _ _ _ _ (composedAnswers p) haccepted hsim hcount).1
  refine ⟨_, _, _, start, h, hencode, hdecode, hstart, hhost, hagrees, ?_, ?_⟩
  · exact hagrees.processed.symm.trans (hlast.processed.trans hprocessed)
  · exact hagrees.halted.symm.trans (hlast.halted.trans hhalted)

end Run

end Raveil.Dag
