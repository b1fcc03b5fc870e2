import Raveil.Lib.FirstFit
import Raveil.Dag.Envelope

/-! What the decoder accepts: each job by itself, and the lifetimes of the whole. -/
namespace Raveil.Dag
open Raveil.Lib Raveil.Fold

section View

variable (p : List UInt8) (n : ℕ)

def version : ℕ := word p 4

/-- Where the metadata of job `i` starts. -/
def jobOffset : ℕ → ℕ
  | 0 => 32
  | i + 1 => jobOffset i + metadata (version p) + word p (jobOffset i + metadata (version p) + 8)

/-- Where the request of job `i` starts. -/
def requestOffset (i : ℕ) : ℕ := jobOffset p i + metadata (version p)

def requestLength (i : ℕ) : ℕ := word p (requestOffset p i + 8)

/-- The request of job `i`, if it decodes. -/
def requestAt (i : ℕ) : Option Request :=
  raveilFoldDecode (p.drop (requestOffset p i)) (requestLength p i)

def configAt (i : ℕ) : List ℕ := ((requestAt p i).map Request.config).getD []

def idAt (i : ℕ) : ℕ := ((requestAt p i).map Request.requestId).getD 0

/-- The number of output words of job `i`. -/
def cellsAt (i : ℕ) : ℕ := cfg (configAt p i) 1 * cfg (configAt p i) 2

def chunksAt (i : ℕ) : ℕ := (cellsAt p i + 127) / 128

def sourceAt (i b : ℕ) : ℕ := word p (jobOffset p i + if version p = 2 then 12 * b else 4 * b)

def startAt (i b : ℕ) : ℕ := if version p = 2 then word p (jobOffset p i + 12 * b + 4) else 0

def declaredAt (i b : ℕ) : ℕ := if version p = 2 then word p (jobOffset p i + 12 * b + 8) else 0

def extentAt (i b : ℕ) : ℕ := cfg (configAt p i) (5 + b)

/-- The operands of job `i` below `b` that are links. -/
def linksBelow (i b : ℕ) : List ℕ := (List.range b).filter fun b => sourceAt p i b ≠ UINT32_MAX

/-- The chunks read by operand `b` of job `i`, as bits of `read_chunks`. -/
def readBits (i b : ℕ) : List ℕ :=
  (chunkRange (startAt p i b) (extentAt p i b)).map fun chunk => 2 * sourceAt p i b + chunk

/-- The bits that the operands of job `i` below `b` set. -/
def readMaskBelow (i b : ℕ) : ℕ :=
  ((linksBelow p i b).flatMap (readBits p i)).foldl (fun mask bit => mask ||| 1 <<< bit) 0

def readMask (i : ℕ) : ℕ := readMaskBelow p i 2

/-- The producers job `i` uses. -/
def usesAt (i : ℕ) : List ℕ := (linksBelow p i 2).map (sourceAt p i)

def lastUses : ℕ → ℕ :=
  Function.update (lastUseAt (usesAt p) (word p 12)) (word p 24) (word p 12)

/-- The slots of job `i`. -/
def destinationsAt (i : ℕ) : List ℕ := slotsAt (lastUses p) (chunksAt p) 8 i

/-- What the decoder checks of one operand. -/
structure OperandOk (i b : ℕ) : Prop where
  declared : version p = 2 → declaredAt p i b = extentAt p i b
  literal : sourceAt p i b = UINT32_MAX → startAt p i b = 0
  link : sourceAt p i b ≠ UINT32_MAX → sourceAt p i b < i ∧ extentAt p i b ≠ 0 ∧
    startAt p i b + extentAt p i b ≤ cellsAt p (sourceAt p i b) ∧
    (version p = 1 → extentAt p i b = cellsAt p (sourceAt p i b)) ∧
    ∀ r, requestAt p i = some r → ∀ k, k < extentAt p i b → r.inputs.getD (324 * b + k) 0 = 0

/-- What the decoder checks of one job. -/
structure JobOk (i : ℕ) : Prop where
  fits : requestOffset p i + 300 ≤ n - 8
  magic : word p (requestOffset p i) = RAVEIL_FOLD_BRIDGE_MAGIC
  length : 300 ≤ requestLength p i ∧ requestLength p i ≤ RAVEIL_FOLD_MAX_BYTES ∧
    requestLength p i ≤ n - 8 - requestOffset p i
  request : ∃ r, requestAt p i = some r
  fresh : ∀ j, j < i → idAt p j ≠ idAt p i
  operand : ∀ b, b < 2 → OperandOk p i b

/-- What the decoder checks of the lifetimes. -/
structure SlotsOk (i : ℕ) : Prop where
  refs : chunksAt p i + (List.range 16).countP (fun bit => readMask p i &&& 1 <<< bit ≠ 0) ≤ 4
  slots : (destinationsAt p i).length = chunksAt p i

structure HeaderOk : Prop where
  size : 348 ≤ n ∧ n ≤ RAVEIL_FOLD_DAG_MAX_BYTES ∧ word p 8 = n
  magic : word p 0 = RAVEIL_FOLD_DAG_MAGIC ∧ word p (n - 4) = RAVEIL_FOLD_DAG_END
  version : version p = 1 ∨ version p = 2
  count : 1 ≤ word p 12 ∧ word p 12 ≤ 8
  output : word p 24 < word p 12 ∧ word p 28 = 0
  crc : word p (n - 8) = crc p (n - 8)
  epoch : word64 p 16 ≠ 0

/-- An envelope that the decoder accepts. -/
structure Accepted : Prop where
  header : HeaderOk p n
  job : ∀ i, i < word p 12 → JobOk p n i
  finish : jobOffset p (word p 12) = n - 8
  slots : ∀ i, i < word p 12 → SlotsOk p i

/-- The loop state before job `k`. -/
def loopAt (k : ℕ) : DagLoop where
  dag :=
    { epoch := word64 p 16
      count := word p 12
      offsets := fun i => if i < k then requestOffset p i else 0
      lengths := fun i => if i < k then requestLength p i else 0
      sources := fun i => if i < k then sourceAt p i else fun _ => 0
      destinations := fun _ => []
      chunks := fun i => if i < k then chunksAt p i else 0
      lastUse := lastUseAt (usesAt p) k
      output := word p 24
      inputOffsets := fun i => if i < k then startAt p i else fun _ => 0 }
  ids := fun i => if i < k then idAt p i else 0
  counts := fun i => if i < k then cellsAt p i else 0
  readChunks := fun i => if i < k then readMask p i else 0
  offset := jobOffset p k

/-- The decoded structure. -/
def decoded : FoldDag :=
  { (loopAt p (word p 12)).dag with
    lastUse := lastUses p
    destinations := fun i => if i < word p 12 then destinationsAt p i else [] }

/-- The loop state of job `k` before its operand `b`. -/
def operandAt (k b : ℕ) : DagLoop :=
  { loopAt p k with
    readChunks := Function.update (loopAt p k).readChunks k (readMaskBelow p k b)
    dag :=
      { (loopAt p k).dag with
        sources := Function.update (loopAt p k).dag.sources k (sourceAt p k)
        inputOffsets := Function.update (loopAt p k).dag.inputOffsets k (startAt p k)
        lastUse := ((linksBelow p k b).map (sourceAt p k)).foldl
          (fun last s => Function.update last s k) (lastUseAt (usesAt p) k) } }

end View

section Jobs

variable {p : List UInt8} {n k b : ℕ}

theorem linksBelow_succ (p : List UInt8) (k b : ℕ) : linksBelow p k (b + 1) =
    linksBelow p k b ++ if sourceAt p k b = UINT32_MAX then [] else [b] := by
  rw [linksBelow, List.range_succ, List.filter_append]
  congr 1
  by_cases h : sourceAt p k b = UINT32_MAX
  · simp [h]
  · simp [h]

theorem configAt_eq {r : Request} (h : requestAt p k = some r) : configAt p k = r.config := by
  simp [configAt, h]

theorem idAt_eq {r : Request} (h : requestAt p k = some r) : idAt p k = r.requestId := by
  simp [idAt, h]

theorem dagOperand_eq_some {r : Request} (hr : requestAt p k = some r) {t : DagLoop} :
    dagOperand (version p) k r (declaredAt p k) (operandAt p k b) b = some t ↔
      OperandOk p k b ∧ t = operandAt p k (b + 1) := by
  have hcfg : cfg r.config (5 + b) = extentAt p k b := by rw [extentAt, configAt_eq hr]
  have hsource : (operandAt p k b).dag.sources k b = sourceAt p k b := by
    simp [operandAt]
  have hstart : (operandAt p k b).dag.inputOffsets k b = startAt p k b := by
    simp [operandAt]
  have hcounts : ∀ s, s < k → (operandAt p k b).counts s = cellsAt p s := by
    intro s hs
    simp [operandAt, loopAt, hs]
  have hchunks : (operandAt p k b).readChunks k = readMaskBelow p k b := by
    simp [operandAt]
  simp only [dagOperand, hsource, hstart, hcfg, hchunks]
  by_cases hdecl : version p = 2 ∧ declaredAt p k b ≠ extentAt p k b
  · rw [if_pos hdecl]
    simp only [reduceCtorEq, false_iff, not_and]
    exact fun h => absurd (h.declared hdecl.1) hdecl.2
  rw [if_neg hdecl]
  have hdeclared : version p = 2 → declaredAt p k b = extentAt p k b := by
    intro h2
    by_contra hne
    exact hdecl ⟨h2, hne⟩
  by_cases hlit : sourceAt p k b = UINT32_MAX
  · rw [if_pos hlit]
    have hsame : operandAt p k (b + 1) = operandAt p k b := by
      simp only [operandAt, readMaskBelow, linksBelow_succ, hlit, if_true, List.append_nil]
    rw [hsame]
    by_cases hz : startAt p k b = 0
    · rw [if_neg (by simpa using hz), Option.some_inj]
      exact ⟨fun h => ⟨⟨hdeclared, fun _ => hz, fun hne => absurd hlit hne⟩, h.symm⟩, fun h => h.2.symm⟩
    · rw [if_pos hz]
      simp only [reduceCtorEq, false_iff, not_and]
      exact fun h => absurd (h.literal hlit) hz
  rw [if_neg hlit]
  have hnext : operandAt p k (b + 1) = { operandAt p k b with
      readChunks := Function.update (operandAt p k b).readChunks k
        ((chunkRange (startAt p k b) (extentAt p k b)).foldl
          (fun mask chunk => mask ||| 1 <<< (2 * sourceAt p k b + chunk)) (readMaskBelow p k b))
      dag := { (operandAt p k b).dag with
        lastUse := Function.update (operandAt p k b).dag.lastUse (sourceAt p k b) k } } := by
    simp only [operandAt, readMaskBelow, linksBelow_succ, hlit, if_false, List.map_append,
      List.foldl_append, List.flatMap_append, List.flatMap_singleton, readBits, List.foldl_map,
      Function.update_idem, List.map_cons, List.map_nil, List.foldl_cons, List.foldl_nil]
  by_cases hlt : sourceAt p k b < k
  · rw [hcounts _ hlt]
    by_cases hrange : extentAt p k b ≠ 0 ∧
        startAt p k b + extentAt p k b ≤ cellsAt p (sourceAt p k b) ∧
        (version p = 1 → extentAt p k b = cellsAt p (sourceAt p k b))
    · rw [if_neg (by omega)]
      by_cases hzero : ∀ j, j < extentAt p k b → r.inputs.getD (324 * b + j) 0 = 0
      · rw [if_neg (by simpa using hzero), Option.some_inj, ← hnext]
        refine ⟨fun h => ⟨⟨hdeclared, fun hl => absurd hl hlit, fun _ => ⟨hlt, hrange.1, hrange.2.1,
          hrange.2.2, fun r' hr' => ?_⟩⟩, h.symm⟩, fun h => h.2.symm⟩
        obtain rfl : r = r' := Option.some.inj (hr.symm.trans hr')
        exact hzero
      · rw [if_pos (by simpa using hzero)]
        simp only [reduceCtorEq, false_iff, not_and]
        exact fun h => absurd ((h.link hlit).2.2.2.2 r hr) hzero
    · rw [if_pos (by omega)]
      simp only [reduceCtorEq, false_iff, not_and]
      intro h
      obtain ⟨-, h1, h2, h3, -⟩ := h.link hlit
      exact absurd ⟨h1, h2, h3⟩ hrange
  · rw [if_pos (Or.inl (by omega))]
    simp only [reduceCtorEq, false_iff, not_and]
    exact fun h => absurd (h.link hlit).1 hlt

theorem dagOperands_eq_some {r : Request} (hr : requestAt p k = some r) {t : DagLoop} :
    (List.range 2).foldlM (dagOperand (version p) k r (declaredAt p k)) (operandAt p k 0) = some t ↔
      (∀ b, b < 2 → OperandOk p k b) ∧ t = operandAt p k 2 :=
  foldlM_range_some_iff (g := operandAt p k) fun _ _ _ => dagOperand_eq_some hr

/-- The loop state of job `k` after its metadata is read. -/
def metadataAt (p : List UInt8) (k : ℕ) : DagLoop :=
  { loopAt p k with
    dag := { (loopAt p k).dag with
      sources := Function.update (loopAt p k).dag.sources k (sourceAt p k)
      inputOffsets := Function.update (loopAt p k).dag.inputOffsets k (startAt p k) } }

theorem operandAt_zero : operandAt p k 0 = metadataAt p k := by
  have hmask : Function.update (loopAt p k).readChunks k (readMaskBelow p k 0) =
      (loopAt p k).readChunks := by
    rw [Function.update_eq_self_iff]
    simp [loopAt, readMaskBelow, linksBelow]
  simp only [operandAt, hmask]
  rfl

theorem dagJob_eq_some {t : DagLoop} :
    dagJob p n (version p) (loopAt p k) k = some t ↔ JobOk p n k ∧ t = loopAt p (k + 1) := by
  have hoffset : (loopAt p k).offset = jobOffset p k := rfl
  have hrequest : jobOffset p k + metadata (version p) = requestOffset p k := rfl
  have hlength : word p (requestOffset p k + 8) = requestLength p k := rfl
  have hdecode : raveilFoldDecode (p.drop (requestOffset p k)) (requestLength p k) = requestAt p k := rfl
  simp only [dagJob, hoffset, hrequest, hlength, hdecode]
  by_cases hfits : requestOffset p k + 300 > n - 8
  · rw [if_pos hfits]
    simp only [reduceCtorEq, false_iff, not_and]
    exact fun h => absurd h.fits (by omega)
  rw [if_neg hfits]
  by_cases hhead : word p (requestOffset p k) ≠ RAVEIL_FOLD_BRIDGE_MAGIC ∨ requestLength p k < 300 ∨
      requestLength p k > RAVEIL_FOLD_MAX_BYTES ∨ requestLength p k > n - 8 - requestOffset p k
  · rw [if_pos hhead]
    simp only [reduceCtorEq, false_iff, not_and]
    intro h
    have h1 := h.magic
    have h2 := h.length
    omega
  rw [if_neg hhead]
  simp only [not_or, not_not, not_lt] at hhead hfits
  cases hr : requestAt p k with
  | none =>
    simp only [reduceCtorEq, false_iff, not_and]
    intro h
    obtain ⟨r, hr'⟩ := h.request
    rw [hr] at hr'
    cases hr'
  | some r =>
    have hids : ((List.range k).any fun j => (loopAt p k).ids j = r.requestId) = true ↔
        ¬ ∀ j, j < k → idAt p j ≠ idAt p k := by
      have hstored : ∀ j, j < k → (loopAt p k).ids j = idAt p j := fun j hj => if_pos hj
      rw [idAt_eq hr, List.any_eq_true]
      push Not
      refine exists_congr fun j => ?_
      rw [List.mem_range]
      refine and_congr_right fun hj => ?_
      rw [decide_eq_true_iff, hstored j hj]
    dsimp only
    by_cases hfresh : ∀ j, j < k → idAt p j ≠ idAt p k
    · rw [if_neg (by rw [hids]; exact not_not.mpr hfresh)]
      generalize hloop : (List.range 2).foldlM (dagOperand (version p) k r _) _ = found
      change (List.range 2).foldlM (dagOperand (version p) k r (declaredAt p k)) (metadataAt p k) = found at hloop
      rw [← operandAt_zero] at hloop
      have hnext : ∀ s, s = operandAt p k 2 →
          ({ s with
            ids := Function.update s.ids k r.requestId
            counts := Function.update s.counts k (cfg r.config 1 * cfg r.config 2)
            offset := requestOffset p k + requestLength p k
            dag := { s.dag with
              chunks := Function.update s.dag.chunks k ((cfg r.config 1 * cfg r.config 2 + 127) / 128)
              lastUse := Function.update s.dag.lastUse k k
              offsets := Function.update s.dag.offsets k (requestOffset p k)
              lengths := Function.update s.dag.lengths k (requestLength p k) } } : DagLoop) =
            loopAt p (k + 1) := by
        rintro _ rfl
        have hid := idAt_eq hr
        have hcells : cellsAt p k = cfg r.config 1 * cfg r.config 2 := by
          rw [cellsAt, configAt_eq hr]
        simp only [operandAt, loopAt, ← hid, ← hcells, ← update_below (idAt p) 0,
          ← update_below (cellsAt p) 0, ← update_below (readMask p) 0, ← update_below (requestOffset p) 0,
          ← update_below (requestLength p) 0, ← update_below (sourceAt p) fun _ => 0,
          ← update_below (startAt p) fun _ => 0, ← update_below (chunksAt p) 0]
        rfl
      cases found with
      | none =>
        simp only [reduceCtorEq, false_iff, not_and]
        intro h
        rw [(dagOperands_eq_some hr).mpr ⟨h.operand, rfl⟩] at hloop
        cases hloop
      | some s =>
        obtain ⟨hoperand, hs⟩ := (dagOperands_eq_some hr).mp hloop
        rw [← hnext s hs, Option.some_inj]
        exact ⟨fun h => ⟨⟨hfits, hhead.1, hhead.2, ⟨r, hr⟩, hfresh, hoperand⟩, h.symm⟩, fun h => h.2.symm⟩
    · rw [if_pos (hids.mpr hfresh)]
      simp only [reduceCtorEq, false_iff, not_and]
      exact fun h => absurd h.fresh hfresh

end Jobs

section Slots

variable {p : List UInt8} {n k : ℕ}

/-- The owners as the guest stores them. -/
def ownersOf (p : List UInt8) (k slot : ℕ) : ℕ :=
  (ownersAt (lastUses p) (chunksAt p) 8 k slot).getD UINT32_MAX

theorem scanSlots_eq {dag : FoldDag} (hk : k < 8) (hlast : dag.lastUse = lastUses p)
    (hchunks : dag.chunks k = chunksAt p k) :
    scanSlots dag (ownersOf p k) k = destinationsAt p k := by
  have hfree : ∀ slot, (ownersOf p k slot = UINT32_MAX ∨ dag.lastUse (ownersOf p k slot) < k) ↔
      isFree (lastUses p) (ownersAt (lastUses p) (chunksAt p) 8 k slot) k = true := by
    intro slot
    unfold ownersOf
    cases ho : ownersAt (lastUses p) (chunksAt p) 8 k slot with
    | none => simp [isFree]
    | some o =>
      have := (ownersAt_eq_some ho).1
      have hne : o ≠ UINT32_MAX := by
        unfold UINT32_MAX
        omega
      simp [isFree, hlast, hne]
  unfold scanSlots
  simp only [hfree, hchunks]
  rw [foldl_scan _ _ _ _ (by simp)]
  simp [destinationsAt, slotsAt]

theorem dagAllocate_eq_some {dag : FoldDag} {readChunks : ℕ → ℕ} (hk : k < 8)
    (hlast : dag.lastUse = lastUses p) (hchunks : dag.chunks k = chunksAt p k)
    (hread : readChunks k = readMask p k) {t : (ℕ → List ℕ) × (ℕ → ℕ)} :
    dagAllocate dag readChunks (fun i => if i < k then destinationsAt p i else [], ownersOf p k) k = some t ↔
      SlotsOk p k ∧ t = (fun i => if i < k + 1 then destinationsAt p i else [], ownersOf p (k + 1)) := by
  have howners : (destinationsAt p k).foldl (fun owners slot => Function.update owners slot k)
      (ownersOf p k) = ownersOf p (k + 1) := by
    funext slot
    rw [foldl_update_const]
    simp only [ownersOf, ownersAt_succ]
    change (if slot ∈ slotsAt (lastUses p) (chunksAt p) 8 k then k else _) = _
    split <;> rfl
  simp only [dagAllocate, scanSlots_eq hk hlast hchunks, howners, hread, hchunks,
    update_below (destinationsAt p) []]
  by_cases hrefs : chunksAt p k + (List.range 16).countP (fun bit => readMask p k &&& 1 <<< bit ≠ 0) > 4
  · rw [if_pos hrefs]
    simp only [reduceCtorEq, false_iff, not_and]
    exact fun h => absurd h.refs (by omega)
  rw [if_neg hrefs]
  by_cases hslots : (destinationsAt p k).length = chunksAt p k
  · rw [if_neg (by simpa using hslots), Option.some_inj]
    exact ⟨fun h => ⟨⟨by omega, hslots⟩, h.symm⟩, fun h => h.2.symm⟩
  · rw [if_pos hslots]
    simp only [reduceCtorEq, false_iff, not_and]
    exact fun h => absurd h.slots hslots

theorem raveilFoldDagDecode_eq_some {dag : FoldDag} :
    raveilFoldDagDecode p n = some dag ↔ Accepted p n ∧ dag = decoded p := by
  have hinit : (⟨⟨word64 p 16, word p 12, fun _ => 0, fun _ => 0, fun _ _ => 0, fun _ => [],
      fun _ => 0, fun _ => 0, word p 24, fun _ _ => 0⟩, fun _ => 0, fun _ => 0, fun _ => 0, 32⟩ : DagLoop) =
      loopAt p 0 := by
    simp only [loopAt, Nat.not_lt_zero, if_false]
    rfl
  unfold raveilFoldDagDecode
  by_cases hhead : n < 348 ∨ n > RAVEIL_FOLD_DAG_MAX_BYTES ∨ word p 0 ≠ RAVEIL_FOLD_DAG_MAGIC ∨
      (word p 4 ≠ 1 ∧ word p 4 ≠ 2) ∨ word p 8 ≠ n ∨ word p 12 < 1 ∨ word p 12 > 8 ∨
      word p 24 ≥ word p 12 ∨ word p 28 ≠ 0 ∨ word p (n - 4) ≠ RAVEIL_FOLD_DAG_END ∨
      word p (n - 8) ≠ crc p (n - 8)
  · rw [if_pos hhead]
    simp only [reduceCtorEq, false_iff, not_and]
    intro h
    obtain ⟨h1, h2, h3, h4, h5, h6, -⟩ := h.header
    unfold version at h3
    omega
  rw [if_neg hhead]
  dsimp only
  rw [hinit]
  simp only [not_or, not_lt, not_not, not_and_or] at hhead
  have hv : version p = 1 ∨ version p = 2 := by
    unfold version
    omega
  by_cases hepoch : word64 p 16 = 0
  · rw [if_pos hepoch]
    simp only [reduceCtorEq, false_iff, not_and]
    exact fun h => absurd hepoch h.header.epoch
  rw [if_neg hepoch]
  have hheader : HeaderOk p n := by
    refine ⟨?_, ?_, hv, ?_, ?_, ?_, hepoch⟩ <;> omega
  have hjobs : ∀ s, (List.range (word p 12)).foldlM (dagJob p n (word p 4)) (loopAt p 0) = some s ↔
      (∀ i, i < word p 12 → JobOk p n i) ∧ s = loopAt p (word p 12) :=
    fun s => foldlM_range_some_iff (g := loopAt p) fun _ _ _ => dagJob_eq_some
  simp only [Option.bind_eq_bind, Option.bind_eq_some_iff, hjobs]
  have hslots : ∀ r, (List.range (word p 12)).foldlM
      (dagAllocate { (loopAt p (word p 12)).dag with lastUse := lastUses p }
        (loopAt p (word p 12)).readChunks) (fun _ => [], fun _ => UINT32_MAX) = some r ↔
      (∀ i, i < word p 12 → SlotsOk p i) ∧
        r = (fun i => if i < word p 12 then destinationsAt p i else [], ownersOf p (word p 12)) := by
    intro r
    have hstart : ((fun _ => [], fun _ => UINT32_MAX) : (ℕ → List ℕ) × (ℕ → ℕ)) =
        (fun i => if i < 0 then destinationsAt p i else [], ownersOf p 0) := by
      simp only [Nat.not_lt_zero, if_false]
      rfl
    rw [hstart]
    refine foldlM_range_some_iff
      (g := fun k => (fun i => if i < k then destinationsAt p i else [], ownersOf p k)) fun k hk t => ?_
    exact dagAllocate_eq_some (by omega) rfl (by simp [loopAt, hk]) (by simp [loopAt, hk])
  constructor
  · rintro ⟨s, ⟨hjob, rfl⟩, h⟩
    by_cases hfinish : (loopAt p (word p 12)).offset = n - 8
    · rw [if_neg (not_not.mpr hfinish), Option.bind_eq_some_iff] at h
      obtain ⟨r, hr, hdag⟩ := h
      obtain ⟨hslot, rfl⟩ := (hslots r).mp hr
      exact ⟨⟨hheader, hjob, hfinish, hslot⟩, (Option.some.inj hdag).symm⟩
    · rw [if_pos hfinish] at h
      cases h
  · rintro ⟨h, rfl⟩
    refine ⟨_, ⟨h.job, rfl⟩, ?_⟩
    have hfinish : (loopAt p (word p 12)).offset = n - 8 := h.finish
    rw [if_neg (not_not.mpr hfinish), Option.bind_eq_some_iff]
    exact ⟨_, (hslots _).mpr ⟨h.slots, rfl⟩, rfl⟩

end Slots

end Raveil.Dag
