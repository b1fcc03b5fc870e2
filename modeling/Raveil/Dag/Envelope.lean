import Raveil.Fold.Batch

/-! The guest's decoder of DAG envelopes, `raveil_fold_dag_decode`. -/
namespace Raveil.Dag
open Raveil.Lib Raveil.Fold

def RAVEIL_FOLD_DAG_MAGIC : ℕ := 0x51444631
def RAVEIL_FOLD_DAG_END : ℕ := 0x44454e44
def RAVEIL_FOLD_DAG_MAX_BYTES : ℕ := 40 + 8 * (24 + RAVEIL_FOLD_MAX_BYTES)

/-- `struct raveil_fold_dag`; entries that were never assigned are zero. -/
structure FoldDag where
  epoch : ℕ
  count : ℕ
  offsets : ℕ → ℕ
  lengths : ℕ → ℕ
  sources : ℕ → ℕ → ℕ
  destinations : ℕ → List ℕ
  chunks : ℕ → ℕ
  lastUse : ℕ → ℕ
  output : ℕ
  inputOffsets : ℕ → ℕ → ℕ

/-- The locals of the job loop. -/
structure DagLoop where
  dag : FoldDag
  ids : ℕ → ℕ
  counts : ℕ → ℕ
  readChunks : ℕ → ℕ
  offset : ℕ

/-- The chunks of `for(chunk=start/128;chunk<=(start+extent-1)/128;++chunk)`. -/
def chunkRange (start extent : ℕ) : List ℕ :=
  List.range' (start / 128) ((start + extent - 1) / 128 + 1 - start / 128)

theorem mem_chunkRange {start extent chunk : ℕ} : chunk ∈ chunkRange start extent ↔
    start / 128 ≤ chunk ∧ chunk ≤ (start + extent - 1) / 128 := by
  rw [chunkRange, List.mem_range'_1]
  omega

def metadata (version : ℕ) : ℕ := if version = 2 then 24 else 8

/-- The second loop over the two operands of job `i`. -/
def dagOperand (version i : ℕ) (request : Request) (extents : ℕ → ℕ) (s : DagLoop) (b : ℕ) :
    Option DagLoop :=
  let source := s.dag.sources i b
  let start := s.dag.inputOffsets i b
  let extent := cfg request.config (5 + b)
  if version = 2 ∧ extents b ≠ extent then none
  else if source = UINT32_MAX then if start ≠ 0 then none else some s
  else if source ≥ i ∨ extent = 0 ∨ start > s.counts source ∨ extent > s.counts source - start ∨
      (version = 1 ∧ extent ≠ s.counts source) then none
  else if (List.range extent).any fun k => request.inputs.getD (324 * b + k) 0 ≠ 0 then none
  else some { s with
    readChunks := Function.update s.readChunks i ((chunkRange start extent).foldl
      (fun mask chunk => mask ||| 1 <<< (2 * source + chunk)) (s.readChunks i))
    dag := { s.dag with lastUse := Function.update s.dag.lastUse source i } }

/-- The body of the job loop. -/
def dagJob (p : List UInt8) (n version : ℕ) (s : DagLoop) (i : ℕ) : Option DagLoop :=
  if s.offset + metadata version + 300 > n - 8 then none
  else
    let sources := fun b => word p (s.offset + if version = 2 then 12 * b else 4 * b)
    let inputOffsets := fun b => if version = 2 then word p (s.offset + 12 * b + 4) else 0
    let extents := fun b => if version = 2 then word p (s.offset + 12 * b + 8) else 0
    let offset := s.offset + metadata version
    let length := word p (offset + 8)
    if word p offset ≠ RAVEIL_FOLD_BRIDGE_MAGIC ∨ length < 300 ∨ length > RAVEIL_FOLD_MAX_BYTES ∨
        length > n - 8 - offset then none
    else match raveilFoldDecode (p.drop offset) length with
      | none => none
      | some request =>
        if (List.range i).any fun j => s.ids j = request.requestId then none
        else
          let s := { s with dag := { s.dag with
            sources := Function.update s.dag.sources i sources
            inputOffsets := Function.update s.dag.inputOffsets i inputOffsets } }
          match (List.range 2).foldlM (dagOperand version i request extents) s with
          | none => none
          | some s =>
            let count := cfg request.config 1 * cfg request.config 2
            some { s with
              ids := Function.update s.ids i request.requestId
              counts := Function.update s.counts i count
              offset := offset + length
              dag := { s.dag with
                chunks := Function.update s.dag.chunks i ((count + 127) / 128)
                lastUse := Function.update s.dag.lastUse i i
                offsets := Function.update s.dag.offsets i offset
                lengths := Function.update s.dag.lengths i length } }

/-- The slot scan for job `i`. -/
def scanSlots (dag : FoldDag) (owners : ℕ → ℕ) (i : ℕ) : List ℕ :=
  (List.range 8).foldl (fun found slot =>
    if found.length < dag.chunks i ∧ (owners slot = UINT32_MAX ∨ dag.lastUse (owners slot) < i) then
      found ++ [slot]
    else found) []

/-- The body of the allocation loop; the state is the destinations with the slot owners. -/
def dagAllocate (dag : FoldDag) (readChunks : ℕ → ℕ) (s : (ℕ → List ℕ) × (ℕ → ℕ)) (i : ℕ) :
    Option ((ℕ → List ℕ) × (ℕ → ℕ)) :=
  let refs := dag.chunks i + (List.range 16).countP fun bit => readChunks i &&& 1 <<< bit ≠ 0
  let found := scanSlots dag s.2 i
  if refs > 4 then none
  else if found.length ≠ dag.chunks i then none
  else some (Function.update s.1 i found,
    found.foldl (fun owners slot => Function.update owners slot i) s.2)

def raveilFoldDagDecode (p : List UInt8) (n : ℕ) : Option FoldDag :=
  if n < 348 ∨ n > RAVEIL_FOLD_DAG_MAX_BYTES ∨ word p 0 ≠ RAVEIL_FOLD_DAG_MAGIC ∨
      (word p 4 ≠ 1 ∧ word p 4 ≠ 2) ∨ word p 8 ≠ n ∨ word p 12 < 1 ∨ word p 12 > 8 ∨
      word p 24 ≥ word p 12 ∨ word p 28 ≠ 0 ∨ word p (n - 4) ≠ RAVEIL_FOLD_DAG_END ∨
      word p (n - 8) ≠ crc p (n - 8) then none
  else
    let admitted : FoldDag := ⟨word64 p 16, word p 12, fun _ => 0, fun _ => 0, fun _ _ => 0, fun _ => [],
      fun _ => 0, fun _ => 0, word p 24, fun _ _ => 0⟩
    if admitted.epoch = 0 then none
    else do
      let s ← (List.range admitted.count).foldlM (dagJob p n (word p 4))
        ⟨admitted, fun _ => 0, fun _ => 0, fun _ => 0, 32⟩
      if s.offset ≠ n - 8 then none
      else
        let dag := { s.dag with
          lastUse := Function.update s.dag.lastUse s.dag.output s.dag.count }
        let r ← (List.range dag.count).foldlM (dagAllocate dag s.readChunks)
          (fun _ => [], fun _ => UINT32_MAX)
        some { dag with destinations := r.1 }

end Raveil.Dag
