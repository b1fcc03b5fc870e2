import Raveil.Fold.Bridge
import Raveil.Dag.Decode

/-! What an accepted envelope promises the guest: its requests, its ranges and its slots. -/
namespace Raveil.Dag
open Raveil.Lib Raveil.Fold

section View

variable (p : List UInt8)

/-- The array on the wire for operand `b` of job `i`. -/
def literalAt (i b : ℕ) : List ℕ :=
  ((((requestAt p i).map Request.inputs).getD []).drop (324 * b)).take (extentAt p i b)

/-- Slot `j` of job `i`. -/
def slotAt (i j : ℕ) : ℕ := (destinationsAt p i).getD j 0

/-- The slots that operand `b` of job `i` reads. -/
def operandSlots (i b : ℕ) : List ℕ :=
  (chunkRange (startAt p i b) (extentAt p i b)).map (slotAt p (sourceAt p i b))

/-- The slots that job `i` reads. -/
def readSlots (i : ℕ) : List ℕ := (linksBelow p i 2).flatMap (operandSlots p i)

def maskOf (slots : List ℕ) : ℕ := slots.foldl (fun mask slot => mask ||| 1 <<< slot) 0

end View

theorem mem_linksBelow {p : List UInt8} {i m b : ℕ} :
    b ∈ linksBelow p i m ↔ b < m ∧ sourceAt p i b ≠ UINT32_MAX := by
  simp [linksBelow]

theorem take_drop_placed {a b : List ℕ} (ha : a.length ≤ 324) :
    ((placed a b).drop (324 * 0)).take a.length = a ∧ ((placed a b).drop (324 * 1)).take b.length = b := by
  have hlen : (a ++ List.replicate (324 - a.length) 0).length = 324 * 1 := by
    simp only [List.length_append, List.length_replicate]
    omega
  constructor
  · rw [placed, Nat.mul_zero, List.drop_zero, List.append_assoc, List.append_assoc, List.take_left]
  · rw [placed, List.append_assoc, ← hlen, List.drop_left, List.take_left]

variable {p : List UInt8} {n i : ℕ} (h : Accepted p n) (hi : i < word p 12)

include h hi

/-- The request of a job holds the literal arrays of its operands. -/
theorem Accepted.request : requestAt p i =
    some ⟨idAt p i, configAt p i, placed (literalAt p i 0) (literalAt p i 1)⟩ ∧
      RequestOk (configAt p i) (literalAt p i 0) (literalAt p i 1) (idAt p i) := by
  obtain ⟨r, hr⟩ := (h.job i hi).request
  obtain ⟨a, b, hok, hinputs⟩ := raveilFoldDecode_eq_some hr
  obtain ⟨ha, hb⟩ := take_drop_placed (b := b) hok.lengths.1
  have h0 : literalAt p i 0 = a := by
    rw [literalAt, extentAt, configAt_eq hr, hr, Option.map_some, Option.getD_some, hinputs, ← hok.lengthA, ha]
  have h1 : literalAt p i 1 = b := by
    rw [literalAt, extentAt, configAt_eq hr, hr, Option.map_some, Option.getD_some, hinputs, ← hok.lengthB, hb]
  rw [h0, h1, configAt_eq hr, idAt_eq hr]
  refine ⟨?_, hok⟩
  rw [hr, ← hinputs]

theorem Accepted.cells : 1 ≤ cellsAt p i ∧ cellsAt p i ≤ 256 := by
  have hadm := (h.request hi).2.admissible
  exact ⟨Nat.mul_pos hadm.header.rows.1 hadm.header.cols.1, cells_le hadm⟩

theorem Accepted.chunks : 1 ≤ chunksAt p i ∧ chunksAt p i ≤ 2 := by
  have := h.cells hi
  unfold chunksAt
  omega

theorem Accepted.length_literal {b : ℕ} (hb : b < 2) : (literalAt p i b).length = extentAt p i b := by
  have hok := (h.request hi).2
  obtain rfl | rfl : b = 0 ∨ b = 1 := by omega
  · exact hok.lengthA
  · exact hok.lengthB

theorem Accepted.link {b : ℕ} (hb : b < 2) (hs : sourceAt p i b ≠ UINT32_MAX) : sourceAt p i b < i ∧
    1 ≤ extentAt p i b ∧ startAt p i b + extentAt p i b ≤ cellsAt p (sourceAt p i b) := by
  obtain ⟨h1, h2, h3, -⟩ := ((h.job i hi).operand b hb).link hs
  omega

theorem Accepted.slot_mem {j : ℕ} (hj : j < chunksAt p i) : slotAt p i j ∈ destinationsAt p i := by
  have hlen := (h.slots i hi).slots
  rw [slotAt, List.getD_eq_getElem _ _ (by omega)]
  exact List.getElem_mem _

theorem Accepted.slot_lt {j : ℕ} (hj : j < chunksAt p i) : slotAt p i j < 8 :=
  (mem_slotsAt (h.slot_mem hi hj)).1

theorem Accepted.idxOf_slot {j : ℕ} (hj : j < chunksAt p i) : (destinationsAt p i).idxOf (slotAt p i j) = j := by
  have hlt : j < (destinationsAt p i).length := by
    rw [(h.slots i hi).slots]
    exact hj
  rw [slotAt, List.getD_eq_getElem _ _ hlt]
  exact (slotsAt_nodup i).idxOf_getElem j hlt

theorem Accepted.destinations_eq : destinationsAt p i = (List.range (chunksAt p i)).map (slotAt p i) := by
  have hlen := (h.slots i hi).slots
  refine List.ext_getElem (by simp [hlen]) fun j hj hj' => ?_
  rw [List.getElem_map, List.getElem_range, slotAt, List.getD_eq_getElem _ _ hj]

/-- The chunks of a linked range are chunks of its producer. -/
theorem Accepted.chunk_lt {b chunk : ℕ} (hb : b < 2) (hs : sourceAt p i b ≠ UINT32_MAX)
    (hc : chunk ∈ chunkRange (startAt p i b) (extentAt p i b)) : chunk < chunksAt p (sourceAt p i b) := by
  obtain ⟨-, hpos, hfits⟩ := h.link hi hb hs
  rw [mem_chunkRange] at hc
  unfold chunksAt
  omega

omit h hi in
theorem mem_readSlots {s : ℕ} (hs : s ∈ readSlots p i) : ∃ b j, b < 2 ∧
    sourceAt p i b ≠ UINT32_MAX ∧ j ∈ chunkRange (startAt p i b) (extentAt p i b) ∧
    s = slotAt p (sourceAt p i b) j := by
  simp only [readSlots, List.mem_flatMap, mem_linksBelow, operandSlots, List.mem_map] at hs
  obtain ⟨b, ⟨hb, hlink⟩, j, hj, rfl⟩ := hs
  exact ⟨b, j, hb, hlink, hj, rfl⟩

omit h in
/-- A producer is not released before the job that links to it. -/
theorem use_le_last {b : ℕ} (hb : b < 2) (hs : sourceAt p i b ≠ UINT32_MAX) :
    i ≤ lastUses p (sourceAt p i b) := by
  by_cases hout : sourceAt p i b = word p 24
  · rw [lastUses, hout, Function.update_self]
    omega
  · rw [lastUses, Function.update_of_ne hout]
    refine le_lastUseAt hi (Or.inr ?_)
    exact List.mem_map.mpr ⟨b, mem_linksBelow.mpr ⟨hb, hs⟩, rfl⟩

omit h hi in
/-- No job up to the last use of a producer is given one of its slots. -/
theorem slot_kept {s q k : ℕ} (hqk : q < k) (hk : k ≤ lastUses p q) (hs : s ∈ destinationsAt p q) :
    s ∉ destinationsAt p k := by
  intro hmem
  have := last_lt_of_reused hqk hs hmem
  omega

omit h in
/-- No job between a producer and the job that links to it is given a slot of the producer. -/
theorem link_kept {b s k : ℕ} (hb : b < 2) (hs : sourceAt p i b ≠ UINT32_MAX)
    (hk : sourceAt p i b < k) (hki : k ≤ i) (hmem : s ∈ destinationsAt p (sourceAt p i b)) :
    s ∉ destinationsAt p k :=
  slot_kept hk (hki.trans (use_le_last hi hb hs)) hmem

theorem Accepted.read_mem {s : ℕ} (hs : s ∈ readSlots p i) : ∃ b, b < 2 ∧ sourceAt p i b ≠ UINT32_MAX ∧
    s ∈ destinationsAt p (sourceAt p i b) := by
  obtain ⟨b, j, hb, hlink, hj, rfl⟩ := mem_readSlots hs
  have hlt := (h.link hi hb hlink).1
  exact ⟨b, hb, hlink, h.slot_mem (hlt.trans hi) (h.chunk_lt hi hb hlink hj)⟩

theorem Accepted.reads_disjoint {s : ℕ} (hs : s ∈ readSlots p i) : s ∉ destinationsAt p i := by
  obtain ⟨b, hb, hlink, hmem⟩ := h.read_mem hi hs
  exact link_kept hi hb hlink (h.link hi hb hlink).1 le_rfl hmem

theorem Accepted.read_lt {s : ℕ} (hs : s ∈ readSlots p i) : s < 8 := by
  obtain ⟨b, hb, hlink, hmem⟩ := h.read_mem hi hs
  exact (mem_slotsAt hmem).1

/-- The read chunks are counted by pairs of producer and chunk, so there are no more slots. -/
theorem Accepted.refs_le : (readSlots p i).toFinset.card + chunksAt p i ≤ 4 := by
  have hrefs := (h.slots i hi).refs
  have hbits : ∀ b, b < 2 → sourceAt p i b ≠ UINT32_MAX → ∀ j,
      j ∈ chunkRange (startAt p i b) (extentAt p i b) → sourceAt p i b < 8 ∧ j < 2 := by
    intro b hb hlink j hj
    have hlt := (h.link hi hb hlink).1
    have hcount := h.header.count
    have hchunk := h.chunk_lt hi hb hlink hj
    have := (h.chunks (hlt.trans hi)).2
    omega
  rw [readMask, readMaskBelow, countP_maskOf] at hrefs
  · have himage : (readSlots p i).toFinset ⊆ (((linksBelow p i 2).flatMap (readBits p i)).toFinset).image
        fun bit => slotAt p (bit / 2) (bit % 2) := by
      intro s hs
      obtain ⟨b, j, hb, hlink, hj, rfl⟩ := mem_readSlots (List.mem_toFinset.mp hs)
      have hbound := hbits b hb hlink j hj
      refine Finset.mem_image.mpr ⟨2 * sourceAt p i b + j, ?_, ?_⟩
      · exact List.mem_toFinset.mpr (List.mem_flatMap.mpr ⟨b, mem_linksBelow.mpr ⟨hb, hlink⟩,
          List.mem_map.mpr ⟨j, hj, rfl⟩⟩)
      · rw [show (2 * sourceAt p i b + j) / 2 = sourceAt p i b by omega,
          show (2 * sourceAt p i b + j) % 2 = j by omega]
    have := (Finset.card_le_card himage).trans Finset.card_image_le
    omega
  · intro bit hbit
    obtain ⟨b, hb, hmem⟩ := List.mem_flatMap.mp hbit
    obtain ⟨hb2, hlink⟩ := mem_linksBelow.mp hb
    obtain ⟨j, hj, rfl⟩ := List.mem_map.mp hmem
    have := hbits b hb2 hlink j hj
    omega

end Raveil.Dag
