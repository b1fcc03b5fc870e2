import Raveil.Lib.Hash
import Raveil.Graph.Validators

/-! The program installer of the hardware, and where the four validators of a payload agree. -/
namespace Raveil.Graph
open Raveil.Lib

section Hardware

/-- The registers of `GraphDeviceProgramInstaller`. -/
structure Installer where
  payload : Fin 32 → BitVec 32
  payloadCount : BitVec 6
  installed : Bool
  fault : Bool
  programLength : BitVec 5
  programVersion : BitVec 3
  program : Fin 16 → BitVec 32
  digest : Fin 8 → BitVec 32

structure InstallerInput where
  clear : Bool
  write : Bool
  commit : Bool
  address : BitVec 6
  data : BitVec 32
  busy : Bool

/-- The flags of the instructions that write a register, on bit slices. -/
def writesValid (payloadVersion : BitVec 32) (defined : BitVec 8) (instruction : BitVec 32) : Bool :=
  let opcode := instruction.extractLsb 31 28
  let sourceA := instruction.extractLsb 24 22
  let sourceB := instruction.extractLsb 21 19
  let selector := instruction.extractLsb 24 22
  let legacyLoadValid := opcode == 1 && payloadVersion < 3 && selector ≤ 4 &&
    instruction.extractLsb 21 0 == 0
  let relativeRow := instruction.extractLsb 24 20
  let relativeColumn := instruction.extractLsb 19 15
  let relativeRowValid := relativeRow == 0 || relativeRow == 1 || relativeRow == 0x1f
  let relativeColumnValid := relativeColumn == 0 || relativeColumn == 1 || relativeColumn == 0x1f
  let relativeLoadValid := opcode == 1 && (payloadVersion ≥ 3 && payloadVersion ≤ 6) && relativeRowValid &&
    relativeColumnValid && instruction.extractLsb 14 0 == 0
  let loadValid := legacyLoadValid || relativeLoadValid
  let addValid := opcode == 2 && instruction.extractLsb 18 0 == 0 && defined.getLsbD sourceA.toNat &&
    defined.getLsbD sourceB.toNat
  let maxValid := opcode == 4 && (payloadVersion ≥ 2 && payloadVersion ≤ 6) &&
    instruction.extractLsb 18 0 == 0 && defined.getLsbD sourceA.toNat && defined.getLsbD sourceB.toNat
  let mulValid := opcode == 5 && (payloadVersion == 4 || payloadVersion == 5 || payloadVersion == 6) &&
    instruction.extractLsb 18 0 == 0 && defined.getLsbD sourceA.toNat && defined.getLsbD sourceB.toNat
  let immediateValid := opcode == 6 && (payloadVersion == 5 || payloadVersion == 6) &&
    defined.getLsbD sourceA.toNat
  let comparisonValid := opcode == 7 && payloadVersion == 6 && defined.getLsbD sourceA.toNat
  loadValid || addValid || maxValid || mulValid || immediateValid || comparisonValid

/-- `storeValid`. -/
def storeValid (defined : BitVec 8) (instruction : BitVec 32) (instructionCount : BitVec 5) (index : ℕ) :
    Bool :=
  instruction.extractLsb 31 28 == 3 && instruction.extractLsb 24 0 == 0 &&
    defined.getLsbD (instruction.extractLsb 27 25).toNat && BitVec.ofNat 5 index == instructionCount - 1

/-- One turn of the elaborated loop; the state is `programValid`, `defined` and `storeCount`. -/
def installerInstruction (payload : Fin 32 → BitVec 32) (s : Bool × BitVec 8 × BitVec 5) (index : ℕ) :
    Bool × BitVec 8 × BitVec 5 :=
  let instructionCount := (payload 2).extractLsb 4 0
  let instruction := payload (Fin.ofNat 32 (12 + index))
  let active := BitVec.ofNat 5 index < instructionCount
  let writes := writesValid (payload 1) s.2.1 instruction
  let store := storeValid s.2.1 instruction instructionCount index
  (s.1 && (if active then writes || store else instruction == 0),
    if active && writes then s.2.1 ||| 1#8 <<< (instruction.extractLsb 27 25).toNat else s.2.1,
    s.2.2 + if active && store then 1 else 0)

def Installer.payloadValid (s : Installer) : Bool :=
  let instructionCount := (s.payload 2).extractLsb 4 0
  let payloadVersion := s.payload 1
  let loop := (List.range 16).foldl (installerInstruction s.payload) (true, 0, 0)
  let reservedZero := (List.range' 28 4).all fun index => s.payload (Fin.ofNat 32 index) == 0
  s.payloadCount == 32 && s.payload 0 == 0x52504731 &&
    (payloadVersion == 1 || payloadVersion == 2 || payloadVersion == 3 || payloadVersion == 4 ||
      payloadVersion == 5 || payloadVersion == 6) &&
    instructionCount ≥ 2 && instructionCount ≤ 16 && s.payload 3 == 8 &&
    (s.payload 12).extractLsb 31 28 == 1 && loop.2.2 == 1 && loop.1 && reservedZero

/-- One clock cycle. -/
def Installer.step (s : Installer) (io : InstallerInput) : Installer :=
  if (io.clear || io.write || io.commit) && io.busy then { s with fault := true, installed := false }
  else if io.clear then { s with payloadCount := 0, installed := false, fault := false }
  else if io.write then
    if !s.installed && !s.fault && s.payloadCount < 32 && io.address == s.payloadCount then
      { s with
        payload := Function.update s.payload (Fin.ofNat 32 (io.address.extractLsb 4 0).toNat) io.data
        payloadCount := s.payloadCount + 1 }
    else { s with fault := true, installed := false }
  else if io.commit then
    if !s.fault && s.payloadValid then
      { s with
        programLength := (s.payload 2).extractLsb 4 0
        programVersion := (s.payload 1).extractLsb 2 0
        program := fun index => s.payload (Fin.ofNat 32 (12 + index))
        digest := fun index => s.payload (Fin.ofNat 32 (4 + index))
        installed := true }
    else { s with fault := true, installed := false }
  else s

end Hardware

section Slices

variable {w : BitVec 32} {d : BitVec 8} {v : BitVec 32}

/-- The registers that a mask defines. -/
def bits (d : BitVec 8) : Finset ℕ := (Finset.range 8).filter fun r => d.getLsbD r

theorem mem_bits {r : ℕ} : r ∈ bits d ↔ d.getLsbD r = true := by
  simp only [bits, Finset.mem_filter, Finset.mem_range]
  exact ⟨And.right, fun h => ⟨BitVec.lt_of_getLsbD h, h⟩⟩

theorem opcode_slice (c : BitVec 4) : w.extractLsb 31 28 = c ↔ opcodeOf w.toNat = c.toNat := by
  have := w.isLt
  rw [BitVec.toNat_eq, BitVec.extractLsb_toNat, opcodeOf, Nat.shiftRight_eq_div_pow, Nat.mod_eq_of_lt]
  omega

theorem left_slice : (w.extractLsb 24 22).toNat = leftOf w.toNat := by
  rw [BitVec.extractLsb_toNat, leftOf, and_seven]

theorem right_slice : (w.extractLsb 21 19).toNat = rightOf w.toNat := by
  rw [BitVec.extractLsb_toNat, rightOf, and_seven]

theorem destination_slice : (w.extractLsb 27 25).toNat = destinationOf w.toNat := by
  rw [BitVec.extractLsb_toNat, destinationOf, and_seven]

/-- The low bits of a word are zero. -/
theorem low_slice (hi : ℕ) : w.extractLsb hi 0 = 0 ↔ w.toNat &&& (2 ^ (hi + 1) - 1) = 0 := by
  rw [BitVec.toNat_eq, BitVec.extractLsb_toNat, Nat.and_two_pow_sub_one_eq_mod]
  simp

theorem signedUnit_iff {x : ℕ} : SignedUnit x ↔ (x = 0 ∨ x = 1) ∨ x = 31 := or_assoc.symm

theorem signedUnit_toNat : ∀ b : BitVec 5, ((b = 0 ∨ b = 1) ∨ b = 0x1f) ↔ SignedUnit b.toNat := by
  decide

theorem row_slice : ((w.extractLsb 24 20 = 0 ∨ w.extractLsb 24 20 = 1) ∨ w.extractLsb 24 20 = 0x1f) ↔
    SignedUnit (w.toNat >>> 20 &&& 31) := by
  have hbits : (w.extractLsb 24 20).toNat = w.toNat >>> 20 &&& 31 := by
    rw [BitVec.extractLsb_toNat]
    exact (Nat.and_two_pow_sub_one_eq_mod _ 5).symm
  rw [← hbits]
  exact signedUnit_toNat _

theorem column_slice : ((w.extractLsb 19 15 = 0 ∨ w.extractLsb 19 15 = 1) ∨ w.extractLsb 19 15 = 0x1f) ↔
    SignedUnit (w.toNat >>> 15 &&& 31) := by
  have hbits : (w.extractLsb 19 15).toNat = w.toNat >>> 15 &&& 31 := by
    rw [BitVec.extractLsb_toNat]
    exact (Nat.and_two_pow_sub_one_eq_mod _ 5).symm
  rw [← hbits]
  exact signedUnit_toNat _

/-- The hardware computes the flags of the software on the numbers that the bits stand for. -/
theorem writesValid_eq : writesValid v d w = writesValue v.toNat (bits d) w.toNat true := by
  rw [Bool.eq_iff_iff]
  simp only [writesValid, writesValue, Bool.or_eq_true, Bool.and_eq_true, beq_iff_eq, decide_eq_true_eq,
    row_slice, column_slice, opcode_slice, low_slice, ← mem_bits, left_slice, right_slice, BitVec.lt_def,
    BitVec.le_def, BitVec.toNat_eq (x := v), BitVec.reduceToNat, ← signedUnit_iff]
  simp only [opcodeOf, leftOf, rightOf, and_assoc, or_assoc, and_or_left, true_and, Nat.reduceAdd,
    Nat.reducePow, Nat.reduceSub, ge_iff_le]

theorem storeValid_eq {count : BitVec 5} {index : ℕ} : storeValid d w count index =
    storesValue (bits d) w.toNat (BitVec.ofNat 5 index == count - 1) := by
  rw [Bool.eq_iff_iff]
  simp only [storeValid, storesValue, Bool.and_eq_true, beq_iff_eq, decide_eq_true_eq, opcode_slice, low_slice,
    ← mem_bits, destination_slice, BitVec.reduceToNat]
  simp only [opcodeOf, destinationOf, Nat.reduceAdd, Nat.reducePow, Nat.reduceSub]
  tauto

theorem bits_insert : bits (d ||| 1#8 <<< (w.extractLsb 27 25).toNat) =
    insert (destinationOf w.toNat) (bits d) := by
  have hlt : destinationOf w.toNat < 8 := and_seven_lt _
  rw [destination_slice]
  ext r
  rw [Finset.mem_insert, mem_bits, mem_bits, BitVec.getLsbD_or, BitVec.getLsbD_shiftLeft, Bool.or_eq_true]
  constructor
  · rintro (h | h)
    · exact Or.inr h
    · left
      simp at h
      omega
  · rintro (rfl | h)
    · right
      simp [hlt]
    · exact Or.inl h

end Slices

section Loop

variable {payload : Fin 32 → BitVec 32} {d : BitVec 8} {valid : Bool}

theorem ofNat_lt_iff {count : BitVec 5} {k : ℕ} (hk : k < 16) :
    BitVec.ofNat 5 k < count ↔ k < count.toNat := by
  rw [BitVec.lt_def, BitVec.toNat_ofNat, Nat.mod_eq_of_lt (by omega)]

theorem ofNat_eq_pred_iff {count : BitVec 5} {k : ℕ} (hk : k < 16) (hc : 2 ≤ count.toNat) :
    (BitVec.ofNat 5 k == count - 1) = true ↔ k + 1 = count.toNat := by
  have := count.isLt
  rw [beq_iff_eq, BitVec.toNat_eq, BitVec.toNat_sub, BitVec.toNat_ofNat, Nat.mod_eq_of_lt (by omega)]
  simp only [BitVec.reduceToNat]
  omega

variable {c : BitVec 5} {k : ℕ}

theorem count_add_zero (c : BitVec 5) : c + 0 = c := BitVec.add_zero c

/-- An active instruction, by its flags. -/
theorem installer_active (h : BitVec.ofNat 5 k < (payload 2).extractLsb 4 0) {writes store : Bool}
    (hw : writesValid (payload 1) d (payload (Fin.ofNat 32 (12 + k))) = writes)
    (hs : storeValid d (payload (Fin.ofNat 32 (12 + k))) ((payload 2).extractLsb 4 0) k = store) :
    installerInstruction payload (valid, d, c) k =
      (valid && (writes || store),
        if writes then d ||| 1#8 <<< ((payload (Fin.ofNat 32 (12 + k))).extractLsb 27 25).toNat else d,
        c + if store then 1 else 0) := by
  subst hw hs
  simp only [installerInstruction, if_pos h, decide_eq_true h, Bool.true_and]

theorem installer_inactive (h : ¬ BitVec.ofNat 5 k < (payload 2).extractLsb 4 0) :
    installerInstruction payload (valid, d, c) k =
      (valid && payload (Fin.ofNat 32 (12 + k)) == 0, d, c) := by
  simp only [installerInstruction, if_neg h, decide_eq_false h, Bool.false_and, Bool.false_eq_true, if_false,
    count_add_zero]

/-- The elaborated loop follows the rules for the five-bit count. -/
theorem installer_scan {m stores : ℕ} (hv : (payload 1).toNat ∈ [1, 2, 3, 4, 5, 6])
    (hc : 2 ≤ ((payload 2).extractLsb 4 0).toNat) (hm : k + m = 16) (hs : stores + m < 32) :
    (((List.range' k m).foldl (installerInstruction payload) (valid, d, BitVec.ofNat 5 stores)).1 = true ∧
      ((List.range' k m).foldl (installerInstruction payload) (valid, d, BitVec.ofNat 5 stores)).2.2 = 1) ↔
      valid = true ∧ Scan (payload 1).toNat ((payload 2).extractLsb 4 0).toNat
        (fun i => (payload (Fin.ofNat 32 (12 + i))).toNat) m k (bits d) stores := by
  induction m generalizing k valid d stores with
  | zero =>
    simp only [List.range'_zero, List.foldl_nil, Scan]
    refine and_congr_right fun _ => ?_
    rw [BitVec.toNat_eq, BitVec.toNat_ofNat, Nat.mod_eq_of_lt (by omega)]
    rfl
  | succ m ih =>
    have hk : k < 16 := by omega
    have hw : writesValid (payload 1) d (payload (Fin.ofNat 32 (12 + k))) = true ↔
        Produces (payload 1).toNat (bits d) (payload (Fin.ofNat 32 (12 + k))).toNat := by
      rw [writesValid_eq, writesValue_iff hv]
      simp only [true_and]
    have hst : storeValid d (payload (Fin.ofNat 32 (12 + k))) ((payload 2).extractLsb 4 0) k = true ↔
        k + 1 = ((payload 2).extractLsb 4 0).toNat ∧
          Stores (bits d) (payload (Fin.ofNat 32 (12 + k))).toNat := by
      rw [storeValid_eq, storesValue_iff, ofNat_eq_pred_iff hk hc]
    have hbit := @ofNat_lt_iff ((payload 2).extractLsb 4 0) k hk
    rw [List.range'_succ, List.foldl_cons, Scan]
    by_cases hactive : k < ((payload 2).extractLsb 4 0).toNat
    · cases hwr : writesValid (payload 1) d (payload (Fin.ofNat 32 (12 + k))) with
      | true =>
        have hp := hw.mp hwr
        have hno : storeValid d (payload (Fin.ofNat 32 (12 + k))) ((payload 2).extractLsb 4 0) k = false := by
          rw [Bool.eq_false_iff, ne_eq, hst]
          exact fun h => hp.not_stores h.2
        rw [installer_active (hbit.mpr hactive) hwr hno]
        simp only [Bool.true_or, Bool.and_true, if_true, Bool.false_eq_true, if_false, count_add_zero]
        rw [ih (by omega) (by omega), bits_insert]
        refine and_congr_right fun _ => ⟨fun h => Or.inl ⟨hactive, hp, h⟩, ?_⟩
        rintro (⟨-, -, h⟩ | ⟨-, h, -⟩ | ⟨h, -⟩)
        · exact h
        · exact absurd h hp.not_stores
        · omega
      | false =>
        have hp : ¬ Produces (payload 1).toNat (bits d) (payload (Fin.ofNat 32 (12 + k))).toNat := by
          rw [← hw, hwr]
          exact Bool.false_ne_true
        cases hsr : storeValid d (payload (Fin.ofNat 32 (12 + k))) ((payload 2).extractLsb 4 0) k with
        | true =>
          obtain ⟨hlast, hs3⟩ := hst.mp hsr
          rw [installer_active (hbit.mpr hactive) hwr hsr]
          simp only [Bool.or_true, Bool.and_true, if_true, Bool.false_eq_true, if_false]
          have hadd : BitVec.ofNat 5 stores + 1 = BitVec.ofNat 5 (stores + 1) := (BitVec.ofNat_add ..).symm
          rw [hadd, ih (by omega) (by omega)]
          refine and_congr_right fun _ => ⟨fun h => Or.inr (Or.inl ⟨hlast, hs3, h⟩), ?_⟩
          rintro (⟨-, h, -⟩ | ⟨-, -, h⟩ | ⟨h, -⟩)
          · exact absurd h hp
          · exact h
          · omega
        | false =>
          have hns := (Bool.eq_false_iff.mp hsr) ∘ hst.mpr
          rw [installer_active (hbit.mpr hactive) hwr hsr]
          simp only [Bool.or_false, Bool.and_false, Bool.false_eq_true, if_false, count_add_zero]
          rw [ih (by omega) (by omega)]
          refine ⟨fun h => absurd h.1 Bool.false_ne_true, ?_⟩
          rintro ⟨-, ⟨-, h, -⟩ | ⟨h1, h2, -⟩ | ⟨h, -⟩⟩
          · exact absurd h hp
          · exact absurd ⟨h1, h2⟩ hns
          · omega
    · rw [installer_inactive (fun h => hactive (hbit.mp h)), ih (by omega) (by omega), Bool.and_eq_true,
        beq_iff_eq, BitVec.toNat_eq, and_assoc]
      refine and_congr_right fun _ => ⟨fun h => Or.inr (Or.inr ⟨by omega, h⟩), ?_⟩
      rintro (⟨h, -⟩ | ⟨h, -⟩ | ⟨-, h⟩)
      · omega
      · omega
      · exact h

end Loop

section Install

def clearInput : InstallerInput := ⟨true, false, false, 0, 0, false⟩

def writeInput (payload : Payload) (index : ℕ) : InstallerInput :=
  ⟨false, true, false, BitVec.ofNat 6 index, BitVec.ofNat 32 (payload.word index), false⟩

def commitInput : InstallerInput := ⟨false, false, true, 0, 0, false⟩

/-- The installer after a clear and the first `n` writes of a payload. -/
def Installer.load (s : Installer) (payload : Payload) (n : ℕ) : Installer :=
  (List.range n).foldl (fun s index => s.step (writeInput payload index)) (s.step clearInput)

/-- Clear, 32 writes in order while idle, commit. -/
def Installer.install (s : Installer) (payload : Payload) : Installer :=
  (s.load payload 32).step commitInput

variable (s : Installer) (payload : Payload)

theorem load_succ (n : ℕ) :
    s.load payload (n + 1) = (s.load payload n).step (writeInput payload n) := by
  simp [Installer.load, List.range_succ]

/-- The writes fill the payload registers in order. -/
theorem load_spec {n : ℕ} (hn : n ≤ 32) : (s.load payload n).installed = false ∧
    (s.load payload n).fault = false ∧ (s.load payload n).payloadCount = BitVec.ofNat 6 n ∧
    ∀ i, i < n → (s.load payload n).payload (Fin.ofNat 32 i) = BitVec.ofNat 32 (payload.word i) := by
  induction n with
  | zero => simp [Installer.load, Installer.step, clearInput]
  | succ n ih =>
    obtain ⟨hi, hf, hc, hp⟩ := ih (by omega)
    rw [load_succ]
    generalize s.load payload n = t at hi hf hc hp
    have hroom : BitVec.ofNat 6 n < 32 := by
      rw [BitVec.lt_def, BitVec.toNat_ofNat, Nat.mod_eq_of_lt (by omega)]
      exact hn
    have haddress : ((BitVec.ofNat 6 n).extractLsb 4 0).toNat = n := by
      rw [BitVec.extractLsb_toNat, BitVec.toNat_ofNat, Nat.mod_eq_of_lt (show n < 2 ^ 6 by omega)]
      exact Nat.mod_eq_of_lt (show n < 32 by omega)
    have hstep : t.step (writeInput payload n) = { t with
        payload := Function.update t.payload (Fin.ofNat 32 n) (BitVec.ofNat 32 (payload.word n))
        payloadCount := BitVec.ofNat 6 n + 1 } := by
      simp only [Installer.step, writeInput, hi, hf, hc, hroom, haddress, Bool.or_false, Bool.false_or,
        Bool.and_false, Bool.false_eq_true, if_false, if_true, Bool.not_false, Bool.true_and, decide_true,
        beq_self_eq_true]
    rw [hstep]
    refine ⟨hi, hf, (BitVec.ofNat_add ..).symm, fun i hlt => ?_⟩
    by_cases hin : i = n
    · subst hin
      exact Function.update_self ..
    · have hne : Fin.ofNat 32 i ≠ Fin.ofNat 32 n := by
        intro heq
        have := congrArg Fin.val heq
        simp only [Fin.val_ofNat] at this
        omega
      exact (Function.update_of_ne hne ..).trans (hp i (by omega))

/-- The first instruction of a program that follows the rules is a load. -/
theorem PayloadOk.first {payload : Payload} {count : ℕ} (h : PayloadOk payload count) :
    opcodeOf (payload.word 12) = 1 := by
  obtain ⟨n, rfl⟩ : ∃ n, count = n + 2 := ⟨count - 2, by have := h.two_le; omega⟩
  have hp := h.program
  rw [List.range_eq_range', List.range'_succ, List.range'_succ] at hp
  simp only [List.map_cons, ProgramOk, Nat.add_zero] at hp
  cases hp.1 with
  | legacyLoad ho => exact ho
  | relativeLoad ho => exact ho
  | binary _ _ hl => simp at hl
  | immediate _ hl => simp at hl

theorem scan_congr {version count : ℕ} {word word' : ℕ → ℕ} {m k stores : ℕ} {defined : Finset ℕ}
    (h : ∀ i, k ≤ i → i < k + m → word i = word' i) :
    Scan version count word m k defined stores ↔ Scan version count word' m k defined stores := by
  induction m generalizing k stores defined with
  | zero => exact Iff.rfl
  | succ m ih =>
    have hnext : ∀ i, k + 1 ≤ i → i < k + 1 + m → word i = word' i := fun i h1 h2 => h i (by omega) (by omega)
    simp only [Scan, h k (Nat.le_refl k) (by omega), ih hnext]

/-- A full payload is valid exactly when it follows the rules for the low five bits of its count. -/
theorem payloadValid_iff {t : Installer} {payload : Payload} (hc : t.payloadCount = 32)
    (hword : ∀ i, i < 32 → (t.payload (Fin.ofNat 32 i)).toNat = payload.word i) :
    t.payloadValid = true ↔ PayloadOk payload (payload.word 2 % 32) := by
  have hcount : ((t.payload 2).extractLsb 4 0).toNat = payload.word 2 % 32 := by
    rw [BitVec.extractLsb_toNat, show t.payload 2 = t.payload (Fin.ofNat 32 2) from rfl, hword 2 (by omega)]
    rfl
  have w0 : (t.payload 0).toNat = payload.word 0 := hword 0 (by omega)
  have w1 : (t.payload 1).toNat = payload.word 1 := hword 1 (by omega)
  have w3 : (t.payload 3).toNat = payload.word 3 := hword 3 (by omega)
  have w12 : (t.payload 12).toNat = payload.word 12 := hword 12 (by omega)
  have hscan : ∀ m k stores defined, k + m ≤ 16 →
      (Scan (payload.word 1) (payload.word 2 % 32) (fun i => (t.payload (Fin.ofNat 32 (12 + i))).toNat) m k
        defined stores ↔ Scan (payload.word 1) (payload.word 2 % 32) (fun i => payload.word (12 + i)) m k
        defined stores) := by
    intro m k stores defined hmk
    exact scan_congr fun i _ hi => hword (12 + i) (by omega)
  have hloop := fun hv hc2 => @installer_scan t.payload 0 true 0 16 0 hv hc2 rfl (by omega)
  have hbits : bits 0 = ∅ := by decide
  rw [w1, hcount, hbits, hscan 16 0 0 ∅ (by omega), ← List.range_eq_range', mem_versions] at hloop
  rw [payloadOk_iff]
  simp only [Installer.payloadValid, Bool.and_eq_true, Bool.or_eq_true, beq_iff_eq, decide_eq_true_eq,
    List.all_eq_true, opcode_slice, BitVec.toNat_eq (x := t.payload 0), BitVec.toNat_eq (x := t.payload 1),
    BitVec.toNat_eq (x := t.payload 3), BitVec.le_def, hc, hcount, w0, w1, w3, w12, BitVec.reduceToNat,
    mem_versions, MAGIC, VALUE_REGISTERS]
  have hzero : ∀ i ∈ List.range' 28 4, (t.payload (Fin.ofNat 32 i) = 0 ↔ payload.word i = 0) := by
    intro i hi
    rw [List.mem_range'_1] at hi
    rw [BitVec.toNat_eq, hword i (by omega)]
    rfl
  constructor
  · rintro ⟨⟨⟨⟨⟨⟨⟨⟨⟨-, hm⟩, hv⟩, h2⟩, h16⟩, h8⟩, -⟩, hone⟩, hvalid⟩, hres⟩
    refine ⟨⟨hm, by omega, h2, h16, h8⟩, ?_, fun i hi => (hzero i hi).mp (hres i hi)⟩
    exact ((hloop (by omega) h2).mp ⟨hvalid, hone⟩).2
  · rintro ⟨⟨hm, hv, h2, h16, h8⟩, hrun, hres⟩
    have hok : PayloadOk payload (payload.word 2 % 32) :=
      payloadOk_iff.mpr ⟨⟨hm, mem_versions.mpr hv, h2, h16, h8⟩, hrun, hres⟩
    obtain ⟨hvalid, hone⟩ := (hloop hv h2).mpr ⟨rfl, hrun⟩
    exact ⟨⟨⟨⟨⟨⟨⟨⟨⟨trivial, hm⟩, by omega⟩, h2⟩, h16⟩, h8⟩, hok.first⟩, hone⟩, hvalid⟩,
      fun i hi => (hzero i hi).mpr (hres i hi)⟩

/-- The committed payload is installed exactly when it follows the rules for the low five bits of its
count. -/
theorem install_iff : (s.install payload).installed = true ∧ (s.install payload).fault = false ↔
    PayloadOk payload (payload.word 2 % 32) := by
  obtain ⟨-, hf, hc, hp⟩ := load_spec s payload (Nat.le_refl 32)
  unfold Installer.install
  generalize s.load payload 32 = t at hf hc hp
  have hword : ∀ i, i < 32 → (t.payload (Fin.ofNat 32 i)).toNat = payload.word i := by
    intro i hi
    rw [hp i hi, BitVec.toNat_ofNat, Nat.mod_eq_of_lt (payload.word_lt i)]
  rw [← payloadValid_iff hc hword]
  cases hvalid : t.payloadValid <;> simp [Installer.step, commitInput, hf, hvalid]

end Install

/-- The four validators give one verdict on a payload, whatever the installer held before. -/
structure ValidatorsAgree (sha256 : List UInt8 → Digest) (payload : Payload) (affine : Affine)
    (s : Installer) : Prop where
  runtime : (∃ l, validateFallbackProgram sha256 (payload.image sha256 affine) = .ok l) ↔
    validFallbackProgram payload = true
  reader : validFallbackProgram payload = true ↔
    ∃ request ∈ List.range' 1 7, validateProgram sha256 payload request = .ok ()
  installer : (∃ request ∈ List.range' 1 7, validateProgram sha256 payload request = .ok ()) ↔
    (s.install payload).installed = true ∧ (s.install payload).fault = false

/-- The validators agree exactly when the installer loses nothing by reading five bits of the count. -/
theorem validatorsAgree_iff (sha256 : List UInt8 → Digest) (payload : Payload) (affine : Affine)
    (s : Installer) (hsealed : payload.Sealed sha256) : ValidatorsAgree sha256 payload affine s ↔
      payload.word 2 < 32 ∨ ¬ PayloadOk payload (payload.word 2 % 32) := by
  have hsame : PayloadOk payload (payload.word 2) ↔ payload.word 2 < 32 ∧ PayloadOk payload (payload.word 2 % 32) := by
    constructor
    · intro h
      have := h.le_capacity
      rw [Nat.mod_eq_of_lt (by omega)]
      exact ⟨by omega, h⟩
    · rintro ⟨hlt, h⟩
      rwa [Nat.mod_eq_of_lt hlt] at h
  constructor
  · intro h
    have hinstall := h.installer
    rw [validateProgram_iff hsealed, install_iff, hsame] at hinstall
    by_cases hok : PayloadOk payload (payload.word 2 % 32)
    · exact Or.inl (hinstall.mpr hok).1
    · exact Or.inr hok
  · intro h
    refine ⟨?_, ?_, ?_⟩
    · rw [validateFallback_iff affine hsealed, validFallbackProgram_iff]
    · rw [validateProgram_iff hsealed, validFallbackProgram_iff]
    · rw [validateProgram_iff hsealed, install_iff, hsame]
      rcases h with hlt | hno
      · exact ⟨And.right, fun hok => ⟨hlt, hok⟩⟩
      · exact ⟨And.right, fun hok => absurd hok hno⟩

/-- The registers after reset. -/
def Installer.reset : Installer where
  payload := fun _ => 0
  payloadCount := 0
  installed := true
  fault := false
  programLength := 10
  programVersion := 1
  program := fun index => [0x10000000, 0x12400000, 0x20080000, 0x12800000, 0x20080000, 0x12c00000, 0x20080000,
    0x13000000, 0x20080000, 0x30000000].getD index 0
  digest := fun index => [0x8d87ba83, 0x52b9dd2d, 0x66938ad0, 0xd640d6e3, 0x3746bc31, 0x1c78b040, 0x47bf4922,
    0xbd85e7e6].getD index 0

/-- A sealed payload that loads the centre and stores it. -/
def copyPayload : Payload where
  words := [0x52504731, 1, 2, 8, 0x863ef5d1, 0x03fb5420, 0x2d3e2849, 0x7fbfc449, 0x46290e3e, 0xbcc6822b,
    0x5dcb99a6, 0x74d235ca, 0x10000000, 0x30000000] ++ List.replicate 18 0
  length := by decide
  lt := by decide

theorem validatorsAgree_copyPayload : copyPayload.Sealed Sha256.digest ∧
    ValidatorsAgree Sha256.digest copyPayload ⟨1, 1, 3, 1⟩ Installer.reset := by
  have hsealed : copyPayload.Sealed Sha256.digest := by
    unfold Payload.Sealed
    decide +kernel
  exact ⟨hsealed, (validatorsAgree_iff _ _ _ _ hsealed).mpr (Or.inl (by decide))⟩

/-- The same program under the count 34, sealed over every word that the count reaches. -/
def widePayload : Payload where
  words := [0x52504731, 1, 34, 8, 0xc9383310, 0x5d72cbd0, 0x2e201d13, 0x0ea3a755, 0x36b57571, 0x03400f54,
    0xb2878969, 0x55d60bcb, 0x10000000, 0x30000000] ++ List.replicate 18 0
  length := by decide
  lt := by decide

theorem not_validatorsAgree_widePayload : widePayload.Sealed Sha256.digest ∧
    validFallbackProgram widePayload = false ∧ (Installer.reset.install widePayload).installed = true ∧
    (Installer.reset.install widePayload).fault = false ∧
    ¬ ValidatorsAgree Sha256.digest widePayload ⟨1, 1, 3, 1⟩ Installer.reset := by
  have hsealed : widePayload.Sealed Sha256.digest := by
    unfold Payload.Sealed
    decide +kernel
  have hruntime : validFallbackProgram widePayload = false := by decide +kernel
  have hinstalled : (Installer.reset.install widePayload).installed = true := by decide +kernel
  have hfault : (Installer.reset.install widePayload).fault = false := by decide +kernel
  refine ⟨hsealed, hruntime, hinstalled, hfault, fun h => ?_⟩
  have := (h.reader.trans h.installer).mpr ⟨hinstalled, hfault⟩
  rw [hruntime] at this
  exact Bool.false_ne_true this

end Raveil.Graph
