import Raveil.Graph.Installer
import Raveil.Device.Kernel
import Raveil.Device.Core

/-! The wires of the executor as numbers: fields of the instruction, addresses, and arithmetic. -/
namespace Raveil.Device
open Raveil.Lib Raveil.Graph

/-- The wiring holds a program that follows the rules. -/
structure Holds (wiring : Wiring) (version : ℕ) (l : List ℕ) : Prop where
  shape : wiring.shape = baseline ∨ wiring.shape = compact
  version_eq : wiring.programVersion.toNat = version
  version_pos : 1 ≤ version
  version_le : version ≤ 6
  length_eq : wiring.programLength.toNat = l.length
  two_le : 2 ≤ l.length
  le_capacity : l.length ≤ 16
  word : ∀ i, i < l.length → (wiring.program (Fin.ofNat 16 i)).toNat = l.getD i 0
  program : ProgramOk version ∅ l

section Instructions

variable {wiring : Wiring} {version : ℕ} {l : List ℕ} {pc : ℕ}

theorem programOk_getD {d : Finset ℕ} (h : ProgramOk version d l) (hpc : pc < l.length) :
    (pc + 1 < l.length → ∃ d, Produces version d (l.getD pc 0)) ∧
      (pc + 1 = l.length → opcodeOf (l.getD pc 0) = 3) := by
  obtain ⟨body, last, rfl, hlast, hbody⟩ := ProgramOk.split h
  rw [List.length_append, List.length_singleton] at hpc ⊢
  constructor
  · intro hlt
    have hin : pc < body.length := by omega
    rw [List.getD_append _ _ _ _ hin, List.getD_eq_getElem _ _ hin]
    exact hbody _ (List.getElem_mem hin)
  · intro heq
    obtain rfl : pc = body.length := by omega
    rw [List.getD_append_right _ _ _ _ (Nat.le_refl _), Nat.sub_self]
    exact hlast

theorem Holds.produces (h : Holds wiring version l) (hpc : pc + 1 < l.length) :
    ∃ d, Produces version d (l.getD pc 0) := (programOk_getD h.program (by omega)).1 hpc

theorem Holds.stores (h : Holds wiring version l) (hpc : pc + 1 = l.length) :
    opcodeOf (l.getD pc 0) = 3 := (programOk_getD h.program (by omega)).2 hpc

/-- A program starts with a load. -/
theorem Holds.first (h : Holds wiring version l) : opcodeOf (l.getD 0 0) = 1 := by
  have hp := h.program
  have htwo := h.two_le
  cases l with
  | nil => simp at htwo
  | cons w l =>
    cases l with
    | nil => simp at htwo
    | cons next rest =>
      cases hp.1 with
      | legacyLoad ho => exact ho
      | relativeLoad ho => exact ho
      | binary _ _ hl => simp at hl
      | immediate _ hl => simp at hl

end Instructions

section Signed

/-- Five bits that stand for a signed unit, extended to the width of an address sum. -/
def SignExtended (b : BitVec 5) (x : ℤ) : Prop :=
  ((b.signExtend 16).toNat = 0 ∧ x = 0) ∨ ((b.signExtend 16).toNat = 1 ∧ x = 1) ∨
    ((b.signExtend 16).toNat = 65535 ∧ x = -1)

instance (b : BitVec 5) (x : ℤ) : Decidable (SignExtended b x) := inferInstanceAs (Decidable (_ ∨ _ ∨ _))

theorem slice_five (v : BitVec 32) (lo : ℕ) : (v.extractLsb (lo + 4) lo).toNat = v.toNat >>> lo &&& 31 := by
  rw [BitVec.extractLsb_toNat, show lo + 4 - lo + 1 = 5 by omega]
  exact (Nat.and_two_pow_sub_one_eq_mod _ 5).symm

theorem signExtended_of_unit {b : BitVec 5} {x : ℕ} (hb : b.toNat = x &&& 31) (h : SignedUnit (x &&& 31)) :
    SignExtended b (signedFive x) := by
  have hall : ∀ b : BitVec 5, SignedUnit b.toNat →
      SignExtended b (if b.toNat &&& 16 ≠ 0 then (b.toNat : ℤ) - 32 else b.toNat) := by decide
  unfold signedFive
  rw [← hb] at h ⊢
  exact hall b h

end Signed

namespace Core

variable {wiring : Wiring} {version : ℕ} {l : List ℕ} {s : Core} {w cell : ℕ}

section Fields

theorem instruction_eq (h : Holds wiring version l) (hpc : s.programCounter.toNat < l.length) :
    (s.instruction wiring).toNat = l.getD s.programCounter.toNat 0 := by
  have hfin : s.programCounter.toFin = Fin.ofNat 16 s.programCounter.toNat := by
    apply Fin.ext
    exact (Nat.mod_eq_of_lt s.programCounter.isLt).symm
  rw [instruction, hfin]
  exact h.word _ hpc

variable (hw : (s.instruction wiring).toNat = w)

include hw

theorem opcode_eq (c : BitVec 4) : s.opcode wiring = c ↔ opcodeOf w = c.toNat := by
  rw [opcode, opcode_slice, hw]

theorem destination_eq : (s.destination wiring).val = destinationOf w := by
  rw [← hw, ← destination_slice]
  rfl

theorem sourceA_eq : (s.sourceA wiring).val = leftOf w := by
  rw [← hw, ← left_slice]
  rfl

theorem sourceB_eq : (s.sourceB wiring).val = rightOf w := by
  rw [← hw, ← right_slice]
  rfl

theorem immediate_eq : (s.immediate wiring).toNat = w &&& MAX_IMMEDIATE := by
  have hlow : ((s.instruction wiring).extractLsb 21 0).toNat = w % 2 ^ 22 := by
    rw [BitVec.extractLsb_toNat, hw]
    rfl
  rw [immediate, BitVec.toNat_setWidth, hlow, Nat.mod_eq_of_lt (by omega)]
  exact (Nat.and_two_pow_sub_one_eq_mod w 22).symm

end Fields

section Addresses

variable (hs : wiring.shape = baseline ∨ wiring.shape = compact) (ho : s.outputIndex.toNat = cell)
  (hc : cell < wiring.shape.activeOutputs.toNat)

include hs ho hc

theorem logical_eq : (s.logicalRow wiring).toNat = cell / wiring.shape.columns.toNat ∧
    (s.logicalColumn wiring).toNat = cell % wiring.shape.columns.toNat := by
  rcases Shape.cases hs with ⟨-, h2, -, -, h5⟩ | ⟨-, h2, -, -, h5⟩
  all_goals
    rw [h5] at hc
    simp only [logicalRow, logicalColumn, BitVec.toNat_setWidth, BitVec.toNat_udiv, BitVec.toNat_umod, ho, h2,
      Nat.reducePow, Nat.reduceMod]
    omega

theorem center_eq : (s.center wiring).toNat =
    (cell / wiring.shape.columns.toNat + 1) * wiring.shape.inputStride.toNat +
      cell % wiring.shape.columns.toNat + 1 := by
  obtain ⟨hrow, hcolumn⟩ := logical_eq hs ho hc
  rcases Shape.cases hs with ⟨-, h2, h3, -, h5⟩ | ⟨-, h2, h3, -, h5⟩
  all_goals
    rw [h5] at hc
    simp only [center, BitVec.toNat_setWidth, BitVec.toNat_add, BitVec.toNat_mul, hrow, hcolumn, h2, h3,
      BitVec.reduceToNat, Nat.reducePow, Nat.reduceMod]
    simp (disch := omega) only [Nat.mod_eq_of_lt]

theorem outputAddress_eq : (s.outputAddress wiring).toNat = 324 + cell := by
  obtain ⟨hrow, hcolumn⟩ := logical_eq hs ho hc
  rcases Shape.cases hs with ⟨-, h2, -, h4, h5⟩ | ⟨-, h2, -, h4, h5⟩
  all_goals
    rw [h5] at hc
    simp only [outputAddress, BitVec.toNat_setWidth, BitVec.toNat_add, BitVec.toNat_mul, hrow, hcolumn, h2, h4,
      BitVec.reduceToNat, Nat.reducePow, Nat.reduceMod]
    simp (disch := omega) only [Nat.mod_eq_of_lt]
    omega

theorem legacyInputAddress_eq (hw : (s.instruction wiring).toNat = w) (hsel : leftOf w ≤ 4) (hv : version < 3) :
    (s.legacyInputAddress wiring).toNat = loadIndex version wiring.shape cell w := by
  have hcenter := center_eq hs ho hc
  have hselector : ((s.instruction wiring).extractLsb 24 22).toNat = leftOf w := by rw [left_slice, hw]
  have hno : ¬ version ≥ 3 := by omega
  unfold legacyInputAddress loadIndex loadAddress
  rw [if_neg hno]
  simp only [centerOf, Shape.affine]
  generalize (s.instruction wiring).extractLsb 24 22 = selector at hselector
  generalize leftOf w = number at hsel hselector
  have hstride := Shape.cases hs
  obtain rfl | rfl | rfl | rfl | rfl : number = 0 ∨ number = 1 ∨ number = 2 ∨ number = 3 ∨ number = 4 := by omega
  all_goals
    simp only [BitVec.toNat_eq (x := selector), hselector, BitVec.reduceToNat, Nat.reduceEqDiff, if_true, if_false,
      Nat.succ_ne_self, OfNat.zero_ne_ofNat, zero_ne_one, Option.getD_some]
    rcases hstride with ⟨-, h2, h3, -, h5⟩ | ⟨-, h2, h3, -, h5⟩
    all_goals
      rw [h5] at hc
      rw [h2, h3] at hcenter
      simp only [BitVec.toNat_sub, BitVec.toNat_add, BitVec.toNat_setWidth, BitVec.reduceToNat, hcenter, h2, h3]
      omega

theorem relativeInputAddress_eq (hw : (s.instruction wiring).toNat = w) (hv : 3 ≤ version)
    (hr : SignedUnit (w >>> 20 &&& 31)) (hcol : SignedUnit (w >>> 15 &&& 31)) :
    ((s.relativeInputAddress wiring).extractLsb 9 0).toNat = loadIndex version wiring.shape cell w := by
  have hcenter := center_eq hs ho hc
  have hrow : SignExtended ((s.instruction wiring).extractLsb 24 20) (signedFive (w >>> 20)) := by
    rw [← hw] at hr ⊢
    exact signExtended_of_unit (slice_five _ 20) hr
  have hcolumn : SignExtended ((s.instruction wiring).extractLsb 19 15) (signedFive (w >>> 15)) := by
    rw [← hw] at hcol ⊢
    exact signExtended_of_unit (slice_five _ 15) hcol
  have hyes : version ≥ 3 := hv
  unfold relativeInputAddress loadIndex loadAddress
  rw [if_pos hyes, Option.getD_some]
  simp only [centerOf, Shape.affine, relativeLoad]
  generalize (s.instruction wiring).extractLsb 24 20 = row at hrow
  generalize (s.instruction wiring).extractLsb 19 15 = column at hcolumn
  rw [BitVec.extractLsb_toNat]
  rcases Shape.cases hs with ⟨-, h2, h3, -, h5⟩ | ⟨-, h2, h3, -, h5⟩
  all_goals
    rw [h5] at hc
    rw [h2, h3] at hcenter
    rcases hrow with ⟨hx, hy⟩ | ⟨hx, hy⟩ | ⟨hx, hy⟩ <;> rcases hcolumn with ⟨hx', hy'⟩ | ⟨hx', hy'⟩ | ⟨hx', hy'⟩
    all_goals
      simp only [BitVec.toNat_add, BitVec.toNat_mul, BitVec.toNat_setWidth, hx, hx', hy, hy', hcenter, h2, h3,
        Nat.reducePow, Nat.reduceMod, Nat.reduceMul]
      omega

end Addresses

/-- A load of the program reads the input word that the host reads. -/
theorem inputAddress_eq {d : Finset ℕ} (h : Holds wiring version l) (ho : s.outputIndex.toNat = cell)
    (hc : cell < wiring.shape.activeOutputs.toNat) (hw : (s.instruction wiring).toNat = w)
    (hp : Produces version d w) (hop : opcodeOf w = 1) :
    (s.inputAddress wiring).toNat = loadIndex version wiring.shape cell w := by
  have hversion : wiring.programVersion ≥ 3 ↔ 3 ≤ version := by
    rw [← h.version_eq]
    exact BitVec.le_def
  unfold inputAddress
  rcases (produces_load hop).mp hp with ⟨hv, hsel, -⟩ | ⟨hv, hr, hcol, -⟩
  · rw [if_neg (by rw [hversion]; omega)]
    exact legacyInputAddress_eq h.shape ho hc hw hsel hv
  · rw [if_pos (hversion.mpr hv)]
    exact relativeInputAddress_eq h.shape ho hc hw hv hr hcol

section Values

variable {values : ℕ → ℕ}

/-- The registers hold some numbers. -/
def Values (s : Core) (values : ℕ → ℕ) : Prop := ∀ r : Fin 8, (s.values r).toNat = values r

theorem Values.update (h : s.Values values) (hw : (s.instruction wiring).toNat = w) {v : BitVec 32} {n : ℕ}
    (hv : v.toNat = n) : (s.produce wiring v).Values (Function.update values (destinationOf w) n) := by
  intro r
  have hd := destination_eq hw
  change (Function.update s.values (s.destination wiring) v r).toNat = _
  by_cases hr : r = s.destination wiring
  · rw [hr, Function.update_self, hd, Function.update_self]
    exact hv
  · have hne : r.val ≠ destinationOf w := by
      rw [← hd]
      exact fun heq => hr (Fin.ext heq)
    rw [Function.update_of_ne hr, Function.update_of_ne hne]
    exact h r

theorem Values.a (h : s.Values values) (hw : (s.instruction wiring).toNat = w) :
    (s.values (s.sourceA wiring)).toNat = values (leftOf w) := by
  rw [h, sourceA_eq hw]

theorem Values.b (h : s.Values values) (hw : (s.instruction wiring).toNat = w) :
    (s.values (s.sourceB wiring)).toNat = values (rightOf w) := by
  rw [h, sourceB_eq hw]

/-- An instruction that reads no memory is done when it is fetched. -/
theorem stepFetch_produces {d : Finset ℕ} (words : List ℕ) (cell : ℕ) (h : Holds wiring version l) (hv : s.Values values)
    (hw : (s.instruction wiring).toNat = w) (hp : Produces version d w) (hop : opcodeOf w ≠ 1) :
    ∃ v, s.stepFetch wiring = s.produce wiring v ∧
      v.toNat = result version wiring.shape words cell values w := by
  have ha := hv.a hw
  have hb := hv.b hw
  have himm := immediate_eq hw
  have hversion : ∀ c : BitVec 3, wiring.programVersion = c ↔ version = c.toNat := by
    intro c
    rw [← h.version_eq, BitVec.toNat_eq]
  have hle := h.version_le
  unfold stepFetch result
  simp only [opcode_eq hw, hversion, BitVec.reduceToNat, if_neg hop]
  rcases (by
    cases hp with
    | legacyLoad ho => exact absurd ho hop
    | relativeLoad ho => exact absurd ho hop
    | binary ho => exact Or.inl ho
    | immediate ho => exact Or.inr ho :
      (opcodeOf w = 2 ∨ opcodeOf w = 4 ∧ 2 ≤ version ∨ opcodeOf w = 5 ∧ 4 ≤ version) ∨
        opcodeOf w = 6 ∧ 5 ≤ version ∨ opcodeOf w = 7 ∧ 6 ≤ version) with
    (ho | ⟨ho, hv4⟩ | ⟨ho, hv4⟩) | ⟨ho, hv5⟩ | ⟨ho, hv5⟩
  · rw [if_pos ho, if_pos ho]
    exact ⟨_, rfl, by rw [BitVec.toNat_add, ha, hb]⟩
  · simp only [ho, Nat.reduceEqDiff, if_false, if_true]
    refine ⟨_, rfl, ?_⟩
    simp only [apply_ite BitVec.toNat, ge_iff_le, BitVec.le_def, ha, hb]
    split <;> omega
  · have hversions : version = 4 ∨ version = 5 ∨ version = 6 := by omega
    simp only [ho, Nat.reduceEqDiff, if_false, if_true, hversions, true_and]
    exact ⟨_, rfl, by rw [BitVec.toNat_mul, ha, hb]⟩
  · have hversions : version = 5 ∨ version = 6 := by omega
    simp only [ho, Nat.reduceEqDiff, if_false, if_true, hversions, true_and, false_and]
    exact ⟨_, rfl, by rw [BitVec.toNat_add, ha, himm]⟩
  · have hversions : version = 6 := by omega
    simp only [ho, Nat.reduceEqDiff, if_false, if_true, hversions, true_and, false_and]
    refine ⟨_, rfl, ?_⟩
    simp only [apply_ite BitVec.toNat, ge_iff_le, BitVec.le_def, ha, himm]
    rfl

end Values

section Ends

variable (h : Holds wiring version l)

include h

theorem finalInstruction_eq (hpc : s.programCounter.toNat < l.length) :
    s.finalInstruction wiring = true ↔ s.programCounter.toNat + 1 = l.length := by
  have hlen := h.length_eq
  have htwo := h.two_le
  have hle := h.le_capacity
  rw [finalInstruction, beq_iff_eq, BitVec.toNat_eq, BitVec.toNat_setWidth, BitVec.toNat_sub, hlen]
  simp only [BitVec.reduceToNat]
  omega

theorem lastOutput_eq (ho : s.outputIndex.toNat = cell) (hc : cell < wiring.shape.activeOutputs.toNat) :
    s.lastOutput wiring = true ↔ cell + 1 = wiring.shape.activeOutputs.toNat := by
  rw [lastOutput, beq_iff_eq, BitVec.toNat_eq, BitVec.toNat_setWidth, BitVec.toNat_sub, ho]
  simp only [BitVec.reduceToNat]
  rcases Shape.cases h.shape with ⟨-, -, -, -, h5⟩ | ⟨-, -, -, -, h5⟩
  all_goals
    rw [h5] at hc ⊢
    omega

end Ends

end Core

end Raveil.Device
