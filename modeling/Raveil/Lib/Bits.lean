import Mathlib.Data.Finset.Card
import Mathlib.Data.Finset.Range
import Mathlib.Data.Nat.Bitwise

/-! Bit fields of naturals, naturals read as sets of small indices, and addresses split by masks and shifts. -/
namespace Raveil.Lib

theorem and_seven (x : ℕ) : x &&& 7 = x % 8 := Nat.and_two_pow_sub_one_eq_mod x 3

/-- An instruction word with its fields side by side. -/
theorem encoded_eq_sum {op d a low : ℕ} (hd : d < 8) (ha : a < 8) (hl : low < 2 ^ 22) :
    op <<< 28 ||| d <<< 25 ||| a <<< 22 ||| low =
      op * 2 ^ 28 + d * 2 ^ 25 + a * 2 ^ 22 + low := by
  have h1 : op <<< 28 ||| d <<< 25 = (op * 8 + d) <<< 25 := by
    rw [← Nat.shiftLeft_add_eq_or_of_lt (by rw [Nat.shiftLeft_eq]; omega)]
    simp only [Nat.shiftLeft_eq]
    omega
  have h2 : (op * 8 + d) <<< 25 ||| a <<< 22 = ((op * 8 + d) * 8 + a) <<< 22 := by
    rw [← Nat.shiftLeft_add_eq_or_of_lt (by rw [Nat.shiftLeft_eq]; omega)]
    simp only [Nat.shiftLeft_eq]
    omega
  rw [h1, h2, ← Nat.shiftLeft_add_eq_or_of_lt hl]
  simp only [Nat.shiftLeft_eq]
  omega

theorem and_seven_lt (x : ℕ) : x &&& 7 < 8 := by
  rw [and_seven]
  omega

/-- The C test `mask & (1u << n)` asks for membership. -/
theorem mask_test (mask n : ℕ) : mask &&& (1 <<< n) ≠ 0 ↔ mask.testBit n = true := by
  rw [Nat.one_shiftLeft, Nat.and_two_pow]
  cases h : mask.testBit n <;> simp

/-- The C update `mask |= 1u << d` inserts one index. -/
theorem mask_insert (mask d n : ℕ) :
    (mask ||| (1 <<< d)).testBit n = (mask.testBit n || decide (n = d)) := by
  rw [Nat.one_shiftLeft, Nat.testBit_or, Nat.testBit_two_pow]
  simp [eq_comm]

/-- A mask built bit by bit holds the bits of the list. -/
theorem testBit_maskOf (l : List ℕ) (mask n : ℕ) :
    (l.foldl (fun mask d => mask ||| 1 <<< d) mask).testBit n = (mask.testBit n || decide (n ∈ l)) := by
  induction l generalizing mask with
  | nil => simp
  | cons a l ih =>
    rw [List.foldl_cons, ih, mask_insert]
    simp [Bool.or_assoc]

/-- Counting the bits of such a mask counts the entries of the list, each once. -/
theorem countP_maskOf {l : List ℕ} {n : ℕ} (h : ∀ d ∈ l, d < n) :
    (List.range n).countP (fun bit => l.foldl (fun mask d => mask ||| 1 <<< d) 0 &&& 1 <<< bit ≠ 0) =
      l.toFinset.card := by
  have hp : (fun bit => decide (l.foldl (fun mask d => mask ||| 1 <<< d) 0 &&& 1 <<< bit ≠ 0)) =
      fun bit => decide (bit ∈ l) := by
    funext bit
    rw [decide_eq_decide, mask_test, testBit_maskOf]
    simp
  rw [hp, List.countP_eq_length_filter, ← List.toFinset_card_of_nodup (List.nodup_range.filter _)]
  congr 1
  ext d
  simp only [List.mem_toFinset, List.mem_filter, List.mem_range, decide_eq_true_iff, and_iff_right_iff_imp]
  exact h d

end Raveil.Lib

namespace Raveil.Lib.AddressBits

variable {w k : ℕ} {x m : BitVec w}

theorem getLsbD_mask (hm : m.toNat = 2 ^ k - 1) (i : ℕ) : m.getLsbD i = decide (i < k) := by
  rw [BitVec.getLsbD, hm, Nat.testBit_two_pow_sub_one]

/-- `x & (size - 1)` is the offset of `x` in its block. -/
theorem toNat_and_mask (hm : m.toNat = 2 ^ k - 1) : (x &&& m).toNat = x.toNat % 2 ^ k := by
  rw [BitVec.toNat_and, hm, Nat.and_two_pow_sub_one_eq_mod]

theorem and_not_mask (hm : m.toNat = 2 ^ k - 1) : x &&& ~~~m = (x >>> k) <<< k := by
  apply BitVec.eq_of_getLsbD_eq
  intro i hi
  rw [BitVec.getLsbD_and, BitVec.getLsbD_not, getLsbD_mask hm, BitVec.getLsbD_shiftLeft,
    BitVec.getLsbD_ushiftRight]
  by_cases hik : i < k
  · simp [hik]
  · simp [hik, hi, show k + (i - k) = i by omega]

theorem toNat_shift_back : ((x >>> k) <<< k).toNat = x.toNat / 2 ^ k * 2 ^ k := by
  rw [BitVec.toNat_shiftLeft, BitVec.toNat_ushiftRight, Nat.shiftRight_eq_div_pow, Nat.shiftLeft_eq]
  apply Nat.mod_eq_of_lt
  exact lt_of_le_of_lt (Nat.div_mul_le_self _ _) x.isLt

/-- `x & ~(size - 1)` is the start of the block of `x`. -/
theorem toNat_and_not_mask (hm : m.toNat = 2 ^ k - 1) :
    (x &&& ~~~m).toNat = x.toNat / 2 ^ k * 2 ^ k := by
  rw [and_not_mask hm, toNat_shift_back]

/-- The start of a block and an offset in it, put together. -/
theorem toNat_or_offset {base : BitVec w} (hm : m.toNat = 2 ^ k - 1) (hb : base.toNat % 2 ^ k = 0) :
    (base ||| (x &&& m)).toNat = base.toNat + x.toNat % 2 ^ k := by
  have hlt : x.toNat % 2 ^ k < 2 ^ k := Nat.mod_lt _ (Nat.two_pow_pos k)
  have hq : base.toNat = (base.toNat / 2 ^ k) <<< k := by
    rw [Nat.shiftLeft_eq, Nat.div_mul_cancel (Nat.dvd_of_mod_eq_zero hb)]
  rw [BitVec.toNat_or, toNat_and_mask hm, hq, ← Nat.shiftLeft_add_eq_or_of_lt hlt, Nat.shiftLeft_eq]

theorem toNat_one_shiftLeft_sub_one {n : ℕ} (hk : k < n) : ((1 : BitVec n) <<< k - 1).toNat = 2 ^ k - 1 := by
  have hn : 1 < 2 ^ n := Nat.one_lt_two_pow (by omega)
  have hone : (1 : BitVec n).toNat = 1 := by
    rw [BitVec.ofNat_eq_ofNat, BitVec.toNat_ofNat, Nat.mod_eq_of_lt hn]
  have hpow : ((1 : BitVec n) <<< k).toNat = 2 ^ k := by
    rw [BitVec.toNat_shiftLeft, hone, Nat.one_shiftLeft, Nat.mod_eq_of_lt (Nat.pow_lt_pow_right (by omega) hk)]
  rw [BitVec.toNat_sub_of_le, hpow, hone]
  rw [BitVec.le_def, hpow, hone]
  exact Nat.two_pow_pos k

/-! A number and a set of flags packed into one word, the flags in the low `k` bits. -/

theorem packed_shift {flags : BitVec w} (hx : x.toNat < 2 ^ (w - k)) (hf : flags.toNat < 2 ^ k) :
    (x <<< k ||| flags) >>> k = x := by
  apply BitVec.eq_of_getLsbD_eq
  intro i hi
  rw [BitVec.getLsbD_ushiftRight, BitVec.getLsbD_or, BitVec.getLsbD_shiftLeft]
  have hflag : flags.getLsbD (k + i) = false := by
    rw [BitVec.getLsbD]
    apply Nat.testBit_lt_two_pow
    exact lt_of_lt_of_le hf (Nat.pow_le_pow_right (by omega) (Nat.le_add_right k i))
  rw [hflag, Bool.or_false]
  by_cases hki : k + i < w
  · simp [hki, show k + i - k = i by omega]
  · have hx0 : x.getLsbD i = false := by
      rw [BitVec.getLsbD]
      apply Nat.testBit_lt_two_pow
      exact lt_of_lt_of_le hx (Nat.pow_le_pow_right (by omega) (by omega))
    simp [hki, hx0]

theorem packed_and {flags bits : BitVec w} (hb : bits.toNat < 2 ^ k) :
    (x <<< k ||| flags) &&& bits = flags &&& bits := by
  apply BitVec.eq_of_getLsbD_eq
  intro i hi
  rw [BitVec.getLsbD_and, BitVec.getLsbD_and, BitVec.getLsbD_or, BitVec.getLsbD_shiftLeft]
  by_cases hik : i < k
  · simp [hik]
  · have hbit : bits.getLsbD i = false := by
      rw [BitVec.getLsbD]
      apply Nat.testBit_lt_two_pow
      exact lt_of_lt_of_le hb (Nat.pow_le_pow_right (by omega) (by omega))
    rw [hbit, Bool.and_false, Bool.and_false]

end Raveil.Lib.AddressBits
