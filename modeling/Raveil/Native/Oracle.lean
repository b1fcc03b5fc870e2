import Raveil.Native.Main
import Mathlib.Data.Int.Bitwise
import Mathlib.Data.Nat.Bitwise

/-! The generator, the checksum and the product of the Python oracle. -/
namespace Raveil.Native

open Lib

/-- A `GraphProgram` after its checks; the nodes follow from the family. -/
structure GraphProgram where
  family : Family
  m : ℕ
  n : ℕ
  k : ℕ
  inFamily : family ≠ .mlp2
  dimensions : min (min m n) k > 0 ∧ max (max m n) k ≤ 512

namespace Oracle

def fillFrom (state : ℕ) : ℕ → List ℤ
  | 0 => []
  | count + 1 =>
    let state := (state * 1664525 + 1013904223) &&& 0xFFFFFFFF
    ((((state >>> 16) % 7 : ℕ) : ℤ) - 3) :: fillFrom state count

/-- `_fill`. -/
def fill (count salt : ℕ) : List ℤ := fillFrom (0x9E3779B9 ^^^ salt) count

def hashWord (value : ℕ) (item : ℤ) : ℕ :=
  let word := (Int.land item 0xFFFFFFFFFFFFFFFF).toNat
  shifts.foldl (fun value shift =>
    ((value ^^^ ((word >>> shift) &&& 0xFF)) * 1099511628211) &&& 0xFFFFFFFFFFFFFFFF) value

/-- `_checksum`. -/
def checksum (values : List ℤ) : String := hex016 (values.foldl hashWord 1469598103934665603)

/-- The `output` of `expected_checksum`. -/
def output (program : GraphProgram) : List ℤ :=
  let a := fill (program.m * program.k) 1
  let b := fill (program.k * program.n) 2
  (List.range program.m).flatMap fun i =>
    (List.range program.n).map fun j =>
      let value := ((List.range program.k).map fun p =>
        a.getD (i * program.k + p) 0 * b.getD (p * program.n + j) 0).sum
      if program.family = .gemmBiasRelu then max 0 (value + ((j % 11 : ℕ) : ℤ) - 5) else value

def expectedChecksum (program : GraphProgram) : String := checksum (output program)

theorem and_mask (v w : ℕ) : v &&& (2 ^ w - 1) = v % 2 ^ w := Nat.and_two_pow_sub_one_eq_mod v w

/-- Python's mask of a negative number takes the word of its two's complement. -/
theorem land_mask (item : ℤ) (w : ℕ) : Int.land item ((2 ^ w - 1 : ℕ) : ℤ) = item % 2 ^ w := by
  rcases item with v | v
  · have hmask : Int.land (v : ℤ) ((2 ^ w - 1 : ℕ) : ℤ) = ((v &&& (2 ^ w - 1) : ℕ) : ℤ) := rfl
    rw [Int.ofNat_eq_natCast, hmask, and_mask]
    norm_cast
  · have hpos : 0 < 2 ^ w := Nat.two_pow_pos w
    have hlt : v % 2 ^ w < 2 ^ w := Nat.mod_lt v hpos
    have hmask : Int.land (Int.negSucc v) ((2 ^ w - 1 : ℕ) : ℤ) = (Nat.ldiff (2 ^ w - 1) v : ℤ) := rfl
    have hword : Nat.ldiff (2 ^ w - 1) v = 2 ^ w - (v % 2 ^ w + 1) := by
      apply Nat.eq_of_testBit_eq
      intro i
      rw [Nat.testBit_ldiff, Nat.testBit_two_pow_sub_one, Nat.testBit_two_pow_sub_succ hlt, Nat.testBit_mod_two_pow]
      by_cases hi : i < w <;> simp [hi]
    rw [hmask, hword, Int.negSucc_emod v (by positivity)]
    push_cast [Nat.succ_le_iff.mpr hlt]
    omega

theorem toNat_step (state : UInt32) :
    (state * 1664525 + 1013904223).toNat = (state.toNat * 1664525 + 1013904223) &&& 0xFFFFFFFF := by
  have hmask : (0xFFFFFFFF : ℕ) = 2 ^ 32 - 1 := by norm_num
  rw [hmask, and_mask, UInt32.toNat_add, UInt32.toNat_mul, Nat.mod_add_mod]
  simp only [UInt32.reduceToNat]

theorem fillFrom_eq (state : UInt32) (count : ℕ) : Native.fillFrom state count = fillFrom state.toNat count := by
  induction count generalizing state with
  | zero => rfl
  | succ count ih =>
    simp only [Native.fillFrom, fillFrom, ih, toNat_step, UInt32.toNat_mod, UInt32.toNat_shiftRight,
      UInt32.reduceToNat, Nat.reduceMod]

theorem fill_eq (count : ℕ) (salt : UInt32) : fillI32 count salt = fill count salt.toNat := by
  rw [fillI32, fill, fillFrom_eq, UInt32.toNat_xor]
  simp only [UInt32.reduceToNat]

theorem toNat_word (value : ℤ) : (UInt64.ofInt value).toNat = (Int.land value 0xFFFFFFFFFFFFFFFF).toNat := by
  have hmask : (0xFFFFFFFFFFFFFFFF : ℤ) = ((2 ^ 64 - 1 : ℕ) : ℤ) := by norm_num
  rw [hmask, land_mask, UInt64.ofInt, UInt64.toNat_ofNat']
  exact Nat.mod_eq_of_lt (by omega)

/-- The bytes of a word are taken in at the same shifts. -/
theorem toNat_foldl (word : UInt64) (l : List ℕ) (hl : ∀ shift ∈ l, shift < 64) (hash : UInt64) :
    (l.foldl (fun hash shift => (hash ^^^ ((word >>> UInt64.ofNat shift) &&& 0xff)) * 1099511628211) hash).toNat =
      l.foldl (fun value shift => ((value ^^^ ((word.toNat >>> shift) &&& 0xFF)) * 1099511628211)
        &&& 0xFFFFFFFFFFFFFFFF) hash.toNat := by
  induction l generalizing hash with
  | nil => rfl
  | cons shift l ih =>
    have hshift : shift < 64 := hl shift List.mem_cons_self
    have hmask : (0xFFFFFFFFFFFFFFFF : ℕ) = 2 ^ 64 - 1 := by norm_num
    have hstep : ((hash ^^^ ((word >>> UInt64.ofNat shift) &&& 0xff)) * 1099511628211).toNat =
        ((hash.toNat ^^^ ((word.toNat >>> shift) &&& 0xFF)) * 1099511628211) &&& 0xFFFFFFFFFFFFFFFF := by
      rw [hmask, and_mask, UInt64.toNat_mul, UInt64.toNat_xor, UInt64.toNat_and, UInt64.toNat_shiftRight,
        UInt64.toNat_ofNat', Nat.mod_eq_of_lt (show shift < 2 ^ 64 by omega), Nat.mod_eq_of_lt hshift]
      simp only [UInt64.reduceToNat]
    rw [List.foldl_cons, ih fun s hs => hl s (List.mem_cons_of_mem _ hs), hstep, List.foldl_cons]

theorem toNat_hashWord (hash : UInt64) (value : ℤ) :
    (Lib.hashWord hash value).toNat = hashWord hash.toNat value := by
  unfold Lib.hashWord hashWord
  rw [← toNat_word]
  exact toNat_foldl _ shifts (by decide) hash

theorem toNat_foldl_hashWord (values : List ℤ) (hash : UInt64) :
    (values.foldl Lib.hashWord hash).toNat = values.foldl hashWord hash.toNat := by
  induction values generalizing hash with
  | nil => rfl
  | cons value values ih => rw [List.foldl_cons, ih, toNat_hashWord, List.foldl_cons]

/-- The text the benchmark prints for words is the text of the oracle. -/
theorem checksum_eq (values : List ℤ) (count : ℕ) (hcount : count ≤ values.length) :
    ∃ hash, Native.checksum values count = some hash ∧ hex016 hash.toNat = checksum (values.take count) := by
  refine ⟨_, if_pos hcount, ?_⟩
  rw [toNat_foldl_hashWord, checksum]
  simp only [UInt64.reduceToNat]

section Output

theorem flatMap_range (m n : ℕ) (f : ℕ → ℕ → ℤ) :
    ((List.range m).flatMap fun i => (List.range n).map (f i)) =
      (List.range (m * n)).map fun x => f (x / n) (x % n) := by
  induction m with
  | zero => simp
  | succ m ih =>
    rw [List.range_succ, List.flatMap_append, ih, Nat.succ_mul, List.range_add, List.map_append, List.map_map]
    congr 1
    rw [List.flatMap_singleton]
    apply List.map_congr_left
    intro j hj
    have hlt : j < n := List.mem_range.mp hj
    have hdiv : (m * n + j) / n = m := by
      rw [Nat.mul_comm, Nat.mul_add_div (by omega), Nat.div_eq_of_lt hlt, Nat.add_zero]
    have hmod : (m * n + j) % n = j := by
      rw [Nat.mul_comm, Nat.mul_add_mod, Nat.mod_eq_of_lt hlt]
    rw [Function.comp_apply, hdiv, hmod]

theorem sum_map_range (f : ℕ → ℤ) (k : ℕ) : ((List.range k).map f).sum = ∑ p ∈ Finset.range k, f p := by
  induction k with
  | zero => rfl
  | succ k ih => rw [List.range_succ, List.map_append, List.sum_append, ih, Finset.sum_range_succ]; simp

theorem getD_fillBias {n j : ℕ} (hj : j < n) : (fillBias n).getD j 0 = ((j % 11 : ℕ) : ℤ) - 5 := by
  rw [List.getD_eq_getElem?_getD, fillBias, List.getElem?_map, List.getElem?_range hj]
  rfl

theorem relu_eq_max (v : ℤ) : relu v = max 0 v := by
  unfold relu
  split_ifs <;> omega

/-- The words of the result are the output of the oracle. -/
theorem output_eq {o : Options} {program : GraphProgram} (hfamily : program.family = o.family) (hm : program.m = o.m)
    (hn : program.n = o.n) (hk : program.k = o.k) {b2 c : List ℤ}
    (h : Result o (fillI32 (o.m * o.k) 1) (fillI32 (o.k * o.n) 2) b2 (fillBias o.n) c) :
    c.take o.outCount = output program := by
  have hmlp : o.family ≠ .mlp2 := hfamily ▸ program.inFamily
  have hdot : ∀ i j, ((List.range o.k).map fun p =>
      (fill (o.m * o.k) 1).getD (i * o.k + p) 0 * (fill (o.k * o.n) 2).getD (p * o.n + j) 0).sum =
        dot (fillI32 (o.m * o.k) 1) (fillI32 (o.k * o.n) 2) o.n o.k i j o.k := by
    intro i j
    rw [sum_map_range, fill_eq, fill_eq]
    rfl
  unfold output
  dsimp only
  simp only [hfamily, hm, hn, hk, hdot]
  rw [flatMap_range, Options.outCount, if_neg hmlp]
  unfold Result at h
  rcases hcases : o.family with _ | _ | _ <;> rw [hcases] at h
  · refine Holds.take_eq h (fun x hx => ?_) (by simp)
    rw [List.getElem?_map, List.getElem?_range hx, Option.map_some, if_neg (by decide)]
  · refine Holds.take_eq h (fun x hx => ?_) (by simp)
    have hn : 0 < o.n := by
      apply Nat.pos_of_ne_zero
      intro hzero
      rw [hzero] at hx
      omega
    rw [List.getElem?_map, List.getElem?_range hx, Option.map_some, if_pos rfl, hidden, relu_eq_max,
      getD_fillBias (Nat.mod_lt x hn), add_sub_assoc]
  · exact absurd hcases hmlp

end Output

end Oracle

end Raveil.Native
