import Mathlib.Data.List.Basic
import Mathlib.Data.Nat.Bitwise
import Mathlib.Data.UInt

/-! Byte strings read and written as little-endian 32-bit words. -/
namespace Raveil.Lib

/-- The word at byte `i`; bytes past the end read as zero. -/
def word (p : List UInt8) (i : ℕ) : ℕ :=
  (p.getD i 0).toNat ||| (p.getD (i + 1) 0).toNat <<< 8 ||| (p.getD (i + 2) 0).toNat <<< 16 |||
    (p.getD (i + 3) 0).toNat <<< 24

/-- `struct.pack("<I", w)`. -/
def le32 (w : ℕ) : List UInt8 :=
  [UInt8.ofNat w, UInt8.ofNat (w >>> 8), UInt8.ofNat (w >>> 16), UInt8.ofNat (w >>> 24)]

/-- `struct.pack("<Q", x)`. -/
def le64 (x : ℕ) : List UInt8 := (List.range 8).map fun i => UInt8.ofNat (x >>> (8 * i))

def packWords (ws : List ℕ) : List UInt8 := ws.flatMap le32

/-- `struct.pack_into("<I", body, offset, w)`. -/
def packInto (body : List UInt8) (offset w : ℕ) : List UInt8 :=
  body.take offset ++ le32 w ++ body.drop (offset + 4)

variable {p : List UInt8} {ws : List ℕ}

@[simp] theorem length_le32 (w : ℕ) : (le32 w).length = 4 := rfl

theorem le64_eq (x : ℕ) : le64 x = packWords [x % 2 ^ 32, x >>> 32] := by
  have hlow : ∀ i, i ≤ 24 → UInt8.ofNat (x >>> i) = UInt8.ofNat ((x % 2 ^ 32) >>> i) := by
    intro i hi
    apply UInt8.toNat_inj.mp
    apply Nat.eq_of_testBit_eq
    intro j
    simp only [UInt8.toNat_ofNat', Nat.testBit_mod_two_pow, Nat.testBit_shiftRight]
    by_cases hj : j < 8
    · simp [hj, show i + j < 32 by omega]
    · simp [hj]
  have h0 := hlow 0 (by omega)
  simp only [Nat.shiftRight_zero] at h0
  simp [le64, packWords, le32, List.range_succ, h0, hlow 8, hlow 16, hlow 24, ← Nat.shiftRight_add]

theorem word_le32_append {w : ℕ} (h : w < 2 ^ 32) (rest : List UInt8) :
    word (le32 w ++ rest) 0 = w := by
  apply Nat.eq_of_testBit_eq
  intro i
  simp only [word, le32, List.cons_append, List.nil_append, Nat.zero_add, List.getD_cons_zero,
    List.getD_cons_succ, UInt8.toNat_ofNat', Nat.testBit_or, Nat.testBit_shiftLeft,
    Nat.testBit_mod_two_pow, Nat.testBit_shiftRight]
  by_cases h32 : 32 ≤ i
  · have hhigh : w.testBit i = false :=
      Nat.testBit_lt_two_pow (h.trans_le (Nat.pow_le_pow_right (by omega) h32))
    rw [hhigh]
    simp
    omega
  · obtain hi | hi | hi | hi : i < 8 ∨ (8 ≤ i ∧ i < 16) ∨ (16 ≤ i ∧ i < 24) ∨ 24 ≤ i := by omega
    · simp [hi, show ¬ 8 ≤ i by omega, show ¬ 16 ≤ i by omega, show ¬ 24 ≤ i by omega]
    · simp [hi, show ¬ i < 8 by omega, show ¬ 16 ≤ i by omega, show ¬ 24 ≤ i by omega,
        show i - 8 < 8 by omega]
    · simp [hi, show ¬ i < 8 by omega, show ¬ i - 8 < 8 by omega, show ¬ 24 ≤ i by omega,
        show i - 16 < 8 by omega]
    · simp [hi, show ¬ i < 8 by omega, show ¬ i - 8 < 8 by omega, show ¬ i - 16 < 8 by omega,
        show i - 24 < 8 by omega]

theorem word_drop (p : List UInt8) (k i : ℕ) : word (p.drop k) i = word p (k + i) := by
  simp [word, List.getD_eq_getElem?_getD, List.getElem?_drop, Nat.add_assoc]

theorem word_append {q : List UInt8} {i : ℕ} (h : i + 4 ≤ p.length) : word (p ++ q) i = word p i := by
  simp only [word, List.getD_eq_getElem?_getD]
  rw [List.getElem?_append_left (by omega), List.getElem?_append_left (by omega),
    List.getElem?_append_left (by omega), List.getElem?_append_left (by omega)]

@[simp] theorem packWords_append (ws ws' : List ℕ) :
    packWords (ws ++ ws') = packWords ws ++ packWords ws' := by
  simp [packWords]

@[simp] theorem packWords_cons (w : ℕ) (ws : List ℕ) : packWords (w :: ws) = le32 w ++ packWords ws := by
  simp [packWords]

@[simp] theorem packWords_nil : packWords [] = [] := rfl

@[simp] theorem length_packWords (ws : List ℕ) : (packWords ws).length = 4 * ws.length := by
  induction ws with
  | nil => rfl
  | cons w ws ih =>
    rw [packWords_cons, List.length_append, ih, length_le32, List.length_cons]
    omega

theorem packWords_flatten (rs : List (List ℕ)) : packWords rs.flatten = (rs.map packWords).flatten := by
  induction rs with
  | nil => rfl
  | cons r rs ih => rw [List.flatten_cons, packWords_append, ih, List.map_cons, List.flatten_cons]

theorem drop_packWords (ws : List ℕ) (k : ℕ) : (packWords ws).drop (4 * k) = packWords (ws.drop k) := by
  induction ws generalizing k with
  | nil => simp
  | cons w ws ih =>
    cases k with
    | zero => rfl
    | succ k =>
      rw [packWords_cons, List.drop_append, length_le32, List.drop_of_length_le (by rw [length_le32]; omega),
        List.nil_append, show 4 * (k + 1) - 4 = 4 * k by omega, ih, List.drop_succ_cons]

theorem take_packWords (ws : List ℕ) (k : ℕ) : (packWords ws).take (4 * k) = packWords (ws.take k) := by
  induction ws generalizing k with
  | nil => simp
  | cons w ws ih =>
    cases k with
    | zero => rfl
    | succ k =>
      rw [packWords_cons, List.take_append, length_le32, List.take_of_length_le (by rw [length_le32]; omega),
        show 4 * (k + 1) - 4 = 4 * k by omega, ih, List.take_succ_cons, packWords_cons]

/-- The words of a packed string are read back at their places. -/
theorem word_packWords {w k : ℕ} (h : ws[k]? = some w) (hw : w < 2 ^ 32) :
    word (packWords ws) (4 * k) = w := by
  obtain ⟨hk, rfl⟩ := List.getElem?_eq_some_iff.mp h
  rw [← Nat.add_zero (4 * k), ← word_drop, drop_packWords, List.drop_eq_getElem_cons hk, packWords_cons,
    word_le32_append hw]

theorem word_packWords_append {w k : ℕ} (rest : List UInt8) (h : ws[k]? = some w)
    (hw : w < 2 ^ 32) : word (packWords ws ++ rest) (4 * k) = w := by
  have hk := (List.getElem?_eq_some_iff.mp h).1
  rw [word_append (by rw [length_packWords]; omega), word_packWords h hw]

theorem packInto_packWords {k w : ℕ} (h : k < ws.length) :
    packInto (packWords ws) (4 * k) w = packWords (ws.set k w) := by
  rw [packInto, take_packWords, show 4 * k + 4 = 4 * (k + 1) by omega, drop_packWords,
    List.set_eq_take_append_cons_drop, if_pos h, packWords_append, packWords_cons, List.append_assoc]

theorem word_lt (p : List UInt8) (i : ℕ) : word p i < 2 ^ 32 := by
  have hbyte : ∀ (x : UInt8) (k : ℕ), k ≤ 24 → x.toNat <<< k < 2 ^ 32 := by
    intro x k hk
    rw [Nat.shiftLeft_eq]
    have hx := x.toNat_lt
    calc x.toNat * 2 ^ k < 2 ^ 8 * 2 ^ k := Nat.mul_lt_mul_of_pos_right hx (Nat.two_pow_pos k)
      _ = 2 ^ (8 + k) := (pow_add 2 8 k).symm
      _ ≤ 2 ^ 32 := Nat.pow_le_pow_right (by omega) (by omega)
  unfold word
  refine Nat.or_lt_two_pow (Nat.or_lt_two_pow (Nat.or_lt_two_pow ?_ (hbyte _ 8 (by omega)))
    (hbyte _ 16 (by omega))) (hbyte _ 24 (by omega))
  exact hbyte _ 0 (by omega)

theorem le32_word {p : List UInt8} (h : p.length = 4) : le32 (word p 0) = p := by
  obtain ⟨a, b, c, d, rfl⟩ : ∃ a b c d, p = [a, b, c, d] := by
    match p, h with
    | [a, b, c, d], _ => exact ⟨a, b, c, d, rfl⟩
  have hbyte : ∀ (x : UInt8) (w i : ℕ), (∀ j, j < 8 → w.testBit (i + j) = x.toNat.testBit j) →
      UInt8.ofNat (w >>> i) = x := by
    intro x w i hw
    apply UInt8.toNat_inj.mp
    apply Nat.eq_of_testBit_eq
    intro j
    rw [UInt8.toNat_ofNat', Nat.testBit_mod_two_pow, Nat.testBit_shiftRight]
    by_cases hj : j < 8
    · simp [hj, hw j hj]
    · have hx : x.toNat.testBit j = false :=
        Nat.testBit_lt_two_pow (x.toNat_lt.trans_le (Nat.pow_le_pow_right (by omega) (by omega)))
      simp [hj, hx]
  have hbits : ∀ i, (word [a, b, c, d] 0).testBit i = (a.toNat.testBit i ||
      (decide (8 ≤ i) && b.toNat.testBit (i - 8)) || (decide (16 ≤ i) && c.toNat.testBit (i - 16)) ||
      (decide (24 ≤ i) && d.toNat.testBit (i - 24))) := by
    intro i
    simp [word, Nat.testBit_or, Nat.testBit_shiftLeft]
  have hhigh : ∀ (x : UInt8) j, 8 ≤ j → x.toNat.testBit j = false := fun x j hj =>
    Nat.testBit_lt_two_pow (x.toNat_lt.trans_le (Nat.pow_le_pow_right (by omega) hj))
  have h0 := hbyte a (word [a, b, c, d] 0) 0 fun j hj => by
    rw [hbits]
    simp [show ¬ 8 ≤ j by omega, show ¬ 16 ≤ j by omega, show ¬ 24 ≤ j by omega]
  have h1 := hbyte b (word [a, b, c, d] 0) 8 fun j hj => by
    rw [hbits]
    simp [hhigh a (8 + j) (by omega), show ¬ 16 ≤ 8 + j by omega, show ¬ 24 ≤ 8 + j by omega]
  have h2 := hbyte c (word [a, b, c, d] 0) 16 fun j hj => by
    rw [hbits]
    simp [hhigh a (16 + j) (by omega), hhigh b (16 + j - 8) (by omega), show ¬ 24 ≤ 16 + j by omega]
  have h3 := hbyte d (word [a, b, c, d] 0) 24 fun j hj => by
    rw [hbits]
    simp [hhigh a (24 + j) (by omega), hhigh b (24 + j - 8) (by omega), hhigh c (24 + j - 16) (by omega)]
  rw [Nat.shiftRight_zero] at h0
  rw [le32, h0, h1, h2, h3]

/-- A string of whole words is determined by its words. -/
theorem packWords_words (m : ℕ) (h : p.length = 4 * m) :
    packWords ((List.range m).map fun i => word p (4 * i)) = p := by
  induction m generalizing p with
  | zero =>
    obtain rfl : p = [] := List.length_eq_zero_iff.mp h
    rfl
  | succ m ih =>
    have htake : (p.take 4).length = 4 := by
      rw [List.length_take]
      omega
    have hhead : le32 (word p 0) = p.take 4 := by
      rw [← le32_word htake]
      congr 1
      rw [← word_append (p := p.take 4) (q := p.drop 4) (by omega), List.take_append_drop]
    have hrest : ∀ i, word p (4 * (i + 1)) = word (p.drop 4) (4 * i) := by
      intro i
      rw [word_drop]
      congr 1
      omega
    rw [List.range_succ_eq_map, List.map_cons, List.map_map, packWords_cons, Nat.mul_zero, hhead]
    have := ih (p := p.drop 4) (by rw [List.length_drop]; omega)
    simp only [← hrest] at this
    change p.take 4 ++ packWords ((List.range m).map fun i => word p (4 * (i + 1))) = p
    rw [this, List.take_append_drop]

theorem slice_eq {i : ℕ} (m : ℕ) (h : i + 4 * m ≤ p.length) :
    (p.drop i).take (4 * m) = packWords ((List.range m).map fun k => word p (i + 4 * k)) := by
  have hlen : ((p.drop i).take (4 * m)).length = 4 * m := by
    rw [List.length_take, List.length_drop]
    omega
  rw [← packWords_words m hlen]
  refine congrArg packWords (List.map_congr_left fun k hk => ?_)
  have hk' := List.mem_range.mp hk
  rw [← word_append (q := (p.drop i).drop (4 * m)) (by omega), List.take_append_drop, word_drop]

end Raveil.Lib
