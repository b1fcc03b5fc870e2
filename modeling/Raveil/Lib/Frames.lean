import Mathlib.Algebra.Order.Ring.Nat
import Mathlib.Data.Nat.SuccPred

/-! Arrays of 512 words, each in an aligned 4096-byte frame of its own of a flat memory. -/
namespace Raveil.Lib

/-- The words of 64 bits of a memory, by their byte addresses. -/
abbrev WordMemory := BitVec 64 → BitVec 64

/-- Where the frames of the arrays named by `ι` lie. -/
structure Frames (ι : Type) where
  address : ι → BitVec 64
  aligned : ∀ t, (address t).toNat % 4096 = 0
  low : ∀ t, (address t).toNat < 2 ^ 56
  distinct : Function.Injective address

namespace Frames

variable {ι : Type} {l : Frames ι} {m : WordMemory} {t u : ι} {i j n : ℕ} {v : BitVec 64}

def cell (l : Frames ι) (t : ι) (i : ℕ) : BitVec 64 := l.address t + 8 * BitVec.ofNat 64 i

def read (l : Frames ι) (m : WordMemory) (t : ι) (i : ℕ) : BitVec 64 := m (l.cell t i)

def write (l : Frames ι) (m : WordMemory) (t : ι) (i : ℕ) (v : BitVec 64) : WordMemory :=
  Function.update m (l.cell t i) v

/-- The loop that assigns the first `n` entries. -/
def fill (l : Frames ι) (m : WordMemory) (t : ι) (n : ℕ) (f : ℕ → BitVec 64) : WordMemory :=
  (List.range n).foldl (fun m i => l.write m t i (f i)) m

theorem toNat_cell (hi : i < 512) : (l.cell t i).toNat = (l.address t).toNat + 8 * i := by
  have hlow := l.low t
  have height : (8 : BitVec 64).toNat = 8 := rfl
  rw [cell, BitVec.toNat_add, BitVec.toNat_mul, BitVec.toNat_ofNat, height]
  omega

/-- Different entries lie at different addresses. -/
theorem cell_inj (hi : i < 512) (hj : j < 512) : l.cell t i = l.cell u j ↔ t = u ∧ i = j := by
  constructor
  · intro h
    have hv := congrArg BitVec.toNat h
    rw [toNat_cell hi, toNat_cell hj] at hv
    have ht := l.aligned t
    have hu := l.aligned u
    refine ⟨l.distinct (BitVec.eq_of_toNat_eq ?_), ?_⟩ <;> omega
  · rintro ⟨rfl, rfl⟩
    rfl

theorem read_write [DecidableEq ι] (hi : i < 512) (hj : j < 512) :
    l.read (l.write m t i v) u j = if u = t ∧ j = i then v else l.read m u j := by
  unfold read write
  by_cases h : u = t ∧ j = i
  · rw [if_pos h, (cell_inj hj hi).mpr h, Function.update_self]
  · rw [if_neg h, Function.update_of_ne]
    intro he
    exact h ((cell_inj hj hi).mp he)

theorem read_fill [DecidableEq ι] {f : ℕ → BitVec 64} (hn : n ≤ 512) (hj : j < 512) :
    l.read (l.fill m t n f) u j = if u = t ∧ j < n then f j else l.read m u j := by
  induction n with
  | zero => rw [if_neg (by omega)]; rfl
  | succ n ih =>
    have hstep : l.fill m t (n + 1) f = l.write (l.fill m t n f) t n (f n) := by
      rw [fill, List.range_succ, List.foldl_append]
      rfl
    rw [hstep, read_write (by omega) hj, ih (by omega)]
    by_cases hu : u = t
    · by_cases hjn : j = n
      · simp [hu, hjn]
      · by_cases hlt : j < n
        · simp [hu, hjn, hlt, Nat.lt_succ_of_lt hlt]
        · simp [hu, hjn, hlt, show ¬ j < n + 1 by omega]
    · simp [hu]

end Frames

end Raveil.Lib
