import Mathlib.Data.List.Range
import Mathlib.Data.Nat.ModEq
import Mathlib.Logic.Function.Basic

/-! A ring buffer with separate read index, write index and fill count, and the list it holds. -/
namespace Raveil.Lib

structure RingBuffer (α : Type) where
  buf : ℕ → α
  read : ℕ
  write : ℕ
  used : ℕ

namespace RingBuffer

variable {α : Type} {n : ℕ} {r : RingBuffer α} {x : α}

def empty [Inhabited α] : RingBuffer α := ⟨fun _ => default, 0, 0, 0⟩

/-- The entries in the order they will be read. -/
def contents (n : ℕ) (r : RingBuffer α) : List α :=
  (List.range r.used).map fun i => r.buf ((r.read + i) % n)

def push (n : ℕ) (r : RingBuffer α) (x : α) : RingBuffer α :=
  { r with
    buf := Function.update r.buf r.write x
    write := (r.write + 1) % n
    used := r.used + 1 }

/-- The ring without its first entry, whose place is cleared. -/
def pop [Inhabited α] (n : ℕ) (r : RingBuffer α) : RingBuffer α :=
  { r with
    buf := Function.update r.buf r.read default
    read := (r.read + 1) % n
    used := r.used - 1 }

/-- The ring without its first entry, whose place keeps what it held. -/
def advance (n : ℕ) (r : RingBuffer α) : RingBuffer α :=
  { r with read := (r.read + 1) % n, used := r.used - 1 }

/-- One iteration of the loop that closes a gap. -/
def shift (n : ℕ) (r : RingBuffer α) (index : ℕ) : RingBuffer α :=
  { r with buf := Function.update r.buf ((r.read + index) % n) (r.buf ((r.read + index + 1) % n)) }

/-- Remove the entry at `offset` and move the later ones up. -/
def removeAt [Inhabited α] (n : ℕ) (r : RingBuffer α) (offset : ℕ) : RingBuffer α :=
  let moved := (List.range' offset (r.used - 1 - offset)).foldl (shift n) r
  { moved with
    buf := Function.update moved.buf ((r.read + r.used - 1) % n) default
    write := (r.read + (r.used - 1)) % n
    used := r.used - 1 }

/-- Pop `k` entries in turn. -/
def drain [Inhabited α] (n : ℕ) : ℕ → RingBuffer α → List α × RingBuffer α
  | 0, r => ([], r)
  | k + 1, r => (r.buf r.read :: (drain n k (pop n r)).1, (drain n k (pop n r)).2)

/-- Start over from index 0 with the given entries. -/
def refill (n : ℕ) (r : RingBuffer α) (xs : List α) : RingBuffer α :=
  { buf := fun i => xs.getD i (r.buf i)
    read := 0
    write := xs.length % n
    used := xs.length }

structure Ok (n : ℕ) (r : RingBuffer α) : Prop where
  used : r.used ≤ n
  read : r.read < n
  write : r.write = (r.read + r.used) % n

theorem length_contents (n : ℕ) (r : RingBuffer α) : (contents n r).length = r.used := by
  simp [contents]

theorem getElem?_contents {i : ℕ} (hi : i < r.used) :
    (contents n r)[i]? = some (r.buf ((r.read + i) % n)) := by
  simp [contents, List.getElem?_range hi]

theorem getElem?_contents_of_le {i : ℕ} (hi : r.used ≤ i) : (contents n r)[i]? = none := by
  rw [List.getElem?_eq_none_iff, length_contents]
  exact hi

/-- Two positions of the ring differ when their indices do. -/
theorem mod_ne {a i j n : ℕ} (hi : i < n) (hj : j < n) (h : i ≠ j) : (a + i) % n ≠ (a + j) % n := by
  intro he
  apply h
  have hm : i ≡ j [MOD n] := Nat.ModEq.add_left_cancel' a he
  rwa [Nat.ModEq, Nat.mod_eq_of_lt hi, Nat.mod_eq_of_lt hj] at hm

theorem ok_push (h : Ok n r) (hu : r.used < n) : Ok n (push n r x) := by
  refine ⟨hu, h.read, ?_⟩
  simp only [push, h.write]
  rw [Nat.mod_add_mod, Nat.add_assoc]

theorem contents_push (h : Ok n r) (hu : r.used < n) :
    contents n (push n r x) = contents n r ++ [x] := by
  unfold contents
  simp only [push]
  rw [List.range_succ, List.map_append, List.map_singleton, h.write, Function.update_self]
  congr 1
  refine List.map_congr_left fun i hi => ?_
  have hi := List.mem_range.mp hi
  rw [Function.update_of_ne (mod_ne (by omega) hu (by omega))]

theorem ok_advance (h : Ok n r) (hu : 0 < r.used) : Ok n (advance n r) := by
  have hn := h.read
  refine ⟨?_, Nat.mod_lt _ (by omega), ?_⟩
  · have := h.used
    simp only [advance]
    omega
  · simp only [advance, h.write]
    rw [Nat.mod_add_mod]
    congr 1
    omega

theorem contents_advance (h : Ok n r) (hu : 0 < r.used) :
    contents n r = r.buf r.read :: contents n (advance n r) := by
  unfold contents
  simp only [advance]
  obtain ⟨k, hk⟩ : ∃ k, r.used = k + 1 := ⟨r.used - 1, by omega⟩
  rw [hk, Nat.add_sub_cancel, List.range_succ_eq_map, List.map_cons, List.map_map, Nat.add_zero,
    Nat.mod_eq_of_lt h.read]
  congr 1
  refine List.map_congr_left fun i _ => ?_
  simp only [Function.comp]
  rw [Nat.mod_add_mod, show r.read + 1 + i = r.read + (i + 1) by omega]

theorem ok_refill {xs : List α} (hx : xs.length ≤ n) (hn : 0 < n) : Ok n (refill n r xs) :=
  ⟨hx, hn, by simp [refill]⟩

theorem contents_refill {xs : List α} (hx : xs.length ≤ n) : contents n (refill n r xs) = xs := by
  refine List.ext_getElem? fun i => ?_
  by_cases hi : i < xs.length
  · rw [getElem?_contents hi]
    simp only [refill, Nat.zero_add]
    rw [Nat.mod_eq_of_lt (by omega), List.getD_eq_getElem?_getD, List.getElem?_eq_getElem hi]
    rfl
  · rw [getElem?_contents_of_le (by simpa [refill] using hi), List.getElem?_eq_none (by omega)]

/-- The buffer after the gap loop, at the position of index `j`. -/
theorem shift_loop (h : Ok n r) (offset k : ℕ) (hk : offset + k < r.used) :
    ((List.range' offset k).foldl (shift n) r).read = r.read ∧
    ∀ j, j < n → ((List.range' offset k).foldl (shift n) r).buf ((r.read + j) % n) =
      if offset ≤ j ∧ j < offset + k then r.buf ((r.read + (j + 1)) % n)
      else r.buf ((r.read + j) % n) := by
  have hle := h.used
  induction k with
  | zero =>
    refine ⟨rfl, fun j hj => ?_⟩
    rw [if_neg (by omega)]
    rfl
  | succ k ih =>
    obtain ⟨hread, hbuf⟩ := ih (by omega)
    rw [List.range'_1_concat, List.foldl_append]
    refine ⟨hread, fun j hj => ?_⟩
    simp only [List.foldl_cons, List.foldl_nil, shift, hread]
    by_cases hjk : j = offset + k
    · rw [hjk, Function.update_self, if_pos (by omega)]
      have := hbuf (offset + k + 1) (by omega)
      rw [if_neg (by omega)] at this
      exact this
    · rw [Function.update_of_ne (mod_ne hj (by omega) hjk), hbuf j hj]
      by_cases hin : offset ≤ j ∧ j < offset + k
      · rw [if_pos hin, if_pos (by omega)]
      · rw [if_neg hin, if_neg (by omega)]

variable [Inhabited α]

theorem ok_empty (hn : 0 < n) : Ok n (empty : RingBuffer α) :=
  ⟨Nat.zero_le _, hn, (Nat.zero_mod n).symm⟩

theorem contents_empty : contents n (empty : RingBuffer α) = [] := rfl

theorem ok_pop (h : Ok n r) (hu : 0 < r.used) : Ok n (pop n r) :=
  ⟨(ok_advance h hu).used, (ok_advance h hu).read, (ok_advance h hu).write⟩

theorem contents_pop (h : Ok n r) (hu : 0 < r.used) :
    contents n r = r.buf r.read :: contents n (pop n r) := by
  have hle := h.used
  rw [contents_advance h hu]
  congr 1
  refine List.map_congr_left fun i hi => ?_
  have hi : i < r.used - 1 := List.mem_range.mp hi
  have hne : (r.read + (i + 1)) % n ≠ r.read := by
    have := mod_ne (a := r.read) (n := n) (i := i + 1) (j := 0) (by omega) (by omega) (by omega)
    simpa [Nat.mod_eq_of_lt h.read] using this
  simp only [advance, pop]
  rw [Nat.mod_add_mod, show r.read + 1 + i = r.read + (i + 1) by omega, Function.update_of_ne hne]

theorem drain_eq (k : ℕ) (h : Ok n r) (hk : r.used = k) :
    (drain n k r).1 = contents n r ∧ (drain n k r).2.used = 0 := by
  induction k generalizing r with
  | zero => simp [drain, contents, hk]
  | succ k ih =>
    obtain ⟨h1, h2⟩ := ih (ok_pop h (by omega)) (by simp [pop, hk])
    refine ⟨?_, h2⟩
    rw [contents_pop h (by omega), ← h1]
    rfl

theorem removeAt_read {offset : ℕ} (h : Ok n r) (ho : offset < r.used) :
    (removeAt n r offset).read = r.read :=
  (shift_loop h offset (r.used - 1 - offset) (by omega)).1

theorem ok_removeAt {offset : ℕ} (h : Ok n r) (ho : offset < r.used) : Ok n (removeAt n r offset) := by
  have hle := h.used
  refine ⟨?_, ?_, ?_⟩
  · simp only [removeAt]
    omega
  · rw [removeAt_read h ho]
    exact h.read
  · rw [removeAt_read h ho]
    rfl

theorem contents_removeAt {offset : ℕ} (h : Ok n r) (ho : offset < r.used) :
    contents n (removeAt n r offset) = (contents n r).eraseIdx offset := by
  have hle := h.used
  have hread := removeAt_read h ho
  obtain ⟨-, hbuf⟩ := shift_loop h offset (r.used - 1 - offset) (by omega)
  refine List.ext_getElem? fun i => ?_
  rw [List.getElem?_eraseIdx]
  by_cases hi : i < r.used - 1
  · have hne := mod_ne (a := r.read) (n := n) (i := i) (j := r.used - 1) (by omega) (by omega) (by omega)
    have hnew : (removeAt n r offset).buf ((r.read + i) % n) =
        if offset ≤ i ∧ i < offset + (r.used - 1 - offset) then r.buf ((r.read + (i + 1)) % n)
        else r.buf ((r.read + i) % n) := by
      rw [← hbuf i (by omega)]
      simp only [removeAt]
      rw [show r.read + r.used - 1 = r.read + (r.used - 1) by omega, Function.update_of_ne hne]
    rw [getElem?_contents (show i < (removeAt n r offset).used from hi), hread, hnew]
    by_cases hlt : i < offset
    · rw [if_pos hlt, if_neg (by omega), getElem?_contents (by omega)]
    · rw [if_neg hlt, if_pos (by omega), getElem?_contents (by omega)]
  · rw [getElem?_contents_of_le (by simp only [removeAt]; omega)]
    split
    · omega
    · rw [getElem?_contents_of_le (by omega)]

end RingBuffer

end Raveil.Lib
