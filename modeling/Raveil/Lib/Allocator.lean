import Mathlib.Algebra.Order.Ring.Nat
import Mathlib.Data.Fintype.Basic
import Mathlib.Data.Nat.SuccPred
import Mathlib.Logic.Equiv.Fin.Basic

/-! An array of words used as a bitmap, with the number of its clear bits; items handed out of a fixed arena and taken back,
seen through the events of a run. -/
namespace Raveil.Lib

/-- `n` words of `w` bits; the bit of index `i` lies in word `i / w`. -/
abbrev Bitmap (n w : ℕ) := Fin n → BitVec w

namespace Bitmap

variable {n w : ℕ} {b : Bitmap n w} {i j : Fin (n * w)} {used : Bool}

def mask (i : Fin (n * w)) : BitVec w := BitVec.twoPow w i.modNat

def test (b : Bitmap n w) (i : Fin (n * w)) : Bool := b i.divNat &&& mask i ≠ 0

def mark (b : Bitmap n w) (i : Fin (n * w)) (used : Bool) : Bitmap n w :=
  Function.update b i.divNat
    (if used then b i.divNat ||| mask i else b i.divNat &&& ~~~mask i)

theorem getLsbD_mask {k : ℕ} : (mask i).getLsbD k = decide (i.modNat.val = k) := by
  rw [mask, BitVec.getLsbD_twoPow, decide_eq_true i.modNat.isLt, Bool.true_and]

theorem test_eq : test b i = (b i.divNat).getLsbD i.modNat.val := by
  have hself : (mask i).getLsbD i.modNat.val = true := by rw [getLsbD_mask, decide_eq_true rfl]
  cases h : (b i.divNat).getLsbD i.modNat.val with
  | false =>
    have hz : b i.divNat &&& mask i = 0#w := by
      apply BitVec.eq_of_getLsbD_eq
      intro k hk
      rw [BitVec.getLsbD_and, getLsbD_mask, BitVec.getLsbD_zero]
      by_cases hki : i.modNat.val = k
      · rw [← hki, h, Bool.false_and]
      · rw [decide_eq_false hki, Bool.and_false]
    simp [test, hz]
  | true =>
    apply decide_eq_true
    intro hz
    have hbit := congrArg (fun v : BitVec w => v.getLsbD i.modNat.val) hz
    rw [BitVec.getLsbD_and, h, hself] at hbit
    exact absurd hbit (by simp)

theorem index_ext (hd : i.divNat = j.divNat) (hm : i.modNat = j.modNat) : i = j := by
  apply finProdFinEquiv.symm.injective
  simp [hd, hm]

/-- Marking one index decides that bit and leaves every other one. -/
theorem test_mark : test (mark b i used) j = if j = i then used else test b j := by
  rw [test_eq, test_eq]
  have hself : (mask i).getLsbD j.modNat.val = decide (i.modNat.val = j.modNat.val) :=
    getLsbD_mask
  by_cases hword : j.divNat = i.divNat
  · rw [hword, mark, Function.update_self]
    by_cases hbit : i.modNat.val = j.modNat.val
    · rw [if_pos (index_ext hword (Fin.ext hbit.symm))]
      rw [decide_eq_true hbit] at hself
      cases used with
      | false => rw [if_neg Bool.false_ne_true, BitVec.getLsbD_and, BitVec.getLsbD_not, hself]; simp
      | true => rw [if_pos rfl, BitVec.getLsbD_or, hself, Bool.or_true]
    · have hne : j ≠ i := by
        rintro rfl
        exact hbit rfl
      rw [decide_eq_false hbit] at hself
      rw [if_neg hne]
      cases used with
      | false =>
        rw [if_neg Bool.false_ne_true, BitVec.getLsbD_and, BitVec.getLsbD_not, hself,
          decide_eq_true j.modNat.isLt, Bool.not_false, Bool.and_true, Bool.and_true]
      | true => rw [if_pos rfl, BitVec.getLsbD_or, hself, Bool.or_false]
  · have hne : j ≠ i := by
      rintro rfl
      exact hword rfl
    rw [if_neg hne, mark, Function.update_of_ne hword]

/-- The clear bits from index `first` on. -/
def clearFrom (b : Bitmap n w) (first : ℕ) : Finset (Fin (n * w)) :=
  Finset.univ.filter fun i => first ≤ i.val ∧ test b i = false

@[simp] theorem mem_clearFrom {first : ℕ} :
    i ∈ clearFrom b first ↔ first ≤ i.val ∧ test b i = false := by
  simp [clearFrom]

theorem clearFrom_mark_true {first : ℕ} :
    clearFrom (mark b i true) first = (clearFrom b first).erase i := by
  ext j
  rw [Finset.mem_erase, mem_clearFrom, mem_clearFrom, test_mark]
  by_cases hj : j = i <;> simp [hj]

theorem clearFrom_mark_false {first : ℕ} (h : first ≤ i.val) :
    clearFrom (mark b i false) first = insert i (clearFrom b first) := by
  ext j
  rw [Finset.mem_insert, mem_clearFrom, mem_clearFrom, test_mark]
  by_cases hj : j = i <;> simp [hj, h]

/-- The indices from `first` on, in order. -/
def indicesFrom (size first : ℕ) : List (Fin size) :=
  (List.range' first (size - first)).pmap (fun i h => ⟨i, h⟩) fun i h => by
    rw [List.mem_range'_1] at h
    omega

theorem mem_indicesFrom {size first : ℕ} {i : Fin size} : i ∈ indicesFrom size first ↔ first ≤ i.val := by
  simp only [indicesFrom, List.mem_pmap, List.mem_range'_1]
  constructor
  · rintro ⟨k, hk, rfl⟩
    exact hk.1
  · intro h
    exact ⟨i, ⟨h, by omega⟩, rfl⟩

theorem nodup_indicesFrom {size first : ℕ} : (indicesFrom size first).Nodup := by
  apply List.Nodup.pmap
  · intro a _ b _ h
    exact Fin.mk.inj h
  · exact List.nodup_range' 1

end Bitmap

end Raveil.Lib

namespace Raveil.Lib.Allocator

inductive Event (α : Type) where
  | alloc (x : α)
  | exhausted
  | free (x : α)
  | rejected (x : α)
  deriving DecidableEq

variable {α : Type} [DecidableEq α] {arena held after : Finset α} {x : α}
  {trace pre mid post : List (Event α)}

/-- What an allocator may do while the items of `held` are out. -/
inductive Step (arena : Finset α) : Finset α → Event α → Finset α → Prop where
  | alloc {held : Finset α} {x : α} (ha : x ∈ arena) (hx : x ∉ held) :
      Step arena held (.alloc x) (insert x held)
  | exhausted {held : Finset α} (h : arena ⊆ held) : Step arena held .exhausted held
  | free {held : Finset α} {x : α} (h : x ∈ held) : Step arena held (.free x) (held.erase x)
  | rejected {held : Finset α} {x : α} (h : x ∉ held) : Step arena held (.rejected x) held

inductive Run (arena : Finset α) : Finset α → List (Event α) → Finset α → Prop where
  | nil {held : Finset α} : Run arena held [] held
  | cons {held between after : Finset α} {event : Event α} {trace : List (Event α)}
      (hs : Step arena held event between) (hr : Run arena between trace after) :
      Run arena held (event :: trace) after

/-- The last time `x` was handed out nobody has taken it back since. -/
def Out (trace : List (Event α)) (x : α) : Prop :=
  ∃ pre post, trace = pre ++ .alloc x :: post ∧ .free x ∉ post

theorem Run.split (h : Run arena held (pre ++ post) after) :
    ∃ between, Run arena held pre between ∧ Run arena between post after := by
  induction pre generalizing held with
  | nil => exact ⟨held, .nil, h⟩
  | cons event pre ih =>
    cases h with
    | cons hs hr =>
      obtain ⟨between, h1, h2⟩ := ih hr
      exact ⟨between, .cons hs h1, h2⟩

theorem Step.mem_of_not_free {event : Event α} (h : Step arena held event after) (hx : x ∈ held)
    (hf : event ≠ .free x) : x ∈ after := by
  cases h with
  | alloc ha hn => exact Finset.mem_insert_of_mem hx
  | exhausted ha => exact hx
  | free hy =>
    apply Finset.mem_erase_of_ne_of_mem _ hx
    rintro rfl
    exact hf rfl
  | rejected hy => exact hx

/-- An item stays out until it is taken back. -/
theorem Run.mem_of_not_free (h : Run arena held trace after) (hx : x ∈ held)
    (hf : .free x ∉ trace) : x ∈ after := by
  induction h with
  | nil => exact hx
  | cons hs hr ih =>
    rw [List.mem_cons, not_or] at hf
    exact ih (hs.mem_of_not_free hx (Ne.symm hf.1)) hf.2

theorem Run.held_of_alloc (h : Run arena held (.alloc x :: trace) after) (hf : .free x ∉ trace) :
    x ∈ after := by
  cases h with
  | cons hs hr =>
    cases hs with
    | alloc ha hx => exact hr.mem_of_not_free (Finset.mem_insert_self _ _) hf

/-- No item is handed out a second time before it is taken back. -/
theorem Run.free_between (h : Run arena held (pre ++ .alloc x :: (mid ++ .alloc x :: post)) after) :
    .free x ∈ mid := by
  obtain ⟨u, -, hu⟩ := h.split
  rw [← List.cons_append] at hu
  obtain ⟨v, hmid, hpost⟩ := hu.split
  by_contra hf
  have hx := hmid.held_of_alloc hf
  cases hpost with
  | cons hs hr =>
    cases hs with
    | alloc ha hn => exact hn hx

theorem Run.alloc_mem (h : Run arena held trace after) (hx : .alloc x ∈ trace) : x ∈ arena := by
  induction h with
  | nil => cases hx
  | cons hs hr ih =>
    rcases List.mem_cons.mp hx with rfl | hx
    · cases hs with
      | alloc ha hn => exact ha
    · exact ih hx

/-- What is out was out before, or was handed out in the run. -/
theorem Run.out_of_mem (h : Run arena held trace after) (hx : x ∈ after) :
    x ∈ held ∧ .free x ∉ trace ∨ Out trace x := by
  induction h with
  | nil => exact .inl ⟨hx, List.not_mem_nil⟩
  | @cons held between after event trace hs hr ih =>
    rcases ih hx with ⟨hb, hf⟩ | ⟨pre, post, rfl, hf⟩
    · cases hs with
      | @alloc y ha hn =>
        rcases Finset.mem_insert.mp hb with rfl | hb
        · exact .inr ⟨[], trace, rfl, hf⟩
        · exact .inl ⟨hb, by simpa using hf⟩
      | exhausted ha => exact .inl ⟨hb, by simpa using hf⟩
      | @free y hy =>
        obtain ⟨hne, hb⟩ := Finset.mem_erase.mp hb
        exact .inl ⟨hb, by simpa [hne] using hf⟩
      | rejected hy => exact .inl ⟨hb, by simpa using hf⟩
    · exact .inr ⟨event :: pre, post, rfl, hf⟩

theorem Run.mem_iff_out (h : Run arena ∅ trace after) : x ∈ after ↔ Out trace x := by
  constructor
  · intro hx
    rcases h.out_of_mem hx with ⟨hx, -⟩ | hout
    · exact absurd hx (Finset.notMem_empty x)
    · exact hout
  · rintro ⟨pre, post, rfl, hf⟩
    obtain ⟨u, -, hu⟩ := h.split
    exact hu.held_of_alloc hf

end Raveil.Lib.Allocator
