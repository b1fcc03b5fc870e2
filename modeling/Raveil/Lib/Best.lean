import Mathlib.Data.List.Sort
import Mathlib.Tactic.Linarith

/-! The best elements of a stream, in an order: cutting the stream into batches loses none. -/
namespace Raveil.Lib

variable {α : Type} (r : α → α → Prop) [DecidableRel r]

/-- The first `n` elements of a list in the order `r`. -/
def best (n : ℕ) (l : List α) : List α := (l.insertionSort r).take n

/-- No two members of the list are equally good. -/
def Strict (l : List α) : Prop := ∀ a ∈ l, ∀ b ∈ l, r a b → r b a → a = b

variable {r} {n : ℕ} {l m : List α}

theorem length_best : (best r n l).length = min n l.length := by
  simp [best]

theorem best_subset {a : α} (h : a ∈ best r n l) : a ∈ l :=
  (List.mem_insertionSort r).mp (List.mem_of_mem_take h)

variable [Std.Total r] [IsTrans α r]

/-- A list without equals is sorted in one way only. -/
theorem Strict.insertionSort_eq (h : Strict r l) (hm : m.Perm l) :
    m.insertionSort r = l.insertionSort r := by
  have hp : (m.insertionSort r).Perm (l.insertionSort r) :=
    ((List.perm_insertionSort r m).trans hm).trans (List.perm_insertionSort r l).symm
  apply List.Perm.eq_of_pairwise _ (List.pairwise_insertionSort r m) (List.pairwise_insertionSort r l) hp
  intro a b ha hb
  apply h a _ b
  · exact (List.mem_insertionSort r).mp hb
  · exact hm.mem_iff.mp ((List.mem_insertionSort r).mp ha)

omit [Std.Total r] in
/-- Elements worse than `n` members of a sorted list are worse than each of its first `n`. -/
theorem rel_of_mem_take {b : α} {a : List α} {x : List α} (hx : x.Pairwise r) (hax : a.Subperm x)
    (hn : n ≤ a.length) (hab : ∀ y ∈ a, r y b) {y : α} (hy : y ∈ x.take n) : r y b := by
  by_contra hyb
  obtain ⟨i, hi, rfl⟩ := List.mem_iff_getElem.mp hy
  simp only [List.length_take] at hi
  simp only [List.getElem_take] at hyb
  -- From place `i` on nothing is above `b`, so fewer than `n` members are.
  have hlater : ∀ z ∈ x.drop i, ¬ r z b := by
    intro z hz hzb
    obtain ⟨j, hj, rfl⟩ := List.mem_iff_getElem.mp hz
    simp only [List.length_drop] at hj
    simp only [List.getElem_drop] at hzb
    rcases Nat.eq_zero_or_pos j with rfl | hpos
    · exact hyb hzb
    · have := List.pairwise_iff_getElem.mp hx i (i + j) (by omega) (by omega) (by omega)
      exact hyb (IsTrans.trans _ _ _ this hzb)
  classical
  have hcount : n ≤ x.countP (fun z => decide (r z b)) := by
    calc n ≤ a.length := hn
      _ = a.countP (fun z => decide (r z b)) := by
        refine (List.countP_eq_length.mpr ?_).symm
        intro z hz
        exact decide_eq_true (hab z hz)
      _ ≤ x.countP (fun z => decide (r z b)) := hax.countP_le _
  have hsplit : x.countP (fun z => decide (r z b)) =
      (x.take i).countP (fun z => decide (r z b)) + (x.drop i).countP (fun z => decide (r z b)) := by
    rw [← List.countP_append, List.take_append_drop]
  have hzero : (x.drop i).countP (fun z => decide (r z b)) = 0 := by
    apply List.countP_eq_zero.mpr
    intro z hz
    simpa using hlater z hz
  have hle : (x.take i).countP (fun z => decide (r z b)) ≤ (x.take i).length := List.countP_le_length
  rw [List.length_take] at hle
  omega

/-- The best of a batch and what follows it are the best of everything. -/
theorem best_best_append (h : Strict r (l ++ m)) : best r n (best r n l ++ m) = best r n (l ++ m) := by
  rcases Nat.lt_or_ge l.length n with hlen | hlen
  · have hall : best r n l = l.insertionSort r := by
      apply List.take_of_length_le
      rw [List.length_insertionSort]
      omega
    unfold best
    rw [show (l.insertionSort r).take n = l.insertionSort r from hall]
    rw [h.insertionSort_eq ((List.perm_insertionSort r l).append_right m)]
  · let worst := (l.insertionSort r).drop n
    let x := (best r n l ++ m).insertionSort r
    have hxs : x.Pairwise r := List.pairwise_insertionSort r _
    have hlx : n ≤ x.length := by
      simp only [x, List.length_insertionSort, List.length_append, length_best]
      omega
    have habove : ∀ y ∈ x.take n, ∀ b ∈ worst, r y b := by
      intro y hy b hb
      have hsub : (best r n l).Subperm x :=
        (List.sublist_append_left _ m).subperm.trans (List.perm_insertionSort r _).symm.subperm
      refine rel_of_mem_take hxs hsub ?_ ?_ hy
      · rw [length_best]
        omega
      · intro z hz
        have := List.pairwise_insertionSort r l
        rw [← List.take_append_drop n (l.insertionSort r)] at this
        exact (List.pairwise_append.mp this).2.2 z hz b hb
    let y := x.take n ++ (x.drop n ++ worst).insertionSort r
    have hys : y.Pairwise r := by
      apply List.pairwise_append.mpr
      refine ⟨hxs.sublist (List.take_sublist n x), List.pairwise_insertionSort r _, ?_⟩
      intro z hz b hb
      rcases List.mem_append.mp ((List.mem_insertionSort r).mp hb) with hb | hb
      · rw [← List.take_append_drop n x] at hxs
        exact (List.pairwise_append.mp hxs).2.2 z hz b hb
      · exact habove z hz b hb
    have hyp : y.Perm (l ++ m) := by
      have h₁ : y.Perm (x ++ worst) := by
        have := (List.perm_insertionSort r (x.drop n ++ worst)).append_left (x.take n)
        rwa [← List.append_assoc, List.take_append_drop] at this
      have h₂ : (x ++ worst).Perm (best r n l ++ m ++ worst) :=
        (List.perm_insertionSort r _).append_right worst
      have h₃ : (best r n l ++ m ++ worst).Perm (best r n l ++ worst ++ m) := by
        rw [List.append_assoc, List.append_assoc]
        exact List.perm_append_comm.append_left _
      have h₄ : (best r n l ++ worst ++ m).Perm (l ++ m) := by
        have : best r n l ++ worst = l.insertionSort r := List.take_append_drop n _
        rw [this]
        exact (List.perm_insertionSort r l).append_right m
      exact ((h₁.trans h₂).trans h₃).trans h₄
    have hsort : y = (l ++ m).insertionSort r := by
      rw [← h.insertionSort_eq hyp]
      exact hys.insertionSort_eq.symm
    change x.take n = ((l ++ m).insertionSort r).take n
    rw [← hsort, List.take_append_of_le_length (by rw [List.length_take]; omega), List.take_take, Nat.min_self]

end Raveil.Lib
