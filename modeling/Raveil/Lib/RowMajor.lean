import Mathlib.Data.List.Range
import Mathlib.Data.List.TakeDrop

/-! Row-major order: two nested loops are one loop over the linear index. -/
namespace Raveil.Lib

variable {α σ : Type}

theorem range_mul_succ (m n : ℕ) :
    List.range ((m + 1) * n) = List.range (m * n) ++ (List.range n).map (m * n + ·) := by
  rw [Nat.succ_mul, List.range_add]

theorem div_row {m n j : ℕ} (hj : j < n) : (m * n + j) / n = m := by
  rw [Nat.mul_comm, Nat.mul_add_div (by omega), Nat.div_eq_of_lt hj, Nat.add_zero]

theorem mod_row {m n j : ℕ} (hj : j < n) : (m * n + j) % n = j := by
  rw [Nat.mul_comm, Nat.mul_add_mod, Nat.mod_eq_of_lt hj]

theorem foldlM_rowMajor {M : Type → Type} [Monad M] [LawfulMonad M] (f : σ → ℕ → ℕ → M σ)
    (m n : ℕ) (s : σ) :
    (List.range m).foldlM (fun s i => (List.range n).foldlM (fun s j => f s i j) s) s =
      (List.range (m * n)).foldlM (fun s t => f s (t / n) (t % n)) s := by
  induction m with
  | zero => simp
  | succ m ih =>
    rw [List.range_succ, List.foldlM_append, ih, range_mul_succ, List.foldlM_append]
    congr 1
    funext s
    simp only [List.foldlM_cons, List.foldlM_nil, bind_pure, List.foldlM_map]
    have hlist : ∀ l : List ℕ, (∀ j ∈ l, j < n) → ∀ s, l.foldlM (fun s j => f s m j) s =
        l.foldlM (fun s j => f s ((m * n + j) / n) ((m * n + j) % n)) s := by
      intro l
      induction l with
      | nil => simp
      | cons j l ihl =>
        intro h s
        have hj := h j (by simp)
        rw [List.foldlM_cons, List.foldlM_cons, div_row hj, mod_row hj]
        congr 1
        funext s
        exact ihl (fun k hk => h k (by simp [hk])) s
    exact hlist _ (by simp) s

theorem foldlM_flatMap {β : Type} {M : Type → Type} [Monad M] [LawfulMonad M] (f : σ → β → M σ)
    (g : α → List β) (l : List α) (s : σ) :
    (l.flatMap g).foldlM f s = l.foldlM (fun s a => (g a).foldlM f s) s := by
  induction l generalizing s with
  | nil => rfl
  | cons a l ih =>
    rw [List.flatMap_cons, List.foldlM_append, List.foldlM_cons]
    exact bind_congr fun t => ih t

theorem foldlM_congr {ε : Type} {f g : σ → α → Except ε σ} {l : List α} (h : ∀ s, ∀ a ∈ l, f s a = g s a)
    (s : σ) : l.foldlM f s = l.foldlM g s := by
  induction l generalizing s with
  | nil => rfl
  | cons a l ih =>
    rw [List.foldlM_cons, List.foldlM_cons, h s a List.mem_cons_self]
    exact bind_congr fun t => ih (fun s b hb => h s b (List.mem_cons_of_mem a hb)) t

theorem flatMap_rowMajor (f : ℕ → ℕ → α) (m n : ℕ) :
    (List.range m).flatMap (fun i => (List.range n).map (f i)) =
      (List.range (m * n)).map fun t => f (t / n) (t % n) := by
  induction m with
  | zero => simp
  | succ m ih =>
    rw [List.range_succ, List.flatMap_append, ih, range_mul_succ, List.map_append]
    congr 1
    simp only [List.flatMap_cons, List.flatMap_nil, List.append_nil, List.map_map]
    apply List.map_congr_left
    intro j hj
    rw [List.mem_range] at hj
    simp [div_row hj, mod_row hj]

/-- Writing one cell after another leaves the written words in front of the untouched rest. -/
theorem set_written (f : ℕ → α) (output : List α) {n : ℕ} (h : n < output.length) :
    ((List.range n).map f ++ output.drop n).set n (f n) =
      (List.range (n + 1)).map f ++ output.drop (n + 1) := by
  rw [List.set_append_right _ _ (by simp), List.range_succ, List.map_append,
    List.append_assoc, List.length_map, List.length_range, Nat.sub_self,
    List.drop_eq_getElem_cons h, List.set_cons_zero]
  rfl

end Raveil.Lib
