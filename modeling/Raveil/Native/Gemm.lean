import Raveil.Native.Kernels
import Mathlib.Algebra.BigOperators.Intervals
import Mathlib.Tactic.Linarith

/-! Every loop nest of a matrix product adds the same terms in the same order. -/
namespace Raveil.Native

open Lib

/-- The first `q` terms of entry `(i, j)` of the product. -/
def dot (a b : List ℤ) (n k i j q : ℕ) : ℤ :=
  ∑ p ∈ Finset.range q, a.getD (i * k + p) 0 * b.getD (p * n + j) 0

/-- The arrays of a product of an `m × k` and a `k × n` matrix none of whose sums overflows. -/
structure Bounded (a b : List ℤ) (m n k : ℕ) : Prop where
  left : a.length = m * k
  right : b.length = k * n
  product : ∀ i < m, ∀ j < n, ∀ p < k, InInt64 (a.getD (i * k + p) 0 * b.getD (p * n + j) 0)
  sum : ∀ i < m, ∀ j < n, ∀ q ≤ k, InInt64 (dot a b n k i j q)

/-- Entries of a matrix in the front of an array; the others are not known. -/
structure Holds (m n size : ℕ) (c : List ℤ) (v : ℕ → ℕ → Option ℤ) : Prop where
  length : c.length = size
  room : m * n ≤ size
  entry : ∀ i < m, ∀ j < n, ∀ w, v i j = some w → (c)[i * n + j]? = some w

variable {a b c : List ℤ} {m n k size i j p : ℕ} {v v' : ℕ → ℕ → Option ℤ}

theorem index_lt (hi : i < m) (hj : j < n) : i * n + j < m * n := by
  have : (i + 1) * n ≤ m * n := Nat.mul_le_mul_right n hi
  rw [Nat.succ_mul] at this
  omega

theorem index_inj {i' j' : ℕ} (hj : j < n) (hj' : j' < n) (h : i * n + j = i' * n + j') : i = i' ∧ j = j' := by
  have hdiv : (i * n + j) / n = (i' * n + j') / n := by rw [h]
  rw [Nat.mul_comm i, Nat.mul_comm i', Nat.mul_add_div (by omega), Nat.mul_add_div (by omega), Nat.div_eq_of_lt hj,
    Nat.div_eq_of_lt hj', Nat.add_zero, Nat.add_zero] at hdiv
  subst hdiv
  exact ⟨rfl, by omega⟩

theorem Bounded.left_entry (h : Bounded a b m n k) (hi : i < m) (hp : p < k) :
    a[i * k + p]? = some (a.getD (i * k + p) 0) := by
  have hlt : i * k + p < a.length := h.left ▸ index_lt hi hp
  simp [List.getElem?_eq_getElem hlt]

theorem Bounded.right_entry (h : Bounded a b m n k) (hp : p < k) (hj : j < n) :
    b[p * n + j]? = some (b.getD (p * n + j) 0) := by
  have hlt : p * n + j < b.length := h.right ▸ index_lt hp hj
  simp [List.getElem?_eq_getElem hlt]

/-- One more term, without overflow. -/
theorem Bounded.accumulate (h : Bounded a b m n k) (hi : i < m) (hj : j < n) (hp : p < k) :
    accumulate (dot a b n k i j p) (a.getD (i * k + p) 0) (b.getD (p * n + j) 0) = some (dot a b n k i j (p + 1)) := by
  have hsum : dot a b n k i j (p + 1) = dot a b n k i j p + a.getD (i * k + p) 0 * b.getD (p * n + j) 0 :=
    Finset.sum_range_succ _ _
  have hnext := h.sum i hi j hj (p + 1) hp
  rw [hsum] at hnext ⊢
  simp only [Native.accumulate, int64, if_pos (h.product i hi j hj p hp), if_pos hnext, Option.bind_eq_bind,
    Option.bind_some]

namespace Holds

theorem congr (h : Holds m n size c v) (hv : ∀ i < m, ∀ j < n, v' i j = v i j ∨ v' i j = none) :
    Holds m n size c v' := by
  refine ⟨h.length, h.room, fun i hi j hj w hw => ?_⟩
  rcases hv i hi j hj with heq | hnone
  · exact h.entry i hi j hj w (heq ▸ hw)
  · rw [hnone] at hw
    cases hw

/-- An entry is stored, the others stay. -/
theorem store (h : Holds m n size c v) (hi : i < m) (hj : j < n) (w : ℤ) :
    ∃ c', store c (i * n + j) w = some c' ∧
      Holds m n size c' fun i' j' => if i' = i ∧ j' = j then some w else v i' j' := by
  have hlt : i * n + j < c.length := by
    have := index_lt hi hj
    have := h.length
    have := h.room
    omega
  refine ⟨c.set (i * n + j) w, if_pos hlt, by rw [List.length_set, h.length], h.room, fun i' hi' j' hj' u hu => ?_⟩
  by_cases heq : i' = i ∧ j' = j
  · obtain ⟨rfl, rfl⟩ := heq
    simp only [and_self, if_true, Option.some.injEq] at hu
    rw [List.getElem?_set_self hlt, hu]
  · rw [if_neg heq] at hu
    rw [List.getElem?_set_ne, h.entry i' hi' j' hj' u hu]
    intro hindex
    obtain ⟨rfl, rfl⟩ := index_inj hj hj' hindex
    exact heq ⟨rfl, rfl⟩

theorem zero (hsize : c.length = size) (hroom : m * n ≤ size) :
    ∃ c', zero c (m * n) = some c' ∧ Holds m n size c' fun _ _ => some 0 := by
  refine ⟨_, if_pos (hsize ▸ hroom), by simp only [List.length_append, List.length_replicate, List.length_drop]; omega,
    hroom, fun i hi j hj w hw => ?_⟩
  have hlt := index_lt hi hj
  rw [List.getElem?_append_left (by simpa using hlt), List.getElem?_replicate, if_pos hlt, hw]

/-- A loop that computes every entry by itself. -/
theorem each (h : Holds m n size c v) {body : ℕ → ℕ → List ℤ → Option (List ℤ)}
    (hbody : ∀ i < m, ∀ j < n, ∀ c u, Holds m n size c u → u i j = v i j →
      ∃ w c', v' i j = some w ∧ body i j c = some c' ∧ Native.store c (i * n + j) w = some c') :
    ∃ c', counted 0 m 1 (fun i c => counted 0 n 1 (fun j c => body i j c) c) c = some c' ∧
      Holds m n size c' v' := by
  refine counted_one_spec (fun i c => Holds m n size c fun i' j' => if i' < i then v' i' j' else v i' j')
    (Nat.zero_le m) (h.congr fun _ _ _ _ => Or.inl (if_neg (by omega))) (fun i c _ hi hI => ?_) fun c hI =>
      hI.congr fun i hi _ _ => Or.inl (if_pos hi).symm
  refine counted_one_spec (fun j c => Holds m n size c fun i' j' =>
      if i' < i ∨ i' = i ∧ j' < j then v' i' j' else v i' j') (Nat.zero_le n)
    (hI.congr fun i' _ j' _ => Or.inl (if_congr (by omega) rfl rfl)) (fun j c _ hj hJ => ?_) fun c hJ =>
      hJ.congr fun i' _ j' hj' => Or.inl (if_congr (by omega) rfl rfl)
  obtain ⟨w, c', hw, hc', hstored⟩ := hbody i hi j hj c _ hJ (if_neg (by omega))
  obtain ⟨c₁, hstore, h₁⟩ := hJ.store hi hj w
  rw [hstored, Option.some.injEq] at hstore
  subst hstore
  refine ⟨c', hc', h₁.congr fun i' _ j' _ => Or.inl ?_⟩
  by_cases heq : i' = i ∧ j' = j
  · obtain ⟨rfl, rfl⟩ := heq
    rw [if_pos (by omega), if_pos ⟨rfl, rfl⟩, hw]
  · rw [if_neg heq]
    exact if_congr (by omega) rfl rfl

end Holds

/-- Every entry holds so many of its terms. -/
def Progress (a b : List ℤ) (m n k size : ℕ) (c : List ℤ) (q : ℕ → ℕ → ℕ) : Prop :=
  Holds m n size c fun i j => some (dot a b n k i j (q i j))

theorem Progress.congr {q q' : ℕ → ℕ → ℕ} (h : Progress a b m n k size c q)
    (hq : ∀ i < m, ∀ j < n, q' i j = q i j) : Progress a b m n k size c q' :=
  Holds.congr h fun i hi j hj => Or.inl (by rw [hq i hi j hj])

theorem Progress.zero (hsize : c.length = size) (hroom : m * n ≤ size) :
    ∃ c', Native.zero c (m * n) = some c' ∧ Progress a b m n k size c' fun _ _ => 0 := by
  obtain ⟨c', hzero, h⟩ := Holds.zero hsize hroom
  exact ⟨c', hzero, h.congr fun _ _ _ _ => Or.inl rfl⟩

/-- An entry is given so many of its terms. -/
theorem Progress.store {q q' : ℕ → ℕ → ℕ} {x : ℕ} (hc : Progress a b m n k size c q) (hi : i < m) (hj : j < n)
    (hq : ∀ i' < m, ∀ j' < n, q' i' j' = if i' = i ∧ j' = j then x else q i' j') :
    ∃ c', store c (i * n + j) (dot a b n k i j x) = some c' ∧ Progress a b m n k size c' q' := by
  obtain ⟨c', hstore, hc'⟩ := Holds.store hc hi hj (dot a b n k i j x)
  refine ⟨c', hstore, hc'.congr fun i' hi' j' hj' => Or.inl ?_⟩
  rw [hq i' hi' j' hj']
  by_cases heq : i' = i ∧ j' = j
  · obtain ⟨rfl, rfl⟩ := heq
    simp
  · rw [if_neg heq, if_neg heq]

section Nests

variable (h : Bounded a b m n k)
include h

/-- A row of terms is added to the entries that wait for it. -/
theorem addRow_progress {q q' : ℕ → ℕ → ℕ} {lo hi : ℕ} (hc : Progress a b m n k size c q) (hi' : i < m) (hp : p < k)
    (hlo : lo ≤ hi) (hhi : hi ≤ n) (hq : ∀ j, lo ≤ j → j < hi → q i j = p)
    (hq' : ∀ i' < m, ∀ j' < n, q' i' j' = if i' = i ∧ lo ≤ j' ∧ j' < hi then p + 1 else q i' j') :
    ∃ c', addRow b n i p lo hi (a.getD (i * k + p) 0) c = some c' ∧ Progress a b m n k size c' q' := by
  refine counted_one_spec (fun j c => Progress a b m n k size c fun i' j' =>
    if i' = i ∧ lo ≤ j' ∧ j' < j then p + 1 else q i' j') hlo ?_ (fun j c hj hjhi hI => ?_) fun c hI => ?_
  · exact hc.congr fun i' _ j' _ => if_neg (by omega)
  · have hjn : j < n := by omega
    have hentry : (c)[i * n + j]? = some (dot a b n k i j p) := by
      have := hI.entry i hi' j hjn _ rfl
      simpa [hq j hj hjhi] using this
    rw [hentry, h.right_entry hp hjn]
    simp only [Option.bind_eq_bind, Option.bind_some, h.accumulate hi' hjn hp]
    apply Progress.store hI hi' hjn
    intro i' _ j' _
    split_ifs <;> omega
  · exact hI.congr hq'

/-- The inner loop over the terms of one entry. -/
theorem sum_dot {lo hi : ℕ} (hi' : i < m) (hj : j < n) (hlo : lo ≤ hi) (hhi : hi ≤ k) :
    ∃ sum, counted lo hi 1 (fun p sum => do accumulate sum (← a[i * k + p]?) (← b[p * n + j]?))
      (dot a b n k i j lo) = some sum ∧ sum = dot a b n k i j hi := by
  refine counted_one_spec (fun p sum => sum = dot a b n k i j p) hlo rfl (fun p sum _ hp hI => ?_) fun _ hI => hI
  subst hI
  refine ⟨_, ?_, rfl⟩
  rw [h.left_entry hi' (by omega), h.right_entry (by omega) hj]
  exact h.accumulate hi' hj (by omega)

/-- The terms of a block of columns, added to one row. -/
theorem row_progress {q q' : ℕ → ℕ → ℕ} {pp p₁ jj j₁ : ℕ} (hc : Progress a b m n k size c q) (hi : i < m)
    (hpp : pp ≤ p₁) (hp₁ : p₁ ≤ k) (hjj : jj ≤ j₁) (hj₁ : j₁ ≤ n) (hq : ∀ j, jj ≤ j → j < j₁ → q i j = pp)
    (hq' : ∀ i' < m, ∀ j' < n, q' i' j' = if i' = i ∧ jj ≤ j' ∧ j' < j₁ then p₁ else q i' j') :
    ∃ c', counted pp p₁ 1 (fun p c => do addRow b n i p jj j₁ (← a[i * k + p]?) c) c = some c' ∧
      Progress a b m n k size c' q' := by
  refine counted_one_spec (fun p c => Progress a b m n k size c fun i' j' =>
    if i' = i ∧ jj ≤ j' ∧ j' < j₁ then p else q i' j') hpp ?_ (fun p c _ hp hI => ?_) fun c hI => hI.congr hq'
  · refine hc.congr fun i' _ j' _ => ?_
    split_ifs with hmem
    · obtain ⟨rfl, hlo, hhi⟩ := hmem
      exact (hq j' hlo hhi).symm
    · rfl
  · rw [h.left_entry hi (by omega), Option.bind_eq_bind, Option.bind_some]
    apply addRow_progress h hI hi (by omega) hjj hj₁
    · intro j hlo hhi
      exact if_pos ⟨rfl, hlo, hhi⟩
    · intro i' _ j' _
      split_ifs <;> rfl

/-- The terms of a block of columns, added to a block of rows. -/
theorem block_progress {q q' : ℕ → ℕ → ℕ} {ii i₁ pp p₁ jj j₁ : ℕ} (hc : Progress a b m n k size c q)
    (hii : ii ≤ i₁) (hi₁ : i₁ ≤ m) (hpp : pp ≤ p₁) (hp₁ : p₁ ≤ k) (hjj : jj ≤ j₁) (hj₁ : j₁ ≤ n)
    (hq : ∀ i, ii ≤ i → i < i₁ → ∀ j, jj ≤ j → j < j₁ → q i j = pp)
    (hq' : ∀ i' < m, ∀ j' < n,
      q' i' j' = if (ii ≤ i' ∧ i' < i₁) ∧ jj ≤ j' ∧ j' < j₁ then p₁ else q i' j') :
    ∃ c', counted ii i₁ 1 (fun i c =>
        counted pp p₁ 1 (fun p c => do addRow b n i p jj j₁ (← a[i * k + p]?) c) c) c = some c' ∧
      Progress a b m n k size c' q' := by
  refine counted_one_spec (fun i c => Progress a b m n k size c fun i' j' =>
    if (ii ≤ i' ∧ i' < i) ∧ jj ≤ j' ∧ j' < j₁ then p₁ else q i' j') hii
    (hc.congr fun i' _ j' _ => if_neg (by omega)) (fun i c hlo hi hI => ?_) fun c hI => hI.congr hq'
  apply row_progress h hI (by omega) hpp hp₁ hjj hj₁
  · intro j hj hj'
    rw [if_neg (by omega)]
    exact hq i hlo hi j hj hj'
  · intro i' _ j' _
    split_ifs <;> first | rfl | omega

variable (hsize : c.length = size) (hroom : m * n ≤ size)
include hsize hroom

theorem gemmReference_progress :
    ∃ c', gemmReference a b m n k c = some c' ∧ Progress a b m n k size c' fun _ _ => k := by
  obtain ⟨c₀, hzero, h₀⟩ : ∃ c₀, zero c (m * n) = some c₀ ∧ Progress a b m n k size c₀ fun _ _ => 0 :=
    Progress.zero hsize hroom
  rw [gemmReference, hzero, Option.bind_eq_bind, Option.bind_some]
  refine Holds.each h₀ fun i hi j hj c u hc _ => ?_
  obtain ⟨sum, hsum, rfl⟩ := sum_dot h hi hj (Nat.zero_le k) le_rfl
  obtain ⟨c', hstore, -⟩ := hc.store hi hj (dot a b n k i j k)
  have hempty : dot a b n k i j 0 = 0 := Finset.sum_range_zero _
  rw [hempty] at hsum
  refine ⟨_, c', rfl, ?_, hstore⟩
  rw [hsum, Option.bind_eq_bind, Option.bind_some, hstore]

theorem gemmIkj_progress :
    ∃ c', gemmIkj a b m n k c = some c' ∧ Progress a b m n k size c' fun _ _ => k := by
  obtain ⟨c₀, hzero, h₀⟩ : ∃ c₀, zero c (m * n) = some c₀ ∧ Progress a b m n k size c₀ fun _ _ => 0 :=
    Progress.zero hsize hroom
  rw [gemmIkj, hzero, Option.bind_eq_bind, Option.bind_some]
  apply block_progress h h₀ (Nat.zero_le m) le_rfl (Nat.zero_le k) le_rfl (Nat.zero_le n) le_rfl
  · intro i' _ _ j' _ _
    rfl
  · intro i' hi j' hj
    rw [if_pos (by omega)]

theorem gemmTiled_progress {tile : ℕ} (htile : 0 < tile) :
    ∃ c', gemmTiled a b m n k tile c = some c' ∧ Progress a b m n k size c' fun _ _ => k := by
  obtain ⟨c₀, hzero, h₀⟩ : ∃ c₀, zero c (m * n) = some c₀ ∧ Progress a b m n k size c₀ fun _ _ => 0 :=
    Progress.zero hsize hroom
  rw [gemmTiled, hzero, Option.bind_eq_bind, Option.bind_some]
  refine counted_spec (fun ii c => Progress a b m n k size c fun i' _ => if i' < ii then k else 0) htile
    (Nat.zero_le m) (h₀.congr fun _ _ _ _ => if_neg (by omega)) (fun ii c _ hii hI => ?_) fun c hI =>
      hI.congr fun i hi _ _ => (if_pos hi).symm
  -- the rows of a block hold the terms before `pp`, in its columns before `jj` also those of the block
  refine counted_spec (fun pp c => Progress a b m n k size c fun i' _ =>
      if i' < ii then k else if i' < ii + tile then pp else 0) htile (Nat.zero_le k)
    (hI.congr fun i' hi' j' hj' => ?_) (fun pp c _ hpp hI => ?_) fun c hI => hI.congr fun i' hi' j' hj' => ?_
  · split_ifs <;> rfl
  · refine counted_spec (fun jj c => Progress a b m n k size c fun i' j' =>
        if i' < ii then k else if i' < ii + tile then if j' < jj then min (pp + tile) k else pp else 0) htile
      (Nat.zero_le n) (hI.congr fun i' hi' j' hj' => ?_) (fun jj c _ hjj hI => ?_) fun c hI =>
        hI.congr fun i' hi' j' hj' => ?_
    · rw [if_neg (Nat.not_lt_zero j')]
    · apply block_progress h hI (by omega) (by omega) (by omega) (by omega) (by omega) (by omega)
      · intro i' _ _ j' _ _
        rw [if_neg (by omega), if_pos (by omega), if_neg (by omega)]
      · intro i' hi' j' hj'
        split_ifs <;> omega
    · rw [if_pos hj']
  · split_ifs <;> omega

end Nests

end Raveil.Native
