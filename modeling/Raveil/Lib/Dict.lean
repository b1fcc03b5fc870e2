import Mathlib.Data.List.Basic
import Mathlib.Data.List.Nodup
import Mathlib.Data.List.Flatten
import Mathlib.Algebra.Order.Ring.Int
import Mathlib.Tactic.Linarith

/-! Insertion-ordered dictionaries, Python list indexing and rows of equal length. -/
namespace Raveil.Lib

variable {κ α β : Type}

/-- A dictionary in insertion order; no key occurs twice. -/
structure Dict (κ α : Type) where
  entries : List (κ × α)
  nodup : (entries.map Prod.fst).Nodup

namespace Dict

def keys (d : Dict κ α) : List κ := d.entries.map Prod.fst

def values (d : Dict κ α) : List α := d.entries.map Prod.snd

def size (d : Dict κ α) : ℕ := d.entries.length

def get? [DecidableEq κ] (d : Dict κ α) (k : κ) : Option α :=
  (d.entries.find? fun e => e.1 = k).map Prod.snd

/-- The same keys with other values. -/
def mapValues (d : Dict κ α) (f : α → β) : Dict κ β where
  entries := d.entries.map fun e => (e.1, f e.2)
  nodup := by
    rw [List.map_map]
    exact d.nodup

instance [DecidableEq κ] [DecidableEq α] : DecidableEq (Dict κ α) := fun a b =>
  decidable_of_iff (a.entries = b.entries) ⟨fun h => by cases a; cases b; simp_all, fun h => by rw [h]⟩

variable {d : Dict κ α} {k : κ}

theorem length_values : d.values.length = d.size := by
  simp [values, size]

@[simp] theorem keys_mapValues (f : α → β) : (d.mapValues f).keys = d.keys := by
  simp [keys, mapValues]

variable [DecidableEq κ]

/-- A key is looked up at its own position. -/
theorem values_idxOf {v : α} (h : d.get? k = some v) :
    d.keys.idxOf k < d.size ∧ d.values[d.keys.idxOf k]? = some v := by
  unfold get? at h
  unfold keys values size
  generalize d.entries = l at h ⊢
  induction l with
  | nil => simp at h
  | cons e l ih =>
    by_cases he : e.1 = k
    · simpa [he] using h
    · have hne : (e.1 == k) = false := by simp [he]
      simp only [List.find?_cons, he, decide_false] at h
      have := ih h
      simp only [List.map_cons, List.idxOf_cons, hne, cond_false, List.length_cons,
        List.getElem?_cons_succ]
      exact ⟨by omega, this.2⟩

theorem get?_isSome : (d.get? k).isSome ↔ k ∈ d.keys := by
  simp [get?, keys]

@[simp] theorem get?_mapValues (f : α → β) : (d.mapValues f).get? k = (d.get? k).map f := by
  change ((d.entries.map fun e => (e.1, f e.2)).find? fun e => e.1 = k).map Prod.snd =
    ((d.entries.find? fun e => e.1 = k).map Prod.snd).map f
  induction d.entries with
  | nil => rfl
  | cons e l ih =>
    by_cases he : e.1 = k
    · simp [he]
    · simpa [List.find?_cons, he] using ih

end Dict

/-- Item assignment on the entries of a dictionary: a key that is there keeps its place. -/
def assign [DecidableEq κ] (k : κ) (v : α) : List (κ × α) → List (κ × α)
  | [] => [(k, v)]
  | e :: l => if e.1 = k then (k, v) :: l else e :: assign k v l

theorem lookup_cons_eq_if [DecidableEq κ] {k : κ} {e : κ × α} {l : List (κ × α)} :
    (e :: l).lookup k = if k = e.1 then some e.2 else l.lookup k := by
  rw [List.lookup_cons]
  by_cases h : k = e.1
  · simp [h]
  · simp [h, beq_eq_false_iff_ne.mpr h]

theorem lookup_assign [DecidableEq κ] {k k' : κ} {v : α} {l : List (κ × α)} :
    (assign k v l).lookup k' = if k' = k then some v else l.lookup k' := by
  induction l with
  | nil => simp [assign, lookup_cons_eq_if]
  | cons e l ih =>
    by_cases he : e.1 = k
    · by_cases h : k' = k <;> simp [assign, lookup_cons_eq_if, he, h]
    · by_cases h : k' = k
      · subst h
        simp [assign, lookup_cons_eq_if, he, ih, Ne.symm he]
      · simp [assign, lookup_cons_eq_if, he, ih, h]

/-- The keys of the entries are those that are looked up. -/
theorem exists_key_iff [DecidableEq κ] {k : κ} {l : List (κ × α)} :
    (∃ e ∈ l, e.1 = k) ↔ l.lookup k ≠ none := by
  induction l with
  | nil => simp
  | cons e l ih =>
    rw [lookup_cons_eq_if, List.exists_mem_cons_iff, ih]
    by_cases h : k = e.1
    · simp [h]
    · simp [h, Ne.symm h]

/-- Python indexing: a negative index counts from the end, and `none` is `IndexError`. -/
def pyGet? (l : List α) (n : ℤ) : Option α :=
  if 0 ≤ n then l[n.toNat]? else if 0 ≤ (l.length : ℤ) + n then l[((l.length : ℤ) + n).toNat]? else none

/-- Python item assignment, with the same indices. -/
def pySet? (l : List α) (n : ℤ) (v : α) : Option (List α) :=
  let k := if 0 ≤ n then n else (l.length : ℤ) + n
  if 0 ≤ k ∧ k < l.length then some (l.set k.toNat v) else none

theorem pySet?_natCast {l : List α} {n : ℕ} (h : n < l.length) (v : α) :
    pySet? l n v = some (l.set n v) := by
  simp [pySet?, h]

theorem pyGet?_natCast (l : List α) (n : ℕ) : pyGet? l n = l[n]? := by
  simp [pyGet?]

/-- In a concatenation of rows of `n` entries, entry `j` of row `i` stands at `n * i + j`. -/
theorem getElem?_flatten_rows {rows : List (List α)} {n : ℕ} (h : ∀ r ∈ rows, r.length = n)
    {i j : ℕ} (hj : j < n) : rows.flatten[n * i + j]? = (rows[i]?).bind fun r => r[j]? := by
  induction rows generalizing i with
  | nil => simp
  | cons r rows ih =>
    have hr := h r (by simp)
    cases i with
    | zero => simp [List.getElem?_append_left (show j < r.length by omega)]
    | succ i =>
      rw [List.flatten_cons, List.getElem?_append_right (by rw [hr]; nlinarith), hr,
        show n * (i + 1) + j - n = n * i + j by rw [Nat.mul_succ]; omega,
        ih (fun r hr => h r (by simp [hr]))]
      simp

theorem length_flatten_rows {rows : List (List α)} {n : ℕ} (h : ∀ r ∈ rows, r.length = n) :
    rows.flatten.length = n * rows.length := by
  induction rows with
  | nil => simp
  | cons r rows ih =>
    rw [List.flatten_cons, List.length_append, h r (by simp), ih fun r hr => h r (by simp [hr]),
      List.length_cons, Nat.mul_succ, Nat.add_comm]

end Raveil.Lib
