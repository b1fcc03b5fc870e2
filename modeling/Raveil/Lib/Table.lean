import Mathlib.Data.List.Nodup
import Mathlib.Logic.Function.Basic

/-! Loops that update a table, each iteration at most at one index. -/
namespace Raveil.Lib

variable {ι κ α : Type} [DecidableEq κ]

/-- One iteration: change the entry at the target, if there is one. -/
def updateAt (target : ι → Option κ) (change : ι → α → α) (table : κ → α) (a : ι) : κ → α :=
  match target a with
  | none => table
  | some i => Function.update table i (change a (table i))

variable {target : ι → Option κ} {change : ι → α → α} {table : κ → α} {l : List ι} {i : κ}

theorem updateAt_of_ne {a : ι} (h : target a ≠ some i) :
    updateAt target change table a i = table i := by
  unfold updateAt
  cases ht : target a with
  | none => rfl
  | some j =>
    apply Function.update_of_ne
    rintro rfl
    exact h ht

/-- An entry that no iteration targets is left alone. -/
theorem foldl_updateAt_of_ne (h : ∀ a ∈ l, target a ≠ some i) :
    l.foldl (updateAt target change) table i = table i := by
  induction l generalizing table with
  | nil => rfl
  | cons a l ih =>
    rw [List.forall_mem_cons] at h
    rw [List.foldl_cons, ih h.2, updateAt_of_ne h.1]

/-- An entry that exactly one iteration targets is changed once. -/
theorem foldl_updateAt_of_eq {a : ι} (hl : l.Nodup) (ha : a ∈ l) (ht : target a = some i)
    (hu : ∀ b ∈ l, target b = some i → b = a) :
    l.foldl (updateAt target change) table i = change a (table i) := by
  induction l generalizing table with
  | nil => cases ha
  | cons b l ih =>
    rw [List.nodup_cons] at hl
    rw [List.forall_mem_cons] at hu
    rw [List.foldl_cons]
    by_cases hb : b = a
    · subst hb
      have hrest : ∀ c ∈ l, target c ≠ some i := by
        intro c hc hti
        obtain rfl := hu.2 c hc hti
        exact hl.1 hc
      rw [foldl_updateAt_of_ne hrest, updateAt, ht]
      exact Function.update_self _ _ _
    · have hne : target b ≠ some i := fun hti => hb (hu.1 hti)
      have hal : a ∈ l := by
        rcases List.mem_cons.mp ha with rfl | h
        · exact absurd rfl hb
        · exact h
      rw [ih hl.2 hal hu.2, updateAt_of_ne hne]

end Raveil.Lib
