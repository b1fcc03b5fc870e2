import Mathlib.Order.Interval.Finset.Nat

/-! Fresh names: a prefix and the first number that is not in use. -/
namespace Raveil.Lib

/-- A prefix and a number. -/
def numbered (stem : String) (n : ℕ) : String := stem ++ toString n

/-- The digits of a number say which it is. -/
theorem ofDigitChars_toString (n : ℕ) : Nat.ofDigitChars 10 (toString n).toList 0 = n := by
  rw [Nat.toString_eq_repr, Nat.toList_repr]
  exact Nat.ofDigitChars_ten_toDigits

theorem numbered_injective (stem : String) : Function.Injective (numbered stem) := by
  intro m n h
  have hlist := congrArg String.toList h
  rw [numbered, numbered, String.toList_append, String.toList_append] at hlist
  rw [← ofDigitChars_toString m, ← ofDigitChars_toString n, List.append_cancel_left hlist]

/-- A prefix and a number with zeros in front, up to a width. -/
def padded (stem : String) (width n : ℕ) : String :=
  stem ++ String.ofList (List.replicate (width - (toString n).length) '0') ++ toString n

theorem padded_injective (stem : String) (width : ℕ) : Function.Injective (padded stem width) := by
  intro m n h
  -- the zeros are of no matter to the number that the digits say
  have hread (k : ℕ) : Nat.ofDigitChars 10 (List.replicate (width - (toString k).length) '0' ++ (toString k).toList) 0 = k := by
    rw [Nat.ofDigitChars_append, Nat.ofDigitChars_replicate_zero, Nat.mul_zero, ofDigitChars_toString]
  have hlist := congrArg String.toList h
  simp only [padded, String.toList_append, String.toList_ofList, List.append_assoc] at hlist
  have hdigits := List.append_cancel_left hlist
  rw [← hread m, ← hread n, hdigits]

variable {α : Type} [DecidableEq α]

/-- The search for an unused name from a number on, over so many numbers. -/
def firstUnused (name : ℕ → α) (used : Finset α) : ℕ → ℕ → ℕ
  | 0, n => n
  | fuel + 1, n => if name n ∈ used then firstUnused name used fuel (n + 1) else n

variable {name : ℕ → α} {used : Finset α}

theorem firstUnused_spec (name : ℕ → α) (used : Finset α) (fuel n : ℕ) :
    (∀ k, n ≤ k → k < firstUnused name used fuel n → name k ∈ used) ∧
      (name (firstUnused name used fuel n) ∈ used → firstUnused name used fuel n = n + fuel) := by
  induction fuel generalizing n with
  | zero => exact ⟨fun k hk hlt => absurd hlt (by rw [firstUnused]; omega), fun _ => rfl⟩
  | succ fuel ih =>
    rw [firstUnused]
    split
    · rename_i hn
      obtain ⟨hbefore, hat⟩ := ih (n + 1)
      refine ⟨fun k hk hlt => ?_, fun h => by rw [hat h]; omega⟩
      by_cases heq : k = n
      · exact heq ▸ hn
      · exact hbefore k (by omega) hlt
    · rename_i hn
      exact ⟨fun k hk hlt => by omega, fun h => absurd h hn⟩

/-- More numbers than names in use: one of them is free. -/
theorem firstUnused_not_mem (hname : Function.Injective name) (n : ℕ) :
    name (firstUnused name used (used.card + 1) n) ∉ used := by
  intro hused
  obtain ⟨hbefore, hat⟩ := firstUnused_spec name used (used.card + 1) n
  have heq := hat hused
  have hsub : (Finset.Ico n (n + (used.card + 1))).image name ⊆ used := by
    intro x hx
    obtain ⟨k, hk, rfl⟩ := Finset.mem_image.mp hx
    rw [Finset.mem_Ico] at hk
    exact hbefore k hk.1 (heq ▸ hk.2)
  have hcard := Finset.card_le_card hsub
  rw [Finset.card_image_of_injective _ hname, Nat.card_Ico] at hcard
  omega

end Raveil.Lib
