import Mathlib.Data.Nat.Digits.Lemmas
import Mathlib.Data.Nat.Digits.Defs

/-! Decimal text of a natural number and the reading of it. -/
namespace Raveil.Lib.Decimal

def digit (d : ℕ) : Char := Char.ofNat (48 + d)

def isDigit (c : Char) : Bool := '0' ≤ c && c ≤ '9'

/-- The digits of a number, most significant first. -/
def print (n : ℕ) : List Char := if n = 0 then ['0'] else ((Nat.digits 10 n).map digit).reverse

/-- The number that a list of digits says. -/
def read (chars : List Char) : ℕ := chars.foldl (fun value c => 10 * value + (c.toNat - 48)) 0

section Digits

theorem isDigit_digit {d : ℕ} (hd : d < 10) : isDigit (digit d) = true := by
  interval_cases d <;> decide

theorem toNat_digit {d : ℕ} (hd : d < 10) : (digit d).toNat - 48 = d := by
  interval_cases d <;> decide

theorem digit_ne_zero {d : ℕ} (hd : d < 10) (h : d ≠ 0) : '1' ≤ digit d ∧ digit d ≤ '9' := by
  interval_cases d
  · exact absurd rfl h
  all_goals decide

end Digits

theorem digits_lt {n d : ℕ} (h : d ∈ Nat.digits 10 n) : d < 10 := Nat.digits_lt_base (by omega) h

theorem isDigit_of_mem_print {n : ℕ} {c : Char} (h : c ∈ print n) : isDigit c = true := by
  unfold print at h
  split at h
  · obtain rfl := List.mem_singleton.mp h
    decide
  · rw [List.mem_reverse, List.mem_map] at h
    obtain ⟨d, hd, rfl⟩ := h
    exact isDigit_digit (digits_lt hd)

theorem print_ne_nil (n : ℕ) : print n ≠ [] := by
  unfold print
  split
  · exact List.cons_ne_nil _ _
  · rename_i hn
    have := Nat.digits_ne_nil_iff_ne_zero (b := 10).mpr hn
    simpa using this

/-- A printed number reads back. -/
theorem read_print (n : ℕ) : read (print n) = n := by
  unfold read print
  split
  · rename_i hn
    rw [hn]
    rfl
  · rw [List.foldl_reverse, List.foldr_map]
    refine Eq.trans ?_ (Nat.ofDigits_digits 10 n)
    rw [Nat.ofDigits_eq_foldr]
    have hall : ∀ l : List ℕ, (∀ d ∈ l, d < 10) →
        l.foldr (fun d value => 10 * value + ((digit d).toNat - 48)) 0 =
          l.foldr (fun d value => ((d : ℕ) : ℕ) + 10 * value) 0 := by
      intro l hl
      induction l with
      | nil => rfl
      | cons d l ih =>
        rw [List.forall_mem_cons] at hl
        rw [List.foldr_cons, List.foldr_cons, ih hl.2, toNat_digit hl.1, Nat.add_comm]
    exact hall _ fun d hd => digits_lt hd

/-- A positive number starts with a nonzero digit. -/
theorem print_cons {n : ℕ} (hn : n ≠ 0) :
    ∃ c rest, print n = c :: rest ∧ '1' ≤ c ∧ c ≤ '9' ∧ ∀ x ∈ rest, isDigit x = true := by
  cases hp : print n with
  | nil => exact absurd hp (print_ne_nil n)
  | cons c rest =>
    have hdigits := Nat.digits_ne_nil_iff_ne_zero (b := 10).mpr hn
    have hlast : c = digit ((Nat.digits 10 n).getLast hdigits) := by
      unfold print at hp
      rw [if_neg hn] at hp
      have := congrArg List.head? hp
      rw [List.head?_reverse, List.getLast?_map, List.getLast?_eq_getLast_of_ne_nil hdigits] at this
      simpa using this.symm
    obtain ⟨h1, h9⟩ := digit_ne_zero (digits_lt (List.getLast_mem hdigits)) (Nat.getLast_digit_ne_zero 10 hn)
    refine ⟨c, rest, rfl, by rwa [hlast], by rwa [hlast], fun x hx => ?_⟩
    exact isDigit_of_mem_print (n := n) (by rw [hp]; exact List.mem_cons_of_mem c hx)

theorem length_print_le {n k : ℕ} (hk : 0 < k) (hn : n < 10 ^ k) : (print n).length ≤ k := by
  unfold print
  split
  · exact hk
  · rw [List.length_reverse, List.length_map]
    exact (Nat.digits_length_le_iff (by omega) n).mpr hn

end Raveil.Lib.Decimal
