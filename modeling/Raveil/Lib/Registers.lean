import Mathlib.Data.Finset.Card
import Mathlib.Data.List.Sort
import Mathlib.Logic.Function.Basic

/-! A pool of registers: live names hold disjoint registers, the others are free. -/
namespace Raveil.Lib

variable {ι : Type}

structure Pool (ι : Type) where
  registers : ι → Option ℕ
  free : List ℕ

/-- `free.append(registers.pop(x))`, with the register it holds. -/
def Pool.release [DecidableEq ι] (p : Pool ι) (x : ι) (r : ℕ) : Pool ι where
  registers := Function.update p.registers x none
  free := p.free ++ [r]

/-- The name takes the register `d` and leaves `free`. -/
def Pool.take [DecidableEq ι] (p : Pool ι) (x : ι) (d : ℕ) (free : List ℕ) : Pool ι where
  registers := Function.update p.registers x (some d)
  free := free

/-- Exactly the names of `live` hold one of the `size` registers. -/
structure Pool.Ok (size : ℕ) (live : Finset ι) (p : Pool ι) : Prop where
  held : ∀ x, (p.registers x).isSome ↔ x ∈ live
  lt : ∀ x r, p.registers x = some r → r < size
  inj : ∀ x y r, p.registers x = some r → p.registers y = some r → x = y
  freeLt : ∀ r ∈ p.free, r < size
  freeNodup : p.free.Nodup
  disjoint : ∀ x r, p.registers x = some r → r ∉ p.free
  count : live.card + p.free.length = size

variable {size r d : ℕ} {live : Finset ι} {p : Pool ι} {x : ι}

theorem Pool.ok_initial (size : ℕ) : Pool.Ok size (∅ : Finset ι) ⟨fun _ => none, List.range size⟩ where
  held := by simp
  lt := by simp
  inj := by simp
  freeLt := by simp
  freeNodup := List.nodup_range
  disjoint := by simp
  count := by simp

theorem Pool.Ok.exists_register (h : p.Ok size live) (hx : x ∈ live) : ∃ r, p.registers x = some r :=
  Option.isSome_iff_exists.mp ((h.held x).mpr hx)

variable [DecidableEq ι]

theorem Pool.Ok.release (h : p.Ok size live) (hr : p.registers x = some r) :
    (p.release x r).Ok size (live.erase x) := by
  have hmem : x ∈ live := (h.held x).mp (by simp [hr])
  have hold : ∀ y q, (p.release x r).registers y = some q → y ≠ x ∧ p.registers y = some q := by
    intro y q hq
    by_cases hy : y = x
    · simp [Pool.release, hy] at hq
    · exact ⟨hy, by simpa [Pool.release, Function.update_of_ne hy] using hq⟩
  constructor
  · intro y
    by_cases hy : y = x
    · simp [Pool.release, hy]
    · simpa [Pool.release, Function.update_of_ne hy, hy] using h.held y
  · exact fun y q hq => h.lt y q (hold y q hq).2
  · exact fun y z q hy hz => h.inj y z q (hold y q hy).2 (hold z q hz).2
  · intro q hq
    rcases List.mem_append.mp hq with hq | hq
    · exact h.freeLt q hq
    · obtain rfl : q = r := by simpa using hq
      exact h.lt x q hr
  · refine List.nodup_append.mpr ⟨h.freeNodup, by simp, ?_⟩
    rintro a ha b hb rfl
    obtain rfl : a = r := by simpa using hb
    exact h.disjoint x a hr ha
  · intro y q hq hm
    obtain ⟨hy, hyq⟩ := hold y q hq
    rcases List.mem_append.mp hm with hm | hm
    · exact h.disjoint y q hyq hm
    · obtain rfl : q = r := by simpa using hm
      exact hy (h.inj y x q hyq hr)
  · have hcard := Finset.card_erase_add_one hmem
    have hcount := h.count
    simp only [Pool.release, List.length_append, List.length_singleton]
    omega

theorem Pool.Ok.take {free : List ℕ} (h : p.Ok size live) (hx : x ∉ live)
    (hp : (d :: free).Perm p.free) : (p.take x d free).Ok size (insert x live) := by
  have hdisj : ∀ y q, p.registers y = some q → q ≠ d ∧ q ∉ free := by
    intro y q hq
    have := h.disjoint y q hq
    rw [← hp.mem_iff, List.mem_cons, not_or] at this
    exact this
  have hold : ∀ y q, (p.take x d free).registers y = some q →
      (y = x ∧ q = d) ∨ (y ≠ x ∧ p.registers y = some q) := by
    intro y q hq
    by_cases hy : y = x
    · subst hy
      have hdq : d = q := by simpa [Pool.take] using hq
      exact Or.inl ⟨rfl, hdq.symm⟩
    · exact Or.inr ⟨hy, by simpa [Pool.take, Function.update_of_ne hy] using hq⟩
  have hnodup := hp.nodup_iff.mpr h.freeNodup
  have hlt : ∀ q ∈ d :: free, q < size := fun q hq => h.freeLt q (hp.mem_iff.mp hq)
  constructor
  · intro y
    by_cases hy : y = x
    · simp [Pool.take, hy]
    · simpa [Pool.take, Function.update_of_ne hy, hy] using h.held y
  · intro y q hq
    rcases hold y q hq with ⟨-, rfl⟩ | ⟨-, hq⟩
    · exact hlt q (by simp)
    · exact h.lt y q hq
  · intro y z q hy hz
    rcases hold y q hy with ⟨rfl, rfl⟩ | ⟨-, hy'⟩ <;> rcases hold z _ hz with ⟨rfl, hq⟩ | ⟨-, hz'⟩
    · rfl
    · exact absurd rfl (hdisj z _ hz').1
    · exact absurd hq (hdisj y _ hy').1
    · exact h.inj y z q hy' hz'
  · exact fun q hq => hlt q (by simp [show q ∈ free from hq])
  · exact (List.nodup_cons.mp hnodup).2
  · intro y q hq
    rcases hold y q hq with ⟨-, rfl⟩ | ⟨-, hq⟩
    · exact (List.nodup_cons.mp hnodup).1
    · exact (hdisj y q hq).2
  · have hlen := hp.length_eq
    have hcount := h.count
    rw [Finset.card_insert_of_notMem hx]
    simp only [List.length_cons, Pool.take] at hlen ⊢
    omega

/-- The taken register is new to every other name. -/
theorem Pool.Ok.take_ne {free : List ℕ} {y : ι} {q : ℕ} (h : p.Ok size live)
    (hp : (d :: free).Perm p.free) (hy : y ≠ x) (hq : (p.take x d free).registers y = some q) :
    q ≠ d ∧ p.registers y = some q := by
  have hreg : p.registers y = some q := by simpa [Pool.take, Function.update_of_ne hy] using hq
  refine ⟨?_, hreg⟩
  rintro rfl
  exact h.disjoint y q hreg (hp.mem_iff.mp (by simp))

end Raveil.Lib
