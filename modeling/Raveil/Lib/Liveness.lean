import Mathlib.Data.List.Basic
import Mathlib.Data.List.Induction
import Mathlib.Data.List.Nodup
import Mathlib.Logic.Function.Basic

/-! Straight-line steps that write one key each and read others: where each key is last in use. -/
namespace Raveil.Lib

variable {σ κ : Type} [DecidableEq κ]

/-- Every key of a list is stamped with a position. -/
def stamp (last : κ → Option ℕ) (keys : List κ) (n : ℕ) : κ → Option ℕ :=
  keys.foldl (fun last k => Function.update last k (some n)) last

/-- Every step stamps its keys with its position. -/
def stampAll (keys : σ → List κ) (steps : List σ) (last : κ → Option ℕ) : κ → Option ℕ :=
  steps.zipIdx.foldl (fun last s => stamp last (keys s.1) s.2) last

variable (writes : σ → κ) (reads : σ → List κ)

/-- The position of the step that writes a key or reads it last; an output is in use to the end. -/
def lastUse (steps : List σ) (outputs : List κ) : κ → Option ℕ :=
  stamp (stampAll reads steps (stampAll (fun s => [writes s]) steps fun _ => none)) outputs steps.length

/-- A step reads what steps before it write, and no key is written twice. -/
structure Straight (steps : List σ) : Prop where
  nodup : (steps.map writes).Nodup
  earlier : ∀ (i : ℕ) s, steps[i]? = some s → ∀ k ∈ reads s, ∃ j < i, (steps.map writes)[j]? = some k

variable {writes reads} {keys : List κ} {key : σ → List κ} {steps : List σ} {outputs : List κ} {last : κ → Option ℕ}
  {k : κ} {n i m : ℕ} {s : σ}

theorem stamp_apply (last : κ → Option ℕ) (keys : List κ) (n : ℕ) (k : κ) :
    stamp last keys n k = if k ∈ keys then some n else last k := by
  induction keys generalizing last with
  | nil => rfl
  | cons x keys ih =>
    rw [stamp, List.foldl_cons]
    change stamp (Function.update last x (some n)) keys n k = _
    rw [ih]
    by_cases hx : k = x
    · subst hx
      simp
    · simp [hx]

theorem stampAll_concat (key : σ → List κ) (steps : List σ) (s : σ) (last : κ → Option ℕ) :
    stampAll key (steps ++ [s]) last = stamp (stampAll key steps last) (key s) steps.length := by
  unfold stampAll
  rw [List.zipIdx_append, List.foldl_append]
  simp

/-- The stamp of a key is the position of the last step that has it. -/
theorem stampAll_spec (key : σ → List κ) (steps : List σ) (last : κ → Option ℕ) (k : κ) :
    (∃ (i : ℕ) (s : σ), steps[i]? = some s ∧ k ∈ key s ∧ (∀ (j : ℕ) (s' : σ), steps[j]? = some s' → k ∈ key s' → j ≤ i) ∧
        stampAll key steps last k = some i) ∨
      (∀ s ∈ steps, k ∉ key s) ∧ stampAll key steps last k = last k := by
  induction steps using List.reverseRecOn with
  | nil =>
    right
    exact ⟨by simp, rfl⟩
  | append_singleton steps s ih =>
    rw [stampAll_concat, stamp_apply]
    by_cases hk : k ∈ key s
    · left
      refine ⟨steps.length, s, by simp, hk, ?_, if_pos hk⟩
      intro j s' hj _
      have := (List.getElem?_eq_some_iff.mp hj).1
      simp only [List.length_append, List.length_singleton] at this
      omega
    · rw [if_neg hk]
      rcases ih with ⟨i, s', hi, hin, hlast, heq⟩ | ⟨hnone, heq⟩
      · left
        have hlt := (List.getElem?_eq_some_iff.mp hi).1
        refine ⟨i, s', by rw [List.getElem?_append_left hlt, hi], hin, ?_, heq⟩
        intro j t hj ht
        by_cases hjlt : j < steps.length
        · rw [List.getElem?_append_left hjlt] at hj
          exact hlast j t hj ht
        · have hjle := (List.getElem?_eq_some_iff.mp hj).1
          simp only [List.length_append, List.length_singleton] at hjle
          obtain rfl : j = steps.length := by omega
          rw [List.getElem?_concat_length] at hj
          cases hj
          exact absurd ht hk
      · right
        refine ⟨?_, heq⟩
        intro t ht
        rcases List.mem_append.mp ht with ht | ht
        · exact hnone t ht
        · rw [List.mem_singleton.mp ht]
          exact hk

theorem lastUse_output (h : k ∈ outputs) : lastUse writes reads steps outputs k = some steps.length := by
  rw [lastUse, stamp_apply, if_pos h]

/-- A key is in use where it is written, or later. -/
theorem lastUse_write (h : Straight writes reads steps) (hi : steps[i]? = some s) :
    ∃ m, lastUse writes reads steps outputs (writes s) = some m ∧ i ≤ m := by
  have hlt := (List.getElem?_eq_some_iff.mp hi).1
  rw [lastUse, stamp_apply]
  by_cases ho : writes s ∈ outputs
  · exact ⟨steps.length, if_pos ho, by omega⟩
  · rw [if_neg ho]
    rcases stampAll_spec reads steps (stampAll (fun s => [writes s]) steps fun _ => none) (writes s) with
      ⟨j, t, hj, hread, -, heq⟩ | ⟨-, heq⟩
    · refine ⟨j, heq, ?_⟩
      obtain ⟨p, hp, hwritten⟩ := h.earlier j t hj _ hread
      -- the one step that writes the key
      have hsame : (steps.map writes)[i]? = some (writes s) := by rw [List.getElem?_map, hi]; rfl
      obtain ⟨hpl, hpw⟩ := List.getElem?_eq_some_iff.mp hwritten
      obtain ⟨hil, hiw⟩ := List.getElem?_eq_some_iff.mp hsame
      have := h.nodup.getElem_inj_iff.mp (hpw.trans hiw.symm)
      omega
    · rw [heq]
      rcases stampAll_spec (fun s => [writes s]) steps (fun _ => none) (writes s) with
        ⟨j, t, -, -, hlast, heq'⟩ | ⟨hnone, -⟩
      · exact ⟨j, heq', hlast i s hi (List.mem_singleton_self _)⟩
      · exact absurd (List.mem_singleton_self _) (hnone s (List.mem_of_getElem? hi))

/-- What is no output is not in use to the end. -/
theorem lastUse_lt (ho : k ∉ outputs) (h : lastUse writes reads steps outputs k = some m) : m < steps.length := by
  rw [lastUse, stamp_apply, if_neg ho] at h
  rcases stampAll_spec reads steps (stampAll (fun s => [writes s]) steps fun _ => none) k with
    ⟨j, t, hj, -, -, heq⟩ | ⟨-, heq⟩
  · rw [heq] at h
    cases h
    exact (List.getElem?_eq_some_iff.mp hj).1
  · rw [heq] at h
    rcases stampAll_spec (fun s => [writes s]) steps (fun _ => none) k with ⟨j, t, hj, -, -, heq'⟩ | ⟨-, heq'⟩
    · rw [heq'] at h
      cases h
      exact (List.getElem?_eq_some_iff.mp hj).1
    · rw [heq'] at h
      cases h

section Live

/-- A key is in use before the step `n`: it has been written, and its last use is to come. -/
structure LiveAt (writes : σ → κ) (reads : σ → List κ) (steps : List σ) (outputs : List κ) (n : ℕ) (k : κ) : Prop where
  written : ∃ j < n, (steps.map writes)[j]? = some k
  used : ∃ m, lastUse writes reads steps outputs k = some m ∧ n ≤ m

theorem not_liveAt_zero : ¬ LiveAt writes reads steps outputs 0 k := by
  rintro ⟨⟨j, hj, -⟩, -⟩
  omega

omit [DecidableEq κ] in
theorem getElem?_map_writes (hi : steps[i]? = some s) : (steps.map writes)[i]? = some (writes s) := by
  rw [List.getElem?_map, hi]
  rfl

omit [DecidableEq κ] in
/-- A key is written once. -/
theorem Straight.position (h : Straight writes reads steps) (hi : (steps.map writes)[i]? = some k)
    (hn : (steps.map writes)[n]? = some k) : i = n := by
  obtain ⟨hil, hiw⟩ := List.getElem?_eq_some_iff.mp hi
  obtain ⟨hnl, hnw⟩ := List.getElem?_eq_some_iff.mp hn
  exact h.nodup.getElem_inj_iff.mp (hiw.trans hnw.symm)

/-- What a step writes is not in use before it. -/
theorem not_liveAt_write (h : Straight writes reads steps) (hi : steps[n]? = some s) :
    ¬ LiveAt writes reads steps outputs n (writes s) := by
  rintro ⟨⟨j, hj, hwritten⟩, -⟩
  have := h.position hwritten (getElem?_map_writes hi)
  omega

/-- An output is in use at the end. -/
theorem liveAt_output (hk : k ∈ outputs) (hwritten : k ∈ steps.map writes) :
    LiveAt writes reads steps outputs steps.length k := by
  obtain ⟨j, hj⟩ := List.mem_iff_getElem?.mp hwritten
  have hlt := (List.getElem?_eq_some_iff.mp hj).1
  rw [List.length_map] at hlt
  exact ⟨⟨j, hlt, hj⟩, ⟨steps.length, lastUse_output hk, Nat.le_refl _⟩⟩

/-- One step: what it writes comes into use, and what is not used after it goes out of use. -/
theorem liveAt_succ (h : Straight writes reads steps) (hi : steps[n]? = some s) :
    LiveAt writes reads steps outputs (n + 1) k ↔ (LiveAt writes reads steps outputs n k ∨ k = writes s) ∧
      lastUse writes reads steps outputs k ≠ some n := by
  constructor
  · rintro ⟨⟨j, hj, hwritten⟩, m, hm, hle⟩
    refine ⟨?_, fun hn => ?_⟩
    · by_cases hjn : j = n
      · subst hjn
        rw [getElem?_map_writes hi] at hwritten
        exact Or.inr (Option.some.inj hwritten).symm
      · exact Or.inl ⟨⟨j, by omega, hwritten⟩, m, hm, by omega⟩
    · rw [hm] at hn
      cases hn
      omega
  · rintro ⟨hlive, hne⟩
    have hafter {m : ℕ} (hm : lastUse writes reads steps outputs k = some m) (hle : n ≤ m) : n + 1 ≤ m := by
      rcases Nat.lt_or_eq_of_le hle with hlt | heq
      · exact hlt
      · exact absurd (heq ▸ hm) hne
    rcases hlive with ⟨⟨j, hj, hwritten⟩, m, hm, hle⟩ | rfl
    · exact ⟨⟨j, by omega, hwritten⟩, m, hm, hafter hm hle⟩
    · obtain ⟨m, hm, hle⟩ := @lastUse_write _ _ _ writes reads steps outputs n s h hi
      exact ⟨⟨n, by omega, getElem?_map_writes hi⟩, m, hm, hafter hm hle⟩

end Live

end Raveil.Lib
