import Mathlib.Data.List.Nodup
import Mathlib.Data.List.Range
import Mathlib.Logic.Function.Basic

/-! Slots handed out first fit to a sequence of owners, each until its last use has passed. -/
namespace Raveil.Lib

/-- The last use of everything after `k` steps; step `i` uses `uses i` and then defines `i`. -/
def lastUseAt (uses : ℕ → List ℕ) : ℕ → ℕ → ℕ
  | 0 => fun _ => 0
  | i + 1 => Function.update ((uses i).foldl (fun last s => Function.update last s i) (lastUseAt uses i)) i i

section Uses

variable {uses : ℕ → List ℕ}

theorem foldl_update_const {l : List ℕ} {f : ℕ → ℕ} {i s : ℕ} :
    l.foldl (fun last s => Function.update last s i) f s = if s ∈ l then i else f s := by
  induction l generalizing f with
  | nil => rfl
  | cons a l ih =>
    rw [List.foldl_cons, ih]
    by_cases hl : s ∈ l
    · simp [hl]
    · by_cases ha : s = a
      · simp [ha]
      · simp [hl, ha]

theorem lastUseAt_succ (n s : ℕ) : lastUseAt uses (n + 1) s =
    if s = n ∨ s ∈ uses n then n else lastUseAt uses n s := by
  rw [lastUseAt]
  by_cases hs : s = n
  · simp [hs]
  · rw [Function.update_of_ne hs, foldl_update_const]
    simp [hs]

/-- Every use is recorded. -/
theorem le_lastUseAt {n i s : ℕ} (hi : i < n) (hs : s = i ∨ s ∈ uses i) : i ≤ lastUseAt uses n s := by
  induction n with
  | zero => omega
  | succ n ih =>
    rw [lastUseAt_succ]
    obtain hlt | rfl : i < n ∨ i = n := by omega
    · split
      · omega
      · exact ih hlt
    · rw [if_pos hs]

theorem lastUseAt_congr {uses' : ℕ → List ℕ} {n : ℕ} (h : ∀ i, i < n → uses i = uses' i) :
    lastUseAt uses n = lastUseAt uses' n := by
  induction n with
  | zero => rfl
  | succ n ih => rw [lastUseAt, lastUseAt, h n (by omega), ih fun i hi => h i (by omega)]

end Uses

/-- A slot is free for owner `i` when nobody has it or its owner's last use has passed. -/
def isFree (last : ℕ → ℕ) (owner : Option ℕ) (i : ℕ) : Bool := owner.all fun o => last o < i

section Slots

variable (last need : ℕ → ℕ) (size : ℕ)

/-- The owners of the slots before owner `i` is served. -/
def ownersAt : ℕ → ℕ → Option ℕ
  | 0 => fun _ => none
  | i + 1 => fun s =>
    if s ∈ ((List.range size).filter fun s => isFree last (ownersAt i s) i).take (need i) then some i
    else ownersAt i s

/-- The first free slots, as many as owner `i` needs. -/
def slotsAt (i : ℕ) : List ℕ :=
  ((List.range size).filter fun s => isFree last (ownersAt last need size i s) i).take (need i)

variable {last need size}

theorem ownersAt_succ (i s : ℕ) : ownersAt last need size (i + 1) s =
    if s ∈ slotsAt last need size i then some i else ownersAt last need size i s := rfl

theorem slotsAt_nodup (i : ℕ) : (slotsAt last need size i).Nodup :=
  ((List.nodup_range.filter _).sublist (List.take_sublist _ _))

theorem mem_slotsAt {i s : ℕ} (h : s ∈ slotsAt last need size i) :
    s < size ∧ isFree last (ownersAt last need size i s) i = true := by
  have := List.mem_of_mem_take h
  rwa [List.mem_filter, List.mem_range] at this

theorem ownersAt_eq_some {i s o : ℕ} (h : ownersAt last need size i s = some o) :
    o < i ∧ s ∈ slotsAt last need size o ∧ ∀ j, o < j → j < i → s ∉ slotsAt last need size j := by
  induction i with
  | zero => cases h
  | succ i ih =>
    rw [ownersAt_succ] at h
    split at h
    · rename_i hs
      obtain rfl := Option.some.inj h
      exact ⟨Nat.lt_succ_self _, hs, fun j hj hj' => by omega⟩
    · rename_i hs
      obtain ⟨hlt, hmem, hno⟩ := ih h
      refine ⟨by omega, hmem, fun j hj hj' => ?_⟩
      obtain hji | rfl : j < i ∨ j = i := by omega
      · exact hno j hj hji
      · exact hs

theorem ownersAt_of_mem {p i s : ℕ} (hp : p < i) (hs : s ∈ slotsAt last need size p) :
    ∃ o, p ≤ o ∧ ownersAt last need size i s = some o := by
  induction i with
  | zero => omega
  | succ i ih =>
    rw [ownersAt_succ]
    by_cases hi : s ∈ slotsAt last need size i
    · exact ⟨i, by omega, if_pos hi⟩
    · rw [if_neg hi]
      obtain hlt | rfl : p < i ∨ p = i := by omega
      · exact ih hlt
      · exact absurd hs hi

/-- A slot is handed out again only after the last use of its earlier owners. -/
theorem last_lt_of_reused {p j s : ℕ} (hpj : p < j) (hp : s ∈ slotsAt last need size p)
    (hj : s ∈ slotsAt last need size j) : last p < j := by
  induction j using Nat.strong_induction_on with
  | _ j ih =>
    obtain ⟨o, hpo, ho⟩ := ownersAt_of_mem hpj hp
    obtain ⟨hoj, hos, -⟩ := ownersAt_eq_some ho
    have hfree : last o < j := by
      have := (mem_slotsAt hj).2
      simpa [isFree, ho] using this
    obtain rfl | hlt := Nat.eq_or_lt_of_le hpo
    · exact hfree
    · have := ih o hoj hlt hos
      omega

theorem slotsAt_of_owners {last' need' : ℕ → ℕ} {i : ℕ}
    (howners : ownersAt last need size i = ownersAt last' need' size i)
    (hlast : ∀ j, j < i → last j = last' j) (hneed : need i = need' i) :
    slotsAt last need size i = slotsAt last' need' size i := by
  unfold slotsAt
  rw [hneed]
  congr 1
  refine List.filter_congr fun s _ => ?_
  rw [← howners]
  unfold isFree
  cases ho : ownersAt last need size i s with
  | none => rfl
  | some o => rw [Option.all_some, Option.all_some, hlast o (ownersAt_eq_some ho).1]

theorem ownersAt_congr {last' need' : ℕ → ℕ} {i : ℕ}
    (h : ∀ j, j < i → last j = last' j ∧ need j = need' j) :
    ownersAt last need size i = ownersAt last' need' size i := by
  induction i with
  | zero => rfl
  | succ i ih =>
    have hprev := ih fun j hj => h j (by omega)
    have hslots := slotsAt_of_owners hprev (fun j hj => (h j (by omega)).1) (h i (by omega)).2
    funext s
    rw [ownersAt_succ, ownersAt_succ, hslots, hprev]

/-- Only the owners so far matter for a slot. -/
theorem slotsAt_congr {last' need' : ℕ → ℕ} {i : ℕ}
    (h : ∀ j, j ≤ i → last j = last' j ∧ need j = need' j) :
    slotsAt last need size i = slotsAt last' need' size i :=
  slotsAt_of_owners (ownersAt_congr fun j hj => h j hj.le) (fun j hj => (h j hj.le).1) (h i le_rfl).2

/-- The bounded scan that collects the first matches. -/
theorem foldl_scan (p : ℕ → Prop) [DecidablePred p] (n : ℕ) (l found : List ℕ) (h : found.length ≤ n) :
    l.foldl (fun found slot => if found.length < n ∧ p slot then found ++ [slot] else found) found =
      found ++ (l.filter fun s => p s).take (n - found.length) := by
  induction l generalizing found with
  | nil => simp
  | cons a l ih =>
    rw [List.foldl_cons]
    by_cases hp : p a
    · by_cases hn : found.length < n
      · rw [if_pos ⟨hn, hp⟩, ih _ (by simpa using Nat.succ_le_of_lt hn),
          List.filter_cons_of_pos (by simpa using hp),
          List.length_append, List.length_singleton, List.append_assoc,
          show n - found.length = n - (found.length + 1) + 1 by omega, List.take_succ_cons]
        rfl
      · rw [if_neg (fun hc => hn hc.1), ih _ h, show n - found.length = 0 by omega]
        simp
    · rw [if_neg (fun hc => hp hc.2), ih _ h, List.filter_cons_of_neg (by simpa using hp)]

end Slots

end Raveil.Lib
