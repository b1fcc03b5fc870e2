import Mathlib.Data.List.Perm.Basic
import Mathlib.Data.List.Range
import Mathlib.Data.List.Nodup

/-! A list of empty cells that are written once: which writes fill it, and with what. -/
namespace Raveil.Lib

variable {α : Type} {values values' : List (Option α)} {writes : List (α × ℕ)} {words : List α} {e : α × ℕ} {w : α} {i : ℕ}

/-- Writes a cell, which must be there and empty. -/
def writeOnce (values : List (Option α)) (e : α × ℕ) : Option (List (Option α)) :=
  if (values[e.2]?.map Option.isNone) = some true then some (values.set e.2 (some e.1)) else none

/-- The words that are there, with their places. -/
def written (values : List (Option α)) : List (α × ℕ) :=
  (List.range values.length).filterMap fun i => (values[i]?.join).map fun w => (w, i)

theorem writeOnce_eq_some : writeOnce values e = some values' ↔
    values[e.2]? = some none ∧ values' = values.set e.2 (some e.1) := by
  unfold writeOnce
  rcases h : (values)[e.2]? with _ | _ | w <;> simp [eq_comm]

theorem mem_written : (w, i) ∈ written values ↔ (values)[i]? = some (some w) := by
  unfold written
  rw [List.mem_filterMap]
  constructor
  · rintro ⟨j, hj, h⟩
    obtain ⟨v, hv, heq⟩ := Option.map_eq_some_iff.mp h
    cases heq
    exact Option.join_eq_some_iff.mp hv
  · intro h
    refine ⟨i, List.mem_range.mpr (List.getElem?_eq_some_iff.mp h).1, ?_⟩
    rw [h]
    rfl

theorem nodup_written : (written values).Nodup := by
  apply List.nodup_range.filterMap
  intro i j e hi hj
  obtain ⟨v, -, rfl⟩ := Option.map_eq_some_iff.mp (Option.mem_def.mp hi)
  obtain ⟨w, -, heq⟩ := Option.map_eq_some_iff.mp (Option.mem_def.mp hj)
  exact (congrArg Prod.snd heq).symm

theorem written_replicate (n : ℕ) : written (List.replicate n (none : Option α)) = [] := by
  rw [List.eq_nil_iff_forall_not_mem]
  intro ⟨w, i⟩ h
  rw [mem_written, List.getElem?_replicate] at h
  split at h <;> cases h

theorem written_full (words : List α) : (written (words.map some)).Perm words.zipIdx := by
  have hnodup : words.zipIdx.Nodup := List.Nodup.of_map Prod.snd (by
    rw [List.zipIdx_map_snd]
    exact List.nodup_range')
  rw [List.perm_ext_iff_of_nodup nodup_written hnodup]
  intro ⟨w, i⟩
  rw [mem_written, List.mk_mem_zipIdx_iff_getElem?, List.getElem?_map]
  cases h : words[i]? <;> simp

/-- One write adds one word. -/
theorem writeOnce_written (h : writeOnce values e = some values') :
    values'.length = values.length ∧ (written values').Perm (e :: written values) := by
  obtain ⟨hempty, rfl⟩ := writeOnce_eq_some.mp h
  have hlt := (List.getElem?_eq_some_iff.mp hempty).1
  refine ⟨List.length_set, ?_⟩
  have hfresh : e ∉ written values := by
    intro hmem
    rw [mem_written.mp hmem] at hempty
    cases hempty
  rw [List.perm_ext_iff_of_nodup nodup_written (List.nodup_cons.mpr ⟨hfresh, nodup_written⟩)]
  intro ⟨w, i⟩
  rw [mem_written, List.mem_cons, mem_written]
  by_cases hi : e.2 = i
  · subst hi
    rw [List.getElem?_set_self hlt, hempty]
    constructor
    · intro h
      cases h
      exact Or.inl rfl
    · rintro (h | h)
      · rw [← h]
      · cases h
  · rw [List.getElem?_set_ne hi]
    constructor
    · exact Or.inr
    · rintro (h | h)
      · exact absurd (congrArg Prod.snd h).symm hi
      · exact h

/-- What is there after all writes: what was there, and the writes. -/
theorem writeAll_written (h : writes.foldlM writeOnce values = some values') :
    values'.length = values.length ∧ (written values').Perm (writes ++ written values) := by
  induction writes generalizing values with
  | nil =>
    cases h
    exact ⟨rfl, List.Perm.refl _⟩
  | cons e writes ih =>
    rw [List.foldlM_cons, Option.bind_eq_bind, Option.bind_eq_some_iff] at h
    obtain ⟨next, hone, hrest⟩ := h
    obtain ⟨hlen, hperm⟩ := writeOnce_written hone
    obtain ⟨hlen', hperm'⟩ := ih hrest
    exact ⟨hlen'.trans hlen, hperm'.trans ((hperm.append_left writes).trans List.perm_middle)⟩

/-- Writes to distinct empty cells succeed. -/
theorem writeAll_total (hnodup : (writes.map Prod.snd).Nodup) (hempty : ∀ e ∈ writes, (values)[e.2]? = some none) :
    ∃ values', writes.foldlM writeOnce values = some values' := by
  induction writes generalizing values with
  | nil => exact ⟨values, rfl⟩
  | cons e writes ih =>
    rw [List.map_cons, List.nodup_cons] at hnodup
    rw [List.forall_mem_cons] at hempty
    have hnext : ∀ f ∈ writes, (values.set e.2 (some e.1))[f.2]? = some none := by
      intro f hf
      have hne : e.2 ≠ f.2 := fun heq => hnodup.1 (heq ▸ List.mem_map_of_mem hf)
      rw [List.getElem?_set_ne hne]
      exact hempty.2 f hf
    obtain ⟨values', hrun⟩ := ih hnodup.2 hnext
    refine ⟨values', ?_⟩
    rw [List.foldlM_cons, writeOnce_eq_some.mpr ⟨hempty.1, rfl⟩]
    exact hrun

/-- Writes fill an empty list with these words exactly if they are these words in some order. -/
theorem writeAll_eq_some {n : ℕ} : writes.foldlM writeOnce (List.replicate n none) = some (words.map some) ↔
    words.length = n ∧ writes.Perm words.zipIdx := by
  constructor
  · intro h
    obtain ⟨hlen, hperm⟩ := writeAll_written h
    rw [List.length_map, List.length_replicate] at hlen
    rw [written_replicate, List.append_nil] at hperm
    exact ⟨hlen, hperm.symm.trans (written_full words)⟩
  · rintro ⟨rfl, hperm⟩
    have hkeys := hperm.map Prod.snd
    rw [List.zipIdx_map_snd] at hkeys
    have hempty : ∀ e ∈ writes, (List.replicate words.length (none : Option α))[e.2]? = some none := by
      intro e he
      have hmem := hkeys.mem_iff.mp (List.mem_map_of_mem he)
      rw [List.mem_range'_1] at hmem
      rw [List.getElem?_replicate, if_pos (by omega)]
    obtain ⟨values', hrun⟩ := writeAll_total (hkeys.nodup_iff.mpr List.nodup_range') hempty
    obtain ⟨hlen, hwritten⟩ := writeAll_written hrun
    rw [written_replicate, List.append_nil] at hwritten
    rw [List.length_replicate] at hlen
    rw [hrun]
    -- every place has the one word that was written there
    refine congrArg some (List.ext_getElem? fun i => ?_)
    rw [List.getElem?_map]
    cases hw : words[i]? with
    | none =>
      rw [List.getElem?_eq_none_iff] at hw
      exact List.getElem?_eq_none_iff.mpr (by omega)
    | some w =>
      have hmem : (w, i) ∈ words.zipIdx := List.mk_mem_zipIdx_iff_getElem?.mpr hw
      exact mem_written.mp (hwritten.mem_iff.mpr (hperm.mem_iff.mpr hmem))

end Raveil.Lib
