import Mathlib.Algebra.BigOperators.Group.List.Basic
import Mathlib.Data.List.Dedup
import Mathlib.Data.List.Perm.Subperm
import Raveil.Experience.Store

/-! What consolidation keeps: the samples of each key, and one record a key. -/
namespace Raveil.Experience

variable {F : Type} {A : Arithmetic F} {limit : ℕ} {k : ExactKey}
  {record previous : ExperienceRecord F} {act recs l : List (ExperienceRecord F)}

/-- How many appended records the records of a key stand for. -/
def samplesOf (k : ExactKey) (l : List (ExperienceRecord F)) : ℕ :=
  ((l.filter fun record => record.exactKey = k).map fun record => record.samples).sum

theorem samplesOf_nil : samplesOf k ([] : List (ExperienceRecord F)) = 0 := rfl

theorem samplesOf_cons : samplesOf k (record :: l) =
    (if record.exactKey = k then record.samples else 0) + samplesOf k l := by
  by_cases h : record.exactKey = k <;> simp [samplesOf, h]

theorem samplesOf_append : samplesOf k (act ++ l) = samplesOf k act + samplesOf k l := by
  simp [samplesOf]

theorem samplesOf_perm (h : act.Perm l) : samplesOf k act = samplesOf k l :=
  ((h.filter _).map _).sum_eq

theorem exactKey_merge : (previous.merge A record).exactKey = record.exactKey := by
  unfold ExperienceRecord.merge
  split <;> rfl

/-- Every entry of the dictionary stands under its own key, and no key stands there twice. -/
structure Keyed (merged : List (ExactKey × ExperienceRecord F)) : Prop where
  own : ∀ entry ∈ merged, entry.2.exactKey = entry.1
  nodup : (merged.map Prod.fst).Nodup

theorem keyed_nil : Keyed ([] : List (ExactKey × ExperienceRecord F)) := ⟨by simp, by simp⟩

variable {merged : List (ExactKey × ExperienceRecord F)}

theorem Keyed.tail {entry : ExactKey × ExperienceRecord F} (h : Keyed (entry :: merged)) : Keyed merged where
  own := fun e he => h.own e (List.mem_cons_of_mem entry he)
  nodup := (List.nodup_cons.mp h.nodup).2

theorem mem_keys_assign {k' : ExactKey} :
    k' ∈ (Lib.assign k record merged).map Prod.fst ↔ k' = k ∨ k' ∈ merged.map Prod.fst := by
  induction merged with
  | nil => simp [Lib.assign]
  | cons entry merged ih =>
    unfold Lib.assign
    split
    case isTrue h => simp [h]
    case isFalse h =>
      rw [List.map_cons, List.mem_cons, ih, List.map_cons, List.mem_cons]
      tauto

theorem Keyed.assign (h : Keyed merged) : Keyed (Lib.assign record.exactKey record merged) := by
  induction merged with
  | nil => exact ⟨by simp [Lib.assign], by simp [Lib.assign]⟩
  | cons entry merged ih =>
    unfold Lib.assign
    split
    case isTrue hkey =>
      constructor
      · intro e he
        rcases List.mem_cons.mp he with rfl | he
        · rfl
        · exact h.own e (List.mem_cons_of_mem entry he)
      · rw [List.map_cons, ← hkey]
        exact h.nodup
    case isFalse hkey =>
      have := ih h.tail
      constructor
      · intro e he
        rcases List.mem_cons.mp he with rfl | he
        · exact h.own e List.mem_cons_self
        · exact this.own e he
      · rw [List.map_cons, List.nodup_cons, mem_keys_assign]
        refine ⟨?_, this.nodup⟩
        rintro (heq | hmem)
        · exact hkey heq
        · exact (List.nodup_cons.mp h.nodup).1 hmem

/-- Assigning to a key replaces the samples that stood under it. -/
theorem samplesOf_assign (k : ExactKey) (record : ExperienceRecord F) (h : Keyed merged) :
    samplesOf k ((Lib.assign record.exactKey record merged).map Prod.snd) +
      (if record.exactKey = k then (merged.lookup record.exactKey).elim 0 (·.samples) else 0) =
    samplesOf k (merged.map Prod.snd) + (if record.exactKey = k then record.samples else 0) := by
  induction merged with
  | nil => simp [Lib.assign, samplesOf_cons, samplesOf_nil]
  | cons entry merged ih =>
    have hown := h.own entry List.mem_cons_self
    unfold Lib.assign
    rw [Lib.lookup_cons_eq_if]
    by_cases hkey : entry.1 = record.exactKey
    · by_cases hk : record.exactKey = k
      · simp [samplesOf_cons, hkey, hk, hown]
        omega
      · simp [samplesOf_cons, hkey, hk, hown]
    · have := ih h.tail
      simp only [hkey, Ne.symm hkey, if_false, List.map_cons, samplesOf_cons]
      omega

theorem keyed_mergeInto (h : Keyed merged) : Keyed (mergeInto A merged record) := by
  unfold mergeInto
  split
  case h_1 => exact h.assign
  case h_2 previous hprevious =>
    have : Keyed (Lib.assign (previous.merge A record).exactKey (previous.merge A record) merged) := h.assign
    rwa [exactKey_merge] at this

theorem samplesOf_mergeInto (h : Keyed merged) :
    samplesOf k ((mergeInto A merged record).map Prod.snd) =
      samplesOf k (merged.map Prod.snd) + (if record.exactKey = k then record.samples else 0) := by
  unfold mergeInto
  split
  case h_1 hnone =>
    have := samplesOf_assign k record h
    rw [hnone] at this
    simpa using this
  case h_2 previous hprevious =>
    have := samplesOf_assign k (previous.merge A record) h
    rw [exactKey_merge, hprevious] at this
    have hsamples : (previous.merge A record).samples = previous.samples + record.samples := rfl
    rw [hsamples] at this
    by_cases hk : record.exactKey = k
    · rw [if_pos hk, if_pos hk] at this
      rw [if_pos hk]
      simp only [Option.elim_some] at this
      omega
    · rw [if_neg hk, if_neg hk] at this
      rw [if_neg hk]
      omega

theorem mem_keys_mergeInto {k' : ExactKey} :
    k' ∈ (mergeInto A merged record).map Prod.fst ↔ k' = record.exactKey ∨ k' ∈ merged.map Prod.fst := by
  unfold mergeInto
  split <;> exact mem_keys_assign

theorem keyed_foldl (h : Keyed merged) : Keyed (l.foldl (mergeInto A) merged) := by
  induction l generalizing merged with
  | nil => exact h
  | cons record l ih => exact ih (keyed_mergeInto h)

/-- The merging loop adds up the samples of each key. -/
theorem samplesOf_foldl (h : Keyed merged) : samplesOf k ((l.foldl (mergeInto A) merged).map Prod.snd) =
    samplesOf k (merged.map Prod.snd) + samplesOf k l := by
  induction l generalizing merged with
  | nil => rfl
  | cons record l ih =>
    rw [List.foldl_cons, ih (keyed_mergeInto h), samplesOf_mergeInto h, samplesOf_cons]
    omega

theorem mem_keys_foldl {k' : ExactKey} : k' ∈ (l.foldl (mergeInto A) merged).map Prod.fst ↔
    k' ∈ l.map (·.exactKey) ∨ k' ∈ merged.map Prod.fst := by
  induction l generalizing merged with
  | nil => simp
  | cons record l ih =>
    rw [List.foldl_cons, ih, mem_keys_mergeInto, List.map_cons, List.mem_cons]
    tauto

theorem map_exactKey_mergeAll :
    (mergeAll A l).map (·.exactKey) = (l.foldl (mergeInto A) []).map Prod.fst := by
  unfold mergeAll
  rw [List.map_map]
  apply List.map_congr_left
  intro entry hentry
  exact (@keyed_foldl _ A l _ keyed_nil).own entry hentry

theorem samplesOf_mergeAll : samplesOf k (mergeAll A l) = samplesOf k l := by
  have := @samplesOf_foldl _ A k l _ keyed_nil
  simpa [mergeAll, samplesOf_nil] using this

theorem nodup_mergeAll : ((mergeAll A l).map (·.exactKey)).Nodup := by
  rw [map_exactKey_mergeAll]
  exact (keyed_foldl keyed_nil).nodup

theorem mem_keys_mergeAll : k ∈ (mergeAll A l).map (·.exactKey) ↔ k ∈ l.map (·.exactKey) := by
  rw [map_exactKey_mergeAll, mem_keys_foldl]
  simp

theorem assign_of_not_mem (h : k ∉ merged.map Prod.fst) : Lib.assign k record merged = merged ++ [(k, record)] := by
  induction merged with
  | nil => rfl
  | cons entry merged ih =>
    simp only [List.map_cons, List.mem_cons, not_or] at h
    rw [Lib.assign, if_neg (Ne.symm h.1), ih h.2, List.cons_append]

/-- Records of different keys are not merged. -/
theorem foldl_of_nodup (h : (merged.map Prod.fst ++ l.map (·.exactKey)).Nodup) :
    (l.foldl (mergeInto A) merged).map Prod.snd = merged.map Prod.snd ++ l := by
  induction l generalizing merged with
  | nil => simp
  | cons record l ih =>
    have hnot : record.exactKey ∉ merged.map Prod.fst := by
      intro hmem
      exact List.disjoint_of_nodup_append h hmem List.mem_cons_self
    have hnone : merged.lookup record.exactKey = none := by
      by_contra hsome
      obtain ⟨entry, hentry, hkey⟩ := Lib.exists_key_iff.mpr hsome
      exact hnot (List.mem_map.mpr ⟨entry, hentry, hkey⟩)
    have hinto : mergeInto A merged record = merged ++ [(record.exactKey, record)] := by
      rw [mergeInto, hnone]
      exact assign_of_not_mem hnot
    rw [List.foldl_cons, hinto, ih]
    · simp
    · simpa using h

theorem mergeAll_of_nodup (h : (l.map (·.exactKey)).Nodup) : mergeAll A l = l := by
  have := @foldl_of_nodup _ A l [] (by simpa using h)
  simpa [mergeAll] using this

/-- One record a key is left, so no more than there are keys. -/
theorem length_mergeAll_le : (mergeAll A l).length ≤ (l.map (·.exactKey)).dedup.length := by
  have hsub : (mergeAll A l).map (·.exactKey) ⊆ (l.map (·.exactKey)).dedup := by
    intro key hkey
    exact List.mem_dedup.mpr (mem_keys_mergeAll.mp hkey)
  have := (List.subperm_of_subset nodup_mergeAll hsub).length_le
  rwa [List.length_map] at this

variable [LinearOrder F]

theorem consolidate_of_le (h : l.length ≤ limit) : consolidate A limit l = l := if_pos h

theorem consolidate_of_lt (h : limit < l.length) :
    consolidate A limit l = Lib.best (Retained A) limit (mergeAll A l) := if_neg (by omega)

theorem length_consolidate_le : (consolidate A limit l).length ≤ limit := by
  unfold consolidate
  split
  case isTrue h => exact h
  case isFalse =>
    rw [Lib.length_best]
    omega

/-- Consolidation gives no record a key of its own. -/
theorem mem_keys_of_consolidate (h : k ∈ (consolidate A limit l).map (·.exactKey)) : k ∈ l.map (·.exactKey) := by
  unfold consolidate at h
  split at h
  case isTrue => exact h
  case isFalse =>
    obtain ⟨record, hrecord, rfl⟩ := List.mem_map.mp h
    exact mem_keys_mergeAll.mp (List.mem_map_of_mem (Lib.best_subset hrecord))

/-- Nothing is evicted while the keys fit in the index. -/
theorem best_mergeAll (h : (l.map (·.exactKey)).dedup.length ≤ limit) :
    Lib.best (Retained A) limit (mergeAll A l) = (mergeAll A l).insertionSort (Retained A) := by
  apply List.take_of_length_le
  rw [List.length_insertionSort]
  exact length_mergeAll_le.trans h

theorem samplesOf_consolidate (h : (l.map (·.exactKey)).dedup.length ≤ limit) :
    samplesOf k (consolidate A limit l) = samplesOf k l := by
  unfold consolidate
  split
  case isTrue => rfl
  case isFalse =>
    rw [best_mergeAll h, samplesOf_perm (List.perm_insertionSort (Retained A) _), samplesOf_mergeAll]

end Raveil.Experience
