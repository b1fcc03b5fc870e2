import Mathlib.Algebra.Order.BigOperators.Group.List
import Mathlib.Algebra.Order.Ring.Nat
import Mathlib.Algebra.Group.Action.Defs
import Raveil.Lib.Words

/-! Envelopes of 32-bit words: a header, records one after the other, a trailer. -/
namespace Raveil.Lib

def envelope (header : List ℕ) (records : List (List ℕ)) (tail : List ℕ) : List UInt8 :=
  packWords (header ++ records.flatten ++ tail)

/-- Where record `i` starts, in bytes. -/
def recordOffset (header : List ℕ) (records : List (List ℕ)) (i : ℕ) : ℕ :=
  4 * (header.length + (records.take i).flatten.length)

variable {header tail r : List ℕ} {records : List (List ℕ)} {i k w : ℕ}

theorem length_envelope : (envelope header records tail).length =
    4 * (header.length + records.flatten.length + tail.length) := by
  rw [envelope, length_packWords, List.length_append, List.length_append]

theorem recordOffset_zero : recordOffset header records 0 = 4 * header.length := by
  simp [recordOffset]

theorem recordOffset_succ (h : records[i]? = some r) :
    recordOffset header records (i + 1) = recordOffset header records i + 4 * r.length := by
  obtain ⟨hi, rfl⟩ := List.getElem?_eq_some_iff.mp h
  rw [recordOffset, recordOffset, ← List.take_concat_get' records i hi, List.flatten_append,
    List.length_append, List.flatten_singleton]
  omega

/-- The records end where the trailer starts. -/
theorem recordOffset_length :
    recordOffset header records records.length = 4 * (header.length + records.flatten.length) := by
  rw [recordOffset, List.take_length]

theorem recordOffset_le (h : records[i]? = some r) :
    recordOffset header records i + 4 * r.length ≤ 4 * (header.length + records.flatten.length) := by
  have hsplit : records.flatten.length =
      (records.take (i + 1)).flatten.length + (records.drop (i + 1)).flatten.length := by
    rw [← List.length_append, ← List.flatten_append, List.take_append_drop]
  rw [← recordOffset_succ h, recordOffset]
  omega

theorem le_length_flatten (h : ∀ r ∈ records, k ≤ r.length) : records.length * k ≤ records.flatten.length := by
  rw [List.length_flatten, ← List.length_map (List.length (α := ℕ)), ← smul_eq_mul]
  refine List.card_nsmul_le_sum _ _ fun m hm => ?_
  obtain ⟨r, hr, rfl⟩ := List.mem_map.mp hm
  exact h r hr

theorem length_flatten_le (h : ∀ r ∈ records, r.length ≤ k) : records.flatten.length ≤ records.length * k := by
  rw [List.length_flatten, ← List.length_map (List.length (α := ℕ)), ← smul_eq_mul]
  refine List.sum_le_card_nsmul _ _ fun m hm => ?_
  obtain ⟨r, hr, rfl⟩ := List.mem_map.mp hm
  exact h r hr

theorem word_header (hk : header[k]? = some w) (hw : w < 2 ^ 32) :
    word (envelope header records tail) (4 * k) = w := by
  refine word_packWords ?_ hw
  have hlt := (List.getElem?_eq_some_iff.mp hk).1
  rw [List.append_assoc, List.getElem?_append_left hlt, hk]

theorem word_tail (hk : tail[k]? = some w) (hw : w < 2 ^ 32) :
    word (envelope header records tail) (4 * (header.length + records.flatten.length + k)) = w := by
  refine word_packWords ?_ hw
  rw [← List.length_append, List.getElem?_append_right (Nat.le_add_right ..), Nat.add_sub_cancel_left, hk]

/-- What stands at the start of a record. -/
theorem drop_recordOffset (h : records[i]? = some r) : ∃ rest,
    (envelope header records tail).drop (recordOffset header records i) = packWords r ++ rest := by
  obtain ⟨hi, rfl⟩ := List.getElem?_eq_some_iff.mp h
  refine ⟨packWords ((records.drop (i + 1)).flatten ++ tail), ?_⟩
  have hsplit : records.flatten = (records.take i).flatten ++ (records[i] ++ (records.drop (i + 1)).flatten) := by
    rw [← List.flatten_cons, ← List.drop_eq_getElem_cons hi, ← List.flatten_append, List.take_append_drop]
  rw [envelope, recordOffset, drop_packWords, hsplit, ← packWords_append, List.append_assoc, ← List.append_assoc,
    ← List.append_assoc header, ← List.length_append, List.append_assoc, List.drop_left, List.append_assoc]

theorem word_record (h : records[i]? = some r) (hk : r[k]? = some w) (hw : w < 2 ^ 32) :
    word (envelope header records tail) (recordOffset header records i + 4 * k) = w := by
  obtain ⟨rest, hdrop⟩ := @drop_recordOffset header tail r records i h
  rw [← word_drop, hdrop]
  exact word_packWords_append _ hk hw

end Raveil.Lib
