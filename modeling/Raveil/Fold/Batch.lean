import Raveil.Lib.Envelope
import Raveil.Fold.Compile
import Raveil.Fold.Wire

/-! What sessions, chains and DAGs of jobs share: job names, checked arrays, sealed envelopes. -/
namespace Raveil.Fold
open Raveil.Lib

/-- The expression `NAME` of the project module. -/
def nameOk (name : String) : Bool :=
  match name.toList with
  | [] => false
  | c :: rest => c.isAlphanum && rest.length ≤ 79 && rest.all fun c => c.isAlphanum || c = '_' || c = '-'

theorem reference_inputs {r : Region} {inputs : List (List ℕ)} {c out : List ℕ}
    (hc : compileRegion r = .ok c) (h : reference r inputs = .ok out) :
    ∃ a b, inputs = [a, b] ∧ a.length = cfg c 5 ∧ b.length = cfg c 6 ∧
      (∀ w ∈ a, w < 2 ^ 32) ∧ ∀ w ∈ b, w < 2 ^ 32 := by
  obtain ⟨t, q, hcompiled⟩ := compileRegion_eq_ok hc
  unfold reference at h
  obtain ⟨c', -, h⟩ := except_bind_eq_ok.mp h
  obtain ⟨htwo, h⟩ := require_then_eq_ok.mp h
  obtain ⟨a, b, rfl⟩ := List.length_eq_two.mp htwo
  obtain ⟨u, hu, -⟩ := except_bind_eq_ok.mp h
  simp only [forM_eq_ok, hcompiled.lengths, List.zip_cons_cons, List.zip_nil_right, List.forall_mem_cons,
    require_then_eq_ok, int_eq_ok, Nat.cast_inj] at hu
  obtain ⟨⟨ha, hwa⟩, ⟨hb, hwb⟩, -⟩ := hu
  refine ⟨a, b, rfl, ha, hb, fun w hw => ?_, fun w hw => ?_⟩
  · exact le_mask.mp (Int.ofNat_le.mp (hwa w hw).2)
  · exact le_mask.mp (Int.ofNat_le.mp (hwb w hw).2)

theorem RequestOk.of_reference {r : Region} {a b c out : List ℕ} {id : ℕ} (hc : compileRegion r = .ok c)
    (h : reference r [a, b] = .ok out) (hid : 0 < id ∧ id < 2 ^ 64) : RequestOk c a b id := by
  obtain ⟨t, q, hcompiled⟩ := compileRegion_eq_ok hc
  obtain ⟨a', b', hab, ha, hb, hwa, hwb⟩ := reference_inputs hc h
  obtain ⟨rfl, rfl⟩ : a = a' ∧ b = b' := by simpa using hab
  exact ⟨hcompiled.length, hcompiled.admissible, hcompiled.u32, hid, ha, hb, hwa, hwb⟩

theorem reference_placed {r : Region} {a b c : List ℕ} {id : ℕ} (hc : compileRegion r = .ok c)
    (hok : RequestOk c a b id) : reference r [a, b] = .ok (outputWords c (placed a b)) :=
  reference_eq hc (loaded_of_stored hok.lengthA hok.lengthB hok.wordsA hok.wordsB
    (fun _ hn => placed_left hn) fun _ hn => placed_right hok.lengths.1 hn)

/-- The words of one request. -/
def requestRecord (config a b : List ℕ) (requestId : ℕ) : List ℕ :=
  requestWords config a b requestId ++ requestTail config a b requestId

/-- What a request is made of. -/
structure Child where
  config : List ℕ
  a : List ℕ
  b : List ℕ
  id : ℕ

namespace Child

def Ok (k : Child) : Prop := RequestOk k.config k.a k.b k.id

def record (k : Child) : List ℕ := requestRecord k.config k.a k.b k.id

/-- The bytes that `request_bytes` returns. -/
def bytes (k : Child) : List UInt8 := packWords k.record

/-- What the guest decodes. -/
def request (k : Child) : Request := ⟨k.id, k.config, placed k.a k.b⟩

theorem Ok.length_record {k : Child} (h : k.Ok) : k.record.length = 75 + (k.a.length + k.b.length) := by
  rw [record, requestRecord, List.length_append, length_requestWords h.length, requestTail]
  simp only [List.length_cons, List.length_nil]
  omega

theorem Ok.length_bytes {k : Child} (h : k.Ok) : k.bytes.length = 300 + 4 * (k.a.length + k.b.length) := by
  rw [bytes, length_packWords, h.length_record]
  omega

end Child

/-- A header, one record a job, the checksum and the sentinel. -/
structure Sealed where
  magic : ℕ
  sentinel : ℕ
  epoch : ℕ
  records : List (List ℕ)

namespace Sealed

def header (e : Sealed) : List ℕ :=
  [e.magic, 1, 32 + 4 * e.records.flatten.length, e.records.length, e.epoch % 2 ^ 32, e.epoch >>> 32]

def tail (e : Sealed) : List ℕ := [crc32 (packWords (e.header ++ e.records.flatten)), e.sentinel]

def bytes (e : Sealed) : List UInt8 := envelope e.header e.records e.tail

def offset (e : Sealed) (i : ℕ) : ℕ := recordOffset e.header e.records i

structure Ok (e : Sealed) : Prop where
  magic : e.magic < 2 ^ 32
  sentinel : e.sentinel < 2 ^ 32
  epoch : 0 < e.epoch ∧ e.epoch < 2 ^ 64
  count : 1 ≤ e.records.length ∧ e.records.length ≤ 8
  size : 32 + 4 * e.records.flatten.length < 2 ^ 32

variable {e : Sealed} {i : ℕ}

theorem length_bytes : e.bytes.length = 32 + 4 * e.records.flatten.length := by
  rw [bytes, length_envelope, header, tail]
  simp only [List.length_cons, List.length_nil]
  omega

/-- Bounds on the records bound the envelope. -/
theorem ok_of_records {low high : ℕ} (hmagic : e.magic < 2 ^ 32) (hsentinel : e.sentinel < 2 ^ 32)
    (hepoch : 0 < e.epoch ∧ e.epoch < 2 ^ 64) (hcount : 1 ≤ e.records.length ∧ e.records.length ≤ 8)
    (hlow : ∀ r ∈ e.records, low ≤ r.length) (hhigh : ∀ r ∈ e.records, r.length ≤ high)
    (hsize : high < 2 ^ 24) :
    e.Ok ∧ 32 + 4 * low ≤ e.bytes.length ∧ e.bytes.length ≤ 32 + 8 * (4 * high) := by
  have hmin := le_length_flatten hlow
  have hmax := length_flatten_le hhigh
  have h1 : 1 * low ≤ e.records.length * low := Nat.mul_le_mul_right low hcount.1
  have h8 : e.records.length * high ≤ 8 * high := Nat.mul_le_mul_right high hcount.2
  rw [length_bytes]
  refine ⟨⟨hmagic, hsentinel, hepoch, hcount, ?_⟩, ?_, ?_⟩
  · omega
  · omega
  · omega

/-- What the host writes is the envelope. -/
theorem bytes_eq {payload : List UInt8} (h : payload = packWords e.records.flatten) :
    (packWords [e.magic, 1, 32 + payload.length, e.records.length] ++ le64 e.epoch ++ payload) ++
      packWords [crc32 (packWords [e.magic, 1, 32 + payload.length, e.records.length] ++ le64 e.epoch ++
        payload), e.sentinel] = e.bytes := by
  have hbody : packWords [e.magic, 1, 32 + payload.length, e.records.length] ++ le64 e.epoch ++ payload =
      packWords (e.header ++ e.records.flatten) := by
    rw [h, le64_eq, length_packWords, ← packWords_append, ← packWords_append]
    rfl
  rw [hbody, ← packWords_append]
  rfl

theorem offset_zero : e.offset 0 = 24 := recordOffset_zero

theorem offset_count : e.offset e.records.length = e.bytes.length - 8 := by
  rw [offset, recordOffset_length, length_bytes, header]
  simp only [List.length_cons, List.length_nil]
  omega

section Header

variable (h : e.Ok)

include h

theorem word_magic : word e.bytes 0 = e.magic := word_header (k := 0) rfl h.magic

omit h in
theorem word_version : word e.bytes 4 = 1 := word_header (k := 1) rfl (by decide)

theorem word_size : word e.bytes 8 = e.bytes.length := by
  rw [length_bytes]
  exact word_header (k := 2) rfl h.size

theorem word_count : word e.bytes 12 = e.records.length := by
  have := h.count
  exact word_header (k := 3) rfl (by omega)

theorem word_epoch : word64 e.bytes 16 = e.epoch := by
  have := h.epoch
  refine word64_halves _ 16 (word_header (k := 4) rfl (Nat.mod_lt _ (by decide)))
    (word_header (k := 5) rfl ?_)
  rw [Nat.shiftRight_eq_div_pow]
  omega

theorem word_sentinel : word e.bytes (e.bytes.length - 4) = e.sentinel := by
  have hn : e.bytes.length - 4 = 4 * (e.header.length + e.records.flatten.length + 1) := by
    rw [length_bytes, header]
    simp only [List.length_cons, List.length_nil]
    omega
  rw [hn]
  exact word_tail (k := 1) rfl h.sentinel

omit h in
theorem word_crc : word e.bytes (e.bytes.length - 8) = crc e.bytes (e.bytes.length - 8) := by
  have hn : e.bytes.length - 8 = 4 * (e.header ++ e.records.flatten).length := by
    rw [length_bytes, header, List.length_append]
    simp only [List.length_cons, List.length_nil]
    omega
  have hword : word e.bytes (4 * (e.header.length + e.records.flatten.length + 0)) =
      crc32 (packWords (e.header ++ e.records.flatten)) := word_tail (k := 0) rfl (crc32_lt _)
  rw [hn, crc_eq, bytes, envelope, take_packWords, List.take_left, List.length_append]
  exact hword

end Header

/-- What the guest finds where a request of `length` bytes starts. -/
structure ChildAt (e : Sealed) (k : Child) (start : ℕ) : Prop where
  magic : word e.bytes start = RAVEIL_FOLD_BRIDGE_MAGIC
  length : word e.bytes (start + 8) = k.bytes.length
  fits : start + k.bytes.length ≤ e.bytes.length - 8
  span : (e.bytes.drop start).take k.bytes.length = k.bytes
  request : raveilFoldDecode (e.bytes.drop start) k.bytes.length = some k.request

/-- Record `i` is some words `pre`, then a request. -/
theorem childAt {pre : List ℕ} {k : Child} (hk : k.Ok) (hr : e.records[i]? = some (pre ++ k.record)) :
    ChildAt e k (e.offset i + 4 * pre.length) ∧
      e.offset (i + 1) = e.offset i + 4 * pre.length + k.bytes.length := by
  have hlengths := RequestOk.lengths hk
  have hsize := hk.length_bytes
  obtain ⟨rest, hdrop⟩ := @drop_recordOffset e.header e.tail _ e.records i hr
  have hreqdrop : e.bytes.drop (e.offset i + 4 * pre.length) = k.bytes ++ rest := by
    rw [← List.drop_drop, bytes, offset, hdrop, packWords_append, List.append_assoc, ← length_packWords,
      List.drop_left]
    rfl
  have hnext : e.offset (i + 1) = e.offset i + 4 * pre.length + k.bytes.length := by
    rw [offset, recordOffset_succ hr, List.length_append, Child.bytes, length_packWords, offset]
    omega
  have hle := @recordOffset_le e.header _ e.records i hr
  rw [← recordOffset_succ hr] at hle
  refine ⟨⟨?_, ?_, ?_, ?_, ?_⟩, hnext⟩
  · rw [← Nat.add_zero (e.offset i + 4 * pre.length), ← word_drop, hreqdrop]
    exact word_packWords_append (k := 0) _ rfl (by decide)
  · rw [← word_drop, hreqdrop, hsize]
    exact word_packWords_append (k := 2) _ rfl (by omega)
  · rw [← hnext, length_bytes, offset]
    rw [header] at hle ⊢
    simp only [List.length_cons, List.length_nil] at hle
    omega
  · rw [hreqdrop, List.take_left]
  · rw [hreqdrop, hsize]
    exact raveilFoldDecode_request hk _

end Sealed

end Raveil.Fold
