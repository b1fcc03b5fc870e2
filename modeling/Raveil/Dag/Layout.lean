import Raveil.Dag.Decode

/-! Envelopes written job by job, and what the decoder finds in them. -/
namespace Raveil.Dag
open Raveil.Lib Raveil.Fold

/-- What the host writes about one job. -/
structure WireJob where
  sources : ℕ → ℕ
  starts : ℕ → ℕ
  config : List ℕ
  a : List ℕ
  b : List ℕ
  id : ℕ

namespace WireJob

def metadata (version : ℕ) (j : WireJob) : List ℕ :=
  if version = 2 then
    [j.sources 0, j.starts 0, j.a.length, j.sources 1, j.starts 1, j.b.length]
  else [j.sources 0, j.sources 1]

def request (j : WireJob) : List ℕ :=
  requestWords j.config j.a j.b j.id ++ requestTail j.config j.a j.b j.id

def words (version : ℕ) (j : WireJob) : List ℕ := j.metadata version ++ j.request

structure Ok (j : WireJob) : Prop where
  request : RequestOk j.config j.a j.b j.id
  sources : ∀ b, b < 2 → j.sources b < 2 ^ 32
  starts : ∀ b, b < 2 → j.starts b < 2 ^ 32

end WireJob

/-- The words of an envelope. -/
structure Layout where
  version : ℕ
  epoch : ℕ
  output : ℕ
  jobs : List WireJob

namespace Layout

def payload (l : Layout) : List ℕ := l.jobs.flatMap (WireJob.words l.version)

def body (l : Layout) : List ℕ :=
  [RAVEIL_FOLD_DAG_MAGIC, l.version, 40 + 4 * l.payload.length, l.jobs.length, l.epoch % 2 ^ 32,
    l.epoch >>> 32, l.output, 0] ++ l.payload

def tail (l : Layout) : List ℕ := [crc32 (packWords l.body), RAVEIL_FOLD_DAG_END]

def bytes (l : Layout) : List UInt8 := packWords (l.body ++ l.tail)

structure Ok (l : Layout) : Prop where
  version : l.version = 1 ∨ l.version = 2
  epoch : 0 < l.epoch ∧ l.epoch < 2 ^ 64
  count : 1 ≤ l.jobs.length ∧ l.jobs.length ≤ 8
  output : l.output < l.jobs.length
  job : ∀ j ∈ l.jobs, j.Ok

variable {l : Layout} {i : ℕ} {j : WireJob}

theorem length_metadata (version : ℕ) (j : WireJob) :
    4 * (j.metadata version).length = metadata version := by
  unfold WireJob.metadata metadata
  split <;> rfl

theorem length_request (h : j.Ok) : 4 * j.request.length = 300 + 4 * (j.a.length + j.b.length) := by
  rw [WireJob.request, List.length_append, length_requestWords h.request.length, requestTail]
  simp only [List.length_cons, List.length_nil]
  omega

theorem length_words_le (h : j.Ok) (version : ℕ) :
    4 * (j.words version).length ≤ 24 + RAVEIL_FOLD_MAX_BYTES := by
  have h1 := length_metadata version j
  have h2 := length_request h
  obtain ⟨ha, hb⟩ := h.request.lengths
  rw [WireJob.words, List.length_append, Nat.mul_add, h1, h2]
  unfold metadata RAVEIL_FOLD_MAX_BYTES
  split <;> omega

theorem length_payload_le (h : l.Ok) : 4 * l.payload.length ≤ l.jobs.length * (24 + RAVEIL_FOLD_MAX_BYTES) := by
  have hjobs := h.job
  unfold payload
  generalize l.jobs = jobs at hjobs ⊢
  induction jobs with
  | nil => simp
  | cons j js ih =>
    rw [List.forall_mem_cons] at hjobs
    calc 4 * ((j :: js).flatMap (WireJob.words l.version)).length
        = 4 * (j.words l.version).length + 4 * (js.flatMap (WireJob.words l.version)).length := by
          rw [List.flatMap_cons, List.length_append, Nat.mul_add]
      _ ≤ 24 + RAVEIL_FOLD_MAX_BYTES + js.length * (24 + RAVEIL_FOLD_MAX_BYTES) :=
          Nat.add_le_add (length_words_le hjobs.1 l.version) (ih hjobs.2)
      _ = (j :: js).length * (24 + RAVEIL_FOLD_MAX_BYTES) := by
          rw [List.length_cons, Nat.succ_mul, Nat.add_comm]

theorem length_bytes : l.bytes.length = 40 + 4 * l.payload.length := by
  simp only [bytes, body, tail, length_packWords, List.length_append, List.length_cons, List.length_nil]
  omega

/-- The words of the header. -/
theorem word_header {k w : ℕ} (hk : l.body[k]? = some w) (hw : w < 2 ^ 32) : word l.bytes (4 * k) = w := by
  refine word_packWords ?_ hw
  rw [List.getElem?_append_left (List.getElem?_eq_some_iff.mp hk).1, hk]

theorem version_bytes (h : l.Ok) : Dag.version l.bytes = l.version := by
  have := h.version
  exact word_header (k := 1) rfl (by omega)

theorem count_bytes (h : l.Ok) : word l.bytes 12 = l.jobs.length := by
  have := h.count
  exact word_header (k := 3) rfl (by omega)

theorem output_bytes (h : l.Ok) : word l.bytes 24 = l.output := by
  have := h.count
  have := h.output
  exact word_header (k := 6) rfl (by omega)

theorem epoch_bytes (h : l.Ok) : word64 l.bytes 16 = l.epoch := by
  refine word64_halves _ 16 (word_header (k := 4) rfl (Nat.mod_lt _ (by decide)))
    (word_header (k := 5) rfl ?_)
  have := h.epoch
  rw [Nat.shiftRight_eq_div_pow]
  omega

theorem length_words (version : ℕ) (h : j.Ok) : 4 * (j.words version).length =
    metadata version + (300 + 4 * (j.a.length + j.b.length)) := by
  rw [WireJob.words, List.length_append, Nat.mul_add, length_metadata, length_request h]

theorem word_job (version : ℕ) {rest : List ℕ} {k w : ℕ} (hk : (j.words version)[k]? = some w)
    (hw : w < 2 ^ 32) : word (packWords (j.words version ++ rest)) (4 * k) = w := by
  rw [packWords_append]
  exact word_packWords_append _ hk hw

theorem word_length (h : j.Ok) (version : ℕ) (rest : List ℕ) :
    word (packWords (j.words version ++ rest)) (metadata version + 8) =
      300 + 4 * (j.a.length + j.b.length) := by
  obtain ⟨ha, hb⟩ := h.request.lengths
  rw [← length_metadata version j, show 4 * (j.metadata version).length + 8 =
    4 * ((j.metadata version).length + 2) by omega]
  refine word_job version ?_ (by omega)
  rw [WireJob.words, List.getElem?_append_right (by omega), Nat.add_sub_cancel_left]
  rfl

/-- Job `i` starts where the words of the first `i` jobs end. -/
theorem drop_jobOffset (h : l.Ok) (hi : i ≤ l.jobs.length) :
    l.bytes.drop (jobOffset l.bytes i) =
      packWords ((l.jobs.drop i).flatMap (WireJob.words l.version) ++ l.tail) ∧
    jobOffset l.bytes i + 4 * ((l.jobs.drop i).flatMap (WireJob.words l.version)).length =
      32 + 4 * l.payload.length := by
  induction i with
  | zero =>
    refine ⟨?_, rfl⟩
    change (packWords (l.body ++ l.tail)).drop (4 * 8) = _
    rw [drop_packWords]
    rfl
  | succ i ih =>
    obtain ⟨hdrop, hlen⟩ := ih (by omega)
    have hlt : i < l.jobs.length := by omega
    have hok : l.jobs[i].Ok := h.job _ (List.getElem_mem hlt)
    rw [List.drop_eq_getElem_cons hlt, List.flatMap_cons] at hdrop hlen
    rw [List.append_assoc] at hdrop
    have hword : word l.bytes (jobOffset l.bytes i + (metadata l.version + 8)) =
        300 + 4 * (l.jobs[i].a.length + l.jobs[i].b.length) := by
      rw [← word_drop, hdrop, word_length hok]
    have hnext : jobOffset l.bytes (i + 1) =
        jobOffset l.bytes i + 4 * (l.jobs[i].words l.version).length := by
      rw [jobOffset, version_bytes h, Nat.add_assoc _ _ 8, hword, length_words _ hok, Nat.add_assoc]
    constructor
    · rw [hnext, ← List.drop_drop, hdrop, drop_packWords, List.drop_left]
    · rw [hnext]
      rw [List.length_append, Nat.mul_add] at hlen
      omega

theorem drop_job (h : l.Ok) (hj : l.jobs[i]? = some j) : ∃ rest,
    l.bytes.drop (jobOffset l.bytes i) = packWords (j.words l.version ++ rest) := by
  obtain ⟨hlt, rfl⟩ := List.getElem?_eq_some_iff.mp hj
  obtain ⟨hdrop, -⟩ := drop_jobOffset h hlt.le
  rw [List.drop_eq_getElem_cons hlt, List.flatMap_cons, List.append_assoc] at hdrop
  exact ⟨_, hdrop⟩

theorem word_jobOffset (h : l.Ok) (hj : l.jobs[i]? = some j) {k w : ℕ}
    (hk : (j.words l.version)[k]? = some w) (hw : w < 2 ^ 32) :
    word l.bytes (jobOffset l.bytes i + 4 * k) = w := by
  obtain ⟨rest, hdrop⟩ := drop_job h hj
  rw [← word_drop, hdrop]
  exact word_job _ hk hw

/-- What the decoder finds about job `i`. -/
structure Reads (l : Layout) (i : ℕ) (j : WireJob) : Prop where
  source : ∀ b, b < 2 → sourceAt l.bytes i b = j.sources b
  start : ∀ b, b < 2 → startAt l.bytes i b = if l.version = 2 then j.starts b else 0
  declared : ∀ b, b < 2 → l.version = 2 → declaredAt l.bytes i b = if b = 0 then j.a.length else j.b.length
  length : requestLength l.bytes i = 300 + 4 * (j.a.length + j.b.length)
  magic : word l.bytes (requestOffset l.bytes i) = RAVEIL_FOLD_BRIDGE_MAGIC
  request : requestAt l.bytes i = some ⟨j.id, j.config, placed j.a j.b⟩

theorem reads (h : l.Ok) (hj : l.jobs[i]? = some j) : Reads l i j := by
  have hok : j.Ok := h.job j (List.mem_of_getElem? hj)
  obtain ⟨ha, hb⟩ := hok.request.lengths
  have hv := version_bytes h
  have hmeta : ∀ {k w : ℕ}, (j.metadata l.version)[k]? = some w → w < 2 ^ 32 →
      word l.bytes (jobOffset l.bytes i + 4 * k) = w := by
    intro k w hk hw
    refine word_jobOffset h hj ?_ hw
    rw [WireJob.words, List.getElem?_append_left (List.getElem?_eq_some_iff.mp hk).1, hk]
  obtain ⟨rest, hdrop⟩ := drop_job h hj
  have hrequest : l.bytes.drop (requestOffset l.bytes i) = packWords j.request ++ packWords rest := by
    rw [requestOffset, hv, ← List.drop_drop, hdrop, ← length_metadata l.version j, drop_packWords,
      WireJob.words, List.append_assoc, List.drop_left, packWords_append]
  have hlength : requestLength l.bytes i = 300 + 4 * (j.a.length + j.b.length) := by
    rw [requestLength, requestOffset, hv, Nat.add_assoc, ← word_drop, hdrop, word_length hok]
  refine ⟨fun b hb => ?_, fun b hb => ?_, fun b hb h2 => ?_, hlength, ?_, ?_⟩
  · unfold sourceAt
    rw [hv]
    obtain h1 | h2 := h.version
    · rw [if_neg (by omega)]
      obtain rfl | rfl : b = 0 ∨ b = 1 := by omega
      · exact hmeta (k := 0) (by simp [WireJob.metadata, h1]) (hok.sources 0 (by omega))
      · exact hmeta (k := 1) (by simp [WireJob.metadata, h1]) (hok.sources 1 (by omega))
    · rw [if_pos h2]
      obtain rfl | rfl : b = 0 ∨ b = 1 := by omega
      · exact hmeta (k := 0) (by simp [WireJob.metadata, h2]) (hok.sources 0 (by omega))
      · exact hmeta (k := 3) (by simp [WireJob.metadata, h2]) (hok.sources 1 (by omega))
  · unfold startAt
    rw [hv]
    split
    · rename_i h2
      obtain rfl | rfl : b = 0 ∨ b = 1 := by omega
      · exact hmeta (k := 1) (by simp [WireJob.metadata, h2]) (hok.starts 0 (by omega))
      · exact hmeta (k := 4) (by simp [WireJob.metadata, h2]) (hok.starts 1 (by omega))
    · rfl
  · unfold declaredAt
    rw [hv, if_pos h2]
    obtain rfl | rfl : b = 0 ∨ b = 1 := by omega
    · rw [if_pos rfl]
      exact hmeta (k := 2) (by simp [WireJob.metadata, h2]) (by omega)
    · rw [if_neg (by omega)]
      exact hmeta (k := 5) (by simp [WireJob.metadata, h2]) (by omega)
  · rw [← Nat.add_zero (requestOffset l.bytes i), ← word_drop, hrequest]
    exact word_packWords_append (k := 0) _ rfl (by decide)
  · rw [requestAt, hlength, hrequest]
    exact raveilFoldDecode_request hok.request _

/-- The header checks of the decoder hold. -/
theorem headerOk (h : l.Ok) : HeaderOk l.bytes l.bytes.length := by
  have hcount := h.count
  have hpayload := length_payload_le h
  have hver := version_bytes h
  have hn := length_bytes (l := l)
  have hmax : l.jobs.length * (24 + RAVEIL_FOLD_MAX_BYTES) ≤ 8 * (24 + RAVEIL_FOLD_MAX_BYTES) :=
    Nat.mul_le_mul_right _ hcount.2
  have hbody : 4 * l.body.length = 32 + 4 * l.payload.length := by
    simp only [body, List.length_append, List.length_cons, List.length_nil]
    omega
  have hmin : 308 ≤ 4 * l.payload.length := by
    unfold payload
    cases hj : l.jobs with
    | nil => simp [hj] at hcount
    | cons j js =>
      have hok : j.Ok := h.job j (by simp [hj])
      have := length_words l.version hok
      rw [List.flatMap_cons, List.length_append]
      unfold metadata at this
      split at this <;> omega
  have htail : ∀ k w, l.tail[k]? = some w → w < 2 ^ 32 → word l.bytes (4 * (l.body.length + k)) = w := by
    intro k w hk hw
    refine word_packWords ?_ hw
    rw [List.getElem?_append_right (by omega), Nat.add_sub_cancel_left, hk]
  have hsize : l.bytes.length < 2 ^ 32 := by
    unfold RAVEIL_FOLD_MAX_BYTES at hpayload hmax
    omega
  refine ⟨⟨by omega, ?_, ?_⟩, ⟨?_, ?_⟩, ?_, ?_, ⟨?_, ?_⟩, ?_, ?_⟩
  · unfold RAVEIL_FOLD_DAG_MAX_BYTES
    omega
  · rw [length_bytes] at hsize ⊢
    exact word_header (k := 2) rfl hsize
  · exact word_header (k := 0) rfl (by decide)
  · rw [show l.bytes.length - 4 = 4 * (l.body.length + 1) by omega]
    exact htail 1 _ rfl (by decide)
  · rw [hver]
    exact h.version
  · rw [count_bytes h]
    exact hcount
  · rw [output_bytes h, count_bytes h]
    exact h.output
  · exact word_header (k := 7) rfl (by decide)
  · rw [show l.bytes.length - 8 = 4 * (l.body.length + 0) by omega, htail 0 _ rfl (crc32_lt _), crc_eq,
      Nat.add_zero, bytes, take_packWords, List.take_left]
  · rw [epoch_bytes h]
    exact h.epoch.1.ne'

theorem jobOffset_count (h : l.Ok) : jobOffset l.bytes l.jobs.length = l.bytes.length - 8 := by
  obtain ⟨-, hlen⟩ := drop_jobOffset h le_rfl
  rw [List.drop_length, List.flatMap_nil, List.length_nil] at hlen
  rw [length_bytes]
  omega

/-- The request of job `i` lies inside the payload. -/
theorem request_fits (h : l.Ok) (hj : l.jobs[i]? = some j) :
    requestOffset l.bytes i + requestLength l.bytes i ≤ l.bytes.length - 8 := by
  obtain ⟨hlt, rfl⟩ := List.getElem?_eq_some_iff.mp hj
  have hok : l.jobs[i].Ok := h.job _ (List.getElem_mem hlt)
  obtain ⟨-, hlen⟩ := drop_jobOffset h hlt.le
  rw [List.drop_eq_getElem_cons hlt, List.flatMap_cons, List.length_append, Nat.mul_add,
    length_words _ hok] at hlen
  rw [(reads h hj).length, requestOffset, version_bytes h, length_bytes]
  omega

end Layout

end Raveil.Dag
