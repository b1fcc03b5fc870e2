import Raveil.Lib.Words
import Raveil.Lib.Hash
import Raveil.Fold.Evaluate

/-! The request on the wire: the host writes it, the guest reads it back. -/
namespace Raveil.Fold
open Raveil.Lib

def UINT32_MAX : ℕ := 2 ^ 32 - 1
def RAVEIL_FOLD_MAGIC : ℕ := 0x51464631
def RAVEIL_FOLD_BRIDGE_MAGIC : ℕ := 0x51464632
def RAVEIL_FOLD_END : ℕ := 0x46454e44
def RAVEIL_FOLD_MAX_BYTES : ℕ := 2892

/-- The inner statement of the loop of `crc`. -/
def crcShift (v : BitVec 32) : BitVec 32 := (v >>> 1) ^^^ ((0 - (v &&& 1)) &&& 0xedb88320)

/-- The checksum `crc(p, n)` of the guest. -/
def crc (p : List UInt8) (n : ℕ) : ℕ :=
  (~~~((p.take n).foldl (fun v byte => crcShift^[8] (v ^^^ byte.toBitVec.setWidth 32)) 0xffffffff)).toNat

/-- The 64-bit value of two words. -/
def word64 (p : List UInt8) (i : ℕ) : ℕ := word p i ||| word p (i + 4) <<< 32

/-- The input array of a decoded request. -/
def decodeInputs (bytes : List UInt8) (c : List ℕ) : List ℕ :=
  (List.range 648).map fun i =>
    if i < cfg c 5 then word bytes (292 + 4 * i)
    else if 324 ≤ i ∧ i < 324 + cfg c 6 then word bytes (292 + 4 * (cfg c 5 + (i - 324)))
    else 0

def raveilFoldDecode (bytes : List UInt8) (size : ℕ) : Option Request :=
  if size < 300 ∨ size > RAVEIL_FOLD_MAX_BYTES ∨
      (word bytes 0 ≠ RAVEIL_FOLD_MAGIC ∧ word bytes 0 ≠ RAVEIL_FOLD_BRIDGE_MAGIC) ∨
      word bytes 4 ≠ 1 ∨ word bytes 8 ≠ size ∨ word bytes 12 > 324 ∨ word bytes 16 > 324 ∨
      word bytes 20 ≠ 0 ∨ size ≠ 300 + 4 * (word bytes 12 + word bytes 16) ∨
      word bytes (size - 4) ≠ RAVEIL_FOLD_END ∨ word bytes (size - 8) ≠ crc bytes (size - 8) then none
  else
    let id := word64 bytes 24
    let c := (List.range 65).map fun i => word bytes (32 + 4 * i)
    if id = 0 then none
    else if !raveilFoldValidate c ∨ cfg c 5 ≠ word bytes 12 ∨ cfg c 6 ≠ word bytes 16 then none
    else some ⟨id, c, decodeInputs bytes c⟩

/-- `encode` of the host, for the software interpreter. -/
def encode (config : List ℕ) (inputs : List (List ℕ)) (requestId : ℕ) : Except String (List UInt8) := do
  let _ ← validateConfig (config.map Int.ofNat)
  require (0 < requestId ∧ requestId < 2 ^ 64) "nonzero uint64 request identity required"
  require (inputs.length = 2) "two input arrays required"
  (inputs.zip [cfg config 5, cfg config 6]).forM fun (values, length) => do
    require (values.length = length) "input extent mismatch"
    require (∀ v ∈ values, v ≤ MASK) "uint32 input required"
  let a := inputs.getD 0 []
  let b := inputs.getD 1 []
  let words := config ++ a ++ b
  let size := 40 + words.length * 4
  let body := packWords [RAVEIL_FOLD_MAGIC, 1, size, a.length, b.length, 0] ++ le64 requestId ++
    packWords words
  pure (body ++ packWords [crc32 body, RAVEIL_FOLD_END])

/-- `request_bytes`: the same request under the magic of the bridge. -/
def requestBytes (config : List ℕ) (inputs : List (List ℕ)) (requestId : ℕ) :
    Except String (List UInt8) := do
  let body ← encode config inputs requestId
  let body := packInto body 0 RAVEIL_FOLD_BRIDGE_MAGIC
  pure (packInto body (body.length - 8) (crc32 (body.take (body.length - 8))))

theorem crcShift_eq (v : BitVec 32) : crcShift v = crcBit v := by
  have hmask : (0 : BitVec 32) - (v &&& 1) = if v.getLsbD 0 then 0xffffffff else 0 := by
    change (0 : BitVec 32) - (v &&& 1#32) = _
    rw [BitVec.and_one_eq_setWidth_ofBool_getLsbD]
    cases v.getLsbD 0 <;> rfl
  unfold crcShift crcBit
  rw [hmask]
  cases v.getLsbD 0
  · simp
  · rw [if_pos rfl, if_pos rfl]
    congr 1

/-- The guest computes the checksum of the host. -/
theorem crc_eq (p : List UInt8) (n : ℕ) : crc p n = crc32 (p.take n) := by
  have hstep : (fun (v : BitVec 32) (byte : UInt8) => crcShift^[8] (v ^^^ byte.toBitVec.setWidth 32)) =
      crcByte := by
    funext v byte
    rw [crcByte_eq, show crcShift = crcBit from funext crcShift_eq]
  rw [crc, crc32, hstep]

/-- The words of a request before its checksum. -/
def requestWords (config a b : List ℕ) (requestId : ℕ) : List ℕ :=
  [RAVEIL_FOLD_BRIDGE_MAGIC, 1, 300 + 4 * (a.length + b.length), a.length, b.length, 0,
    requestId % 2 ^ 32, requestId >>> 32] ++ config ++ a ++ b

def requestTail (config a b : List ℕ) (requestId : ℕ) : List ℕ :=
  [crc32 (packWords (requestWords config a b requestId)), RAVEIL_FOLD_END]

/-- What the host checks before it writes a request. -/
structure RequestOk (config a b : List ℕ) (requestId : ℕ) : Prop where
  length : config.length = 65
  admissible : Admissible config
  words : ∀ w ∈ config, w < 2 ^ 32
  id : 0 < requestId ∧ requestId < 2 ^ 64
  lengthA : a.length = cfg config 5
  lengthB : b.length = cfg config 6
  wordsA : ∀ w ∈ a, w < 2 ^ 32
  wordsB : ∀ w ∈ b, w < 2 ^ 32

section Encode

variable {config a b : List ℕ} {requestId : ℕ}

theorem le_mask {w : ℕ} : w ≤ MASK ↔ w < 2 ^ 32 := by
  unfold MASK
  omega

theorem encode_eq_ok {bytes : List UInt8} : encode config [a, b] requestId = .ok bytes ↔
    RequestOk config a b requestId ∧
      bytes = packWords (((requestWords config a b requestId).set 0 RAVEIL_FOLD_MAGIC) ++
        [crc32 (packWords ((requestWords config a b requestId).set 0 RAVEIL_FOLD_MAGIC)),
          RAVEIL_FOLD_END]) := by
  have hbody : ∀ size, size = 300 + 4 * (a.length + b.length) →
      packWords [RAVEIL_FOLD_MAGIC, 1, size, a.length, b.length, 0] ++ le64 requestId ++
        packWords (config ++ a ++ b) =
      packWords ((requestWords config a b requestId).set 0 RAVEIL_FOLD_MAGIC) := by
    rintro _ rfl
    rw [le64_eq, ← packWords_append, ← packWords_append]
    simp [requestWords]
  have hnat : (config.map Int.ofNat).map Int.toNat = config := by
    rw [List.map_map]
    exact List.map_id' _
  unfold encode
  simp only [except_bind_eq_ok, validateConfig_eq_ok, require_eq_ok, forM_eq_ok, except_pure_eq_ok,
    List.zip_cons_cons, List.zip_nil_right, List.forall_mem_cons, List.getD_cons_zero,
    List.getD_cons_succ, le_mask, List.length_map, List.forall_mem_map]
  constructor
  · rintro ⟨c, ⟨hlen, hwords, rfl, hadm⟩, -, hid, -, -, -, ⟨⟨-, hA, hwA⟩, ⟨-, hB, hwB⟩, -⟩, rfl⟩
    rw [hnat] at hadm
    refine ⟨⟨hlen, hadm, fun w hw => ?_, hid, hA, hB, hwA, hwB⟩, ?_⟩
    · have := (hwords w hw).2
      exact le_mask.mp (Int.ofNat_le.mp this)
    · rw [hbody _ (by simp only [List.length_append]; omega), ← packWords_append]
  · rintro ⟨h, rfl⟩
    refine ⟨_, ⟨h.length, fun w hw => ⟨Int.natCast_nonneg w, ?_⟩, rfl, by rw [hnat]; exact h.admissible⟩,
      (), h.id, (), rfl, (), ⟨⟨(), h.lengthA, h.wordsA⟩, ⟨(), h.lengthB, h.wordsB⟩, by simp⟩, ?_⟩
    · exact Int.ofNat_le.mpr (le_mask.mpr (h.words w hw))
    · rw [hbody _ (by simp only [List.length_append, h.length]; omega), ← packWords_append]

theorem length_requestWords (h : config.length = 65) :
    (requestWords config a b requestId).length = 73 + a.length + b.length := by
  simp only [requestWords, List.length_append, List.length_cons, List.length_nil, h]

/-- The host writes exactly the requests that pass its checks. -/
theorem requestBytes_eq_ok {bytes : List UInt8} : requestBytes config [a, b] requestId = .ok bytes ↔
    RequestOk config a b requestId ∧
      bytes = packWords (requestWords config a b requestId ++ requestTail config a b requestId) := by
  have hmagic : ∀ c w : ℕ,
      packInto (packWords ((requestWords config a b requestId).set 0 w ++ [c, RAVEIL_FOLD_END])) 0
        RAVEIL_FOLD_BRIDGE_MAGIC = packWords (requestWords config a b requestId ++ [c, RAVEIL_FOLD_END]) := by
    intro c w
    rw [← Nat.mul_zero 4, packInto_packWords (by simp)]
    simp [requestWords]
  have hlength : ∀ c : ℕ, (packWords (requestWords config a b requestId ++
      [c, RAVEIL_FOLD_END])).length - 8 = 4 * (requestWords config a b requestId).length := by
    intro c
    simp only [length_packWords, List.length_append, List.length_cons, List.length_nil]
    omega
  have htail : ∀ c : ℕ, packInto (packWords (requestWords config a b requestId ++ [c, RAVEIL_FOLD_END]))
      (4 * (requestWords config a b requestId).length) (crc32 (packWords (requestWords config a b requestId))) =
      packWords (requestWords config a b requestId ++ requestTail config a b requestId) := by
    intro c
    rw [packInto_packWords (by simp), List.set_append_right _ _ le_rfl, Nat.sub_self]
    rfl
  unfold requestBytes
  simp only [except_bind_eq_ok, encode_eq_ok, except_pure_eq_ok]
  constructor
  · rintro ⟨body, ⟨h, rfl⟩, rfl⟩
    refine ⟨h, ?_⟩
    rw [hmagic, hlength, take_packWords, List.take_left, htail]
  · rintro ⟨h, rfl⟩
    refine ⟨_, ⟨h, rfl⟩, ?_⟩
    rw [hmagic, hlength, take_packWords, List.take_left, htail]

end Encode

section Decode

variable {config a b : List ℕ} {requestId : ℕ}

/-- The two input arrays at their places in a request. -/
def placed (a b : List ℕ) : List ℕ :=
  a ++ List.replicate (324 - a.length) 0 ++ b ++ List.replicate (324 - b.length) 0

theorem word64_halves (p : List UInt8) (i : ℕ) {x : ℕ} (hlow : word p i = x % 2 ^ 32)
    (hhigh : word p (i + 4) = x >>> 32) : word64 p i = x := by
  rw [word64, hlow, hhigh]
  apply Nat.eq_of_testBit_eq
  intro j
  rw [Nat.testBit_or, Nat.testBit_mod_two_pow, Nat.testBit_shiftLeft, Nat.testBit_shiftRight]
  by_cases hj : j < 32
  · simp [hj, show ¬ 32 ≤ j by omega]
  · simp [hj, show 32 ≤ j by omega]

theorem length_placed (ha : a.length ≤ 324) (hb : b.length ≤ 324) : (placed a b).length = 648 := by
  simp only [placed, List.length_append, List.length_replicate]
  omega

theorem placed_left {i : ℕ} (hi : i < a.length) : (placed a b)[i]? = a[i]? := by
  rw [placed, List.append_assoc, List.append_assoc, List.getElem?_append_left hi]

theorem placed_right (ha : a.length ≤ 324) {i : ℕ} (hi : i < b.length) :
    (placed a b)[324 + i]? = b[i]? := by
  have hlen : (a ++ List.replicate (324 - a.length) 0).length = 324 := by
    simp only [List.length_append, List.length_replicate]
    omega
  rw [placed, List.append_assoc, List.getElem?_append_right (by omega), hlen,
    List.getElem?_append_left (by omega), Nat.add_sub_cancel_left]

theorem placed_zero (ha : a.length ≤ 324) {i : ℕ} (hi : i < 648) (hia : a.length ≤ i)
    (hib : i < 324 ∨ 324 + b.length ≤ i) : (placed a b)[i]? = some 0 := by
  have hlen : (a ++ List.replicate (324 - a.length) 0).length = 324 := by
    simp only [List.length_append, List.length_replicate]
    omega
  obtain hib | hib := hib
  · rw [placed, List.append_assoc, List.getElem?_append_left (by omega),
      List.getElem?_append_right hia, List.getElem?_replicate, if_pos (by omega)]
  · rw [placed, List.append_assoc, List.getElem?_append_right (by omega), hlen,
      List.getElem?_append_right (by omega), List.getElem?_replicate, if_pos (by omega)]

theorem requestWords_config (hlen : config.length = 65) {i : ℕ} (hi : i < 65) (tail : List ℕ) :
    (requestWords config a b requestId ++ tail)[8 + i]? = config[i]? := by
  rw [requestWords, List.append_assoc, List.append_assoc, List.append_assoc,
    List.getElem?_append_right (by simp), List.getElem?_append_left (by simp; omega)]
  simp

theorem requestWords_left (hlen : config.length = 65) {i : ℕ} (hi : i < a.length) (tail : List ℕ) :
    (requestWords config a b requestId ++ tail)[73 + i]? = a[i]? := by
  rw [requestWords, List.append_assoc, List.append_assoc, List.getElem?_append_right (by simp; omega),
    List.getElem?_append_left (by simp; omega)]
  congr 1
  simp
  omega

theorem requestWords_right (hlen : config.length = 65) {i : ℕ} (hi : i < b.length) (tail : List ℕ) :
    (requestWords config a b requestId ++ tail)[73 + (a.length + i)]? = b[i]? := by
  rw [requestWords, List.append_assoc, List.getElem?_append_right (by simp; omega),
    List.getElem?_append_left (by simp; omega)]
  congr 1
  simp
  omega

theorem RequestOk.lengths (h : RequestOk config a b requestId) : a.length ≤ 324 ∧ b.length ≤ 324 := by
  rw [h.lengthA, h.lengthB]
  exact ⟨h.admissible.header.lengthA, h.admissible.header.lengthB⟩

/-- The guest reads back what the host wrote, whatever follows it. -/
theorem raveilFoldDecode_request (h : RequestOk config a b requestId) (rest : List UInt8) :
    raveilFoldDecode
      (packWords (requestWords config a b requestId ++ requestTail config a b requestId) ++ rest)
      (300 + 4 * (a.length + b.length)) = some ⟨requestId, config, placed a b⟩ := by
  obtain ⟨hA, hB⟩ := h.lengths
  have hlen := h.length
  have hid := h.id
  set ws := requestWords config a b requestId ++ requestTail config a b requestId with hws
  set p := packWords ws ++ rest with hp
  have hread : ∀ {k w : ℕ}, ws[k]? = some w → w < 2 ^ 32 → word p (4 * k) = w :=
    fun hk hw => word_packWords_append rest hk hw
  -- Where each part of the request stands among its words.
  have hconfig : ∀ i, i < 65 → ws[8 + i]? = config[i]? :=
    fun i hi => requestWords_config hlen hi _
  have ha : ∀ i, i < a.length → ws[73 + i]? = a[i]? := fun i hi => requestWords_left hlen hi _
  have hb : ∀ i, i < b.length → ws[73 + (a.length + i)]? = b[i]? :=
    fun i hi => requestWords_right hlen hi _
  have htail : ∀ i, ws[73 + a.length + b.length + i]? = (requestTail config a b requestId)[i]? := by
    intro i
    rw [hws, List.getElem?_append_right (by rw [length_requestWords hlen]; omega),
      length_requestWords hlen]
    congr 1
    omega
  have h0 : word p 0 = RAVEIL_FOLD_BRIDGE_MAGIC := hread (k := 0) rfl (by decide)
  have h4 : word p 4 = 1 := hread (k := 1) rfl (by decide)
  have h8 : word p 8 = 300 + 4 * (a.length + b.length) := hread (k := 2) rfl (by omega)
  have h12 : word p 12 = a.length := hread (k := 3) rfl (by omega)
  have h16 : word p 16 = b.length := hread (k := 4) rfl (by omega)
  have h20 : word p 20 = 0 := hread (k := 5) rfl (by decide)
  have h24 : word64 p 24 = requestId := by
    refine word64_halves p 24 (hread (k := 6) rfl (Nat.mod_lt _ (by decide))) (hread (k := 7) rfl ?_)
    rw [Nat.shiftRight_eq_div_pow]
    omega
  have hcrc : word p (300 + 4 * (a.length + b.length) - 8) =
      crc p (300 + 4 * (a.length + b.length) - 8) := by
    rw [show 300 + 4 * (a.length + b.length) - 8 = 4 * (73 + a.length + b.length + 0) by omega,
      hread (htail 0) (crc32_lt _), crc_eq, Nat.add_zero, ← length_requestWords hlen, hp, hws,
      packWords_append, List.append_assoc, ← length_packWords, List.take_left]
  have hend : word p (300 + 4 * (a.length + b.length) - 4) = RAVEIL_FOLD_END := by
    rw [show 300 + 4 * (a.length + b.length) - 4 = 4 * (73 + a.length + b.length + 1) by omega]
    exact hread (htail 1) (by decide)
  have hc : ((List.range 65).map fun i => word p (32 + 4 * i)) = config := by
    refine List.ext_getElem (by simp [hlen]) fun i hi hi' => ?_
    rw [List.getElem_map, List.getElem_range, show 32 + 4 * i = 4 * (8 + i) by omega]
    refine hread ((hconfig i (by omega)).trans (List.getElem?_eq_getElem hi')) (h.words _ ?_)
    exact List.getElem_mem hi'
  have hinputs : decodeInputs p config = placed a b := by
    rw [decodeInputs, ← h.lengthA, ← h.lengthB]
    refine List.ext_getElem? fun i => ?_
    rw [List.getElem?_map]
    by_cases hi : i < 648
    · rw [List.getElem?_range hi, Option.map_some]
      by_cases hia : i < a.length
      · rw [if_pos hia, placed_left hia, show 292 + 4 * i = 4 * (73 + i) by omega,
          hread ((ha i hia).trans (List.getElem?_eq_getElem hia)) (h.wordsA _ (List.getElem_mem hia)),
          List.getElem?_eq_getElem hia]
      · rw [if_neg hia]
        by_cases hib : 324 ≤ i ∧ i < 324 + b.length
        · obtain ⟨j, rfl⟩ := Nat.exists_eq_add_of_le hib.1
          have hj : j < b.length := by omega
          rw [if_pos hib, placed_right hA hj, Nat.add_sub_cancel_left,
            show 292 + 4 * (a.length + j) = 4 * (73 + (a.length + j)) by omega,
            hread ((hb _ hj).trans (List.getElem?_eq_getElem hj)) (h.wordsB _ (List.getElem_mem hj)),
            List.getElem?_eq_getElem hj]
        · rw [if_neg hib, placed_zero hA hi (by omega) (by omega)]
    · rw [List.getElem?_eq_none (by simpa using hi), Option.map_none,
        List.getElem?_eq_none (by rw [length_placed hA hB]; omega)]
  unfold raveilFoldDecode
  rw [if_neg, h24, hc, if_neg (by omega), if_neg, hinputs]
  · rw [h12, h16, raveilFoldValidate_eq_true.mpr h.admissible, h.lengthA, h.lengthB]
    simp
  · rw [h0, h4, h8, h12, h16, h20, hend, ← hcrc]
    simp only [RAVEIL_FOLD_MAX_BYTES, RAVEIL_FOLD_MAGIC, RAVEIL_FOLD_BRIDGE_MAGIC]
    omega

theorem word64_lt (p : List UInt8) (i : ℕ) : word64 p i < 2 ^ 64 := by
  have h1 := word_lt p i
  have h2 := word_lt p (i + 4)
  rw [word64, Nat.or_comm, ← Nat.shiftLeft_add_eq_or_of_lt h1, Nat.shiftLeft_eq]
  omega

theorem word64_eq_iff {p : List UInt8} {x : ℕ} (i : ℕ) (hx : x < 2 ^ 64) :
    word64 p i = x ↔ word p i = x % 2 ^ 32 ∧ word p (i + 4) = x >>> 32 := by
  constructor
  · rintro rfl
    have h1 := word_lt p i
    have h2 := word_lt p (i + 4)
    have hsum : word64 p i = word p (i + 4) * 2 ^ 32 + word p i := by
      rw [word64, Nat.or_comm, ← Nat.shiftLeft_add_eq_or_of_lt h1, Nat.shiftLeft_eq]
    rw [hsum, Nat.shiftRight_eq_div_pow]
    omega
  · rintro ⟨h1, h2⟩
    exact word64_halves p i h1 h2

/-- The words of a request that the guest reads, but for its magic and its checksum. -/
theorem raveilFoldDecode_words {bytes : List UInt8} {size : ℕ} {r : Request}
    (h : raveilFoldDecode bytes size = some r) :
    ∃ a b, RequestOk r.config a b r.requestId ∧ r.inputs = placed a b ∧
      size = 4 * (75 + a.length + b.length) ∧
      (List.range (75 + a.length + b.length)).map (fun k => word bytes (4 * k)) =
        (requestWords r.config a b r.requestId).set 0 (word bytes 0) ++
          [crc bytes (size - 8), RAVEIL_FOLD_END] := by
  unfold raveilFoldDecode at h
  split at h
  · cases h
  rename_i hhead
  simp only [not_or, not_not, not_lt] at hhead
  obtain ⟨-, -, -, h1, h8, -, -, h20, hsize, hend, hcrc⟩ := hhead
  dsimp only at h
  split at h
  · cases h
  rename_i hid
  split at h
  · cases h
  rename_i hvalid
  obtain rfl := Option.some.inj h
  simp only [not_or, Bool.not_eq_true', Bool.not_eq_false, ne_eq, not_not] at hvalid
  have hadm := raveilFoldValidate_eq_true.mp hvalid.1
  set c := (List.range 65).map fun i => word bytes (32 + 4 * i) with hc
  have hA := hadm.header.lengthA
  have hB := hadm.header.lengthB
  have hwords : ∀ (f : ℕ → ℕ) (n : ℕ), ∀ w ∈ (List.range n).map fun i => word bytes (f i), w < 2 ^ 32 := by
    intro f n w hw
    obtain ⟨i, -, rfl⟩ := List.mem_map.mp hw
    exact word_lt bytes _
  refine ⟨(List.range (cfg c 5)).map fun i => word bytes (292 + 4 * i),
    (List.range (cfg c 6)).map fun i => word bytes (292 + 4 * (cfg c 5 + i)),
    ⟨by simp [hc], hadm, hwords (fun i => 32 + 4 * i) 65, ⟨Nat.pos_of_ne_zero hid, word64_lt bytes 24⟩,
      by simp, by simp, hwords _ _, hwords _ _⟩, List.ext_getElem? fun i => ?_, ?_, ?_⟩
  · rw [decodeInputs, List.getElem?_map]
    by_cases hi : i < 648
    · rw [List.getElem?_range hi, Option.map_some]
      by_cases hia : i < cfg c 5
      · rw [if_pos hia, placed_left (by simpa using hia), List.getElem?_map, List.getElem?_range hia,
          Option.map_some]
      · rw [if_neg hia]
        by_cases hib : 324 ≤ i ∧ i < 324 + cfg c 6
        · obtain ⟨j, rfl⟩ := Nat.exists_eq_add_of_le hib.1
          have hj : j < cfg c 6 := by omega
          rw [if_pos hib, placed_right (by simpa using hA) (by simpa using hj), List.getElem?_map,
            List.getElem?_range hj, Option.map_some, Nat.add_sub_cancel_left]
        · rw [if_neg hib, placed_zero (by simpa using hA) hi (by simpa using hia) (by simp; omega)]
    · rw [List.getElem?_eq_none (by simpa using hi), Option.map_none,
        List.getElem?_eq_none (by rw [length_placed (by simpa using hA) (by simpa using hB)]; omega)]
  · simp only [List.length_map, List.length_range]
    omega
  · have hsplit : 75 + cfg c 5 + cfg c 6 = 8 + 65 + cfg c 5 + cfg c 6 + 2 := by omega
    have hhalves := (word64_eq_iff (p := bytes) 24 (word64_lt bytes 24)).mp rfl
    have hheader : (List.range 8).map (fun k => word bytes (4 * k)) =
        [word bytes 0, 1, 300 + 4 * (cfg c 5 + cfg c 6), cfg c 5, cfg c 6, 0, word64 bytes 24 % 2 ^ 32,
          word64 bytes 24 >>> 32] := by
      rw [← hhalves.1, ← hhalves.2, hvalid.2.1, hvalid.2.2, ← hsize]
      simp [List.range_succ, h1, h8, h20]
    have htail : [word bytes (4 * (8 + 65 + cfg c 5 + cfg c 6)),
        word bytes (4 * (8 + 65 + cfg c 5 + cfg c 6 + 1))] = [crc bytes (size - 8), RAVEIL_FOLD_END] := by
      rw [← hcrc, ← hend]
      congr 2 <;> congr 1 <;> omega
    rw [List.length_map, List.length_map, List.length_range, List.length_range, hsplit, List.range_add,
      List.range_add, List.range_add, List.range_add]
    have hc' : (List.range 65).map ((fun k => word bytes (4 * k)) ∘ fun x => 8 + x) = c := by
      refine List.map_congr_left fun i _ => ?_
      change word bytes (4 * (8 + i)) = word bytes (32 + 4 * i)
      congr 1
      omega
    have ha : (List.range (cfg c 5)).map ((fun k => word bytes (4 * k)) ∘ fun x => 8 + 65 + x) =
        (List.range (cfg c 5)).map fun i => word bytes (292 + 4 * i) := by
      refine List.map_congr_left fun i _ => ?_
      change word bytes (4 * (8 + 65 + i)) = word bytes (292 + 4 * i)
      congr 1
      omega
    have hb : (List.range (cfg c 6)).map ((fun k => word bytes (4 * k)) ∘ fun x => 8 + 65 + cfg c 5 + x) =
        (List.range (cfg c 6)).map fun i => word bytes (292 + 4 * (cfg c 5 + i)) := by
      refine List.map_congr_left fun i _ => ?_
      change word bytes (4 * (8 + 65 + cfg c 5 + i)) = word bytes (292 + 4 * (cfg c 5 + i))
      congr 1
      omega
    rw [List.map_append, List.map_append, List.map_append, List.map_append, List.map_map, List.map_map,
      List.map_map, List.map_map, hheader, hc', ha, hb]
    refine congrArg₂ _ ?_ htail
    simp only [requestWords, List.length_map, List.length_range, List.cons_append, List.set_cons_zero,
      List.nil_append, List.append_assoc]

/-- Every request the guest reads is one the host could have written. -/
theorem raveilFoldDecode_eq_some {bytes : List UInt8} {size : ℕ} {r : Request}
    (h : raveilFoldDecode bytes size = some r) :
    ∃ a b, RequestOk r.config a b r.requestId ∧ r.inputs = placed a b := by
  obtain ⟨a, b, hok, hinputs, -⟩ := raveilFoldDecode_words h
  exact ⟨a, b, hok, hinputs⟩

end Decode

end Raveil.Fold
