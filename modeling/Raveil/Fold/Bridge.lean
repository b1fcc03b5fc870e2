import Raveil.Fold.Wire

/-! The serial bridge: the guest sends a request and receives the words of the device. -/
namespace Raveil.Fold
open Raveil.Lib

def RESPONSE_MAGIC : ℕ := 0x46525231

/-- One call of `receive_hex`; `none` is a timeout or, as a result, the value -1. -/
def receiveHex : Option Char → Option ℕ
  | none => none
  | some c =>
    if '0' ≤ c ∧ c ≤ '9' then some (c.toNat - '0'.toNat)
    else if 'a' ≤ c ∧ c ≤ 'f' then some (c.toNat - 'a'.toNat + 10)
    else none

/-- The receive loop of `fold_bridge_exchange_checked`; `rx k` is what call `k` gets. -/
def receive (rx : ℕ → Option Char) (length : ℕ) : Option (List UInt8) :=
  (List.range length).mapM fun i => do
    let high ← receiveHex (rx (2 * i))
    let low ← receiveHex (rx (2 * i + 1))
    pure (UInt8.ofNat (high * 16 + low))

/-- `raveil_fold_response_decode`: the words it stores, or `none` when it returns false. -/
def raveilFoldResponseDecode (p : List UInt8) (n id epoch sequence : ℕ) (cookie : Fin 16 → UInt8)
    (count : ℕ) : Option (List ℕ) :=
  if count < 1 ∨ count > 256 ∨ n ≠ 60 + 4 * count ∨ word p 0 ≠ RESPONSE_MAGIC ∨ word p 4 ≠ 1 ∨
      word p 48 ≠ count ∨ word p 52 ≠ 0 ∨ word p (n - 4) ≠ crc p (n - 4) then none
  else if word64 p 8 ≠ id ∨ word64 p 16 ≠ epoch ∨ word64 p 24 ≠ sequence then none
  else if ∃ i : Fin 16, p.getD (32 + i) 0 ≠ cookie i then none
  else some ((List.range count).map fun i => word p (56 + 4 * i))

/-- `raveil_fold_bridge_encode`. -/
def raveilFoldBridgeEncode (r : Request) (capacity : ℕ) : Option (List UInt8) :=
  if r.requestId = 0 ∨ !raveilFoldValidate r.config then none
  else
    let n := 300 + 4 * (cfg r.config 5 + cfg r.config 6)
    if capacity < n then none
    else
      let body := [RAVEIL_FOLD_BRIDGE_MAGIC, 1, n, cfg r.config 5, cfg r.config 6, 0,
        r.requestId % 2 ^ 32, (r.requestId >>> 32) % 2 ^ 32] ++
        (List.range 65).map (cfg r.config) ++
        (List.range (cfg r.config 5)).map (fun i => r.inputs.getD i 0) ++
        (List.range (cfg r.config 6)).map fun i => r.inputs.getD (324 + i) 0
      some (packWords body ++ packWords [crc (packWords body) (n - 8), RAVEIL_FOLD_END])

/-- `response_bytes` of the host. -/
def responseBytes (id epoch sequence : ℕ) (cookie : Fin 16 → UInt8) (output : List ℕ) (status : ℕ) :
    List UInt8 :=
  let body := packWords [RESPONSE_MAGIC, 1] ++ le64 id ++ le64 epoch ++ le64 sequence ++
    (List.finRange 16).map cookie ++ packWords [output.length, status] ++ packWords output
  body ++ packWords [crc32 body]

theorem length_mapM {α β : Type} {f : α → Option β} {l : List α} {bs : List β} (h : l.mapM f = some bs) :
    bs.length = l.length := by
  induction l generalizing bs with
  | nil => simp_all
  | cons a l ih =>
    simp only [List.mapM_cons, Option.bind_eq_bind, Option.bind_eq_some_iff] at h
    obtain ⟨b, -, bs', hbs', he⟩ := h
    obtain rfl := Option.some.inj he
    rw [List.length_cons, List.length_cons, ih hbs']

/-- A received frame has the length asked for. -/
theorem length_receive {rx : ℕ → Option Char} {length : ℕ} {bytes : List UInt8}
    (h : receive rx length = some bytes) : bytes.length = length := by
  rw [length_mapM h, List.length_range]

section Request

variable {config a b : List ℕ} {requestId : ℕ}

theorem map_cfg (h : config.length = 65) : (List.range 65).map (cfg config) = config := by
  refine List.ext_getElem (by simp [h]) fun i hi hi' => ?_
  rw [List.getElem_map, List.getElem_range, cfg, List.getD_eq_getElem _ _ hi']

theorem map_placed_left : ((List.range a.length).map fun i => (placed a b).getD i 0) = a := by
  refine List.ext_getElem (by simp) fun i hi hi' => ?_
  rw [List.getElem_map, List.getElem_range, List.getD_eq_getElem?_getD, placed_left hi',
    List.getElem?_eq_getElem hi', Option.getD_some]

theorem map_placed_right (ha : a.length ≤ 324) :
    ((List.range b.length).map fun i => (placed a b).getD (324 + i) 0) = b := by
  refine List.ext_getElem (by simp) fun i hi hi' => ?_
  rw [List.getElem_map, List.getElem_range, List.getD_eq_getElem?_getD, placed_right ha hi',
    List.getElem?_eq_getElem hi', Option.getD_some]

/-- The guest writes a request as the host does. -/
theorem raveilFoldBridgeEncode_eq (h : RequestOk config a b requestId) {capacity : ℕ}
    (hcapacity : 300 + 4 * (a.length + b.length) ≤ capacity) :
    raveilFoldBridgeEncode ⟨requestId, config, placed a b⟩ capacity =
      some (packWords (requestWords config a b requestId ++ requestTail config a b requestId)) := by
  obtain ⟨hA, hB⟩ := h.lengths
  have hid := h.id
  have hhigh : (requestId >>> 32) % 2 ^ 32 = requestId >>> 32 := by
    rw [Nat.shiftRight_eq_div_pow]
    omega
  have hbody : [RAVEIL_FOLD_BRIDGE_MAGIC, 1, 300 + 4 * (a.length + b.length), a.length, b.length, 0,
      requestId % 2 ^ 32, (requestId >>> 32) % 2 ^ 32] ++ (List.range 65).map (cfg config) ++
      (List.range a.length).map (fun i => (placed a b).getD i 0) ++
      (List.range b.length).map (fun i => (placed a b).getD (324 + i) 0) =
      requestWords config a b requestId := by
    rw [map_cfg h.length, map_placed_left, map_placed_right hA, hhigh]
    rfl
  have hcrc : crc (packWords (requestWords config a b requestId)) (300 + 4 * (a.length + b.length) - 8) =
      crc32 (packWords (requestWords config a b requestId)) := by
    rw [crc_eq, List.take_of_length_le]
    rw [length_packWords, length_requestWords h.length]
    omega
  unfold raveilFoldBridgeEncode
  dsimp only
  rw [← h.lengthA, ← h.lengthB, hbody, if_neg, if_neg, hcrc, ← packWords_append]
  · rfl
  · omega
  · simp [raveilFoldValidate_eq_true.mpr h.admissible, hid.1.ne']

theorem RequestOk.size_le (h : RequestOk config a b requestId) :
    300 + 4 * (a.length + b.length) ≤ RAVEIL_FOLD_MAX_BYTES := by
  have := h.lengths
  unfold RAVEIL_FOLD_MAX_BYTES
  omega

/-- A request under the magic of the bridge is written back as it was read. -/
theorem raveilFoldBridgeEncode_decode {bytes : List UInt8} {r : Request} {capacity : ℕ}
    (h : raveilFoldDecode bytes bytes.length = some r) (hmagic : word bytes 0 = RAVEIL_FOLD_BRIDGE_MAGIC)
    (hcapacity : bytes.length ≤ capacity) : raveilFoldBridgeEncode r capacity = some bytes := by
  obtain ⟨a, b, hok, hinputs, hsize, hwords⟩ := raveilFoldDecode_words h
  have hset : (requestWords r.config a b r.requestId).set 0 (word bytes 0) =
      requestWords r.config a b r.requestId := by
    rw [hmagic]
    rfl
  have hbytes := packWords_words _ hsize
  rw [hwords, hset] at hbytes
  have hbody : bytes.take (bytes.length - 8) = packWords (requestWords r.config a b r.requestId) := by
    rw [← hbytes, hbytes, show bytes.length - 8 = 4 * (requestWords r.config a b r.requestId).length by
      rw [length_requestWords hok.length]; omega, ← hbytes, take_packWords, List.take_left]
  have hrequest : packWords (requestWords r.config a b r.requestId ++
      requestTail r.config a b r.requestId) = bytes := by
    rw [requestTail, ← hbody, ← crc_eq]
    exact hbytes
  have hr : r = ⟨r.requestId, r.config, placed a b⟩ := by rw [← hinputs]
  rw [hr, raveilFoldBridgeEncode_eq hok (by omega), hrequest]

end Request

section Response

variable {p : List UInt8} {id epoch sequence count : ℕ} {cookie : Fin 16 → UInt8} {output : List ℕ}

/-- The response before its checksum. -/
def responseBody (id epoch sequence : ℕ) (cookie : Fin 16 → UInt8) (output : List ℕ) : List UInt8 :=
  packWords [RESPONSE_MAGIC, 1, id % 2 ^ 32, id >>> 32, epoch % 2 ^ 32, epoch >>> 32, sequence % 2 ^ 32,
    sequence >>> 32] ++ ((List.finRange 16).map cookie ++ packWords ([output.length, 0] ++ output))

theorem responseBytes_eq : responseBytes id epoch sequence cookie output 0 =
    responseBody id epoch sequence cookie output ++
      packWords [crc32 (responseBody id epoch sequence cookie output)] := by
  have hbody : packWords [RESPONSE_MAGIC, 1] ++ le64 id ++ le64 epoch ++ le64 sequence ++
      (List.finRange 16).map cookie ++ packWords [output.length, 0] ++ packWords output =
      responseBody id epoch sequence cookie output := by
    simp only [responseBody, le64_eq, packWords_append, packWords_cons, packWords_nil, List.append_nil,
      List.append_assoc]
  rw [responseBytes, hbody]

theorem length_responseBody (id epoch sequence : ℕ) (cookie : Fin 16 → UInt8) (output : List ℕ) :
    (responseBody id epoch sequence cookie output).length = 56 + 4 * output.length := by
  simp [responseBody]
  omega

theorem length_responseBytes (id epoch sequence : ℕ) (cookie : Fin 16 → UInt8) (output : List ℕ) :
    (responseBytes id epoch sequence cookie output 0).length = 60 + 4 * output.length := by
  rw [responseBytes_eq, List.length_append, length_responseBody]
  simp
  omega

/-- The guest accepts exactly the response that the host builds for the same binding. -/
theorem responseDecode_eq_some (hlen : p.length = 60 + 4 * count) (hc : 1 ≤ count ∧ count ≤ 256)
    (hid : id < 2 ^ 64) (hepoch : epoch < 2 ^ 64) (hseq : sequence < 2 ^ 64) :
    raveilFoldResponseDecode p (60 + 4 * count) id epoch sequence cookie count = some output ↔
      output.length = count ∧ (∀ w ∈ output, w < 2 ^ 32) ∧
        p = responseBytes id epoch sequence cookie output 0 := by
  unfold raveilFoldResponseDecode
  rw [responseBytes_eq]
  constructor
  · intro h
    split at h
    · cases h
    rename_i h1
    split at h
    · cases h
    rename_i h2
    split at h
    · cases h
    rename_i h3
    obtain rfl := Option.some.inj h
    simp only [not_or, not_not, not_exists] at h1 h2 h3
    obtain ⟨-, -, -, hmagic, hone, hcount, hstatus, hcrc⟩ := h1
    rw [word64_eq_iff 8 hid, word64_eq_iff 16 hepoch, word64_eq_iff 24 hseq] at h2
    have hhead := slice_eq (p := p) (i := 0) 8 (by omega)
    have htail := slice_eq (p := p) (i := 48) (2 + count) (by omega)
    have hlast := slice_eq (p := p) (i := 56 + 4 * count) 1 (by omega)
    have hcookie : (p.drop 32).take 16 = (List.finRange 16).map cookie := by
      refine List.ext_getElem ?_ fun i hi hi' => ?_
      · rw [List.length_take, List.length_drop]
        simp
        omega
      · have hi16 : i < 16 := by simpa using hi'
        have := h3 ⟨i, hi16⟩
        rw [List.getD_eq_getElem _ _ (by dsimp only; omega)] at this
        simpa using this
    have hbody : p.take (56 + 4 * count) = responseBody id epoch sequence cookie
        ((List.range count).map fun i => word p (56 + 4 * i)) := by
      have hsplit : p.take (56 + 4 * count) = (p.drop 0).take (4 * 8) ++ ((p.drop 32).take 16 ++
          (p.drop 48).take (4 * (2 + count))) := by
        rw [List.drop_zero, show 56 + 4 * count = 4 * 8 + (16 + 4 * (2 + count)) by omega,
          List.take_add, List.take_add, List.drop_drop]
      rw [hsplit, hhead, hcookie, htail, responseBody]
      congr 1
      · refine congrArg packWords ?_
        simp [List.range_succ, hmagic, hone, h2]
      · refine congrArg₂ _ rfl (congrArg packWords ?_)
        rw [List.range_add, List.map_append, List.map_map]
        refine congrArg₂ _ ?_ ?_
        · simp [List.range_succ, hcount, hstatus]
        · refine List.map_congr_left fun i _ => ?_
          change word p (48 + 4 * (2 + i)) = word p (56 + 4 * i)
          congr 1
          omega
    refine ⟨by simp, fun w hw => ?_, ?_⟩
    · obtain ⟨i, -, rfl⟩ := List.mem_map.mp hw
      exact word_lt p _
    · rw [show 60 + 4 * count - 4 = 56 + 4 * count by omega, crc_eq, hbody] at hcrc
      conv_lhs => rw [← List.take_append_drop (56 + 4 * count) p]
      rw [hbody]
      congr 1
      rw [← hcrc]
      have hall : (p.drop (56 + 4 * count)).take (4 * 1) = p.drop (56 + 4 * count) := by
        rw [List.take_of_length_le]
        rw [List.length_drop]
        omega
      rw [← hall, hlast]
      rfl
  · rintro ⟨hcount, hwords, rfl⟩
    have hbody := length_responseBody id epoch sequence cookie output
    set q := responseBody id epoch sequence cookie output with hq
    have hread : ∀ i, i + 4 ≤ q.length → word (q ++ packWords [crc32 q]) i = word q i :=
      fun i hi => word_append hi
    have hheadw : ∀ {k w : ℕ}, [RESPONSE_MAGIC, 1, id % 2 ^ 32, id >>> 32, epoch % 2 ^ 32, epoch >>> 32,
        sequence % 2 ^ 32, sequence >>> 32][k]? = some w → w < 2 ^ 32 →
        word (q ++ packWords [crc32 q]) (4 * k) = w := by
      intro k w hk hw
      have hk8 := (List.getElem?_eq_some_iff.mp hk).1
      simp only [List.length_cons, List.length_nil] at hk8
      rw [hread _ (by omega), hq, responseBody]
      exact word_packWords_append _ hk hw
    have htailw : ∀ {k w : ℕ}, ([output.length, 0] ++ output)[k]? = some w → w < 2 ^ 32 →
        word (q ++ packWords [crc32 q]) (48 + 4 * k) = w := by
      intro k w hk hw
      have hk' := (List.getElem?_eq_some_iff.mp hk).1
      simp only [List.length_append, List.length_cons, List.length_nil] at hk'
      have hdrop : q.drop 48 = packWords ([output.length, 0] ++ output) := by
        rw [hq, responseBody, ← List.append_assoc, List.drop_left']
        simp
      rw [hread _ (by omega), ← word_drop, hdrop]
      exact word_packWords hk hw
    have hshift : ∀ x : ℕ, x < 2 ^ 64 → x >>> 32 < 2 ^ 32 := by
      intro x hx
      rw [Nat.shiftRight_eq_div_pow]
      omega
    have hcookie : ¬ ∃ i : Fin 16, (q ++ packWords [crc32 q]).getD (32 + i) 0 ≠ cookie i := by
      rintro ⟨i, hi⟩
      apply hi
      rw [hq, responseBody, List.append_assoc, List.getD_eq_getElem?_getD,
        List.getElem?_append_right (by simp), List.append_assoc,
        List.getElem?_append_left (by simp)]
      simp
    have hcrc : word (q ++ packWords [crc32 q]) (60 + 4 * count - 4) =
        crc (q ++ packWords [crc32 q]) (60 + 4 * count - 4) := by
      rw [show 60 + 4 * count - 4 = q.length by omega, crc_eq, List.take_left,
        ← Nat.add_zero q.length, ← word_drop, List.drop_left]
      exact word_packWords (k := 0) rfl (crc32_lt _)
    rw [if_neg, if_neg, if_neg hcookie]
    · refine congrArg some (List.ext_getElem (by simp [hcount]) fun i hi hi' => ?_)
      rw [List.getElem_map, List.getElem_range, show 56 + 4 * i = 48 + 4 * (2 + i) by omega]
      refine htailw ?_ (hwords _ (List.getElem_mem hi'))
      rw [List.getElem?_append_right (by simp)]
      simp [List.getElem?_eq_getElem hi']
    · rw [word64_halves _ 8 (hheadw (k := 2) rfl (Nat.mod_lt _ (by decide))) (hheadw (k := 3) rfl (hshift _ hid)),
        word64_halves _ 16 (hheadw (k := 4) rfl (Nat.mod_lt _ (by decide)))
          (hheadw (k := 5) rfl (hshift _ hepoch)),
        word64_halves _ 24 (hheadw (k := 6) rfl (Nat.mod_lt _ (by decide)))
          (hheadw (k := 7) rfl (hshift _ hseq))]
      simp
    · have h0 : word (q ++ packWords [crc32 q]) 0 = RESPONSE_MAGIC := hheadw (k := 0) rfl (by decide)
      have h4 : word (q ++ packWords [crc32 q]) 4 = 1 := hheadw (k := 1) rfl (by decide)
      have h48 : word (q ++ packWords [crc32 q]) 48 = output.length := htailw (k := 0) rfl (by omega)
      have h52 : word (q ++ packWords [crc32 q]) 52 = 0 := htailw (k := 1) rfl (by decide)
      rw [h0, h4, h48, h52, ← hcrc]
      omega

end Response

theorem placed_words {a b : List ℕ} (ha : ∀ w ∈ a, w < 2 ^ 32) (hb : ∀ w ∈ b, w < 2 ^ 32) :
    ∀ w ∈ placed a b, w < 2 ^ 32 := by
  intro w hw
  simp only [placed, List.mem_append, List.mem_replicate] at hw
  obtain ((hw | ⟨-, rfl⟩) | hw) | ⟨-, rfl⟩ := hw
  · exact ha w hw
  · exact Nat.two_pow_pos 32
  · exact hb w hw
  · exact Nat.two_pow_pos 32

end Raveil.Fold
