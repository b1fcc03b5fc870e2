import Raveil.Fold.Bridge

/-! A response is accepted exactly when it answers the pending dispatch. -/
namespace Raveil.Fold
open Raveil.Lib

/-- One digit of `bytes.hex()`. -/
def hexDigit (n : ℕ) : Char := "0123456789abcdef".toList.getD n '0'

/-- `bytes.hex()`. -/
def hexText (bytes : List UInt8) : List Char :=
  bytes.flatMap fun byte => [hexDigit (byte.toNat / 16), hexDigit (byte.toNat % 16)]

section Receive

theorem receiveHex_hexDigit {n : ℕ} (h : n < 16) : receiveHex (some (hexDigit n)) = some n := by
  have hall : ∀ n, n < 16 → receiveHex (some (hexDigit n)) = some n := by decide
  exact hall n h

theorem getElem?_hexText {bytes : List UInt8} {i : ℕ} {byte : UInt8} (h : bytes[i]? = some byte) :
    (hexText bytes)[2 * i]? = some (hexDigit (byte.toNat / 16)) ∧
      (hexText bytes)[2 * i + 1]? = some (hexDigit (byte.toNat % 16)) := by
  induction bytes generalizing i with
  | nil => simp at h
  | cons b bytes ih =>
    cases i with
    | zero =>
      obtain rfl : b = byte := by simpa using h
      exact ⟨rfl, rfl⟩
    | succ i =>
      obtain ⟨h1, h2⟩ := ih (i := i) (by simpa using h)
      exact ⟨h1, h2⟩

theorem mapM_eq_some_map {α β : Type} {f : α → Option β} {g : α → β} {l : List α}
    (h : ∀ a ∈ l, f a = some (g a)) : l.mapM f = some (l.map g) := by
  induction l with
  | nil => rfl
  | cons a l ih =>
    rw [List.forall_mem_cons] at h
    simp [h.1, ih h.2]

/-- The reception loop rebuilds a frame from its text. -/
theorem receive_hexText {bytes : List UInt8} {rx : ℕ → Option Char}
    (h : ∀ k, k < 2 * bytes.length → rx k = (hexText bytes)[k]?) : receive rx bytes.length = some bytes := by
  have hmap : ((List.range bytes.length).map fun i => bytes.getD i 0) = bytes := by
    refine List.ext_getElem (by simp) fun i hi hi' => ?_
    rw [List.getElem_map, List.getElem_range, List.getD_eq_getElem]
  have hbyte : ∀ i ∈ List.range bytes.length, (do
      let high ← receiveHex (rx (2 * i))
      let low ← receiveHex (rx (2 * i + 1))
      pure (UInt8.ofNat (high * 16 + low)) : Option UInt8) = some (bytes.getD i 0) := by
    intro i hi
    have hlt := List.mem_range.mp hi
    have hget : bytes[i]? = some (bytes.getD i 0) := by
      rw [List.getD_eq_getElem _ _ hlt, List.getElem?_eq_getElem hlt]
    obtain ⟨h1, h2⟩ := getElem?_hexText hget
    have hlow : (bytes.getD i 0).toNat < 256 := (bytes.getD i 0).toNat_lt
    rw [h _ (by omega), h _ (by omega), h1, h2, receiveHex_hexDigit (by omega),
      receiveHex_hexDigit (Nat.mod_lt _ (by omega))]
    simp only [Option.bind_eq_bind, Option.bind_some, Nat.div_add_mod', UInt8.ofNat_toNat]
    rfl
  rw [receive, mapM_eq_some_map hbyte, hmap]

end Receive

section Accept

variable {p : List UInt8} {id epoch sequence count : ℕ} {cookie : Fin 16 → UInt8} {output : List ℕ}

/-- Acceptance of a string of any length. -/
theorem responseDecode_iff (hc : 1 ≤ count ∧ count ≤ 256) (hid : id < 2 ^ 64) (hepoch : epoch < 2 ^ 64)
    (hseq : sequence < 2 ^ 64) :
    raveilFoldResponseDecode p p.length id epoch sequence cookie count = some output ↔
      output.length = count ∧ (∀ w ∈ output, w < 2 ^ 32) ∧
        p = responseBytes id epoch sequence cookie output 0 := by
  by_cases hlen : p.length = 60 + 4 * count
  · rw [hlen]
    exact responseDecode_eq_some hlen hc hid hepoch hseq
  · have hnone : raveilFoldResponseDecode p p.length id epoch sequence cookie count = none :=
      if_pos (Or.inr (Or.inr (Or.inl hlen)))
    rw [hnone]
    simp only [reduceCtorEq, false_iff, not_and]
    rintro hcount - rfl
    apply hlen
    rw [length_responseBytes, hcount]

/-- The fields of a response stand where the guest looks for them. -/
theorem responseBytes_fields (cookie : Fin 16 → UInt8) (output : List ℕ) (status : ℕ) (hid : id < 2 ^ 64) (hepoch : epoch < 2 ^ 64)
    (hseq : sequence < 2 ^ 64) (hlen : output.length < 2 ^ 32) (hstatus : status < 2 ^ 32) :
    word64 (responseBytes id epoch sequence cookie output status) 8 = id ∧
      word64 (responseBytes id epoch sequence cookie output status) 16 = epoch ∧
      word64 (responseBytes id epoch sequence cookie output status) 24 = sequence ∧
      (∀ i : Fin 16, (responseBytes id epoch sequence cookie output status).getD (32 + i) 0 = cookie i) ∧
      word (responseBytes id epoch sequence cookie output status) 48 = output.length ∧
      word (responseBytes id epoch sequence cookie output status) 52 = status := by
  obtain ⟨crc, hcrc⟩ : ∃ crc, responseBytes id epoch sequence cookie output status =
      packWords [RESPONSE_MAGIC, 1, id % 2 ^ 32, id >>> 32, epoch % 2 ^ 32, epoch >>> 32, sequence % 2 ^ 32,
        sequence >>> 32] ++ ((List.finRange 16).map cookie ++
          packWords ([output.length, status] ++ output ++ [crc])) := by
    refine ⟨crc32 (packWords [RESPONSE_MAGIC, 1] ++ le64 id ++ le64 epoch ++ le64 sequence ++
      (List.finRange 16).map cookie ++ packWords [output.length, status] ++ packWords output), ?_⟩
    simp only [responseBytes, le64_eq, packWords_append, packWords_cons, packWords_nil, List.append_nil,
      List.append_assoc]
  have hshift : ∀ x : ℕ, x < 2 ^ 64 → x >>> 32 < 2 ^ 32 := by
    intro x hx
    rw [Nat.shiftRight_eq_div_pow]
    omega
  have hmod : ∀ x : ℕ, x % 2 ^ 32 < 2 ^ 32 := fun x => Nat.mod_lt x (Nat.two_pow_pos 32)
  rw [hcrc]
  refine ⟨?_, ?_, ?_, fun i => ?_, ?_, ?_⟩
  · exact word64_halves _ 8 (word_packWords_append _ (k := 2) rfl (hmod _))
      (word_packWords_append _ (k := 3) rfl (hshift _ hid))
  · exact word64_halves _ 16 (word_packWords_append _ (k := 4) rfl (hmod _))
      (word_packWords_append _ (k := 5) rfl (hshift _ hepoch))
  · exact word64_halves _ 24 (word_packWords_append _ (k := 6) rfl (hmod _))
      (word_packWords_append _ (k := 7) rfl (hshift _ hseq))
  · rw [List.getD_eq_getElem?_getD, List.getElem?_append_right (by simp),
      List.getElem?_append_left (by simp)]
    simp
  · rw [← Nat.add_zero 48, ← word_drop, ← List.append_assoc, List.drop_left' (by simp)]
    exact word_packWords (k := 0) rfl hlen
  · rw [show 52 = 48 + 4 * 1 from rfl, ← word_drop, ← List.append_assoc, List.drop_left' (by simp)]
    exact word_packWords (k := 1) rfl hstatus

/-- Responses are accepted exactly when they answer the pending dispatch: the decoder accepts the
frame of the binding and no other, and the reception loop rebuilds the frame from its text. -/
theorem response_exact (hc : 1 ≤ count ∧ count ≤ 256) (hid : id < 2 ^ 64) (hepoch : epoch < 2 ^ 64)
    (hseq : sequence < 2 ^ 64) :
    (∀ p output, raveilFoldResponseDecode p p.length id epoch sequence cookie count = some output ↔
      output.length = count ∧ (∀ w ∈ output, w < 2 ^ 32) ∧
        p = responseBytes id epoch sequence cookie output 0) ∧
    (∀ output rx, output.length = count →
      (∀ k, k < 2 * (60 + 4 * count) →
        rx k = (hexText (responseBytes id epoch sequence cookie output 0))[k]?) →
      receive rx (60 + 4 * count) = some (responseBytes id epoch sequence cookie output 0)) ∧
    (∀ id' epoch' sequence' cookie' output' status', id' < 2 ^ 64 → epoch' < 2 ^ 64 → sequence' < 2 ^ 64 →
      output'.length < 2 ^ 32 → status' < 2 ^ 32 →
      (raveilFoldResponseDecode (responseBytes id' epoch' sequence' cookie' output' status')
        (responseBytes id' epoch' sequence' cookie' output' status').length id epoch sequence cookie
        count).isSome →
      id' = id ∧ epoch' = epoch ∧ sequence' = sequence ∧ cookie' = cookie ∧ output'.length = count ∧
        status' = 0) := by
  refine ⟨fun p output => responseDecode_iff hc hid hepoch hseq, fun output rx hlen hrx => ?_, ?_⟩
  · have hbytes : (responseBytes id epoch sequence cookie output 0).length = 60 + 4 * count := by
      rw [length_responseBytes, hlen]
    rw [← hbytes] at hrx ⊢
    exact receive_hexText hrx
  · intro id' epoch' sequence' cookie' output' status' hid' hepoch' hseq' hlen' hstatus' haccept
    obtain ⟨output, hsome⟩ := Option.isSome_iff_exists.mp haccept
    obtain ⟨hcount, -, hbytes⟩ := (responseDecode_iff hc hid hepoch hseq).mp hsome
    obtain ⟨h1, h2, h3, h4, h5, h6⟩ := responseBytes_fields cookie' output' status' hid' hepoch' hseq' hlen' hstatus'
    obtain ⟨g1, g2, g3, g4, g5, g6⟩ := responseBytes_fields cookie output 0
      hid hepoch hseq (by omega) (by decide)
    rw [hbytes] at h1 h2 h3 h4 h5 h6
    refine ⟨h1.symm.trans g1, h2.symm.trans g2, h3.symm.trans g3, ?_, ?_, h6.symm.trans g6⟩
    · funext i
      exact (h4 i).symm.trans (g4 i)
    · rw [← h5, g5, hcount]

/-- A dispatch of one word, and a frame that answers it. -/
theorem response_exact_one :
    raveilFoldResponseDecode (responseBytes 3 5 1 (fun _ => 7) [9] 0)
      (responseBytes 3 5 1 (fun _ => 7) [9] 0).length 3 5 1 (fun _ => 7) 1 = some [9] :=
  ((@response_exact 3 5 1 1 (fun _ => 7) (show 1 ≤ 1 ∧ 1 ≤ 256 by decide) (show 3 < 2 ^ 64 by decide)
    (show 5 < 2 ^ 64 by decide) (show 1 < 2 ^ 64 by decide)).1 _ _).mpr ⟨rfl, by decide, rfl⟩

end Accept

end Raveil.Fold
