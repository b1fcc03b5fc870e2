import Raveil.Dispatch.Whole
import Raveil.Fold.Response

/-! A running job reads whole words of its objects and exchanges its request for a response. -/
namespace Raveil.Dispatch
open Raveil.Lib Raveil.Fold Raveil.Authority

section Memory

theorem memory_of_le {ws : List ℕ} {k : ℕ} (h : 4 * ws.length ≤ k) : memory ws k = 0 := by
  have hzero : ∀ m, m < 4 → (le32 0).getD m 0 = 0 := by decide
  have hword : ws.getD (k / 4) 0 = 0 := List.getD_eq_default _ _ (by omega)
  rw [memory, hword]
  exact hzero _ (Nat.mod_lt _ (by omega))

theorem memory_zeros (k : ℕ) : memory ((List.range 128).map fun _ => 0) k = 0 := by
  have hzero : ∀ m, m < 4 → (le32 0).getD m 0 = 0 := by decide
  have hword : ((List.range 128).map fun _ => 0).getD (k / 4) 0 = 0 := by
    rw [List.getD_eq_getElem?_getD, List.getElem?_map]
    cases (List.range 128)[k / 4]? <;> rfl
  rw [memory, hword]
  exact hzero _ (Nat.mod_lt _ (by omega))

theorem memory_eq (ws : List ℕ) (k : ℕ) : memory ws k = (packWords ws).getD k 0 := by
  induction ws generalizing k with
  | nil => exact memory_of_le (Nat.zero_le k)
  | cons w ws ih =>
    rw [packWords_cons, memory]
    by_cases hk : k < 4
    · rw [Nat.div_eq_of_lt hk, Nat.mod_eq_of_lt hk, List.getD_cons_zero,
        List.getD_append _ _ _ _ (by rw [length_le32]; exact hk)]
    · rw [List.getD_append_right _ _ _ _ (by rw [length_le32]; omega), length_le32, ← ih, memory,
        show k / 4 = (k - 4) / 4 + 1 by omega, show k % 4 = (k - 4) % 4 by omega, List.getD_cons_succ]

/-- Reading whole words out of memory gives packed words. -/
theorem map_memory {ws : List ℕ} {first m : ℕ} (h : first + m ≤ ws.length) :
    ((List.range (4 * m)).map fun k => memory ws (4 * first + k)) = packWords ((ws.drop first).take m) := by
  have hlen : (packWords ((ws.drop first).take m)).length = 4 * m := by
    rw [length_packWords, List.length_take, List.length_drop]
    omega
  refine List.ext_getElem (by simp [hlen]) fun k hk hk' => ?_
  rw [List.getElem_map, List.getElem_range, memory_eq]
  rw [hlen] at hk'
  have hget : (packWords ((ws.drop first).take m))[k]? = (packWords ws)[4 * first + k]? := by
    rw [← take_packWords, ← drop_packWords, List.getElem?_take_of_lt hk', List.getElem?_drop]
  rw [List.getD_eq_getElem?_getD, ← hget, List.getElem?_eq_getElem, Option.getD_some]

end Memory

section Store

theorem length_storeAt (l ws : List ℕ) (pos : ℕ) : (storeAt l pos ws).length = l.length := by
  simp [storeAt]

theorem storeAt_getD (l ws : List ℕ) {pos i : ℕ} (hi : i < l.length) : (storeAt l pos ws).getD i 0 =
    if pos ≤ i ∧ i < pos + ws.length then ws.getD (i - pos) 0 else l.getD i 0 := by
  rw [List.getD_eq_getElem _ _ (by rw [length_storeAt]; exact hi)]
  simp [storeAt]

theorem storeAt_nil (l : List ℕ) (pos : ℕ) : storeAt l pos [] = l := by
  refine List.ext_getElem (length_storeAt _ _ _) fun i hi hi' => ?_
  rw [← List.getD_eq_getElem _ 0 hi, storeAt_getD _ _ hi', if_neg (by simp), List.getD_eq_getElem]

/-- Storing on is storing once. -/
theorem storeAt_storeAt (l ws ws' : List ℕ) (pos : ℕ) :
    storeAt (storeAt l pos ws) (pos + ws.length) ws' = storeAt l pos (ws ++ ws') := by
  refine List.ext_getElem (by simp only [length_storeAt]) fun i hi hi' => ?_
  rw [length_storeAt] at hi'
  rw [← List.getD_eq_getElem _ 0 hi, storeAt_getD _ _ (by rw [length_storeAt]; exact hi'),
    storeAt_getD _ _ hi', ← List.getD_eq_getElem _ 0, storeAt_getD _ _ hi', List.length_append]
  by_cases h1 : pos + ws.length ≤ i ∧ i < pos + ws.length + ws'.length
  · rw [if_pos h1, if_pos (by omega), List.getD_append_right _ _ _ _ (by omega)]
    congr 1
    omega
  · rw [if_neg h1]
    by_cases h2 : pos ≤ i ∧ i < pos + ws.length
    · rw [if_pos h2, if_pos (by omega), List.getD_append _ _ _ _ (by omega)]
    · rw [if_neg h2, if_neg (by omega)]

theorem placed_getD {a b : List ℕ} (ha : a.length ≤ 324) {i : ℕ} (hi : i < 648) :
    (placed a b).getD i 0 = if i < 324 then a.getD i 0 else b.getD (i - 324) 0 := by
  rw [List.getD_eq_getElem?_getD]
  by_cases hlt : i < 324
  · rw [if_pos hlt]
    by_cases hia : i < a.length
    · rw [placed_left hia, List.getD_eq_getElem?_getD]
    · rw [placed_zero ha hi (by omega) (Or.inl hlt), List.getD_eq_default _ _ (by omega), Option.getD_some]
  · obtain ⟨j, rfl⟩ := Nat.exists_eq_add_of_le (show 324 ≤ i by omega)
    rw [if_neg hlt, Nat.add_sub_cancel_left]
    by_cases hj : j < b.length
    · rw [placed_right ha hj, List.getD_eq_getElem?_getD]
    · rw [placed_zero ha hi (by omega) (Or.inr (by omega)), List.getD_eq_default _ _ (by omega),
        Option.getD_some]

/-- Storing operand `b` replaces an array of the same length. -/
theorem storeAt_placed {x y z : List ℕ} (hx : x.length ≤ 324) (hy : y.length ≤ 324) :
    (z.length = x.length → storeAt (placed x y) (324 * 0) z = placed z y) ∧
      (z.length = y.length → storeAt (placed x y) (324 * 1) z = placed x z) := by
  have hlen := length_placed hx hy
  constructor
  · intro hz
    refine List.ext_getElem (by rw [length_storeAt, hlen, length_placed (by omega) hy]) fun i hi hi' => ?_
    have hi648 : i < 648 := by rwa [length_storeAt, hlen] at hi
    rw [← List.getD_eq_getElem _ 0 hi, ← List.getD_eq_getElem _ 0 hi', storeAt_getD _ _ (by omega),
      placed_getD hx hi648, placed_getD (by omega) hi648]
    by_cases h1 : i < z.length
    · rw [if_pos (by omega), if_pos (by omega)]
      congr 1
    · rw [if_neg (by omega)]
      split
      · rw [List.getD_eq_default _ _ (by omega), List.getD_eq_default _ _ (by omega)]
      · rfl
  · intro hz
    refine List.ext_getElem (by rw [length_storeAt, hlen, length_placed hx (by omega)]) fun i hi hi' => ?_
    have hi648 : i < 648 := by rwa [length_storeAt, hlen] at hi
    rw [← List.getD_eq_getElem _ 0 hi, ← List.getD_eq_getElem _ 0 hi', storeAt_getD _ _ (by omega),
      placed_getD hx hi648, placed_getD hx hi648]
    by_cases h1 : 324 ≤ i ∧ i < 324 + z.length
    · rw [if_pos (by omega), if_neg (by omega)]
    · rw [if_neg (by omega)]
      split
      · rfl
      · rw [List.getD_eq_default _ _ (by omega), List.getD_eq_default _ _ (by omega)]

end Store

section Read

variable {versions : ℕ → ℕ} {n : ℕ} {reads dests slots : List ℕ} {job : JobDescriptor} {words : ℕ → ℕ → ℕ}
  {s : State}

theorem wholeRef_access (versions : ℕ → ℕ) (reads : List ℕ) (slot : ℕ) :
    (wholeRef versions reads slot).access =
      if slot ∈ reads then RAVEIL_OBJECT_READ else RAVEIL_OBJECT_WRITE := rfl

/-- Reading a slot of the running job gives its words. -/
theorem Refers.read_slot (h : Refers versions n reads dests slots job)
    (ho : s.objects = slotObjects n versions words) (queue : RingBuffer Submission) {slot first m : ℕ}
    (hslot : slot ∈ reads) (hm : first + m ≤ 128) :
    jobSubmissionRead (flying s queue s.completions (dispatchedSlot s job)) (newSubmission s job) (slot + 1)
      (4 * first) (4 * m) = some (packWords ((List.range m).map fun j => words slot (first + j))) := by
  obtain ⟨r, hr, he⟩ := h.exists_ref ((h.ok.mem slot).mpr (Or.inl hslot))
  have hlt := h.ok.read_lt hslot
  have hbound := h.ok.bound
  have hid : (job.objects r).objectId = slot + 1 := by
    rw [he]
    rfl
  have hreadable : readRef (dispatchedSlot s job) (slot + 1) (4 * first) (4 * m) r = true := by
    have haccess := wholeRef_access versions reads slot
    rw [if_pos hslot] at haccess
    have hentry : (dispatchedSlot s job).submission.job.objects r = wholeRef versions reads slot := he
    simp only [readRef, decide_eq_true_iff, hentry]
    refine ⟨haccess, rfl, Nat.zero_le _, ?_⟩
    change 4 * first ≤ 0 + 512 ∧ 4 * m ≤ 0 + 512 - 4 * first
    omega
  have hfind : findObject s.objects (job.objects r).objectId = some ⟨slot, by omega⟩ := by
    rw [hid, ho, findObject_slotObjects hbound hlt]
  have hobject : s.objects ⟨slot, by omega⟩ =
      ⟨true, { objectManifest slot with version := versions slot },
        memory ((List.range 128).map (words slot))⟩ := by
    rw [ho, slotObjects, if_pos hlt]
  have hread := read_idle queue (4 * first) (4 * m) hr (by rw [hid]; exact hreadable)
    (fun r' hr' hid' => h.distinct hr' hr hid') hfind (by
      rw [hobject]
      change 4 * first + 4 * m ≤ 512
      omega)
  rw [hid] at hread
  rw [hread, hobject]
  refine congrArg some ((map_memory (by simpa using hm)).trans (congrArg packWords ?_))
  refine List.ext_getElem (by simp; omega) fun j hj hj' => ?_
  simp

end Read

section Execute

variable {config a b : List ℕ} {id count : ℕ} {issued : Submission} {rx : ℕ → Option Char}

/-- What the execution of a job leaves behind, by how the device answered. -/
structure Executed (config a b : List ℕ) (id : ℕ) (o : Outcome) (e : Execution) : Prop where
  ok : e.ok = decide (o = .correct)
  framed : e.framed = decide (o ≠ .lost)
  expected : ∀ n, e.expected.getD n 0 = (outputWords config (placed a b)).getD n 0
  actual : e.ok = true → ∀ n, e.actual.getD n 0 = (outputWords config (placed a b)).getD n 0
  envelope : e.envelope = some (packWords (requestWords config a b id ++ requestTail config a b id))

theorem getD_zeros (m n : ℕ) : (List.replicate m 0).getD n 0 = 0 := by
  rw [List.getD_eq_getElem?_getD, List.getElem?_replicate]
  split
  · rfl
  · rfl

theorem getD_padded (l : List ℕ) (m n : ℕ) : (l ++ List.replicate m 0).getD n 0 = l.getD n 0 := by
  by_cases hn : n < l.length
  · rw [List.getD_append _ _ _ _ hn]
  · rw [List.getD_append_right _ _ _ _ (by omega), List.getD_eq_default l _ (by omega), getD_zeros]

theorem getD_storeAt_zeros (ws : List ℕ) {m : ℕ} (hws : ws.length ≤ m) (n : ℕ) :
    (storeAt (List.replicate m 0) 0 ws).getD n 0 = ws.getD n 0 := by
  by_cases hn : n < m
  · rw [storeAt_getD _ _ (by rw [List.length_replicate]; exact hn)]
    by_cases hlt : n < ws.length
    · rw [if_pos (by omega), Nat.sub_zero]
    · rw [if_neg (by omega), List.getD_eq_default ws _ (by omega), getD_zeros]
  · rw [List.getD_eq_default _ _ (by rw [length_storeAt, List.length_replicate]; omega),
      List.getD_eq_default _ _ (by omega)]

/-- Only the response of the host for the expected words executes the job. -/
theorem executed (hok : RequestOk config a b id) (hcount : count = rows config * cols config)
    (hid : issued.job.jobId = id) (hepoch : issued.executionEpoch < 2 ^ 64)
    (hseq : issued.executionSequence < 2 ^ 64) :
    Executed config a b id (outcome rx id issued.executionEpoch issued.executionSequence
      issued.completionCookie (outputWords config (placed a b)))
      (execute ⟨id, config, placed a b⟩ true issued count rx) := by
  set expected := outputWords config (placed a b) with hexpected
  have hlen : expected.length = count := by rw [hexpected, outputWords_length, hcount]
  have hwords : ∀ w ∈ expected, w < 2 ^ 32 := outputWords_lt (placed_words hok.wordsA hok.wordsB)
  have hle : 1 ≤ count ∧ count ≤ 256 := by
    rw [hcount]
    exact ⟨Nat.mul_pos hok.admissible.header.rows.1 hok.admissible.header.cols.1, cells_le hok.admissible⟩
  have heval : raveilFoldEvaluate ⟨id, config, placed a b⟩ (List.replicate 256 0) =
      some (expected ++ List.replicate (256 - count) 0) := by
    rw [raveilFoldEvaluate_eq (r := ⟨id, config, placed a b⟩) hok.admissible List.length_replicate, hcount,
      List.drop_replicate]
  have hpadded := getD_padded expected (256 - count)
  unfold Dispatch.execute outcome
  simp only [if_true, heval, raveilFoldBridgeEncode_eq hok hok.size_le, hlen]
  cases hrx : receive rx (60 + 4 * count) with
  | none => exact ⟨rfl, rfl, hpadded, fun hc => absurd hc (by simp), rfl⟩
  | some bytes =>
    have hdecode : ∀ ws, raveilFoldResponseDecode bytes (60 + 4 * count) issued.job.jobId issued.executionEpoch
        issued.executionSequence issued.completionCookie count = some ws ↔ ws.length = count ∧
          (∀ w ∈ ws, w < 2 ^ 32) ∧ bytes = responseBytes id issued.executionEpoch issued.executionSequence
            issued.completionCookie ws 0 := by
      intro ws
      rw [hid]
      exact responseDecode_eq_some (length_receive hrx) hle hok.id.2 hepoch hseq
    dsimp only
    by_cases hb : bytes = responseBytes id issued.executionEpoch issued.executionSequence
        issued.completionCookie expected 0
    · rw [if_pos hb, (hdecode expected).mpr ⟨hlen, hwords, hb⟩]
      dsimp only
      have hactual := getD_storeAt_zeros expected (show expected.length ≤ 256 by omega)
      have hall : ((List.range count).all fun i => decide ((storeAt (List.replicate 256 0) 0 expected).getD i 0 =
          (expected ++ List.replicate (256 - count) 0).getD i 0)) = true := by
        simp only [List.all_eq_true, decide_eq_true_iff, hactual, hpadded, implies_true]
      rw [hall]
      constructor
      · rfl
      · rfl
      · exact hpadded
      · intro _ n
        dsimp only
        rw [hactual]
      · rfl
    · rw [if_neg hb]
      cases hd : raveilFoldResponseDecode bytes (60 + 4 * count) issued.job.jobId issued.executionEpoch
          issued.executionSequence issued.completionCookie count with
      | none => exact ⟨rfl, rfl, hpadded, fun hc => absurd hc (by simp), rfl⟩
      | some ws =>
        obtain ⟨hwlen, -, hbytes⟩ := (hdecode ws).mp hd
        have hactual := getD_storeAt_zeros ws (show ws.length ≤ 256 by omega)
        have hfail : ((List.range count).all fun i =>
            decide ((storeAt (List.replicate 256 0) 0 ws).getD i 0 =
              (expected ++ List.replicate (256 - count) 0).getD i 0)) = false := by
          rw [Bool.eq_false_iff]
          intro hall
          simp only [List.all_eq_true, List.mem_range, decide_eq_true_iff, hactual, hpadded] at hall
          have hsame : ws = expected := by
            refine List.ext_getElem (by omega) fun i hi hi' => ?_
            have := hall i (by omega)
            rwa [List.getD_eq_getElem _ _ hi, List.getD_eq_getElem _ _ hi'] at this
          rw [hsame] at hbytes
          exact hb hbytes
        dsimp only
        rw [hfail]
        exact ⟨rfl, rfl, hpadded, fun hc => absurd hc (by simp), rfl⟩

end Execute

section Answer

/-- A device that answers exchange `i` with the text of one frame. -/
def answering (responses : ℕ → List UInt8) (i k : ℕ) : Option Char := (hexText (responses i))[k]?

theorem outcome_answering {responses : ℕ → List UInt8} {i id epoch sequence : ℕ} {cookie : Identity}
    {expected : List ℕ} (h : responses i = responseBytes id epoch sequence cookie expected 0) :
    outcome (answering responses i) id epoch sequence cookie expected = .correct := by
  have hreceive : receive (answering responses i) (60 + 4 * expected.length) = some (responses i) := by
    rw [← length_responseBytes id epoch sequence cookie, ← h]
    exact receive_hexText fun _ _ => rfl
  rw [outcome, hreceive]
  exact if_pos h

end Answer

end Raveil.Dispatch
