import Raveil.Dispatch.Ready
import Raveil.Chain.Guest
import Raveil.Chain.Host

/-! A job between two banks: its references, its inputs, its completion and what it publishes. -/
namespace Raveil.Chain
open Raveil.Lib Raveil.Fold Raveil.Dispatch
open Raveil.Authority hiding State

/-- The two objects of a bank. -/
def bankSlots (b : ℕ) : List ℕ := [2 * b, 2 * b + 1]

/-- The objects a job reads. -/
def readSlots (mask source : ℕ) : List ℕ := if mask ≠ 0 then bankSlots source else []

/-- The versions of the four objects. -/
def slotVersions (s : State) : ℕ → ℕ := fun slot => s.versions (slot / 2)

/-- The words of the four objects. -/
def slotWords (s : State) : ℕ → ℕ → ℕ := fun slot => chunkWords (s.banks (slot / 2)) (slot % 2)

section Slots

variable {mask destination source : ℕ}

theorem slotsOk (hdest : destination < 2) (hne : source ≠ destination) (hsource : mask ≠ 0 → source < 2) :
    SlotsOk 4 (readSlots mask source) (bankSlots destination)
      (bankSlots destination ++ readSlots mask source) := by
  unfold readSlots bankSlots
  by_cases hm : mask = 0
  · rw [if_neg (not_not.mpr hm)]
    constructor
    · decide
    · simp
    · simp
    · intro s hs
      simp only [List.append_nil, List.mem_cons, List.not_mem_nil, or_false] at hs
      omega
    · simp
    · simp
    · simp
    · simp
  · have := hsource hm
    rw [if_pos hm]
    constructor
    · decide
    · simp only [List.cons_append, List.nil_append, List.nodup_cons, List.mem_cons, List.not_mem_nil, or_false,
        not_false_eq_true, List.nodup_nil, and_true]
      omega
    · intro s
      rw [List.mem_append, or_comm]
    · intro s hs
      simp only [List.cons_append, List.nil_append, List.mem_cons, List.not_mem_nil, or_false] at hs
      omega
    · simp
    · intro s hs
      simp only [List.mem_cons, List.not_mem_nil, or_false] at hs ⊢
      omega
    · simp
    · simp

theorem fin_four (r : Fin 4) : r = 0 ∨ r = 1 ∨ r = 2 ∨ r = 3 := by
  revert r
  decide

theorem wholeRef_write {versions : ℕ → ℕ} {reads : List ℕ} {slot : ℕ} (h : slot ∉ reads) :
    wholeRef versions reads slot = ⟨slot + 1, 1, versions slot, 0, 512, RAVEIL_OBJECT_WRITE, 0⟩ := by
  rw [wholeRef, if_neg h]

theorem wholeRef_read {versions : ℕ → ℕ} {reads : List ℕ} {slot : ℕ} (h : slot ∈ reads) :
    wholeRef versions reads slot = ⟨slot + 1, 1, versions slot, 0, 512, RAVEIL_OBJECT_READ, 0⟩ := by
  rw [wholeRef, if_pos h]

/-- The descriptor refers to the destination bank, then to the source bank. -/
theorem refers_descriptor {g : Guest} {s : State} (hv : g.versions = s.versions) (request : Request)
    (hdest : destination < 2) (hne : source ≠ destination) (hsource : mask ≠ 0 → source < 2) :
    Refers (slotVersions s) 4 (readSlots mask source) (bankSlots destination)
      (bankSlots destination ++ readSlots mask source) (descriptor g request mask destination source) := by
  have hok := slotsOk hdest hne hsource
  have hwrite : ∀ i, i < 2 → wholeRef (slotVersions s) (readSlots mask source) (2 * destination + i) =
      ⟨2 * destination + i + 1, 1, s.versions destination, 0, 512, RAVEIL_OBJECT_WRITE, 0⟩ := by
    intro i hi
    have hmem : 2 * destination + i ∈ bankSlots destination := by
      simp only [bankSlots, List.mem_cons, List.not_mem_nil, or_false]
      omega
    rw [wholeRef_write fun hr => hok.disjoint _ hr hmem, slotVersions,
      show (2 * destination + i) / 2 = destination by omega]
  have hread : ∀ i, i < 2 → mask ≠ 0 →
      wholeRef (slotVersions s) (readSlots mask source) (2 * source + i) =
      ⟨2 * source + i + 1, 1, s.versions source, 0, 512, RAVEIL_OBJECT_READ, 0⟩ := by
    intro i hi hm
    have hmem : 2 * source + i ∈ readSlots mask source := by
      rw [readSlots, if_pos hm]
      simp only [bankSlots, List.mem_cons, List.not_mem_nil, or_false]
      omega
    rw [wholeRef_read hmem, slotVersions, show (2 * source + i) / 2 = source by omega]
  refine ⟨hok, ?_, fun r => ?_⟩
  · unfold descriptor readSlots
    by_cases hm : mask = 0
    · simp [hm, bankSlots]
    · simp [hm, bankSlots]
  · have h0 := hwrite 0 (by omega)
    have h1 := hwrite 1 (by omega)
    rw [Nat.add_zero] at h0
    by_cases hm : mask = 0
    · have hreads : readSlots mask source = [] := if_neg (not_not.mpr hm)
      rw [hreads] at h0 h1 ⊢
      simp only [descriptor, hv, bankSlots, List.append_nil, List.map_cons, List.map_nil, h0, h1]
      rcases fin_four r with rfl | rfl | rfl | rfl
      · rfl
      · rfl
      · simp [hm]
      · simp [hm]
    · have h2 := hread 0 (by omega) hm
      have h3 := hread 1 (by omega) hm
      rw [Nat.add_zero] at h2
      have hreads : readSlots mask source = [2 * source, 2 * source + 1] := if_pos hm
      have hslots : (bankSlots destination ++ readSlots mask source).map
          (wholeRef (slotVersions s) (readSlots mask source)) =
          [wholeRef (slotVersions s) (readSlots mask source) (2 * destination),
            wholeRef (slotVersions s) (readSlots mask source) (2 * destination + 1),
            wholeRef (slotVersions s) (readSlots mask source) (2 * source),
            wholeRef (slotVersions s) (readSlots mask source) (2 * source + 1)] := by
        conv_lhs => rw [hreads]
        rw [hreads]
        rfl
      rw [hslots, h0, h1, h2, h3]
      simp only [descriptor, hv]
      rcases fin_four r with rfl | rfl | rfl | rfl
      · rfl
      · rfl
      · simp [hm]
      · simp [hm]

theorem fields_descriptor {g : Guest} {request : Request} (hid : 0 < request.requestId) (hdest : destination < 2)
    (hne : source ≠ destination) (hsource : mask ≠ 0 → source < 2) :
    Fields 4 (readSlots mask source) (bankSlots destination) (bankSlots destination ++ readSlots mask source)
      (descriptor g request mask destination source) := by
  have hok := slotsOk hdest hne hsource
  refine ⟨⟨rfl, ⟨rfl, rfl⟩, ⟨rfl, rfl, rfl⟩, hid.ne', ⟨nonzeroIdentity_head (by decide),
    nonzeroIdentity_head (by decide), nonzeroIdentity_head (by decide), nonzeroIdentity_head (by decide)⟩,
    ?_⟩, rfl, rfl, ?_, le_rfl⟩
  · refine ⟨Nat.one_ne_zero, ?_, Nat.one_ne_zero⟩
    change (if mask ≠ 0 then 1024 else 1) ≠ 0
    split
    · decide
    · decide
  · change 512 * _ ≤ (if mask ≠ 0 then 1024 else 1)
    rw [List.countP_append]
    have hnone : (bankSlots destination).countP (fun s => decide (s ∈ readSlots mask source)) = 0 := by
      rw [List.countP_eq_zero]
      intro s hs
      rw [decide_eq_true_iff]
      exact fun hr => hok.disjoint s hr hs
    have hle : (readSlots mask source).countP (fun s => decide (s ∈ readSlots mask source)) ≤
        (readSlots mask source).length := List.countP_le_length
    by_cases hm : mask = 0
    · rw [if_neg (not_not.mpr hm), hnone]
      have hlen : (readSlots mask source).length = 0 := by rw [readSlots, if_neg (not_not.mpr hm)]; rfl
      omega
    · rw [if_pos hm, hnone]
      have hlen : (readSlots mask source).length = 2 := by rw [readSlots, if_pos hm]; rfl
      omega

end Slots

/-- The guest's completion is the report over the two objects of the destination. -/
theorem completionFor_eq {g : Guest} {s : State} (hv : g.versions = s.versions) (job : JobDescriptor)
    (issued : Submission) (ok : Bool) (destination : ℕ) :
    completionFor g job issued ok destination = report (slotVersions s) (bankSlots destination) job issued ok := by
  have houtputs : (completionFor g job issued ok destination).outputs =
      (report (slotVersions s) (bankSlots destination) job issued ok).outputs := by
    funext j
    have hd : 2 * destination / 2 = destination := by omega
    have hd1 : (2 * destination + 1) / 2 = destination := by omega
    rcases fin_four j with rfl | rfl | rfl | rfl
    · simp [completionFor, report, bankSlots, slotVersions, hv, hd]
    · simp [completionFor, report, bankSlots, slotVersions, hv, hd1]
    · simp [completionFor, report, bankSlots]
    · simp [completionFor, report, bankSlots]
  unfold completionFor report at houtputs ⊢
  simp only at houtputs
  rw [houtputs]
  rfl

section Words

variable {s : State} {b i : ℕ}

theorem slotWords_low (s : State) (b : ℕ) (hi : i < 128) : slotWords s (2 * b) i = (s.banks b).getD i 0 := by
  rw [slotWords, show 2 * b / 2 = b by omega, show 2 * b % 2 = 0 by omega, chunkWords, if_pos hi, Nat.mul_zero,
    Nat.zero_add]

theorem slotWords_high (s : State) (b : ℕ) (hi : i < 128) :
    slotWords s (2 * b + 1) i = (s.banks b).getD (128 + i) 0 := by
  rw [slotWords, show (2 * b + 1) / 2 = b by omega, show (2 * b + 1) % 2 = 1 by omega, chunkWords, if_pos hi,
    Nat.mul_one]

/-- The words of a bank, object after object. -/
theorem bank_words (hi : i < 256) :
    ((List.range 128).map (slotWords s (2 * b)) ++ (List.range 128).map (slotWords s (2 * b + 1))).getD i 0 =
      (s.banks b).getD i 0 := by
  by_cases hlt : i < 128
  · rw [List.getD_append _ _ _ _ (by simpa using hlt), List.getD_eq_getElem _ _ (by simpa using hlt),
      List.getElem_map, List.getElem_range, slotWords_low s b hlt]
  · rw [List.getD_append_right _ _ _ _ (by simp; omega), List.length_map, List.length_range,
      List.getD_eq_getElem _ _ (by simp; omega), List.getElem_map, List.getElem_range,
      slotWords_high s b (by omega), show 128 + (i - 128) = i by omega]

variable {index destination : ℕ} {expected : List ℕ}

theorem mem_bankSlots {slot : ℕ} : slot ∈ bankSlots b ↔ slot / 2 = b := by
  simp only [bankSlots, List.mem_cons, List.not_mem_nil, or_false]
  omega

/-- What the authority publishes is what the model commits. -/
theorem nextVersions_eq (s : State) (index destination : ℕ) (expected : List ℕ) :
    nextVersions (bankSlots destination) (slotVersions s) =
      slotVersions (s.commit index destination expected true) := by
  funext slot
  simp only [nextVersions, mem_bankSlots, slotVersions, commit_version]

theorem nextWords_eq (s : State) (index destination : ℕ) (expected : List ℕ) :
    nextWords (bankSlots destination) expected (slotWords s) =
      slotWords (s.commit index destination expected true) := by
  funext slot i
  simp only [nextWords, mem_bankSlots, slotWords, commit_bank]
  split
  · rename_i hslot
    have hidx : (bankSlots destination).idxOf slot = slot % 2 := by
      obtain rfl | rfl : slot = 2 * destination ∨ slot = 2 * destination + 1 := by omega
      · simp [bankSlots]
      · rw [bankSlots, List.idxOf_cons_ne _ (by omega), List.idxOf_cons_self]
        omega
    rw [hidx, chunkWords, chunkWords, getD_padded]
  · rfl

end Words

section Job

variable {caps : Caps} {epoch k : ℕ} {st : State} {s : Authority.State} {job : JobDescriptor}
  {mask destination source : ℕ} {out expected actual : List ℕ}
  (h : Ready caps epoch 4 (slotVersions st) (slotWords st) k s)
  (hr : Refers (slotVersions st) 4 (readSlots mask source) (bankSlots destination)
    (bankSlots destination ++ readSlots mask source) job)

include h in
theorem map_word_slot {slot : ℕ} (hs : slot < 4) : ((List.range 128).map fun i =>
    word (packWords ((List.range 128).map (slotWords st slot))) (4 * i)) = (List.range 128).map (slotWords st slot) :=
  List.map_congr_left fun _ hi => h.word_read hs (List.mem_range.mp hi)

include h hr in
/-- The snapshot is the source bank. -/
theorem readSnapshot_eq (hm : mask ≠ 0) (hsource : source < 2) :
    readSnapshot (running s job) (newSubmission s job) source =
      some ((List.range 128).map (slotWords st (2 * source)) ++
        (List.range 128).map (slotWords st (2 * source + 1))) := by
  have hreads : readSlots mask source = bankSlots source := if_pos hm
  have hslot : ∀ slot, slot / 2 = source → jobSubmissionRead (running s job) (newSubmission s job) (slot + 1) 0 512 =
      some (packWords ((List.range 128).map (slotWords st slot))) := by
    intro slot hslot
    have hmem : slot ∈ readSlots mask source := by rwa [hreads, mem_bankSlots]
    have hread := @Refers.read_slot _ _ _ _ _ _ _ _ hr h.objects (usedQueue s job) _ 0 128 hmem (by omega)
    simp only [Nat.zero_add] at hread
    exact hread
  have hlow := hslot (2 * source) (by omega)
  have hhigh := hslot (2 * source + 1) (by omega)
  unfold readSnapshot
  rw [hlow, hhigh]
  dsimp only
  rw [map_word_slot h (by omega), map_word_slot h (by omega)]

include h hr in
/-- The inputs of the request are filled in with the producer's output. -/
theorem materialize_eq {d : JobData} {id : ℕ} (hmask : mask = d.mask) (hsource : mask ≠ 0 → source < 2)
    (hbank : mask ≠ 0 → st.banks source = out ++ List.replicate (256 - out.length) 0)
    (hok : RequestOk d.config (d.values 0) (d.values 1) id)
    (hfill : RequestOk d.config (filled d out 0) (filled d out 1) id) (hle : mask ≠ 0 → out.length ≤ 256) :
    materialize (running s job) (newSubmission s job) ⟨id, d.config, placed (d.values 0) (d.values 1)⟩ mask source =
      (placed (filled d out 0) (filled d out 1), true) := by
  unfold materialize
  by_cases hm : mask = 0
  · obtain ⟨h0, h1⟩ := JobData.mask_eq_zero.mp (hmask.symm.trans hm)
    rw [if_pos hm, filled, filled, h0, h1]
    rfl
  · rw [if_neg hm, readSnapshot_eq h hr hm (hsource hm)]
    set snapshot := (List.range 128).map (slotWords st (2 * source)) ++
      (List.range 128).map (slotWords st (2 * source + 1)) with hsnapshot
    have hle' := hle hm
    have hlinked : ∀ b, (filled d out b).length = cfg d.config (5 + b) → (d.link b).isSome →
        ((List.range (cfg d.config (5 + b))).map fun i => snapshot.getD i 0) = filled d out b := by
      intro b hlen hlink
      rw [filled, if_pos hlink] at hlen ⊢
      rw [← hlen]
      refine List.ext_getElem (by simp) fun i hi hi' => ?_
      rw [List.getElem_map, List.getElem_range, hsnapshot, bank_words (by omega), hbank hm, getD_padded,
        List.getD_eq_getElem _ _ hi']
    have hstep : ∀ b, b < 2 → ∀ l : List ℕ, (filled d out b).length = cfg d.config (5 + b) →
        (if mask &&& 1 <<< b ≠ 0 then
          storeAt l (324 * b) ((List.range (cfg d.config (5 + b))).map fun i => snapshot.getD i 0)
        else l) = if (d.link b).isSome then storeAt l (324 * b) (filled d out b) else l := by
      intro b hb l hlen
      have hbit := JobData.mask_bit (d := d) hb
      rw [← hmask] at hbit
      by_cases hlink : (d.link b).isSome
      · rw [if_pos (hbit.mpr hlink), if_pos hlink, hlinked b hlen hlink]
      · rw [if_neg fun hne => hlink (hbit.mp hne), if_neg hlink]
    have hlengths := hok.lengths
    have hlengths' := hfill.lengths
    have h0 := storeAt_placed (x := d.values 0) (z := filled d out 0) hlengths.1 hlengths.2
    have h1 := storeAt_placed (x := filled d out 0) (z := filled d out 1) hlengths'.1 hlengths.2
    have hfirst : (if (d.link 0).isSome then storeAt (placed (d.values 0) (d.values 1)) (324 * 0) (filled d out 0)
        else placed (d.values 0) (d.values 1)) = placed (filled d out 0) (d.values 1) := by
      split
      · exact h0.1 (hfill.lengthA.trans hok.lengthA.symm)
      · rename_i hlink
        rw [filled, if_neg hlink]
    have hsecond : (if (d.link 1).isSome then storeAt (placed (filled d out 0) (d.values 1)) (324 * 1) (filled d out 1)
        else placed (filled d out 0) (d.values 1)) = placed (filled d out 0) (filled d out 1) := by
      split
      · exact h1.2 (hfill.lengthB.trans hok.lengthB.symm)
      · rename_i hlink
        rw [filled, filled, if_neg hlink]
    simp only [List.range_succ, List.range_zero, List.nil_append, List.cons_append, List.foldl_cons, List.foldl_nil]
    rw [hstep 0 (by omega) _ hfill.lengthA, hfirst, hstep 1 (by omega) _ hfill.lengthB, hsecond]

variable (hf : Fields 4 (readSlots mask source) (bankSlots destination) (bankSlots destination ++ readSlots mask source)
    job) (hk : k < 8)

include h hr hf hk in
/-- An executed job publishes the next state of the model. -/
theorem publishJob_eq (index : ℕ) (hactual : ∀ i, actual.getD i 0 = expected.getD i 0) :
    publishJob caps (bindingFromSubmission (newSubmission s job)) actual destination
      (shadowed s job (reported (slotVersions st) (bankSlots destination) s job true)
        (freshShadow s job (reported (slotVersions st) (bankSlots destination) s job true))) =
      (after s job (reported (slotVersions st) (bankSlots destination) s job true)
        (slotObjects 4 (slotVersions (st.commit index destination expected true))
          (slotWords (st.commit index destination expected true))), true) := by
  set c := reported (slotVersions st) (bankSlots destination) s job true with hc
  obtain ⟨refOf, hrefs⟩ := hr.refsOf
  have hcaps : Authorized caps (withExperience s c) := h.authorized.of_table rfl
  have hfresh := fresh_freshShadow s job c
  have hzero : Staged (freshShadow s job c) refOf actual 0 (freshShadow s job c) := Staged.zero
  obtain ⟨t1, hlow, hst1⟩ := hzero.write hr hrefs hcaps hfresh rfl (usedQueue s job)
    ((s.completions.push 4 c).removeAt 4 0) (show 0 < 2 by omega)
  obtain ⟨t2, hhigh, hst2⟩ := hst1.write hr hrefs hcaps hfresh rfl (usedQueue s job)
    ((s.completions.push 4 c).removeAt 4 0) (show 1 < 2 by omega)
  obtain ⟨approved, happrove, hcommit⟩ := h.commit hr hf hk hrefs hst2 hactual
  rw [nextVersions_eq st index destination expected, nextWords_eq st index destination expected] at hcommit
  have hlow' : planeDataShadowWrite (shadowed s job c (freshShadow s job c)) caps.task caps.dataCap
      (some (bindingFromSubmission (newSubmission s job))) (2 * destination + 1) 0 (some (memory actual)) 512 =
      (shadowed s job c t1, true) := hlow
  have hhigh' : planeDataShadowWrite (shadowed s job c t1) caps.task caps.dataCap
      (some (bindingFromSubmission (newSubmission s job))) (2 * destination + 2) 0
      (some (memory (actual.drop 128))) 512 = (shadowed s job c t2, true) := hhigh
  unfold publishJob
  have happrove' : planeProgramApprove (shadowed s job c t2) caps.task caps.programCap
      (some (bindingFromSubmission (newSubmission s job))) = (approved, true) := happrove
  simp only [hlow', hhigh', happrove', hcommit, Bool.not_true, Bool.false_eq_true, if_false]
  exact Prod.ext rfl (by simp)

end Job

section Read

variable {caps : Caps} {epoch k : ℕ} {st : State} {g : Guest}
  (h : Ready caps epoch 4 (slotVersions st) (slotWords st) k g.authority) (hv : g.versions = st.versions)

include h hv

theorem readObject_eq {i : ℕ} (hi : i < 4) :
    readObject g i = some (packWords ((List.range 128).map (slotWords st i))) := by
  unfold readObject
  rw [h.lookup (by omega) hi, h.read (by omega) hi, if_pos]
  simp [objectManifest, hv, slotVersions]

theorem publishedWord_eq {b i : ℕ} (hb : b < 2) (hi : i < 256) :
    publishedWord g b i = (st.banks b).getD i 0 := by
  rw [publishedWord, if_pos ⟨hb, hi⟩, readObject_eq h hv (by omega)]
  dsimp only
  rw [h.word_read (by omega) (by omega)]
  by_cases hlt : i < 128
  · rw [show 2 * b + i / 128 = 2 * b by omega, Nat.mod_eq_of_lt hlt, slotWords_low st b hlt]
  · rw [show 2 * b + i / 128 = 2 * b + 1 by omega, show i % 128 = i - 128 by omega,
      slotWords_high st b (by omega), show 128 + (i - 128) = i by omega]

/-- The state read back is the state of the model. -/
theorem readState_eq (hprev : ∀ b, b < 2 → ∀ i, i < 256 → g.previous b i = (st.banks b).getD i 0) :
    readState g = ({ g with published := publishedWord g }, true) := by
  have hempty : empty g.authority = true := by
    simp only [empty, decide_eq_true_iff]
    exact h.empty
  have hobjects : (List.range 4).all (fun i => (readObject g i).isSome) = true := by
    rw [List.all_eq_true]
    intro i hi
    rw [readObject_eq h hv (List.mem_range.mp hi)]
    rfl
  have hwords : ((List.range 2).all fun b => (List.range 256).all fun i =>
      decide (publishedWord g b i = g.previous b i)) = true := by
    simp only [List.all_eq_true, decide_eq_true_iff, List.mem_range]
    intro b hb i hi
    rw [publishedWord_eq h hv hb hi, hprev b hb i hi]
  rw [readState, hempty, hobjects, hwords]
  rfl

end Read

end Raveil.Chain
