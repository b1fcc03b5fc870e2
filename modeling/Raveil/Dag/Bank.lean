import Raveil.Dag.Store
import Raveil.Dispatch.Ready

/-! A job over the eight slots: its references, its inputs, its completion and what it publishes. -/
namespace Raveil.Dag
open Raveil.Lib Raveil.Fold Raveil.Authority Raveil.Dispatch

section Slots

variable {reads dests : List ℕ} {dag : FoldDag} {g : Guest} {request : Request} {index : ℕ}

/-- The slots of the descriptor, in order. -/
def jobSlots (reads dests : List ℕ) : List ℕ := usedSlots (maskOf reads) (maskOf dests)

theorem maskOf_test (slots : List ℕ) (s : ℕ) : maskOf slots &&& 1 <<< s ≠ 0 ↔ s ∈ slots := by
  rw [mask_test, maskOf, testBit_maskOf]
  simp

theorem mem_jobSlots {s : ℕ} : s ∈ jobSlots reads dests ↔ s < 8 ∧ (s ∈ reads ∨ s ∈ dests) := by
  simp only [jobSlots, usedSlots, List.mem_filter, List.mem_range, decide_eq_true_iff, mask_test,
    Nat.testBit_or, Bool.or_eq_true]
  simp only [← mask_test, maskOf_test]

theorem jobSlots_nodup : (jobSlots reads dests).Nodup := List.nodup_range.filter _

theorem masks_disjoint (h : ∀ s ∈ reads, s ∉ dests) : maskOf reads &&& maskOf dests = 0 := by
  apply Nat.eq_of_testBit_eq
  intro s
  rw [Nat.testBit_and, Nat.zero_testBit, maskOf, maskOf, testBit_maskOf, testBit_maskOf]
  by_cases hs : s ∈ reads
  · simp [h s hs]
  · simp [hs]

/-- The slots of an accepted job are what the authority wants of a job. -/
theorem Accepted.slotsOk {p : List UInt8} {n i : ℕ} (h : Accepted p n) (hi : i < word p 12) :
    Dispatch.SlotsOk 8 (readSlots p i) (destinationsAt p i) (jobSlots (readSlots p i) (destinationsAt p i)) := by
  have hlen := (h.slots i hi).slots
  have hreads : ∀ s ∈ readSlots p i, s < 8 := fun s hs => h.read_lt hi hs
  have hdests : ∀ s ∈ destinationsAt p i, s < 8 := fun s hs => (mem_slotsAt hs).1
  have hmem : ∀ s, s ∈ jobSlots (readSlots p i) (destinationsAt p i) ↔ s ∈ readSlots p i ∨ s ∈ destinationsAt p i := by
    intro s
    rw [mem_jobSlots]
    constructor
    · exact fun hs => hs.2
    · rintro (hs | hs)
      · exact ⟨hreads s hs, Or.inl hs⟩
      · exact ⟨hdests s hs, Or.inr hs⟩
  constructor
  case bound => exact le_rfl
  case nodup => exact jobSlots_nodup
  case mem => exact hmem
  case lt => exact fun s hs => (mem_jobSlots.mp hs).1
  case unique => exact slotsAt_nodup i
  case disjoint => exact fun s hs => h.reads_disjoint hi hs
  case pos =>
    rw [hlen]
    exact (h.chunks hi).1
  case refs =>
    have hsub : (jobSlots (readSlots p i) (destinationsAt p i)).toFinset ⊆
        (readSlots p i).toFinset ∪ (destinationsAt p i).toFinset := by
      intro s hs
      rw [Finset.mem_union, List.mem_toFinset, List.mem_toFinset]
      exact (hmem s).mp (List.mem_toFinset.mp hs)
    have hunique : (destinationsAt p i).Nodup := slotsAt_nodup i
    have hcard := (Finset.card_le_card hsub).trans (Finset.card_union_le _ _)
    rw [List.toFinset_card_of_nodup jobSlots_nodup, List.toFinset_card_of_nodup hunique] at hcard
    have hrefs := h.refs_le hi
    omega

theorem slotRef_eq (g : Guest) (reads : List ℕ) (s : ℕ) :
    slotRef g (maskOf reads) s = wholeRef g.versions reads s := by
  unfold slotRef wholeRef
  simp only [maskOf_test]

/-- The descriptor refers to the slots of the job. -/
theorem refers_descriptor (dag : FoldDag) (g : Guest) (request : Request) (index : ℕ)
    (hok : Dispatch.SlotsOk 8 reads dests (jobSlots reads dests)) :
    Refers g.versions 8 reads dests (jobSlots reads dests)
      (descriptor dag g request (maskOf reads) (maskOf dests) index) := by
  refine ⟨hok, by simp [descriptor, jobSlots], fun r => ?_⟩
  have hmap : (jobSlots reads dests).map (slotRef g (maskOf reads)) =
      (jobSlots reads dests).map (wholeRef g.versions reads) := List.map_congr_left fun s _ => slotRef_eq g reads s
  rw [← hmap]
  rfl

theorem fields_descriptor (hid : 0 < request.requestId) (hchunks : dag.chunks index = dests.length) :
    Fields 8 reads dests (jobSlots reads dests)
      (descriptor dag g request (maskOf reads) (maskOf dests) index) := by
  have hcount : (usedSlots (maskOf reads) (maskOf dests)).countP (fun slot => maskOf reads &&& 1 <<< slot ≠ 0) =
      (jobSlots reads dests).countP fun s => s ∈ reads := by
    refine List.countP_congr fun s _ => ?_
    rw [decide_eq_true_iff, decide_eq_true_iff, maskOf_test]
  have hinput : ∀ m, 512 * m ≤ (if m ≠ 0 then 512 * m else 1) ∧ (if m ≠ 0 then 512 * m else 1) ≠ 0 := by
    intro m
    split <;> omega
  obtain ⟨hin, hin0⟩ := hinput ((jobSlots reads dests).countP fun s => s ∈ reads)
  refine ⟨⟨rfl, ⟨rfl, rfl⟩, ⟨rfl, rfl, rfl⟩, hid.ne', ⟨nonzeroIdentity_head (by decide),
    nonzeroIdentity_head (by decide), nonzeroIdentity_head (by decide), nonzeroIdentity_head (by decide)⟩,
    Nat.one_ne_zero, ?_, Nat.one_ne_zero⟩, rfl, rfl, ?_, ?_⟩
  · simp only [descriptor, hcount]
    exact hin0
  · simp only [descriptor, hcount]
    exact hin
  · change _ ≤ 512 * dag.chunks index
    rw [hchunks]

/-- The decoded DAG gives job `index` these destinations. -/
structure Destined (dag : FoldDag) (index : ℕ) (dests : List ℕ) : Prop where
  chunks : dag.chunks index = dests.length
  destination : ∀ j, dag.destination index j = dests.getD j 0

/-- The guest's completion is the report over the destinations of the job. -/
theorem completionFor_eq (hd : Destined dag index dests) (g : Guest) (job : JobDescriptor) (issued : Submission)
    (ok : Bool) : completionFor dag g job issued ok index = report g.versions dests job issued ok := by
  unfold completionFor report
  simp only [hd.chunks, hd.destination]

end Slots

section Job

variable {caps : Caps} {epoch k index : ℕ} {st : Store} {s : State} {job : JobDescriptor} {dag : FoldDag}
  {reads dests : List ℕ} {expected actual : List ℕ}
  (h : Ready caps epoch 8 st.versions st.banks k s)
  (hr : Refers st.versions 8 reads dests (jobSlots reads dests) job)
  (hf : Fields 8 reads dests (jobSlots reads dests) job) (hk : k < 8)

include h hr in
/-- The chunks are staged one after another. -/
theorem writeChunks_eq (hd : Destined dag index dests) {refOf : ℕ → Fin 4}
    (hrefs : RefsOf st.versions reads dests job refOf) :
    ∃ t, writeChunks caps dag (bindingFromSubmission (newSubmission s job)) actual index
        (shadowed s job (reported st.versions dests s job true)
          (freshShadow s job (reported st.versions dests s job true))) =
        (shadowed s job (reported st.versions dests s job true) t, true) ∧
      Staged (freshShadow s job (reported st.versions dests s job true)) refOf actual dests.length t := by
  set c := reported st.versions dests s job true with hc
  have hcaps : Authorized caps (withExperience s c) := h.authorized.of_table rfl
  have hfresh := fresh_freshShadow s job c
  have hrun : ∀ m, m ≤ dests.length → ∃ t, (List.range m).foldl (fun r j =>
      let w := planeDataShadowWrite r.1 caps.task caps.dataCap
        (some (bindingFromSubmission (newSubmission s job))) (dag.destination index j + 1) 0
        (some (memory (actual.drop (128 * j)))) 512
      (w.1, r.2 && w.2)) (shadowed s job c (freshShadow s job c), true) = (shadowed s job c t, true) ∧
      Staged (freshShadow s job c) refOf actual m t := by
    intro m hm
    induction m with
    | zero => exact ⟨_, rfl, Staged.zero⟩
    | succ m ih =>
      obtain ⟨t, hloop, hst⟩ := ih (by omega)
      obtain ⟨t', hwrite, hst'⟩ := hst.write hr hrefs hcaps hfresh rfl (usedQueue s job)
        ((s.completions.push 4 c).removeAt 4 0) (show m < dests.length by omega)
      refine ⟨t', ?_, hst'⟩
      rw [List.range_succ, List.foldl_append, hloop]
      have hwrite' : planeDataShadowWrite (shadowed s job c t) caps.task caps.dataCap
          (some (bindingFromSubmission (newSubmission s job))) (dests.getD m 0 + 1) 0
          (some (memory (actual.drop (128 * m)))) 512 = (shadowed s job c t', true) := hwrite
      simp only [List.foldl_cons, List.foldl_nil, hd.destination, hwrite', Bool.and_self]
  unfold writeChunks
  rw [hd.chunks]
  exact hrun _ le_rfl

include h hr hf hk in
/-- An executed job publishes its next versions and words. -/
theorem publishJob_eq (hd : Destined dag index dests) (hactual : ∀ i, actual.getD i 0 = expected.getD i 0) :
    publishJob caps dag (bindingFromSubmission (newSubmission s job)) actual index
      (shadowed s job (reported st.versions dests s job true)
        (freshShadow s job (reported st.versions dests s job true))) =
      (after s job (reported st.versions dests s job true)
        (slotObjects 8 (nextVersions dests st.versions) (nextWords dests expected st.banks)), true) := by
  obtain ⟨refOf, hrefs⟩ := hr.refsOf
  obtain ⟨t, hwrite, hst⟩ := @writeChunks_eq _ _ _ _ _ _ _ _ _ _ actual h hr hd _ hrefs
  obtain ⟨approved, happrove, hcommit⟩ := h.commit hr hf hk hrefs hst hactual
  unfold publishJob
  simp only [hwrite, happrove, hcommit, Bool.not_true, Bool.false_eq_true, if_false]
  exact Prod.ext rfl (by simp)

end Job

section Copy

variable {caps : Caps} {epoch k : ℕ} {st : Store} {s : State} {job : JobDescriptor} {dag : FoldDag}
  {reads dests slots : List ℕ} {producer start extent b : ℕ} {out : List ℕ}

/-- One operand's slots hold `out`, from chunk to chunk. -/
structure Holds (dag : FoldDag) (st : Store) (reads : List ℕ) (producer start extent : ℕ) (out : List ℕ) : Prop where
  mem : ∀ chunk ∈ chunkRange start extent, dag.destination producer chunk ∈ reads
  bank : ∀ chunk ∈ chunkRange start extent, st.banks (dag.destination producer chunk) = chunkWords out chunk
  words : ∀ w ∈ out, w < 2 ^ 32
  fits : start + extent ≤ out.length

theorem slice_chunk {position take : ℕ} (hfits : position % 128 + take ≤ 128) (hlen : position + take ≤ out.length) :
    ((List.range take).map fun j => chunkWords out (position / 128) (position % 128 + j)) =
      (out.drop position).take take := by
  refine List.ext_getElem (by simp; omega) fun j hj hj' => ?_
  have hlt : j < take := by simpa using hj
  rw [List.getElem_map, List.getElem_range, chunkWords, if_pos (by omega), List.getElem_take, List.getElem_drop,
    show 128 * (position / 128) + (position % 128 + j) = position + j by omega, List.getD_eq_getElem]

/-- The copy loop appends the rest of the range to what it has copied. -/
theorem copyLoop_eq (h : Ready caps epoch 8 st.versions st.banks k s) (hr : Refers st.versions 8 reads dests slots job)
    (hh : Holds dag st reads producer start extent out) (fuel copied : ℕ) (hcopied : copied ≤ extent)
    (hfuel : extent ≤ copied + fuel) (l : List ℕ) :
    copyLoop dag (running s job) (newSubmission s job) producer start extent b fuel copied (l, true) =
      (storeAt l (324 * b + copied) ((out.drop (start + copied)).take (extent - copied)), true) := by
  induction fuel generalizing copied l with
  | zero =>
    rw [show extent - copied = 0 by omega, List.take_zero, storeAt_nil]
    rfl
  | succ fuel ih =>
    unfold copyLoop
    by_cases hlt : copied < extent
    · rw [if_pos hlt]
      have hfits := hh.fits
      -- the words up to the end of the chunk, or of the range
      generalize hposition : start + copied = position
      dsimp only
      generalize htake : min (128 - position % 128) (extent - copied) = take
      have hpos : 0 < take := by omega
      have hchunk : position / 128 ∈ chunkRange start extent := by
        rw [mem_chunkRange]
        omega
      have hwithin : position % 128 + take ≤ 128 := by omega
      have hread := @Refers.read_slot _ _ _ _ _ _ _ _ hr h.objects (usedQueue s job)
        (dag.destination producer (position / 128)) (position % 128) take (hh.mem _ hchunk) hwithin
      have hslice := @slice_chunk out position take hwithin (by omega)
      have hread' : jobSubmissionRead (running s job) (newSubmission s job)
          (dag.destination producer (position / 128) + 1) (4 * (position % 128)) (4 * take) =
          some (packWords ((out.drop position).take take)) := by
        rw [← hslice, ← hh.bank _ hchunk]
        exact hread
      have hlen : ((out.drop position).take take).length = take := by
        rw [List.length_take, List.length_drop]
        omega
      have hwords : ((List.range take).map fun j => word (packWords ((out.drop position).take take)) (4 * j)) =
          (out.drop position).take take := by
        refine List.ext_getElem (by simp; omega) fun j hj hj' => ?_
        rw [List.getElem_map, List.getElem_range]
        exact word_packWords (List.getElem?_eq_getElem hj')
          (hh.words _ (List.mem_of_mem_drop (List.mem_of_mem_take (List.getElem_mem hj'))))
      simp only [hread', hwords]
      rw [ih (copied + take) (by omega) (by omega)]
      have hstore := storeAt_storeAt l ((out.drop position).take take)
        ((out.drop (start + (copied + take))).take (extent - (copied + take))) (324 * b + copied)
      rw [hlen] at hstore
      rw [← Nat.add_assoc, hstore]
      have hjoin : (out.drop position).take take ++ (out.drop (start + (copied + take))).take (extent - (copied + take)) =
          (out.drop position).take (extent - copied) := by
        rw [show start + (copied + take) = position + take by omega, ← List.drop_drop,
          show extent - copied = take + (extent - (copied + take)) by omega, List.take_add]
      rw [hjoin]
    · rw [if_neg hlt, show extent - copied = 0 by omega, List.take_zero, storeAt_nil]

end Copy

section Decoded

variable {caps : Caps} {epoch n k i b : ℕ} {p : List UInt8} {st : Store} {s : State} {g : Guest}
  {job : JobDescriptor} {slots : List ℕ}

theorem destination_decoded (hi : i < word p 12) (j : ℕ) : (decoded p).destination i j = slotAt p i j := by
  unfold FoldDag.destination decoded
  dsimp only
  rw [if_pos hi]
  rfl

theorem chunks_decoded (hi : i < word p 12) : (decoded p).chunks i = chunksAt p i := if_pos hi

theorem source_decoded (hi : i < word p 12) : (decoded p).sources i b = sourceAt p i b := by
  unfold decoded loopAt
  dsimp only
  rw [if_pos hi]

theorem start_decoded (hi : i < word p 12) : (decoded p).inputOffsets i b = startAt p i b := by
  unfold decoded loopAt
  dsimp only
  rw [if_pos hi]

variable (h : Accepted p n)

include h

theorem Accepted.destined (hi : i < word p 12) : Destined (decoded p) i (destinationsAt p i) :=
  ⟨(chunks_decoded hi).trans (h.slots i hi).slots.symm, destination_decoded hi⟩

/-- The slots of a linked operand hold the output of its producer. -/
theorem StoreOk.holds (hs : StoreOk p i st) (hi : i < word p 12) (hbad : st.badSource p i = none) (hb : b < 2)
    (hl : sourceAt p i b ≠ UINT32_MAX) :
    Holds (decoded p) st (readSlots p i) (sourceAt p i b) (startAt p i b) (extentAt p i b)
      (st.value (sourceAt p i b)) := by
  have havail := badSource_eq_none hbad hb hl
  obtain ⟨hlt, hpos, hfits⟩ := h.link hi hb hl
  cases hp : st.producers (sourceAt p i b) with
  | none => simp [Store.available, hp] at havail
  | some saved =>
    obtain ⟨vs, out⟩ := saved
    have hvalue : st.value (sourceAt p i b) = out := by simp [Store.value, hp]
    have hout : out = composed p i (sourceAt p i b) := (hs.saved _ vs out hp).2
    obtain ⟨hlen, hwords⟩ := composed_ok h hi.le hlt
    rw [hvalue, hout]
    constructor
    case mem =>
      intro chunk hc
      rw [destination_decoded (hlt.trans hi)]
      exact List.mem_flatMap.mpr ⟨b, mem_linksBelow.mpr ⟨hb, hl⟩, List.mem_map_of_mem hc⟩
    case bank =>
      intro chunk hc
      rw [destination_decoded (hlt.trans hi), ← hout]
      exact hs.held_of_available h hi.le hp havail (h.chunk_lt hi hb hl hc)
    case words => exact hwords
    case fits =>
      rw [hlen]
      exact hfits

/-- Every linked operand is copied into the request. -/
theorem materialize_eq (hready : Ready caps epoch 8 st.versions st.banks k s)
    (hr : Refers st.versions 8 (readSlots p i) (destinationsAt p i) slots job) (hs : StoreOk p i st)
    (hi : i < word p 12) (hbad : st.badSource p i = none) :
    materialize (decoded p) (running s job) (newSubmission s job)
        ⟨idAt p i, configAt p i, placed (literalAt p i 0) (literalAt p i 1)⟩ i =
      (placed (linked p st.value i 0) (linked p st.value i 1), true) := by
  have hliteral := (h.request hi).2
  have hfill := hs.request h hi hbad
  have hstep : ∀ b, b < 2 → ∀ l : List ℕ,
      (if (decoded p).sources i b = UINT32_MAX then (l, true)
        else copyLoop (decoded p) (running s job) (newSubmission s job) ((decoded p).sources i b)
          ((decoded p).inputOffsets i b) (cfg (configAt p i) (5 + b)) b (cfg (configAt p i) (5 + b)) 0 (l, true)) =
        (if sourceAt p i b = UINT32_MAX then l else storeAt l (324 * b) (linked p st.value i b), true) := by
    intro b hb l
    rw [source_decoded hi, start_decoded hi]
    by_cases hl : sourceAt p i b = UINT32_MAX
    · rw [if_pos hl, if_pos hl]
    · have hholds := hs.holds h hi hbad hb hl
      have hcopy := copyLoop_eq (b := b) hready hr hholds (extentAt p i b) 0 (Nat.zero_le _)
        (by omega) l
      rw [if_neg hl, if_neg hl, linked, if_neg hl]
      rw [Nat.add_zero, Nat.add_zero, Nat.sub_zero] at hcopy
      exact hcopy
  have hlengths := hliteral.lengths
  have hlengths' := hfill.lengths
  have h0 := storeAt_placed (x := literalAt p i 0) (z := linked p st.value i 0) hlengths.1 hlengths.2
  have h1 := storeAt_placed (x := linked p st.value i 0) (z := linked p st.value i 1) hlengths'.1 hlengths.2
  have hfirst : (if sourceAt p i 0 = UINT32_MAX then placed (literalAt p i 0) (literalAt p i 1)
      else storeAt (placed (literalAt p i 0) (literalAt p i 1)) (324 * 0) (linked p st.value i 0)) =
      placed (linked p st.value i 0) (literalAt p i 1) := by
    by_cases hl : sourceAt p i 0 = UINT32_MAX
    · rw [if_pos hl, linked, if_pos hl]
    · rw [if_neg hl]
      exact h0.1 (hfill.lengthA.trans hliteral.lengthA.symm)
  have hsecond : (if sourceAt p i 1 = UINT32_MAX then placed (linked p st.value i 0) (literalAt p i 1)
      else storeAt (placed (linked p st.value i 0) (literalAt p i 1)) (324 * 1) (linked p st.value i 1)) =
      placed (linked p st.value i 0) (linked p st.value i 1) := by
    by_cases hl : sourceAt p i 1 = UINT32_MAX
    · have hlit : linked p st.value i 1 = literalAt p i 1 := by rw [linked, if_pos hl]
      rw [if_pos hl, hlit]
    · rw [if_neg hl]
      exact h1.2 (hfill.lengthB.trans hliteral.lengthB.symm)
  unfold materialize
  simp only [List.range_succ, List.range_zero, List.nil_append, List.cons_append, List.foldl_cons, List.foldl_nil]
  rw [hstep 0 (by omega), hfirst, hstep 1 (by omega), hsecond]

end Decoded

section Read

variable {caps : Caps} {epoch k : ℕ} {st : Store} {g : Guest}
  (h : Ready caps epoch 8 st.versions st.banks k g.authority) (hv : g.versions = st.versions)

include h hv

theorem readObject_eq {i : ℕ} (hi : i < 8) :
    readObject g i = some (packWords ((List.range 128).map (st.banks i))) := by
  have hmanifest : manifestStable g i = true := by
    unfold manifestStable
    rw [h.lookup le_rfl hi, hv]
    simp [objectManifest]
  unfold readObject
  rw [if_pos hmanifest, h.read le_rfl hi]

omit h hv in
/-- The words read back, where the authority holds those of the store. -/
def readBack (st : Store) (g : Guest) : ℕ → ℕ → ℕ := fun slot j =>
  if slot < 8 ∧ j < 128 then st.banks slot j else g.published slot j

theorem published_readState : (readState g).1.published = readBack st g := by
  funext slot j
  unfold readState readBack
  dsimp only
  by_cases hslot : slot < 8
  · rw [if_pos hslot, readObject_eq h hv hslot]
    dsimp only
    by_cases hj : j < 128
    · rw [if_pos hj, if_pos ⟨hslot, hj⟩, h.word_read hslot hj]
    · rw [if_neg hj, if_neg fun hand => hj hand.2]
  · rw [if_neg hslot, if_neg fun hand => hslot hand.1]

/-- The state read back is the store. -/
theorem readState_eq (hprev : ∀ slot, slot < 8 → ∀ j, j < 128 → g.previous slot j = st.banks slot j) :
    readState g = ({ g with published := readBack st g }, true) := by
  have hpublished := published_readState h hv
  obtain ⟨hsub, hinf, hcomp, hshadow⟩ := h.empty
  refine Prod.ext ?_ ?_
  · rw [← hpublished]
    rfl
  · change (decide (jobSubmissionCount g.authority = 0 ∧ jobInflightCount g.authority = 0 ∧
      jobCompletionCount g.authority = 0 ∧ jobShadowCount g.authority = 0) &&
      (List.range 8).all fun i => (readObject g i).isSome &&
        (List.range 128).all fun j => (readState g).1.published i j = g.previous i j) = true
    rw [hpublished, decide_eq_true ⟨hsub, hinf, hcomp, hshadow⟩, Bool.true_and, List.all_eq_true]
    intro slot hslot
    have hlt := List.mem_range.mp hslot
    rw [readObject_eq h hv hlt, Option.isSome_some, Bool.true_and, List.all_eq_true]
    intro j hj
    have hj' := List.mem_range.mp hj
    rw [decide_eq_true_iff, readBack, if_pos ⟨hlt, hj'⟩, hprev slot hlt j hj']

end Read

end Raveil.Dag
