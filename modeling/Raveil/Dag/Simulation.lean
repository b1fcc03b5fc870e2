import Raveil.Dag.Bank

/-! The guest and the store stay in step, job after job, however the device answers. -/
namespace Raveil.Dag
open Raveil.Lib Raveil.Fold Raveil.Authority Raveil.Dispatch

variable {caps : Caps} {p : List UInt8} {n i k : ℕ} {g : Guest} {st : Store} {r : Run}
  {rx : ℕ → ℕ → Option Char}

/-- The static variables of the guest hold what the store holds. -/
structure Books (p : List UInt8) (g : Guest) (s : Store) : Prop where
  versions : g.versions = s.versions
  previous : ∀ slot, slot < 8 → ∀ j, j < 128 → g.previous slot j = s.banks slot j
  ok : ∀ i, g.producerOk i = (s.producers i).isSome
  saved : ∀ i vs out, s.producers i = some (vs, out) → ∀ j, j < chunksAt p i →
    g.producerVersions i j = vs.getD j 0

/-- The guest is where the run is. -/
structure Sim (caps : Caps) (p : List UInt8) (g : Guest) (r : Run) : Prop where
  ready : Ready caps (word64 p 16) 8 r.store.versions r.store.banks r.processed g.authority
  books : Books p g r.store
  published : ∀ slot, slot < 8 → ∀ j, j < 128 → g.published slot j = r.store.banks slot j
  processed : g.processed = r.processed
  halted : g.halted = r.halted
  log : g.log = r.log

section Record

variable {dag : FoldDag} {dests expected : List ℕ} {index m : ℕ} {g' : Guest}

/-- The guest after the bookkeeping of the first `m` destinations. -/
structure Recorded (g : Guest) (dests expected : List ℕ) (index m : ℕ) (g' : Guest) : Prop where
  versions : g'.versions = fun slot => if dests.idxOf slot < m then g.versions slot + 1 else g.versions slot
  saved : ∀ i j, g'.producerVersions i j =
    if i = index ∧ j < m then g.versions (dests.getD j 0) + 1 else g.producerVersions i j
  previous : ∀ slot j, g'.previous slot j =
    if dests.idxOf slot < m ∧ j < 128 then expected.getD (128 * dests.idxOf slot + j) 0 else g.previous slot j
  ok : g'.producerOk = Function.update g.producerOk index true
  authority : g'.authority = g.authority
  published : g'.published = g.published
  processed : g'.processed = g.processed
  halted : g'.halted = g.halted
  log : g'.log = g.log

theorem idxOf_lt_succ {slot : ℕ} (hm : m < dests.length) (hne : slot ≠ dests.getD m 0) :
    dests.idxOf slot < m + 1 ↔ dests.idxOf slot < m := by
  have hidx : dests.idxOf slot ≠ m := by
    intro heq
    apply hne
    have hlt : dests.idxOf slot < dests.length := by omega
    have hget := List.getElem_idxOf hlt
    rw [← hget, List.getD_eq_getElem _ _ hm]
    congr 1
  omega

theorem Recorded.succ (h : Recorded g dests expected index m g') (hunique : dests.Nodup) (hm : m < dests.length) :
    Recorded g dests expected index (m + 1) { g' with
      versions := Function.update g'.versions (dests.getD m 0) (g'.versions (dests.getD m 0) + 1)
      producerVersions := Function.update g'.producerVersions index
        (Function.update (g'.producerVersions index) m (g'.versions (dests.getD m 0) + 1))
      previous := Function.update g'.previous (dests.getD m 0) fun k =>
        if k < 128 then expected.getD (128 * m + k) 0 else g'.previous (dests.getD m 0) k } := by
  have hidx : dests.idxOf (dests.getD m 0) = m := by
    rw [List.getD_eq_getElem _ _ hm]
    exact hunique.idxOf_getElem m hm
  have hother : ∀ slot, slot ≠ dests.getD m 0 → (dests.idxOf slot < m + 1 ↔ dests.idxOf slot < m) :=
    fun slot hne => idxOf_lt_succ hm hne
  have hversion : g'.versions (dests.getD m 0) = g.versions (dests.getD m 0) := by
    rw [h.versions]
    dsimp only
    rw [hidx, if_neg (Nat.lt_irrefl m)]
  constructor
  case versions =>
    funext slot
    by_cases hs : slot = dests.getD m 0
    · rw [hs]
      dsimp only
      rw [Function.update_self, hidx, if_pos (Nat.lt_succ_self m), hversion]
    · dsimp only
      rw [Function.update_of_ne hs, h.versions]
      simp only [hother slot hs]
  case saved =>
    intro i j
    dsimp only
    by_cases hi : i = index
    · rw [hi, Function.update_self]
      by_cases hj : j = m
      · rw [hj, Function.update_self, if_pos ⟨rfl, Nat.lt_succ_self m⟩, hversion]
      · have hiff : j < m ↔ j < m + 1 := by omega
        rw [Function.update_of_ne hj, h.saved]
        simp only [hiff, true_and]
    · rw [Function.update_of_ne hi, h.saved, if_neg fun hand => hi hand.1, if_neg fun hand => hi hand.1]
  case previous =>
    intro slot j
    dsimp only
    by_cases hs : slot = dests.getD m 0
    · rw [hs, Function.update_self, hidx]
      by_cases hj : j < 128
      · rw [if_pos hj, if_pos ⟨Nat.lt_succ_self m, hj⟩]
      · have hkept := h.previous (dests.getD m 0) j
        rw [if_neg fun hand => hj hand.2] at hkept
        rw [if_neg hj, if_neg fun hand => hj hand.2, hkept]
    · rw [Function.update_of_ne hs, h.previous]
      simp only [hother slot hs]
  case ok => exact h.ok
  case authority => exact h.authority
  case published => exact h.published
  case processed => exact h.processed
  case halted => exact h.halted
  case log => exact h.log

theorem recordCommit_recorded (hd : Destined dag index dests) (hunique : dests.Nodup) (g : Guest) :
    Recorded g dests expected index dests.length (recordCommit dag expected index g) := by
  unfold recordCommit
  rw [hd.chunks]
  simp only [hd.destination]
  have hloop : ∀ m, m ≤ dests.length → Recorded g dests expected index m
      ((List.range m).foldl (fun g j => { g with
        versions := Function.update g.versions (dests.getD j 0) (g.versions (dests.getD j 0) + 1)
        producerVersions := Function.update g.producerVersions index
          (Function.update (g.producerVersions index) j (g.versions (dests.getD j 0) + 1))
        previous := Function.update g.previous (dests.getD j 0) fun k =>
          if k < 128 then expected.getD (128 * j + k) 0 else g.previous (dests.getD j 0) k })
        { g with producerOk := Function.update g.producerOk index true }) := by
    intro m hm
    induction m with
    | zero => exact ⟨by simp, by simp, by simp, rfl, rfl, rfl, rfl, rfl, rfl⟩
    | succ m ih =>
      rw [List.range_succ, List.foldl_append]
      exact (ih (by omega)).succ hunique (by omega)
  exact hloop _ le_rfl

end Record

/-- The bookkeeping of a commit is the commit of the store. -/
theorem Books.commit (h : Books p g st) (hi : chunksAt p i = (destinationsAt p i).length) {words : List ℕ}
    {g' : Guest} (hwords : ∀ m, words.getD m 0 = (st.expected p i).getD m 0)
    (hr : Recorded g (destinationsAt p i) words i (destinationsAt p i).length g') :
    Books p g' (st.commit p i) := by
  have hmem : ∀ slot, (destinationsAt p i).idxOf slot < (destinationsAt p i).length ↔ slot ∈ destinationsAt p i :=
    fun slot => List.idxOf_lt_length_iff
  constructor
  case versions =>
    rw [hr.versions, h.versions]
    funext slot
    simp only [Store.commit, hmem]
  case previous =>
    intro slot hslot j hj
    rw [hr.previous, hwords]
    simp only [Store.commit, hmem]
    by_cases hs : slot ∈ destinationsAt p i
    · rw [if_pos ⟨hs, hj⟩, if_pos hs, chunkWords, if_pos hj]
    · rw [if_neg fun hand => hs hand.1, if_neg hs]
      exact h.previous slot hslot j hj
  case ok =>
    intro q
    rw [hr.ok]
    simp only [Store.commit]
    by_cases hq : q = i
    · rw [hq, Function.update_self, Function.update_self]
      rfl
    · rw [Function.update_of_ne hq, Function.update_of_ne hq]
      exact h.ok q
  case saved =>
    intro q vs out hp j hj
    rw [hr.saved]
    simp only [Store.commit] at hp
    by_cases hq : q = i
    · subst hq
      rw [Function.update_self] at hp
      obtain ⟨rfl, -⟩ := Prod.mk.inj (Option.some.inj hp)
      have hlt : j < (destinationsAt p q).length := by omega
      have hmap : ((destinationsAt p q).map fun slot => st.versions slot + 1).getD j 0 =
          st.versions ((destinationsAt p q).getD j 0) + 1 := by
        rw [List.getD_eq_getElem _ _ (by simpa using hlt), List.getElem_map, List.getD_eq_getElem _ _ hlt]
      rw [if_pos ⟨rfl, hlt⟩, h.versions, hmap]
    · rw [Function.update_of_ne hq] at hp
      rw [if_neg fun hand => hq hand.1]
      exact h.saved q vs out hp j hj

section Resolve

variable (h : Accepted p n) (hs : StoreOk p k st) (hb : Books p g st)

include h hs hb

/-- The guest finds a producer available exactly when the store does. -/
theorem available_eq (hi : i < word p 12) : available (decoded p) g i = st.available p i := by
  rw [Bool.eq_iff_iff]
  unfold available
  rw [decide_eq_true_iff, chunks_decoded hi, hb.ok]
  cases hp : st.producers i with
  | none => simp [Store.available, hp]
  | some saved =>
    obtain ⟨vs, out⟩ := saved
    have hlen := (hs.saved i vs out hp).1
    have hdests := (h.slots i hi).slots
    rw [available_eq_true hp]
    simp only [Option.isSome_some, true_and, List.mem_range, destination_decoded hi, hb.versions]
    constructor
    · intro hall
      refine List.ext_getElem (by rw [List.length_map]; omega) fun j hj hj' => ?_
      have hchunk : j < chunksAt p i := by omega
      have hj2 := hall j hchunk
      rw [hb.saved i vs out hp j hchunk, List.getD_eq_getElem _ _ hj] at hj2
      rw [← hj2, List.getElem_map, slotAt, List.getD_eq_getElem]
    · intro heq j hj
      rw [hb.saved i vs out hp j hj, heq, slotVersions_getD h hi hj]

/-- The first loop over the operands: the first unavailable producer, or the mask of what the job reads. -/
theorem resolve_eq (hi : i < word p 12) {request : Request} (hconfig : request.config = configAt p i) :
    (resolve (decoded p) g request i).1 = st.badSource p i ∧
      (st.badSource p i = none → (resolve (decoded p) g request i).2 = maskOf (readSlots p i)) := by
  have havail : ∀ b, b < 2 → sourceAt p i b ≠ UINT32_MAX →
      available (decoded p) g (sourceAt p i b) = st.available p (sourceAt p i b) := by
    intro b hb2 hl
    exact available_eq h hs hb ((h.link hi hb2 hl).1.trans hi)
  have hmask : ∀ b, b < 2 → sourceAt p i b ≠ UINT32_MAX → ∀ mask,
      (chunkRange (startAt p i b) (extentAt p i b)).foldl
        (fun mask chunk => mask ||| 1 <<< (decoded p).destination (sourceAt p i b) chunk) mask =
        (operandSlots p i b).foldl (fun mask slot => mask ||| 1 <<< slot) mask := by
    intro b hb2 hl mask
    have hlt := (h.link hi hb2 hl).1.trans hi
    simp only [operandSlots, List.foldl_map, destination_decoded hlt]
  have hcfg : ∀ b, cfg request.config (5 + b) = extentAt p i b := by
    intro b
    rw [hconfig]
    rfl
  unfold resolve Store.badSource usesAt readSlots maskOf linksBelow
  simp only [List.range_succ, List.range_zero, List.nil_append, List.cons_append, List.foldl_cons, List.foldl_nil,
    source_decoded hi, start_decoded hi, hcfg]
  by_cases h0 : sourceAt p i 0 = UINT32_MAX
  · by_cases h1 : sourceAt p i 1 = UINT32_MAX
    · simp [h0, h1]
    · have ha := havail 1 (by omega) h1
      have hm := hmask 1 (by omega) h1
      cases hav : st.available p (sourceAt p i 1) <;> simp [h0, h1, ha, hm, hav]
  · have ha0 := havail 0 (by omega) h0
    have hm0 := hmask 0 (by omega) h0
    by_cases h1 : sourceAt p i 1 = UINT32_MAX
    · cases hav : st.available p (sourceAt p i 0) <;> simp [h0, h1, ha0, hm0, hav]
    · have ha1 := havail 1 (by omega) h1
      have hm1 := hmask 1 (by omega) h1
      cases hav0 : st.available p (sourceAt p i 0) <;> cases hav1 : st.available p (sourceAt p i 1) <;>
        simp [h0, h1, ha0, hm0, hav0, ha1, hm1, hav1]

end Resolve

section Output

variable {banks : ℕ → ℕ → ℕ} {out : List ℕ}

/-- The slots of a job hold its output, word by word. -/
theorem output_words (hi : i < word p 12) (hlen : out.length = cellsAt p i)
    (hbanks : ∀ j, j < chunksAt p i → ∀ m, m < 128 → banks (slotAt p i j) m = chunkWords out j m) :
    ((List.range (cellsAt p i)).map fun j => banks ((decoded p).destination i (j / 128)) (j % 128)) = out := by
  refine List.ext_getElem (by simp [hlen]) fun j hj hj' => ?_
  have hchunk : j / 128 < chunksAt p i := by
    unfold chunksAt
    omega
  rw [List.getElem_map, List.getElem_range, destination_decoded hi, hbanks _ hchunk _ (by omega), chunkWords,
    if_pos (by omega), show 128 * (j / 128) + j % 128 = j by omega, List.getD_eq_getElem]

end Output

section Settle

variable {epoch : ℕ} {s : State} {job : JobDescriptor} {issued : Submission} {e : Execution}
  {request : Request}

/-- The store after job `i`, whether it succeeded or not. -/
def answered (p : List UInt8) (st : Store) (i : ℕ) (ok : Bool) : Store := if ok then st.commit p i else st

/-- The authority after the job, whether it succeeded or not. -/
def settledAuthority (p : List UInt8) (st : Store) (s : State) (job : JobDescriptor) (i : ℕ) (ok : Bool) : State :=
  after s job (reported st.versions (destinationsAt p i) s job ok)
    (slotObjects 8 (answered p st i ok).versions (answered p st i ok).banks)

/-- The guest after the authority settled its job. -/
def booked (p : List UInt8) (g : Guest) (authority : Bool → State) (words : List ℕ) (i : ℕ) (ok : Bool) : Guest :=
  if ok then recordCommit (decoded p) words i { g with authority := authority true }
  else { g with authority := authority false }

theorem Books.booked (h : Accepted p n) (hi : i < word p 12) (hb : Books p g st) {words : List ℕ}
    (hwords : ∀ m, words.getD m 0 = (st.expected p i).getD m 0) (authority : Bool → State) (ok : Bool) :
    Books p (booked p g authority words i ok) (answered p st i ok) ∧
      (booked p g authority words i ok).authority = authority ok ∧
      (booked p g authority words i ok).processed = g.processed ∧
      (booked p g authority words i ok).halted = g.halted ∧
      (booked p g authority words i ok).log = g.log := by
  cases ok with
  | true =>
    have hrecord : Recorded { g with authority := authority true } (destinationsAt p i) words i
      (destinationsAt p i).length _ := recordCommit_recorded (h.destined hi) (slotsAt_nodup i) _
    have hb' : Books p { g with authority := authority true } st := ⟨hb.versions, hb.previous, hb.ok, hb.saved⟩
    refine ⟨hb'.commit (h.slots i hi).slots.symm hwords hrecord, hrecord.authority, hrecord.processed,
      hrecord.halted, hrecord.log⟩
  | false => exact ⟨⟨hb.versions, hb.previous, hb.ok, hb.saved⟩, rfl, rfl, rfl, rfl⟩

variable (h : Accepted p n) (hi : i < word p 12)
  (hready : Ready caps epoch 8 st.versions st.banks i s)

include h hi hready

omit h hi in
theorem ready_settled (hk : i < 8) (hexpected : ∀ w ∈ st.expected p i, w < 2 ^ 32) (ok : Bool) :
    Ready caps epoch 8 (answered p st i ok).versions (answered p st i ok).banks (i + 1)
      (settledAuthority p st s job i ok) := by
  cases ok with
  | true =>
    exact hready.next job hk true (hready.versions_next (destinationsAt p i))
      (hready.words_next (destinationsAt p i) hexpected)
  | false =>
    refine hready.next job hk false (fun slot hslot => ?_) hready.words
    have := hready.versions slot hslot
    exact ⟨this.1, this.2.trans (Nat.le_succ _)⟩

/-- What `settleJob` leaves: the bookkeeping of the answer, and its two lines. -/
theorem settleJob_eq (hk : i < 8)
    (hr : Refers st.versions 8 (readSlots p i) (destinationsAt p i) (jobSlots (readSlots p i) (destinationsAt p i)) job)
    (hf : Fields 8 (readSlots p i) (destinationsAt p i) (jobSlots (readSlots p i) (destinationsAt p i)) job)
    (hb : Books p g st) (hg : g.authority = running s job) (hlen : (st.expected p i).length = cellsAt p i)
    (hexpected : ∀ w ∈ st.expected p i, w < 2 ^ 32)
    (hwords : ∀ m, e.expected.getD m 0 = (st.expected p i).getD m 0)
    (hactual : e.ok = true → ∀ m, e.actual.getD m 0 = (st.expected p i).getD m 0) (reads writes : ℕ) :
    settleJob caps (decoded p) g request job (bindingFromSubmission (newSubmission s job)) (newSubmission s job) e
        reads writes (cellsAt p i) i =
      let t := answered p st i e.ok
      let g' := booked p g (settledAuthority p st s job i) e.expected i e.ok
      { g' with
        published := readBack t g'
        processed := g.processed + 1
        halted := if e.framed then 0 else 1
        log := g.log ++
          [.state i true e.framed writes reads t.versionList (i + 1) 0 0 0 0 t.content,
          .result i request.requestId epoch (i + 1) (newSubmission s job).completionCookie (if e.ok then 1 else 4)
            e.ok (if e.ok then cellsAt p i else 0) (if e.ok then some (st.expected p i) else none)] } := by
  have hd := h.destined hi
  have hcomplete : complete caps g.authority (completionFor (decoded p) g job (newSubmission s job) e.ok i) =
      (shadowed s job (reported st.versions (destinationsAt p i) s job e.ok)
        (freshShadow s job (reported st.versions (destinationsAt p i) s job e.ok)), true) := by
    rw [completionFor_eq hd, hb.versions, hg]
    exact hready.complete hr hf hk e.ok
  obtain ⟨hbooks, hauthority, hprocessed, hhalted, hlog⟩ :=
    hb.booked h hi hwords (settledAuthority p st s job i) e.ok
  have hready' := @ready_settled _ _ _ _ _ _ job hready hk hexpected e.ok
  rw [← hauthority] at hready'
  have hread := readState_eq hready' hbooks.versions hbooks.previous
  obtain ⟨hsub, hinf, hcomp, hshadow⟩ := hready'.empty
  have hcontent : ((List.range 8).map fun slot => (List.range 128).map
      (readBack (answered p st i e.ok) (booked p g (settledAuthority p st s job i) e.expected i e.ok) slot)) =
      (answered p st i e.ok).content := by
    refine List.map_congr_left fun slot hslot => List.map_congr_left fun j hj => ?_
    exact if_pos ⟨List.mem_range.mp hslot, List.mem_range.mp hj⟩
  have houtput : e.ok = true → ((List.range (cellsAt p i)).map fun j =>
      readBack (answered p st i e.ok) (booked p g (settledAuthority p st s job i) e.expected i e.ok)
        ((decoded p).destination i (j / 128)) (j % 128)) = st.expected p i := by
    intro hok
    refine output_words hi hlen fun j hj m hm => ?_
    have hmem := h.slot_mem hi hj
    rw [readBack, if_pos ⟨h.slot_lt hi hj, hm⟩, hok, answered, if_pos rfl]
    simp only [Store.commit, if_pos hmem, h.idxOf_slot hi hj]
  have hepoch : (newSubmission s job).executionEpoch = epoch := hready.epoch.1
  have hsequence : (newSubmission s job).executionSequence = i + 1 := hready.sequence
  unfold settleJob
  simp only [hcomplete]
  cases hok : e.ok with
  | true =>
    have hpublish := publishJob_eq hready hr hf hk hd (hactual hok)
    rw [hok] at hread hready' hsub hinf hcomp hshadow hcontent houtput hbooks hlog hprocessed
    have hbook : recordCommit (decoded p) e.expected i { g with authority := settledAuthority p st s job i true } =
      booked p g (settledAuthority p st s job i) e.expected i true := rfl
    have hafter : after s job (reported st.versions (destinationsAt p i) s job true)
        (slotObjects 8 (nextVersions (destinationsAt p i) st.versions)
          (nextWords (destinationsAt p i) (st.expected p i) st.banks)) = settledAuthority p st s job i true := rfl
    simp only [Bool.and_self, if_true, hpublish, hafter, hbook, hread, hready'.used,
      decide_true, Bool.not_true, Bool.false_eq_true, if_false, Guest.say, Guest.versionList, Guest.content, hsub,
      hinf, hcomp, hshadow, hcontent, houtput rfl, hepoch, hsequence, hlog, hprocessed, hbooks.versions]
    cases e.framed <;> simp [Store.versionList]
  | false =>
    have hrollback := hready.rollback job (reported st.versions (destinationsAt p i) s job false)
    rw [hok] at hread hready' hsub hinf hcomp hshadow hcontent houtput hbooks hlog hprocessed
    have hbook : ({ g with authority := settledAuthority p st s job i false } : Guest) =
      booked p g (settledAuthority p st s job i) e.expected i false := rfl
    have hafter : after s job (reported st.versions (destinationsAt p i) s job false)
        (slotObjects 8 st.versions st.banks) = settledAuthority p st s job i false := rfl
    simp only [Bool.and_false, Bool.false_eq_true, if_false, hrollback, hafter, hbook, hread, hready'.used,
      decide_true, Bool.and_self, Bool.not_true, Bool.false_eq_true, if_false, Guest.say, Guest.versionList,
      Guest.content, hsub, hinf, hcomp, hshadow, hcontent, hepoch, hsequence, hlog, hprocessed, hbooks.versions]
    cases e.framed <;> simp [Store.versionList]

end Settle

section Step

/-- What a run keeps up to job `i`. -/
structure RunOk (p : List UInt8) (i : ℕ) (r : Run) : Prop where
  store : StoreOk p i r.store
  running : r.halted = 0 → r.processed = i

theorem answered_eq (st : Store) (i : ℕ) :
    answered p st i (decide (Run.outcomeAt p rx st i = .correct)) = Run.settle p rx st i := by
  unfold answered Run.settle
  simp only [decide_eq_true_iff]

theorem slotMask_decoded (h : Accepted p n) (hi : i < word p 12) :
    slotMask (decoded p) i = maskOf (destinationsAt p i) := by
  unfold slotMask maskOf
  rw [chunks_decoded hi, h.destinations_eq hi, List.foldl_map]
  simp only [destination_decoded hi]

variable (h : Accepted p n) (hi : i < word p 12)

include h hi

theorem decode_decoded : raveilFoldDecode (p.drop ((decoded p).offsets i)) ((decoded p).lengths i) =
    some ⟨idAt p i, configAt p i, placed (literalAt p i 0) (literalAt p i 1)⟩ := by
  have hoffset : (decoded p).offsets i = requestOffset p i := if_pos hi
  have hlength : (decoded p).lengths i = requestLength p i := if_pos hi
  rw [hoffset, hlength]
  exact (h.request hi).1

theorem RunOk.step {r : Run} (hr : RunOk p i r) : RunOk p (i + 1) (Run.step p rx r i) := by
  unfold Run.step
  by_cases hrun : r.halted ≠ 0
  · rw [if_pos hrun]
    exact ⟨hr.store.skip, fun h0 => absurd h0 hrun⟩
  · rw [if_neg hrun]
    cases hbad : r.store.badSource p i with
    | some bad => exact ⟨hr.store.skip, fun h0 => absurd h0 (by simp)⟩
    | none =>
      refine ⟨?_, fun _ => congrArg (· + 1) (hr.running (not_not.mp hrun))⟩
      change StoreOk p (i + 1) (Run.settle p rx r.store i)
      unfold Run.settle
      split
      · exact hr.store.commit h hi hbad
      · exact hr.store.skip

omit h hi in
theorem guestJob_block {request : Request} {index bad : ℕ} {dag : FoldDag} (hrun : g.halted = 0)
    (hdecode : raveilFoldDecode (p.drop (dag.offsets index)) (dag.lengths index) = some request)
    (hresolve : (resolve dag g request index).1 = some bad) :
    guestJob caps p dag rx g index = { g.say (.block index bad) with halted := 3 } := by
  unfold guestJob
  rw [if_neg (not_not.mpr hrun), hdecode]
  dsimp only
  generalize resolve dag g request index = resolved at hresolve
  obtain ⟨source, mask⟩ := resolved
  subst hresolve
  rfl

omit h hi in
theorem guestJob_eq {request : Request} {mask index : ℕ} {job : JobDescriptor} {s1 s2 : State} {binding : Binding}
    {issued : Submission} {inputs : List ℕ} {envelope : List UInt8} {e : Execution} {dag : FoldDag} (hrun : g.halted = 0)
    (hdecode : raveilFoldDecode (p.drop (dag.offsets index)) (dag.lengths index) = some request)
    (hresolve : resolve dag g request index = (none, mask)) (hdisjoint : mask &&& slotMask dag index = 0)
    (hjob : descriptor dag g request mask (slotMask dag index) index = job)
    (hsubmit : planeJobSubmitBound g.authority caps.task caps.dataCap (some job) true = (s1, some binding))
    (htake : jobSubmissionTake s1 true = (s2, some issued))
    (hinputs : materialize dag s2 issued request index = (inputs, true))
    (he : execute { request with inputs := inputs } true issued (cfg request.config 1 * cfg request.config 2)
      (rx index) = e)
    (henvelope : e.envelope = some envelope) :
    guestJob caps p dag rx g index =
      settleJob caps dag (({ g with authority := s2 } : Guest).say (.dispatch issued.job.jobId issued.executionEpoch
        issued.executionSequence issued.completionCookie (cfg request.config 1 * cfg request.config 2) envelope))
        { request with inputs := inputs } job binding issued e mask (slotMask dag index)
        (cfg request.config 1 * cfg request.config 2) index := by
  unfold guestJob
  rw [if_neg (not_not.mpr hrun), hdecode]
  simp only [hresolve, hdisjoint, hjob, hsubmit, htake, hinputs, he, henvelope, ne_eq, not_true_eq_false, if_false]

/-- A job that is dispatched ends where the run does. -/
theorem Sim.dispatch {r : Run} (hs : Sim caps p g r) (hr : RunOk p i r) (hrun : r.halted = 0)
    (hbad : r.store.badSource p i = none) :
    Sim caps p (guestJob caps p (decoded p) rx g i) (Run.step p rx r i) := by
  have hk : i < 8 := hi.trans_le h.header.count.2
  have hstore := hr.store
  have hprocessed := hr.running hrun
  have hready := hs.ready
  rw [hprocessed] at hready
  have hrequest := hstore.request h hi hbad
  have hslots := h.slotsOk hi
  obtain ⟨hlen, hwords⟩ := evaluated_ok hrequest
  -- the first loop finds the producers, the second copies what they left
  generalize hrequested : (⟨idAt p i, configAt p i, placed (literalAt p i 0) (literalAt p i 1)⟩ : Request) = request
  have hconfig : request.config = configAt p i := by rw [← hrequested]
  have hrid : request.requestId = idAt p i := by rw [← hrequested]
  obtain ⟨hresolve, hmask⟩ := resolve_eq h hstore hs.books hi hconfig
  rw [hbad] at hresolve
  have hresolved : resolve (decoded p) g request i = (none, maskOf (readSlots p i)) :=
    Prod.ext hresolve (hmask hbad)
  have hrefers := refers_descriptor (decoded p) g request i hslots
  rw [hs.books.versions] at hrefers
  have hid : 0 < request.requestId := by
    rw [hrid]
    exact hrequest.id.1
  have hfields := @fields_descriptor (readSlots p i) _ _ g request i hid (h.destined hi).chunks
  generalize hjob : descriptor (decoded p) g request (maskOf (readSlots p i)) (maskOf (destinationsAt p i)) i = job
    at hrefers hfields
  have hjobId : job.jobId = idAt p i := by
    rw [← hjob]
    exact hrid
  obtain ⟨hsubmit, htake⟩ := hready.submit hrefers hfields hk
  have hinputs := materialize_eq h hready hrefers hstore hi hbad
  rw [hrequested] at hinputs
  have hepoch : (newSubmission g.authority job).executionEpoch = word64 p 16 := hready.epoch.1
  have hsequence : (newSubmission g.authority job).executionSequence = i + 1 := hready.sequence
  have hcookie : (newSubmission g.authority job).completionCookie = Run.cookieAt p i := by
    change makeCookie g.authority.authorityEpoch job.jobId g.authority.nextSequence = _
    rw [hready.epoch.1, hready.sequence, hjobId]
    rfl
  have hexecuted := @executed _ _ _ _ (cellsAt p i) (newSubmission g.authority job) (rx i) hrequest rfl hjobId
    (by rw [hepoch]; exact hready.epoch.2.2) (by rw [hsequence]; omega)
  rw [hepoch, hsequence, hcookie] at hexecuted
  change Executed _ _ _ _ (Run.outcomeAt p rx r.store i) _ at hexecuted
  generalize he : execute _ true (newSubmission g.authority job) (cellsAt p i) (rx i) = e at hexecuted
  have hcells : cfg request.config 1 * cfg request.config 2 = cellsAt p i := by
    rw [hconfig]
    rfl
  have hwrites := slotMask_decoded h hi
  have hdisjoint : maskOf (readSlots p i) &&& slotMask (decoded p) i = 0 := by
    rw [hwrites]
    exact masks_disjoint fun s => h.reads_disjoint hi
  rw [← hwrites] at hjob
  have hhalted : g.halted = 0 := hs.halted.trans hrun
  have hdecode := decode_decoded h hi
  rw [hrequested] at hdecode
  have hexecute : execute { request with inputs := placed (linked p r.store.value i 0) (linked p r.store.value i 1) }
      true (newSubmission g.authority job) (cfg request.config 1 * cfg request.config 2) (rx i) = e := by
    rw [hcells, hrid, hconfig]
    exact he
  have hjobrun := guestJob_eq hhalted hdecode hresolved hdisjoint hjob hsubmit htake hinputs hexecute hexecuted.envelope
  rw [hcells, hwrites, hepoch, hsequence, hcookie] at hjobrun
  generalize hG : Guest.say _ (.dispatch _ (word64 p 16) (i + 1) (Run.cookieAt p i) (cellsAt p i) _) = G at hjobrun
  have hbooks : Books p G r.store := by
    rw [← hG]
    exact ⟨hs.books.versions, hs.books.previous, hs.books.ok, hs.books.saved⟩
  have hauthority : G.authority = running g.authority job := by rw [← hG]; rfl
  have hsettle := @settleJob_eq _ _ _ _ _ _ _ _ _ _
    { request with inputs := placed (linked p r.store.value i 0) (linked p r.store.value i 1) } h hi hready hk
    hrefers hfields hbooks hauthority hlen hwords hexecuted.expected hexecuted.actual (maskOf (readSlots p i))
    (maskOf (destinationsAt p i))
  obtain ⟨hbooks', hauthority', -, -, -⟩ :=
    hbooks.booked h hi hexecuted.expected (settledAuthority p r.store g.authority job i) e.ok
  have hready' := @ready_settled _ _ _ _ _ _ job hready hk hwords e.ok
  rw [← hauthority'] at hready'
  have hsettled : Run.settle p rx r.store i = answered p r.store i e.ok := by
    rw [hexecuted.ok, answered_eq]
  have hstep : Run.step p rx r i = ⟨answered p r.store i e.ok, i + 1, if e.framed then 0 else 1,
      r.log ++ Run.lines p rx r.store i⟩ := by
    unfold Run.step
    rw [if_neg (not_not.mpr hrun), hbad]
    dsimp only
    rw [hsettled, hprocessed, hexecuted.framed]
    simp
  rw [hjobrun, hsettle, hstep]
  refine ⟨hready', ⟨hbooks'.versions, hbooks'.previous, hbooks'.ok, hbooks'.saved⟩,
    fun slot hslot j hj => if_pos ⟨hslot, hj⟩, ?_, rfl, ?_⟩
  · change G.processed + 1 = i + 1
    rw [← hG]
    exact congrArg (· + 1) (hs.processed.trans hprocessed)
  · have hlog : G.log = r.log ++ [.dispatch (idAt p i) (word64 p 16) (i + 1) (Run.cookieAt p i) (cellsAt p i)
        (Run.dispatched p r.store i)] := by
      rw [← hG, ← hs.log, Run.dispatched, ← hjobId]
      rfl
    change G.log ++ [_, _] = r.log ++ Run.lines p rx r.store i
    rw [hlog, Run.lines, hsettled, hcookie, hexecuted.ok, hexecuted.framed, List.append_assoc]
    simp only [hrid]
    rfl

/-- One job: the guest and the run stay in step. -/
theorem Sim.step {r : Run} (hs : Sim caps p g r) (hr : RunOk p i r) :
    Sim caps p (guestJob caps p (decoded p) rx g i) (Run.step p rx r i) := by
  by_cases hrun : r.halted = 0
  · cases hbad : r.store.badSource p i with
    | none => exact hs.dispatch h hi hr hrun hbad
    | some bad =>
      obtain ⟨hresolve, -⟩ := @resolve_eq _ _ _ _ _ _ h hr.store hs.books hi
        ⟨idAt p i, configAt p i, placed (literalAt p i 0) (literalAt p i 1)⟩ rfl
      rw [hbad] at hresolve
      have hguest : guestJob caps p (decoded p) rx g i = _ :=
        guestJob_block (hs.halted.trans hrun) (decode_decoded h hi) hresolve
      have hstep : Run.step p rx r i = { r with halted := 3, log := r.log ++ [.block i bad] } := by
        unfold Run.step
        rw [if_neg (not_not.mpr hrun), hbad]
      rw [hguest, hstep]
      exact ⟨hs.ready, ⟨hs.books.versions, hs.books.previous, hs.books.ok, hs.books.saved⟩, hs.published,
        hs.processed, rfl, congrArg (· ++ [Event.block i bad]) hs.log⟩
  · have hguest : guestJob caps p (decoded p) rx g i = g := if_pos (by rw [hs.halted]; exact hrun)
    have hstep : Run.step p rx r i = r := if_pos hrun
    rw [hguest, hstep]
    exact hs

end Step

end Raveil.Dag
