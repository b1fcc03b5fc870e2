import Raveil.Chain.Bank

/-! The guest and the host's model stay in step, job after job. -/
namespace Raveil.Chain
open Raveil.Lib Raveil.Fold Raveil.Dispatch
open Raveil.Authority hiding State

/-- The static variables of the guest hold what the model holds. -/
structure Books (g : Guest) (s : State) : Prop where
  versions : g.versions = s.versions
  previous : ∀ b, b < 2 → ∀ i, i < 256 → g.previous b i = (s.banks b).getD i 0
  active : g.active = s.active
  ok : ∀ i, g.producerOk i = (s.producers i).isSome
  saved : ∀ i saved, s.producers i = some saved →
    g.producerBanks i = saved.bank ∧ g.producerVersions i = saved.version

/-- The guest is where the host is. -/
structure Sim (caps : Caps) (epoch : ℕ) (g : Guest) (h : Host) : Prop where
  ready : Ready caps epoch 4 (slotVersions h.state) (slotWords h.state) h.rows.length g.authority
  books : Books g h.state
  published : ∀ b, b < 2 → ∀ i, i < 256 → g.published b i = (h.state.banks b).getD i 0
  processed : g.processed = h.rows.length
  halted : g.halted = h.halted
  log : g.log = h.lines

section Commit

variable {caps : Caps} {epoch index : ℕ} {g : Guest} {st : State} {s : Authority.State} {job : JobDescriptor}
  {mask destination source : ℕ} {expected : List ℕ} {e : Execution}
  (h : Ready caps epoch 4 (slotVersions st) (slotWords st) index s)
  (hr : Refers (slotVersions st) 4 (readSlots mask source) (bankSlots destination)
    (bankSlots destination ++ readSlots mask source) job)
  (hf : Fields 4 (readSlots mask source) (bankSlots destination) (bankSlots destination ++ readSlots mask source)
    job) (hk : index < 8)

/-- The authority after the job, whether it succeeded or not. -/
def settledAuthority (st : State) (s : Authority.State) (job : JobDescriptor) (index destination : ℕ)
    (expected : List ℕ) (ok : Bool) : Authority.State :=
  after s job (reported (slotVersions st) (bankSlots destination) s job ok)
    (slotObjects 4 (slotVersions (st.commit index destination expected ok))
      (slotWords (st.commit index destination expected ok)))

/-- The guest after the authority settled its job. -/
def booked (g : Guest) (authority : Bool → Authority.State) (words : List ℕ) (destination index : ℕ)
    (ok : Bool) : Guest :=
  if ok then recordCommit { g with authority := authority true } words destination index
  else { g with authority := authority false }

include h hr hf hk in
/-- A successful job is committed, any other is rolled back. -/
theorem commitJob_eq (hv : g.versions = st.versions) (hg : g.authority = running s job)
    (hactual : e.ok = true → ∀ i, e.actual.getD i 0 = expected.getD i 0) :
    commitJob caps g job (bindingFromSubmission (newSubmission s job)) (newSubmission s job) e destination index =
      (booked g (settledAuthority st s job index destination expected) e.expected destination index e.ok, true,
        e.ok) := by
  unfold commitJob
  have hcomplete := h.complete hr hf hk e.ok
  rw [reported, ← completionFor_eq hv, ← hg] at hcomplete
  simp only [hcomplete]
  rw [completionFor_eq hv]
  cases hok : e.ok with
  | true =>
    have hpublish := publishJob_eq h hr hf hk index (hactual hok)
    rw [reported] at hpublish
    simp only [Bool.and_self, if_true, hpublish]
    rfl
  | false =>
    have hrollback := h.rollback job (report (slotVersions st) (bankSlots destination) job (newSubmission s job) false)
    simp only [Bool.and_false, Bool.false_eq_true, if_false, hrollback]
    rfl

include h in
theorem ready_settled (hk : index < 8) (hexpected : ∀ w ∈ expected, w < 2 ^ 32) (ok : Bool) :
    Ready caps epoch 4 (slotVersions (st.commit index destination expected ok))
      (slotWords (st.commit index destination expected ok)) (index + 1)
      (settledAuthority st s job index destination expected ok) := by
  have hversions := h.versions_next (bankSlots destination)
  have hwords := h.words_next (bankSlots destination) hexpected
  rw [nextVersions_eq st index destination expected] at hversions
  rw [nextWords_eq st index destination expected] at hwords
  cases ok with
  | true => exact h.next job hk true hversions hwords
  | false =>
    refine h.next job hk false (fun slot hslot => ?_) h.words
    have := h.versions slot hslot
    exact ⟨this.1, this.2.trans (Nat.le_succ _)⟩

end Commit

section Report

variable {caps : Caps} {epoch index count destination source requestId : ℕ} {g : Guest} {st : State}
  {issued : Submission} {framed committed : Bool}

/-- The two lines say what the host demands. -/
theorem reportJob_eq (h : Ready caps epoch 4 (slotVersions st) (slotWords st) (index + 1) g.authority)
    (hv : g.versions = st.versions) (hlen : ∀ b, (st.banks b).length = 256)
    (hprev : ∀ b, b < 2 → ∀ i, i < 256 → g.previous b i = (st.banks b).getD i 0)
    (hdest : destination < 2) (hcount : count ≤ 256) :
    reportJob g requestId issued framed true committed destination source count index =
      { g with
        published := publishedWord g
        processed := g.processed + 1
        halted := if framed then g.halted else 1
        log := g.log ++
          [.state index true framed destination source st.versionList (index + 1) 0 0 0 0
            ((List.range 2).flatMap st.banks),
          .result index requestId issued.executionEpoch issued.executionSequence issued.completionCookie
            (if committed then 1 else 4) committed (st.versions destination) (if committed then count else 0)
            (if committed then some ((st.banks destination).take count) else none)] } := by
  have hbank : ∀ b, b < 2 → ∀ m, m ≤ 256 → (List.range m).map (publishedWord g b) = (st.banks b).take m := by
    intro b hb m hm
    refine List.ext_getElem (by simp [hlen]; omega) fun i hi hi' => ?_
    have hlt : i < m := by simpa using hi
    rw [List.getElem_map, List.getElem_range, publishedWord_eq h hv hb (by omega), List.getElem_take,
      List.getD_eq_getElem]
  have hcontent : ((List.range 2).flatMap fun b => (List.range 256).map (publishedWord g b)) =
      (List.range 2).flatMap st.banks := by
    have hfull : ∀ b, b < 2 → (List.range 256).map (publishedWord g b) = st.banks b := by
      intro b hb
      rw [hbank b hb 256 le_rfl, List.take_of_length_le (hlen b).le]
    have hbanks : List.range 2 = [0, 1] := rfl
    rw [hbanks, List.flatMap_cons, List.flatMap_cons, hfull 0 (by omega), hfull 1 (by omega)]
    rfl
  obtain ⟨hsub, hinf, hcomp, hshadow⟩ := h.empty
  unfold reportJob
  rw [readState_eq h hv hprev]
  simp only [h.used, decide_true, Bool.and_self, Bool.and_true, Bool.not_true, Bool.false_eq_true, if_false,
    Guest.say, Guest.versionList, Guest.content, hsub, hinf, hcomp, hshadow, hv, hcontent]
  rw [hbank destination hdest count hcount, List.append_assoc]
  cases framed with
  | true => rfl
  | false => rfl

end Report

/-- The bookkeeping of a commit is the commit of the model. -/
theorem Books.commit {g : Guest} {s : State} (h : Books g s) {index destination : ℕ} {words expected : List ℕ}
    (hwords : ∀ i, words.getD i 0 = expected.getD i 0) :
    Books (recordCommit g words destination index) (s.commit index destination expected true) where
  versions := by
    funext b
    rw [commit_version]
    change Function.update g.versions destination (g.versions destination + 1) b = _
    rw [h.versions]
    split
    · rename_i hb
      rw [hb, Function.update_self]
    · rename_i hb
      rw [Function.update_of_ne hb]
  previous b hb i hi := by
    rw [commit_bank]
    change Function.update g.previous destination (fun i => if i < 256 then words.getD i 0 else
      g.previous destination i) b i = _
    split
    · rename_i hbd
      rw [hbd, Function.update_self, if_pos hi, getD_padded, hwords]
    · rename_i hbd
      rw [Function.update_of_ne hbd]
      exact h.previous b hb i hi
  active := rfl
  ok i := by
    change Function.update g.producerOk index true i = (Function.update s.producers index _ i).isSome
    by_cases hi : i = index
    · rw [hi, Function.update_self, Function.update_self]
      rfl
    · rw [Function.update_of_ne hi, Function.update_of_ne hi]
      exact h.ok i
  saved i saved hs := by
    change Function.update g.producerBanks index destination i = _ ∧
      Function.update g.producerVersions index (g.versions destination + 1) i = _
    obtain ⟨rfl, rfl⟩ | ⟨hi, hs⟩ := commit_producer hs
    · rw [Function.update_self, Function.update_self, h.versions]
      exact ⟨rfl, rfl⟩
    · rw [Function.update_of_ne hi, Function.update_of_ne hi]
      exact h.saved i saved hs

theorem Books.booked {g : Guest} {s : State} (h : Books g s) {authority : Bool → Authority.State}
    {index destination : ℕ} {words expected : List ℕ} (hwords : ∀ i, words.getD i 0 = expected.getD i 0)
    (ok : Bool) :
    Books (booked g authority words destination index ok) (s.commit index destination expected ok) ∧
      (booked g authority words destination index ok).authority = authority ok ∧
      (booked g authority words destination index ok).processed = g.processed ∧
      (booked g authority words destination index ok).halted = g.halted ∧
      (booked g authority words destination index ok).log = g.log := by
  cases ok with
  | true =>
    refine ⟨Books.commit ?_ hwords, rfl, rfl, rfl, rfl⟩
    exact ⟨h.versions, h.previous, h.active, h.ok, h.saved⟩
  | false => exact ⟨⟨h.versions, h.previous, h.active, h.ok, h.saved⟩, rfl, rfl, rfl, rfl⟩

/-- What the guest's device does, as the host sees it. -/
def deviceOf (rx : ℕ → ℕ → Option Char) (epoch : ℕ) (ids : List ℕ) : Device where
  cookie i := makeCookie epoch (ids.getD i 0) (i + 1)
  outcome i expected :=
    outcome (rx i) (ids.getD i 0) epoch (i + 1) (makeCookie epoch (ids.getD i 0) (i + 1)) expected

section Dispatch

variable {session : Session} {d : ℕ → JobData} {ids : List ℕ} {epoch index : ℕ} {job : Job} {caps : Caps}
  {rx : ℕ → ℕ → Option Char} {g : Guest} {host : Host} {out : List ℕ} {r : Resolved}

theorem dispatchJob_eq {caps : Caps} {rx : ℕ → Option Char} {request : Request}
    {mask destination source index : ℕ} {s1 s2 : Authority.State} {binding : Binding} {issued : Submission}
    {inputs : List ℕ} {envelope : List UInt8} {e : Execution}
    (hsubmit : planeJobSubmitBound g.authority caps.task caps.dataCap
      (some (descriptor g request mask destination source)) true = (s1, some binding))
    (htake : jobSubmissionTake s1 true = (s2, some issued))
    (hinputs : materialize s2 issued request mask source = (inputs, true))
    (he : execute { request with inputs := inputs } true issued (cfg request.config 1 * cfg request.config 2) rx = e)
    (henvelope : e.envelope = some envelope) :
    dispatchJob caps rx g request mask destination source index =
      let g := ({ g with authority := s2 } : Guest).say (.dispatch issued.job.jobId issued.executionEpoch
        issued.executionSequence issued.completionCookie (cfg request.config 1 * cfg request.config 2) envelope)
      let r := commitJob caps g (descriptor { g with authority := s2 } request mask destination source) binding
        issued e destination index
      reportJob r.1 request.requestId issued e.framed r.2.1 r.2.2 destination source
        (cfg request.config 1 * cfg request.config 2) index := by
  unfold dispatchJob
  simp only [hsubmit, htake, hinputs, he, henvelope]
  rfl

/-- A job that is dispatched ends where the host expects it. -/
theorem Sim.dispatch (h : ChainOk session d) (hids : IdsOk session ids)
    (hok : HostOk session d ids epoch (deviceOf rx epoch ids) index host) (hs : Sim caps epoch g host)
    (hrun : host.halted = 0) (hj : session.jobs[index]? = some job)
    (hc : Chosen d host.state index job out r) :
    Sim caps epoch (dispatchJob caps (rx index) g (wireChild d ids index).request (d index).mask r.destination
      r.source index) (ran host epoch ids (deviceOf rx epoch ids) (d index) index out r) := by
  have hi := (List.getElem?_eq_some_iff.mp hj).1
  have hcount := h.count
  have hk : index < 8 := by omega
  have hrows := hok.running hrun
  have hready := hs.ready
  rw [hrows] at hready
  obtain ⟨hdest, hne⟩ := hc.banks hok.state
  have hsource := hc.source_lt hok.state
  have hwire : RequestOk (d index).config ((d index).values 0) ((d index).values 1) (ids.getD index 0) :=
    h.wireChild_ok hids hi
  have hfill := hok.request h hids hj hc
  obtain ⟨hlen, hle, hw⟩ := hok.produced_ok h hids hj hc
  have hrefers := refers_descriptor hs.books.versions (wireChild d ids index).request hdest hne hsource
  have hfields := @fields_descriptor _ _ _ g (wireChild d ids index).request hfill.id.1 hdest hne hsource
  have hsubmit := hready.submit hrefers hfields hk
  set jd := descriptor g (wireChild d ids index).request (d index).mask r.destination r.source with hjd
  have hinputs := @materialize_eq _ _ _ _ _ _ _ _ _ out hready hrefers (d index) _ rfl hsource
    (hc.bank_eq hok.state) hwire hfill (hc.output_le hok.state)
  have hepoch : (newSubmission g.authority jd).executionEpoch = epoch := hready.epoch.1
  have hsequence : (newSubmission g.authority jd).executionSequence = index + 1 := hready.sequence
  have hcookie : (newSubmission g.authority jd).completionCookie =
      makeCookie epoch (ids.getD index 0) (index + 1) := by
    change makeCookie g.authority.authorityEpoch _ g.authority.nextSequence = _
    rw [hready.epoch.1, hready.sequence]
    rfl
  have hexecuted := @executed _ _ _ _ (cfg (d index).config 1 * cfg (d index).config 2)
    (newSubmission g.authority jd) (rx index) hfill rfl rfl (by rw [hepoch]; exact hready.epoch.2.2)
    (by rw [hsequence]; omega)
  rw [hepoch, hsequence, hcookie] at hexecuted
  change Executed _ _ _ _ ((deviceOf rx epoch ids).outcome index (produced (d index) out)) _ at hexecuted
  set issued := newSubmission g.authority jd with hissued
  set e := execute ⟨ids.getD index 0, (d index).config,
    placed (filled (d index) out 0) (filled (d index) out 1)⟩ true issued
    (cfg (d index).config 1 * cfg (d index).config 2) (rx index) with he
  set success := decide ((deviceOf rx epoch ids).outcome index (produced (d index) out) = .correct) with hsuccess
  have hsucceeds : e.ok = success := hexecuted.ok
  set G := ({ g with authority := running g.authority jd } : Guest).say (.dispatch issued.job.jobId
    issued.executionEpoch issued.executionSequence issued.completionCookie
    (cfg (d index).config 1 * cfg (d index).config 2) (sent (d index) out (ids.getD index 0))) with hG
  have hrun' := @dispatchJob_eq _ _ _ _ _ _ _ index _ _ _ _ _ _ _ hsubmit.1 hsubmit.2 hinputs he.symm hexecuted.envelope
  have hbooks : Books G host.state := ⟨hs.books.versions, hs.books.previous, hs.books.active, hs.books.ok, hs.books.saved⟩
  have hcommit := @commitJob_eq _ _ _ G _ _ _ _ _ _ (produced (d index) out) e hready hrefers hfields hk
    hbooks.versions rfl hexecuted.actual
  obtain ⟨hbooks', hauthority, hprocessed, hhalted, hlog⟩ := @Books.booked _ _ hbooks
    (settledAuthority host.state g.authority jd index r.destination (produced (d index) out)) index r.destination _ _
    hexecuted.expected e.ok
  set G' := booked G (settledAuthority host.state g.authority jd index r.destination (produced (d index) out))
    e.expected r.destination index e.ok with hG'
  rw [hsucceeds] at hbooks' hauthority
  have hready' := @ready_settled _ _ _ _ _ jd r.destination _ hready hk hw success
  rw [← hauthority] at hready'
  have hstate := hok.state.commit hdest hlen hle hw success
  have hreport := @reportJob_eq _ _ _ _ _ r.source (ids.getD index 0) _ _ issued e.framed success hready' hbooks'.versions hstate.length hbooks'.previous hdest
    (hlen ▸ hle)
  rw [hrun']
  change Sim caps epoch (reportJob (commitJob caps G jd (bindingFromSubmission issued) issued e r.destination
    index).1 (ids.getD index 0) issued e.framed (commitJob caps G jd (bindingFromSubmission issued) issued e
    r.destination index).2.1 (commitJob caps G jd (bindingFromSubmission issued) issued e r.destination index).2.2
    r.destination r.source (d index).cells index) _
  rw [hcommit]
  dsimp only
  rw [hsucceeds, hreport]
  have hlast : (host.rows ++ [ranRow host (deviceOf rx epoch ids) (d index) index out r]).length = index + 1 := by
    rw [List.length_append, hrows]
    rfl
  refine ⟨?_, ⟨hbooks'.versions, hbooks'.previous, hbooks'.active, hbooks'.ok, hbooks'.saved⟩,
    fun b hb i hi => publishedWord_eq hready' hbooks'.versions hb hi, ?_, ?_, ?_⟩
  · change Ready caps epoch 4 _ _ (host.rows ++ [ranRow host (deviceOf rx epoch ids) (d index) index out r]).length _
    rw [hlast]
    exact hready'
  · change G'.processed + 1 = (host.rows ++ [ranRow host (deviceOf rx epoch ids) (d index) index out r]).length
    rw [hlast, hprocessed, ← hrows]
    exact congrArg (· + 1) hs.processed
  · change (if e.framed = true then G'.halted else 1) = if _ = Outcome.lost then 1 else host.halted
    rw [hexecuted.framed, hhalted]
    split
    · rename_i hlost
      rw [if_neg (of_decide_eq_true hlost)]
      exact hs.halted
    · rename_i hlost
      rw [if_pos (not_not.mp (of_decide_eq_false (Bool.eq_false_iff.mpr hlost)))]
  · have hversions := hbooks'.versions
    have houtput : (if success then some (((host.state.commit index r.destination (produced (d index) out)
        success).banks r.destination).take (d index).cells) else none) =
        if success then some (produced (d index) out) else none := by
      cases success with
      | false => rfl
      | true =>
        rw [if_pos rfl, if_pos rfl, commit_bank, if_pos rfl, ← hlen, List.take_left]
    change G'.log ++ [_, _] = (host.lines ++ [_]) ++ [_, _]
    rw [hlog, hexecuted.framed]
    change (g.log ++ [_]) ++ [_, _] = _
    have hcells : cfg (d index).config 1 * cfg (d index).config 2 = (produced (d index) out).length := hlen.symm
    rw [hs.log, houtput, hepoch, hsequence, hcookie, hcells, ← hlen]
    rfl

end Dispatch

section Step

variable {session : Session} {d : ℕ → JobData} {ids : List ℕ} {epoch index : ℕ} {job : Job} {caps : Caps}
  {rx : ℕ → ℕ → Option Char} {g : Guest} {host : Host} {p : List UInt8} {chain : FoldChain}

/-- What the guest decoded of the chain. -/
structure Decoded (session : Session) (d : ℕ → JobData) (ids : List ℕ) (p : List UInt8) (chain : FoldChain) :
    Prop where
  count : chain.jobs.count = session.jobs.length
  request : ∀ i, i < session.jobs.length → raveilFoldDecode (p.drop (chain.jobs.offsets i)) (chain.jobs.lengths i) =
    some (wireChild d ids i).request
  source : ∀ i, i < session.jobs.length → chain.sources i = (d i).source
  mask : ∀ i, i < session.jobs.length → chain.masks i = (d i).mask

theorem ChainOk.decoded (h : ChainOk session d) (hids : IdsOk session ids) (epoch : ℕ) :
    Decoded session d ids (chainEnvelope epoch session.jobs.length d ids).bytes
      (loopAt epoch session.jobs.length d ids session.jobs.length).admitted where
  count := rfl
  request i hi := by
    have hoffset : (loopAt epoch session.jobs.length d ids session.jobs.length).admitted.jobs.offsets i =
        (chainEnvelope epoch session.jobs.length d ids).offset i + 8 := if_pos hi
    have hlength : (loopAt epoch session.jobs.length d ids session.jobs.length).admitted.jobs.lengths i =
        (wireChild d ids i).bytes.length := if_pos hi
    rw [hoffset, hlength]
    exact (h.chainAt hids epoch hi).2.2.1.request
  source i hi := if_pos hi
  mask i hi := if_pos hi

theorem Sim.block (hs : Sim caps epoch g host) (index source : ℕ) :
    Sim caps epoch { g.say (.block index source) with halted := 3 }
      { host.say (.block index source) with halted := 3 } :=
  ⟨hs.ready, ⟨hs.books.versions, hs.books.previous, hs.books.active, hs.books.ok, hs.books.saved⟩, hs.published,
    hs.processed, rfl, congrArg (· ++ [Line.block index source]) hs.log⟩

/-- The guest finds the producer unavailable exactly when the model does. -/
theorem Books.unavailable {st : State} (hb : Books g st) (source : ℕ) :
    (g.producerOk source = false ∨ g.producerVersions source ≠ g.versions (g.producerBanks source)) ↔
      ∀ saved, st.producers source = some saved → st.versions saved.bank ≠ saved.version := by
  rw [hb.ok, hb.versions]
  cases hp : st.producers source with
  | none => simp
  | some saved =>
    obtain ⟨hbank, hversion⟩ := hb.saved source saved hp
    rw [hbank, hversion]
    simp only [Option.isSome_some, Bool.true_eq_false, false_or, Option.some.injEq, forall_eq']
    exact ne_comm

/-- One job: the guest and the host's model stay in step. -/
theorem Sim.step (h : ChainOk session d) (hids : IdsOk session ids) (hd : Decoded session d ids p chain)
    (hi : index < session.jobs.length) (hok : HostOk session d ids epoch (deviceOf rx epoch ids) index host)
    (hs : Sim caps epoch g host) :
    ∃ host', hostJob session epoch ids (deviceOf rx epoch ids) host index = .ok host' ∧
      Sim caps epoch (guestJob caps p chain rx g index) host' ∧
      HostOk session d ids epoch (deviceOf rx epoch ids) (index + 1) host' := by
  have hj := List.getElem?_eq_getElem hi
  unfold guestJob
  by_cases hrun : host.halted = 0
  · rw [if_neg (by rw [hs.halted]; exact not_not.mpr hrun), hd.request index hi]
    dsimp only
    rw [hd.mask index hi, hd.source index hi]
    obtain ⟨hres, hm, hblock⟩ | ⟨r, out, hres, hc⟩ := h.resolve_cases hj host.state
    · refine ⟨{ host.say (.block index (d index).source) with halted := 3 }, ?_, ?_, hok.block _⟩
      · rw [hostJob, if_neg (not_not.mpr hrun)]
        refine except_bind_eq_ok.mpr ⟨_, hres, ?_⟩
        exact except_bind_eq_ok.mpr ⟨_, h.links_eq hj, rfl⟩
      · have hbad := (hs.books.unavailable (d index).source).mpr hblock
        rw [if_pos hm, if_pos (by simpa using hbad)]
        exact hs.block index (d index).source
    · refine ⟨_, hok.hostJob_eq h hids hj hc hrun hres, ?_, hok.ran h hids hj hc hrun⟩
      have hdispatch := hs.dispatch h hids hok hrun hj hc
      by_cases hm : (d index).mask = 0
      · obtain ⟨hsource, hdest⟩ := hc.free hm
        rw [hsource, hdest, ← hs.books.active] at hdispatch
        rw [if_neg (not_not.mpr hm)]
        exact hdispatch
      · obtain ⟨saved, hp, hv, -, hsource, hdest⟩ := hc.linked hm
        have hgood := mt (hs.books.unavailable (d index).source).mp fun hbad => hbad saved hp hv
        rw [hsource, hdest, ← (hs.books.saved _ saved hp).1] at hdispatch
        rw [if_pos hm, if_neg (by simpa using hgood)]
        exact hdispatch
  · rw [if_pos (by rw [hs.halted]; exact hrun)]
    refine ⟨host, ?_, hs, hok.of_halted hrun⟩
    rw [hostJob, if_pos hrun]
    rfl

end Step

end Raveil.Chain
