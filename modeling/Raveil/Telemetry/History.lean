import Raveil.Telemetry.FailedIngest

/-! The journal over its whole history: a chain of records that ingests only ever extend. -/
namespace Raveil.Telemetry
open Raveil.Lib Raveil.Authority

variable {lib : Library}

section Chain

variable {records : List CompletionTelemetryRecord} {record : CompletionTelemetryRecord}

/-- Valid records, numbered from one, each with the hash of the one before it; no event and no binding twice. -/
structure Chained (lib : Library) (records : List CompletionTelemetryRecord) : Prop where
  valid : ∀ record ∈ records, record.validate lib = .ok ()
  sequence : ∀ (i : ℕ) record, records[i]? = some record → record.sequence = i + 1
  linked : ∀ (i : ℕ) record, records[i]? = some record → record.previousHash = lastHash (records.take i)
  events : (records.map CompletionTelemetryRecord.eventId).Nodup
  bindings : (records.map CompletionTelemetryRecord.bindingId).Nodup

/-- What a record has to be to follow the others. -/
structure Follows (lib : Library) (records : List CompletionTelemetryRecord) (record : CompletionTelemetryRecord) : Prop where
  valid : record.validate lib = .ok ()
  sequence : record.sequence = records.length + 1
  linked : record.previousHash = lastHash records
  event : record.eventId ∉ records.map CompletionTelemetryRecord.eventId
  binding : record.bindingId ∉ records.map CompletionTelemetryRecord.bindingId

theorem chained_nil : Chained lib [] where
  valid := by simp
  sequence := by simp
  linked := by simp
  events := List.nodup_nil
  bindings := List.nodup_nil

theorem Chained.snoc (h : Chained lib records) (hf : Follows lib records record) : Chained lib (records ++ [record]) := by
  -- an index of the longer list is one of the shorter, or the last
  have hindex {i : ℕ} {r : CompletionTelemetryRecord} (hi : (records ++ [record])[i]? = some r) :
      (i < records.length ∧ records[i]? = some r) ∨ (i = records.length ∧ r = record) := by
    by_cases hlt : i < records.length
    · rw [List.getElem?_append_left hlt] at hi
      exact Or.inl ⟨hlt, hi⟩
    · rw [List.getElem?_append_right (by omega)] at hi
      obtain ⟨h0, hr⟩ := List.getElem?_eq_some_iff.mp hi
      rw [List.length_singleton] at h0
      refine Or.inr ⟨by omega, ?_⟩
      rw [← hr]
      simp
  constructor
  · intro r hr
    rcases List.mem_append.mp hr with hr | hr
    · exact h.valid r hr
    · exact List.mem_singleton.mp hr ▸ hf.valid
  · intro i r hi
    obtain ⟨-, hi⟩ | ⟨rfl, rfl⟩ := hindex hi
    · exact h.sequence i r hi
    · exact hf.sequence
  · intro i r hi
    obtain ⟨hlt, hi⟩ | ⟨rfl, rfl⟩ := hindex hi
    · rw [List.take_append_of_le_length hlt.le]
      exact h.linked i r hi
    · rw [List.take_left]
      exact hf.linked
  · rw [List.map_append, List.nodup_append]
    exact ⟨h.events, List.nodup_singleton _, fun a ha b hb => by
      obtain rfl := List.mem_singleton.mp hb
      exact fun he => hf.event (he ▸ ha)⟩
  · rw [List.map_append, List.nodup_append]
    exact ⟨h.bindings, List.nodup_singleton _, fun a ha b hb => by
      obtain rfl := List.mem_singleton.mp hb
      exact fun he => hf.binding (he ▸ ha)⟩

/-- The chain without its last record, and the last record. -/
theorem Chained.unsnoc (h : Chained lib (records ++ [record])) : Chained lib records ∧ Follows lib records record := by
  have hlast : (records ++ [record])[records.length]? = some record := List.getElem?_concat_length
  have hinit {i : ℕ} {r : CompletionTelemetryRecord} (hi : records[i]? = some r) :
      i < records.length ∧ (records ++ [record])[i]? = some r := by
    have hlt := (List.getElem?_eq_some_iff.mp hi).1
    exact ⟨hlt, by rw [List.getElem?_append_left hlt, hi]⟩
  have hevents := h.events
  have hbindings := h.bindings
  rw [List.map_append, List.map_singleton, List.nodup_append] at hevents hbindings
  refine ⟨⟨fun r hr => h.valid r (List.mem_append_left _ hr), fun i r hi => h.sequence i r (hinit hi).2, ?_,
    hevents.1, hbindings.1⟩, ⟨h.valid record (by simp), h.sequence _ _ hlast, ?_, ?_, ?_⟩⟩
  · intro i r hi
    have hlinked := h.linked i r (hinit hi).2
    rwa [List.take_append_of_le_length (hinit hi).1.le] at hlinked
  · have hlinked := h.linked _ _ hlast
    rwa [List.take_left] at hlinked
  · exact fun hmem => hevents.2.2 _ hmem _ (List.mem_singleton.mpr rfl) rfl
  · exact fun hmem => hbindings.2.2 _ hmem _ (List.mem_singleton.mpr rfl) rfl

end Chain

section Loaded

variable {records records' existing additions additions' : List CompletionTelemetryRecord}

theorem fromDict_valid {fields : List (String × Command.Json)} {record : CompletionTelemetryRecord}
    (h : fromDict lib fields = .ok record) : record.validate lib = .ok () := by
  unfold fromDict at h
  obtain ⟨-, h⟩ := require_then_eq_ok.mp h
  split at h
  · -- the outputs and the other fields, which are read before the check
    iterate 22 obtain ⟨_, -, h⟩ := except_bind_eq_ok.mp h
    obtain ⟨hvalid, h⟩ := check_then_eq_ok.mp h
    cases h
    exact hvalid
  · cases h

theorem recordOfLine_valid {raw : List UInt8} {n : ℕ} {record : CompletionTelemetryRecord}
    (h : recordOfLine lib raw n = .ok record) : record.validate lib = .ok () := by
  unfold recordOfLine at h
  split at h
  · rename_i hfields
    cases h
    obtain ⟨fields, -, hdict⟩ := except_bind_eq_ok.mp hfields
    exact fromDict_valid hdict
  · cases h

theorem follows_of_loadStep {line : List UInt8 × ℕ} (hnumber : line.2 = records.length + 1)
    (h : loadStep lib records line = .ok records') : ∃ record, records' = records ++ [record] ∧ Follows lib records record := by
  unfold loadStep at h
  obtain ⟨-, h⟩ := require_then_eq_ok.mp h
  obtain ⟨record, hrecord, h⟩ := except_bind_eq_ok.mp h
  obtain ⟨⟨hsequence, hlinked, hevent, hbinding⟩, h⟩ := require_then_eq_ok.mp h
  cases h
  refine ⟨record, rfl, recordOfLine_valid hrecord, ?_, hlinked, hevent, hbinding⟩
  rw [hsequence, hnumber]
  push_cast
  rfl

/-- What a journal loads to extends what any number of its first lines load to. -/
theorem loadSteps_chained {lines : List (List UInt8)} {n : ℕ} (hn : n = existing.length + 1) (hexisting : Chained lib existing)
    (h : (lines.zipIdx n).foldlM (loadStep lib) existing = .ok records) : Chained lib records ∧ existing <+: records := by
  induction lines generalizing existing n with
  | nil =>
    cases h
    exact ⟨hexisting, List.prefix_refl _⟩
  | cons line lines ih =>
    rw [List.zipIdx_cons, List.foldlM_cons] at h
    obtain ⟨next, hnext, hrest⟩ := except_bind_eq_ok.mp h
    obtain ⟨record, rfl, hfollows⟩ := follows_of_loadStep hn hnext
    obtain ⟨hchained, hprefix⟩ := ih (by rw [List.length_append, List.length_singleton, hn]) (hexisting.snoc hfollows) hrest
    exact ⟨hchained, (List.prefix_append _ _).trans hprefix⟩

theorem loadDescriptor_chained {data : List UInt8} (h : loadDescriptor lib data = .ok records) : Chained lib records :=
  (loadSteps_chained rfl chained_nil (loadDescriptor_eq_ok.mp h).2).1

/-- The records of a journal stay at its front whatever is appended. -/
theorem loadDescriptor_append {data rest : List UInt8} (h : loadDescriptor lib data = .ok records)
    (hlater : loadDescriptor lib (data ++ rest) = .ok records') : records <+: records' := by
  obtain ⟨hdata, hload⟩ := loadDescriptor_eq_ok.mp h
  obtain ⟨-, hload'⟩ := loadDescriptor_eq_ok.mp hlater
  rw [splitLines_append hdata, List.zipIdx_append, List.foldlM_append] at hload'
  obtain ⟨first, hfirst, hrest⟩ := except_bind_eq_ok.mp hload'
  rw [hload] at hfirst
  cases hfirst
  have hlength := length_loadSteps hload
  rw [List.length_zipIdx, List.length_nil, Nat.zero_add] at hlength
  exact (loadSteps_chained (by rw [hlength, Nat.add_comm]) (loadDescriptor_chained h) hrest).2

/-- An addition follows the records that are there. -/
theorem addStep_chained {rawHash runId captured : String} {event : ParsedCompletion} (hchained : Chained lib (existing ++ additions))
    (h : addStep lib rawHash runId captured existing additions event = .ok additions') :
    Chained lib (existing ++ additions') := by
  unfold addStep at h
  by_cases hevent : eventIdOf lib rawHash event ∈ (existing ++ additions).map CompletionTelemetryRecord.eventId
  · rw [if_pos hevent] at h
    cases h
    exact hchained
  · rw [if_neg hevent] at h
    obtain ⟨hbinding, h⟩ := require_then_eq_ok.mp h
    obtain ⟨hvalid, h⟩ := check_then_eq_ok.mp h
    cases h
    rw [← List.append_assoc]
    exact hchained.snoc ⟨hvalid, rfl, rfl, hevent, hbinding⟩

theorem additionsOf_chained {rawHash runId captured : String} {events : List ParsedCompletion} (hchained : Chained lib existing)
    (h : additionsOf lib rawHash runId captured events existing = .ok additions) : Chained lib (existing ++ additions) := by
  have hsteps : ∀ start, Chained lib (existing ++ start) →
      events.foldlM (addStep lib rawHash runId captured existing) start = .ok additions → Chained lib (existing ++ additions) := by
    clear h
    induction events with
    | nil =>
      intro start hstart h
      cases h
      exact hstart
    | cons event events ih =>
      intro start hstart h
      rw [List.foldlM_cons] at h
      obtain ⟨next, hnext, hrest⟩ := except_bind_eq_ok.mp h
      exact ih next (addStep_chained hstart hnext) hrest
  exact hsteps [] (by rwa [List.append_nil]) h

end Loaded

section Commitment

variable {records records' : List CompletionTelemetryRecord} {r r' : CompletionTelemetryRecord}

theorem toDict_injective : Function.Injective CompletionOutput.toDict := by
  intro a b h
  cases a
  cases b
  simpa [CompletionOutput.toDict] using h

theorem map_toDict_inj {outputs outputs' : List CompletionOutput} :
    outputs.map CompletionOutput.toDict = outputs'.map CompletionOutput.toDict ↔ outputs = outputs' :=
  (List.map_injective_iff.mpr toDict_injective).eq_iff

/-- The payload holds everything but the hash. -/
theorem record_of_payload (h : payloadFields r = payloadFields r') (hhash : r.recordHash = r'.recordHash) : r = r' := by
  cases r
  cases r'
  simp only [payloadFields, List.cons.injEq, Prod.mk.injEq, Command.Json.int.injEq, Command.Json.str.injEq,
    Command.Json.list.injEq, map_toDict_inj, true_and, and_true] at h
  rw [CompletionTelemetryRecord.mk.injEq]
  tauto

theorem hash_of_valid (h : r.validate lib = .ok ()) :
    lib.sha256 (Command.canonical (.dict (payloadFields r))) = r.recordHash := by
  unfold CompletionTelemetryRecord.validate at h
  obtain ⟨-, h⟩ := check_then_eq_ok.mp h
  obtain ⟨-, h⟩ := require_then_eq_ok.mp h
  obtain ⟨-, h⟩ := require_then_eq_ok.mp h
  obtain ⟨-, h⟩ := check_then_eq_ok.mp h
  obtain ⟨-, h⟩ := require_then_eq_ok.mp h
  obtain ⟨-, h⟩ := check_then_eq_ok.mp h
  exact require_eq_ok.mp h

/-- Two different payloads with one digest, one on each side. -/
def Collision (lib : Library) (records records' : List CompletionTelemetryRecord) : Prop :=
  ∃ r ∈ records, ∃ r' ∈ records', payloadFields r ≠ payloadFields r' ∧
    lib.sha256 (Command.canonical (.dict (payloadFields r))) = lib.sha256 (Command.canonical (.dict (payloadFields r')))

theorem lastHash_snoc : lastHash (records ++ [r]) = r.recordHash := by
  unfold lastHash
  rw [List.getLast?_concat]
  rfl

/-- The last hash says what all the records are, as far as the digests say what is hashed. -/
theorem Chained.eq_or_collision (h : Chained lib records) (h' : Chained lib records')
    (hlength : records.length = records'.length) (hlast : lastHash records = lastHash records') :
    records = records' ∨ Collision lib records records' := by
  induction records using List.reverseRecOn generalizing records' with
  | nil => exact Or.inl (List.eq_nil_of_length_eq_zero hlength.symm).symm
  | append_singleton records r ih =>
    cases records' using List.reverseRecOn with
    | nil => simp at hlength
    | append_singleton records' r' =>
      obtain ⟨hinit, hr⟩ := h.unsnoc
      obtain ⟨hinit', hr'⟩ := h'.unsnoc
      rw [lastHash_snoc, lastHash_snoc] at hlast
      by_cases hpayload : payloadFields r = payloadFields r'
      · obtain rfl := record_of_payload hpayload hlast
        simp only [List.length_append, List.length_singleton, Nat.add_right_cancel_iff] at hlength
        rcases ih hinit hinit' hlength (hr.linked.symm.trans hr'.linked) with rfl | ⟨a, ha, b, hb, hab⟩
        · exact Or.inl rfl
        · exact Or.inr ⟨a, List.mem_append_left _ ha, b, List.mem_append_left _ hb, hab⟩
      · refine Or.inr ⟨r, by simp, r', by simp, hpayload, ?_⟩
        rw [hash_of_valid hr.valid, hash_of_valid hr'.valid, hlast]

end Commitment

section History

variable {host : Host} {journal : Option LogFile} {log : LogFile} {runId : String} {file : LogFile}
  {records additions : List CompletionTelemetryRecord}

/-- An ingest with what the host does in it. -/
structure Attempt where
  host : Host
  log : LogFile
  runId : String

/-- The journal after ingests that succeeded or failed. -/
def ingestAll (lib : Library) (attempts : List Attempt) (journal : Option LogFile) : Option LogFile :=
  attempts.foldl (fun journal attempt => (ingestQemuLog lib attempt.host journal attempt.log attempt.runId).1) journal

theorem appendPayload_appends :
    ∃ rest, (appendPayload host file additions).1 = { file with data := file.data ++ rest } := by
  have hnone : ∃ rest, file = { file with data := file.data ++ rest } := ⟨[], by rw [List.append_nil]⟩
  unfold appendPayload
  split
  · exact hnone
  · split
    · exact hnone
    · rename_i written _
      refine ⟨(payloadOf additions).take written, ?_⟩
      dsimp only
      split
      · rfl
      · split <;> rfl

/-- Whatever happens in an ingest, the bytes that were there stay at the front. -/
theorem ingest_appends : ∃ rest, opened (ingestQemuLog lib host journal log runId).1 =
    { opened journal with data := (opened journal).data ++ rest } := by
  have hnone : ∃ rest, opened journal = { opened journal with data := (opened journal).data ++ rest } :=
    ⟨[], by rw [List.append_nil]⟩
  unfold ingestQemuLog
  split
  · exact hnone
  · split
    · exact hnone
    · split
      · exact hnone
      · dsimp only
        split
        · exact hnone
        · split
          · exact hnone
          · exact appendPayload_appends

theorem ingestAll_appends (attempts : List Attempt) : ∃ rest, opened (ingestAll lib attempts journal) =
    { opened journal with data := (opened journal).data ++ rest } := by
  induction attempts generalizing journal with
  | nil => exact ⟨[], by rw [List.append_nil]; rfl⟩
  | cons attempt attempts ih =>
    obtain ⟨first, hfirst⟩ := @ingest_appends lib attempt.host journal attempt.log attempt.runId
    obtain ⟨rest, hrest⟩ := @ih (ingestQemuLog lib attempt.host journal attempt.log attempt.runId).1
    refine ⟨first ++ rest, ?_⟩
    rw [hfirst] at hrest
    change opened (ingestAll lib attempts _) = _
    rw [hrest, List.append_assoc]

theorem load_chained (h : load lib journal = .ok records) : Chained lib records :=
  loadDescriptor_chained (opened_ok h).2

/-- No sequence of ingests changes or drops a record. -/
theorem ingestAll_prefix {attempts : List Attempt} {later : List CompletionTelemetryRecord} (h : load lib journal = .ok records)
    (hlater : load lib (ingestAll lib attempts journal) = .ok later) : records <+: later := by
  obtain ⟨rest, hrest⟩ := @ingestAll_appends lib journal attempts
  have hdata := (opened_ok hlater).2
  rw [hrest] at hdata
  exact loadDescriptor_append (opened_ok h).2 hdata

theorem appendPayload_ok {n : ℕ} (h : (appendPayload host file additions).2 = .ok n) :
    additions.length = n ∧ (appendPayload host file additions).1 = { file with data := file.data ++ payloadOf additions } := by
  unfold appendPayload at h ⊢
  by_cases hnil : additions = []
  · subst hnil
    rw [if_pos rfl] at h ⊢
    cases h
    exact ⟨rfl, by simp [payloadOf]⟩
  · rw [if_neg hnil] at h ⊢
    cases hw : host.write with
    | none =>
      rw [hw] at h
      cases h
    | some written =>
      rw [hw] at h
      dsimp only at h ⊢
      by_cases hshort : written < (payloadOf additions).length
      · rw [if_pos hshort] at h
        cases h
      · rw [if_neg hshort] at h ⊢
        rw [List.take_of_length_le (Nat.le_of_not_lt hshort)]
        cases hf : host.fsync with
        | false =>
          rw [hf] at h
          cases h
        | true =>
          rw [hf] at h
          cases h
          exact ⟨rfl, rfl⟩

/-- A successful ingest appends the lines of so many records that follow the others. -/
theorem ingest_ok {n : ℕ} (h : load lib journal = .ok records)
    (hok : (ingestQemuLog lib host journal log runId).2 = .ok n) :
    ∃ additions, additions.length = n ∧ Chained lib (records ++ additions) ∧
      opened (ingestQemuLog lib host journal log runId).1 =
        { opened journal with data := (opened journal).data ++ payloadOf additions } := by
  obtain ⟨error, -, herror, -⟩ | ⟨additions, hpending, hingest⟩ :=
    @ingest_cases lib host journal log runId records h
  · rw [herror] at hok
    cases hok
  · rw [hingest] at hok ⊢
    obtain ⟨hlength, hdata⟩ := appendPayload_ok hok
    refine ⟨additions, hlength, ?_, hdata⟩
    unfold pending at hpending
    obtain ⟨-, hpending⟩ := require_then_eq_ok.mp hpending
    obtain ⟨parsed, -, hpending⟩ := except_bind_eq_ok.mp hpending
    obtain ⟨-, hpending⟩ := require_then_eq_ok.mp hpending
    rw [load_opened, h] at hpending
    exact additionsOf_chained (load_chained h) hpending

theorem additionsOf_known {rawHash captured : String} {events : List ParsedCompletion}
    (hknown : ∀ event ∈ events, eventIdOf lib rawHash event ∈ records.map CompletionTelemetryRecord.eventId) :
    additionsOf lib rawHash runId captured events records = .ok [] := by
  unfold additionsOf
  induction events with
  | nil => rfl
  | cons event events ih =>
    rw [List.forall_mem_cons] at hknown
    have hstep : addStep lib rawHash runId captured records [] event = .ok [] := by
      unfold addStep
      rw [List.append_nil]
      exact if_pos hknown.1
    rw [List.foldlM_cons, hstep]
    exact ih hknown.2

/-- A log whose events are all in the journal adds nothing. -/
theorem ingest_known {rawHash : String} {events : List ParsedCompletion} (h : load lib journal = .ok records)
    (hrun : boundedToken lib runId 128 = true) (hparse : parseQemuLog lib.sha256 log = .ok (rawHash, events))
    (hparent : host.parent = true)
    (hknown : ∀ event ∈ events, eventIdOf lib rawHash event ∈ records.map CompletionTelemetryRecord.eventId) :
    ingestQemuLog lib host journal log runId = (some (opened journal), .ok 0) := by
  have hpending : pending lib host journal log runId = .ok [] := by
    unfold pending
    rw [hparse, load_opened, h]
    exact require_then_eq_ok.mpr ⟨hrun, require_then_eq_ok.mpr ⟨hparent, additionsOf_known hknown⟩⟩
  obtain ⟨error, herror, -⟩ | ⟨additions, hadditions, hingest⟩ :=
    @ingest_cases lib host journal log runId records h
  · rw [hpending] at herror
    cases herror
  · rw [hpending] at hadditions
    cases hadditions
    rw [hingest]
    rfl

/-- A journal that loads is a chain of records; ingests only ever extend it, whether they succeed or fail, and one whose
events are all known leaves it as it is; a chain of the same length with the same last hash is the same, or two payloads
collide. -/
theorem journal_history (h : load lib journal = .ok records) :
    Chained lib records ∧
    (∀ (attempts : List Attempt) (later : List CompletionTelemetryRecord),
      load lib (ingestAll lib attempts journal) = .ok later → records <+: later) ∧
    (∀ (host : Host) (log : LogFile) (runId : String) (n : ℕ), (ingestQemuLog lib host journal log runId).2 = .ok n →
      ∃ additions, additions.length = n ∧ Chained lib (records ++ additions) ∧
        opened (ingestQemuLog lib host journal log runId).1 =
          { opened journal with data := (opened journal).data ++ payloadOf additions }) ∧
    (∀ (host : Host) (log : LogFile) (runId rawHash : String) (events : List ParsedCompletion), boundedToken lib runId 128 = true →
      parseQemuLog lib.sha256 log = .ok (rawHash, events) → host.parent = true →
      (∀ event ∈ events, eventIdOf lib rawHash event ∈ records.map CompletionTelemetryRecord.eventId) →
        ingestQemuLog lib host journal log runId = (some (opened journal), .ok 0)) ∧
    (∀ journal' records', load lib journal' = .ok records' → records.length = records'.length →
      lastHash records = lastHash records' → records = records' ∨ Collision lib records records') := by
  refine ⟨load_chained h, ?_, ?_, ?_, ?_⟩
  · exact fun attempts later hlater => ingestAll_prefix h hlater
  · exact fun host log runId n hok => ingest_ok h hok
  · exact fun host log runId rawHash events hrun hparse hparent hknown => ingest_known h hrun hparse hparent hknown
  · exact fun journal' records' h' hlength hlast => (load_chained h).eq_or_collision (load_chained h') hlength hlast

/-- A journal with a record: a second frame is written whole and follows it, and the first log changes nothing. -/
theorem journal_history_firstJournal : ∃ host additions,
    (ingestQemuLog journalLibrary host (some firstJournal) (frameLog threeOutputsCompletion 37) "run-2").2 = .ok 1 ∧
    additions.length = 1 ∧ Chained journalLibrary ([firstRecord] ++ additions) ∧
    ingestQemuLog journalLibrary host (some firstJournal) (frameLog oneByteCompletion 37) "run-1" =
      (some firstJournal, .ok 0) := by
  obtain ⟨record, hrecord⟩ := pending_secondRecord
  let host : Host := { shortHost with write := some (payloadOf [record]).length }
  have hpending : pending journalLibrary host (some firstJournal) (frameLog threeOutputsCompletion 37) "run-2" =
      .ok [record] := hrecord
  have hok : (ingestQemuLog journalLibrary host (some firstJournal) (frameLog threeOutputsCompletion 37) "run-2").2 =
      .ok 1 := by
    obtain ⟨error, herror, -⟩ | ⟨additions, hadditions, hingest⟩ :=
      @ingest_cases journalLibrary host (some firstJournal) (frameLog threeOutputsCompletion 37) "run-2" [firstRecord]
        load_firstJournal
    · rw [hpending] at herror
      cases herror
    · rw [hpending] at hadditions
      cases hadditions
      rw [hingest]
      unfold appendPayload
      simp [host, shortHost]
  obtain ⟨-, -, hsuccess, hknown, -⟩ := journal_history load_firstJournal
  obtain ⟨additions, hlength, hchained, -⟩ := hsuccess host (frameLog threeOutputsCompletion 37) "run-2" 1 hok
  have hevents : ∀ event ∈ [eventOf oneByteCompletion 37 1],
      eventIdOf journalLibrary (journalLibrary.sha256 (frameLog oneByteCompletion 37).data) event ∈
        [firstRecord].map CompletionTelemetryRecord.eventId := by
    intro event hevent
    rw [List.mem_singleton.mp hevent]
    exact List.mem_singleton_self _
  have hparse := @parse_frameLog journalLibrary _ _ 37 oneByteCompletion_words oneByteCompletion_valid (by decide)
  exact ⟨host, additions, hok, hlength, hchained,
    hknown host (frameLog oneByteCompletion 37) "run-1" _ _ (by decide) hparse rfl hevents⟩

end History

end Raveil.Telemetry
