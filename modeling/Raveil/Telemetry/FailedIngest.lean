import Raveil.Telemetry.Journal
import Raveil.Telemetry.FrameRoundTrip

/-! The records that an ingest builds, and what a failed ingest leaves in the journal. -/
namespace Raveil.Telemetry
open Raveil.Lib Raveil.Authority

variable {lib : Library}

section Digest

theorem isDigest_hexdigest (data : List UInt8) : isDigest (Command.hexdigest data) = true := by
  unfold isDigest Command.hexdigest
  rw [Bool.and_eq_true]
  constructor
  · simp
  · rw [String.toList_ofList, List.all_eq_true]
    intro c hc
    obtain ⟨b, -, hb⟩ := List.mem_flatMap.mp hc
    have := b.toNat_lt
    rcases List.mem_cons.mp hb with rfl | hb
    · exact isLowerHex_hexDigit (by omega)
    · obtain rfl := List.mem_singleton.mp hb
      exact isLowerHex_hexDigit (by omega)

theorem isDigest_zero : isDigest ZERO_HASH = true := by decide

end Digest

section Events

/-- The cookie that stands for a checked one. -/
def placeholder : List Char := '1' :: List.replicate 31 '0'

theorem placeholder_ok : placeholder.length = 32 ∧ placeholder ≠ List.replicate 32 '0' ∧
    placeholder.all isLowerHex = true := by decide

/-- The check of an event does not depend on which cookie it has. -/
theorem validate_placeholder {event : ParsedCompletion} (h : event.validate = .ok ()) :
    ParsedCompletion.validate { event with cookie := placeholder } = .ok () := by
  unfold ParsedCompletion.validate at h ⊢
  obtain ⟨hcounters, h⟩ := require_then_eq_ok.mp h
  obtain ⟨-, h⟩ := require_then_eq_ok.mp h
  exact require_then_eq_ok.mpr ⟨hcounters, require_then_eq_ok.mpr ⟨placeholder_ok, h⟩⟩

theorem one_le_rawLine {event : ParsedCompletion} (h : event.validate = .ok ()) : 1 ≤ event.rawLine := by
  unfold ParsedCompletion.validate at h
  obtain ⟨hcounters, -⟩ := require_then_eq_ok.mp h
  omega

end Events

/-- What the library guarantees: digests are 64 lowercase hexadecimal digits. -/
def Digests (lib : Library) : Prop := ∀ data, isDigest (lib.sha256 data) = true

theorem newRecord_valid (hsha : Digests lib) {rawHash runId captured : String}
    {records : List CompletionTelemetryRecord} {event : ParsedCompletion}
    (hraw : isDigest rawHash = true) (hrun : boundedToken lib runId 128 = true)
    (hcaptured : parseUtc lib captured = .ok ()) (hlast : isDigest (lastHash records) = true)
    (hevent : event.validate = .ok ()) (hline : event.rawLine ≤ UINT64_MAX)
    (hlength : records.length + 1 ≤ UINT64_MAX) :
    (newRecord lib rawHash runId captured records event).validate lib = .ok () := by
  have hpos := one_le_rawLine hevent
  unfold CompletionTelemetryRecord.validate
  refine check_then_eq_ok.mpr ⟨rfl, require_then_eq_ok.mpr ⟨⟨rfl, rfl, rfl, rfl, rfl⟩,
    require_then_eq_ok.mpr ⟨⟨?_, ?_, hpos, hline, hrun⟩, check_then_eq_ok.mpr ⟨hcaptured,
      require_then_eq_ok.mpr ⟨?_, check_then_eq_ok.mpr ⟨validate_placeholder hevent, require_of rfl⟩⟩⟩⟩⟩⟩
  · change (1 : ℤ) ≤ (records.length : ℤ) + 1
    omega
  · change ((records.length : ℤ) + 1) ≤ UINT64_MAX
    omega
  · simp only [List.forall_mem_cons, List.not_mem_nil, false_implies, implies_true, and_true]
    exact ⟨hraw, hsha _, hsha _, hsha _, hlast, hsha _⟩

/-- An object is written with its braces. -/
theorem canonical_ne_nil (fields : List (String × Command.Json)) : Command.canonical (.dict fields) ≠ [] := by
  unfold Command.canonical
  rw [Command.Json.dumps]
  simp

section Load

/-- Bytes after a complete line start a line of their own. -/
theorem splitLines_append {data : List UInt8} (h : data = [] ∨ data.getLast? = some 10) (rest : List UInt8) :
    splitLines [] (data ++ rest) = splitLines [] data ++ splitLines [] rest := by
  obtain rfl | hlast := h
  · rfl
  · obtain ⟨pre, rfl⟩ := List.getLast?_eq_some_iff.mp hlast
    rw [List.append_assoc, List.singleton_append, splitLines_break]

theorem loadDescriptor_eq_ok {data : List UInt8} {records : List CompletionTelemetryRecord} :
    loadDescriptor lib data = .ok records ↔ (data = [] ∨ data.getLast? = some 10) ∧
      ((splitLines [] data).zipIdx 1).foldlM (loadStep lib) [] = .ok records := by
  unfold loadDescriptor
  exact require_then_eq_ok

/-- One line is one record. -/
theorem length_loadSteps {lines : List (List UInt8 × ℕ)} {start records : List CompletionTelemetryRecord}
    (h : lines.foldlM (loadStep lib) start = .ok records) : records.length = start.length + lines.length := by
  induction lines generalizing start with
  | nil =>
    cases h
    rfl
  | cons line lines ih =>
    rw [List.foldlM_cons] at h
    obtain ⟨mid, hmid, hrest⟩ := except_bind_eq_ok.mp h
    unfold loadStep at hmid
    obtain ⟨-, hmid⟩ := require_then_eq_ok.mp hmid
    obtain ⟨record, -, hmid⟩ := except_bind_eq_ok.mp hmid
    obtain ⟨-, hmid⟩ := require_then_eq_ok.mp hmid
    cases hmid
    have := ih hrest
    simp only [List.length_append, List.length_cons, List.length_nil] at this ⊢
    omega

/-- Whatever is appended to a journal that loads, the old records are not what loads afterwards. -/
theorem load_append_ne {data rest : List UInt8} {records : List CompletionTelemetryRecord}
    (h : loadDescriptor lib data = .ok records) (hrest : rest ≠ []) :
    loadDescriptor lib (data ++ rest) ≠ .ok records := by
  intro hnew
  obtain ⟨hdata, hold⟩ := loadDescriptor_eq_ok.mp h
  obtain ⟨-, hload⟩ := loadDescriptor_eq_ok.mp hnew
  have hlength := length_loadSteps hload
  rw [length_loadSteps hold, splitLines_append hdata] at hlength
  have hpos := List.length_pos_of_ne_nil (splitLines_ne_nil hrest [])
  simp only [List.length_zipIdx, List.length_append, List.length_nil] at hlength
  omega

end Load

section ReadBack

open Raveil.Command (Json canonical quoteText length_quoteText_le length_dumps_dict_le length_dumps_list_le)

variable {r : CompletionTelemetryRecord} {records : List CompletionTelemetryRecord}

/-- An output as it stands in the text of a record, with its keys in order. -/
def CompletionOutput.stored (output : CompletionOutput) : Json :=
  .dict [("generation", .int output.generation), ("object_id", .int output.objectId), ("version", .int output.version)]

/-- The pairs of a record as they stand in its line, with their keys in order. -/
def storedFields (r : CompletionTelemetryRecord) : List (String × Json) :=
  [("backend", .str r.backend), ("binding_id", .str r.bindingId), ("captured_at_utc", .str r.capturedAtUtc),
    ("cookie_sha256", .str r.cookieSha256), ("event_id", .str r.eventId), ("evidence_class", .str r.evidenceClass),
    ("execution_epoch", .int r.executionEpoch), ("execution_sequence", .int r.executionSequence), ("job_id", .int r.jobId),
    ("observed_detail", .int r.observedDetail),
    ("observed_outputs", .list (r.observedOutputs.map CompletionOutput.stored)),
    ("observed_smoke_path_ticks", .int r.observedSmokePathTicks), ("observed_status", .int r.observedStatus),
    ("platform", .str r.platform), ("previous_hash", .str r.previousHash), ("raw_line", .int r.rawLine),
    ("raw_log_sha256", .str r.rawLogSha256), ("record_hash", .str r.recordHash), ("run_id", .str r.runId),
    ("schema", .str r.schema), ("sequence", .int r.sequence), ("source", .str r.source)]

theorem distinctKeys_stored (r : CompletionTelemetryRecord) : distinctKeys (.dict (storedFields r)) = true := by
  have houtput (output : CompletionOutput) : distinctKeys output.stored = true := by
    simp [CompletionOutput.stored, distinctKeys]
  simp [storedFields, distinctKeys, houtput]

theorem outputOfDict_stored (output : CompletionOutput) : outputOfDict output.stored = .ok output := by
  simp [outputOfDict, CompletionOutput.stored, exactKeys, outputFields, Command.item, exactInt, require, bind, Except.bind]

/-- A stored record is read back from its line. -/
theorem recordOfLine_stored {raw : List UInt8} (n : ℕ) (hraw : lib.loads raw = .ok (.dict (storedFields r)))
    (hvalid : r.validate lib = .ok ()) : recordOfLine lib raw n = .ok r := by
  have hkeys : exactKeys (storedFields r) recordFields = true := by simp [exactKeys, storedFields, recordFields]
  have houtputs : (r.observedOutputs.map CompletionOutput.stored).mapM outputOfDict = .ok r.observedOutputs :=
    mapM_encode fun output _ => outputOfDict_stored output
  have hfields : fromDict lib (storedFields r) = .ok r := by
    unfold fromDict
    rw [require_of hkeys]
    simp [storedFields, Command.item, exactStr, exactInt, houtputs, hvalid, bind, Except.bind]
  unfold recordOfLine strictJson
  rw [hraw]
  simp [distinctKeys_stored, hfields, require, bind, Except.bind]

theorem length_str_le (s : String) : (Json.str s).dumps.length ≤ 12 * s.length + 2 := by
  rw [Json.dumps]
  exact length_quoteText_le s

theorem length_int_le {n : ℤ} (h : 0 ≤ n ∧ n ≤ UINT64_MAX) : (Json.int n).dumps.length ≤ 20 := by
  obtain ⟨n, rfl⟩ := Int.eq_ofNat_of_zero_le h.1
  rw [Json.dumps]
  change (Nat.repr n).length ≤ 20
  rw [Nat.length_repr_le_iff (by decide)]
  have := h.2
  simp only [UINT64_MAX] at this
  omega

theorem outputs_valid {outputs : List CompletionOutput} {pairs pairs' : List (ℤ × ℤ)}
    (h : outputs.foldlM validateOutput pairs = .ok pairs') : ∀ output ∈ outputs, output.validate = .ok () := by
  induction outputs generalizing pairs with
  | nil => simp
  | cons output outputs ih =>
    rw [List.foldlM_cons] at h
    obtain ⟨next, hnext, h⟩ := except_bind_eq_ok.mp h
    unfold validateOutput at hnext
    obtain ⟨hvalid, -⟩ := check_then_eq_ok.mp hnext
    exact List.forall_mem_cons.mpr ⟨hvalid, ih h⟩

theorem length_output_le {output : CompletionOutput} (h : output.validate = .ok ()) :
    output.toDict.dumps.length ≤ 103 := by
  have hbounds := require_eq_ok.mp h
  have h1 := length_int_le (n := output.objectId) (by omega)
  have h2 := length_int_le (n := output.generation) (by omega)
  have h3 := length_int_le (n := output.version) (by omega)
  refine (length_dumps_dict_le _).trans ?_
  have hkeys : (quoteText "object_id").length = 11 ∧ (quoteText "generation").length = 12 ∧
      (quoteText "version").length = 9 := by decide
  simp only [List.map_cons, List.map_nil, List.sum_cons, List.sum_nil, hkeys]
  omega

theorem length_digest_le {digest : String} (h : isDigest digest = true) : (Json.str digest).dumps.length ≤ 770 := by
  have hle := length_str_le digest
  unfold isDigest at h
  simp only [Bool.and_eq_true, decide_eq_true_eq] at h
  omega

/-- The line of a record that is valid is not too long for the loader. -/
theorem length_line_le (h : r.validate lib = .ok ()) : (canonical (toDict r)).length ≤ 16384 := by
  unfold CompletionTelemetryRecord.validate at h
  obtain ⟨-, h⟩ := check_then_eq_ok.mp h
  obtain ⟨⟨hschema, hsource, hbackend, hclass, hplatform⟩, h⟩ := require_then_eq_ok.mp h
  obtain ⟨⟨hseq, hseq', hline, hline', hrun⟩, h⟩ := require_then_eq_ok.mp h
  obtain ⟨hutc, h⟩ := check_then_eq_ok.mp h
  obtain ⟨hdigests, h⟩ := require_then_eq_ok.mp h
  obtain ⟨hparsed, -⟩ := check_then_eq_ok.mp h
  unfold ParsedCompletion.validate at hparsed
  obtain ⟨hcounters, hparsed⟩ := require_then_eq_ok.mp hparsed
  obtain ⟨-, hparsed⟩ := require_then_eq_ok.mp hparsed
  obtain ⟨hdetail, hparsed⟩ := require_then_eq_ok.mp hparsed
  obtain ⟨⟨houtputs, -⟩, hparsed⟩ := require_then_eq_ok.mp hparsed
  obtain ⟨pairs, hpairs, -⟩ := except_bind_eq_ok.mp hparsed
  simp only [CompletionTelemetryRecord.parsed, le_min_iff, max_le_iff] at hcounters hdetail houtputs hpairs
  obtain ⟨⟨⟨hjob, hepoch, hsequence, hticks⟩, -⟩, hjob', hepoch', hsequence', hticks'⟩ := hcounters
  have hpositive : ∀ {n : ℤ}, 1 ≤ n → 0 ≤ n := fun hn => zero_le_one.trans hn
  obtain ⟨hutc, -⟩ := require_then_eq_ok.mp hutc
  have hrunlen : r.runId.length ≤ 128 := by
    simp only [boundedToken, Bool.and_eq_true, decide_eq_true_eq] at hrun
    exact hrun.1.2
  have hstatus : (0 ≤ r.observedStatus ∧ r.observedStatus ≤ UINT64_MAX) ∧
      (0 ≤ r.observedDetail ∧ r.observedDetail ≤ UINT64_MAX) := by
    unfold expectedDetail at hdetail
    simp only [UINT64_MAX]
    split_ifs at hdetail <;> grind
  have hkeys : ((payloadFields r ++ [("record_hash", Json.str r.recordHash)]).map fun field =>
      (quoteText field.1).length).sum ≤ 400 := by
    change (List.map (fun key => (quoteText key).length) ["sequence", "run_id", "captured_at_utc", "raw_log_sha256",
      "raw_line", "event_id", "binding_id", "job_id", "execution_epoch", "execution_sequence", "cookie_sha256",
      "observed_status", "observed_detail", "observed_smoke_path_ticks", "observed_outputs", "previous_hash", "schema",
      "source", "backend", "evidence_class", "platform", "record_hash"]).sum ≤ 400
    decide
  have hdigest : ∀ digest ∈ [r.rawLogSha256, r.eventId, r.bindingId, r.cookieSha256, r.previousHash, r.recordHash],
      (Json.str digest).dumps.length ≤ 770 := fun digest hmem => length_digest_le (hdigests digest hmem)
  simp only [List.forall_mem_cons] at hdigest
  obtain ⟨hd1, hd2, hd3, hd4, hd5, hd6, -⟩ := hdigest
  have hlist : (Json.list (r.observedOutputs.map CompletionOutput.toDict)).dumps.length ≤ 418 := by
    refine (length_dumps_list_le _).trans ?_
    have hall : ∀ x ∈ (r.observedOutputs.map CompletionOutput.toDict).map (fun item => item.dumps.length + 1), x ≤ 104 := by
      intro x hx
      rw [List.map_map] at hx
      obtain ⟨output, houtput, rfl⟩ := List.mem_map.mp hx
      exact Nat.succ_le_succ (length_output_le (outputs_valid hpairs output houtput))
    have hsum := List.sum_le_card_nsmul _ 104 hall
    simp only [List.length_map, smul_eq_mul] at hsum
    omega
  have hnames : ∀ name ∈ [r.schema, r.source, r.backend, r.evidenceClass, r.platform], (Json.str name).dumps.length ≤ 100 := by
    rw [hschema, hsource, hbackend, hclass, hplatform]
    simp only [Json.dumps]
    decide
  simp only [List.forall_mem_cons] at hnames
  obtain ⟨hn1, hn2, hn3, hn4, hn5, -⟩ := hnames
  have hrunid := length_str_le r.runId
  have hcaptured := length_str_le r.capturedAtUtc
  have h1 := length_int_le ⟨hpositive hseq, hseq'⟩
  have h2 := length_int_le ⟨hpositive hline, hline'⟩
  have h3 := length_int_le ⟨hpositive hjob, hjob'⟩
  have h4 := length_int_le ⟨hpositive hepoch, hepoch'⟩
  have h5 := length_int_le ⟨hpositive hsequence, hsequence'⟩
  have h6 := length_int_le ⟨hpositive hticks, hticks'⟩
  have h7 := length_int_le hstatus.1
  have h8 := length_int_le hstatus.2
  have hvalues : ((payloadFields r ++ [("record_hash", Json.str r.recordHash)]).map fun field =>
      field.2.dumps.length).sum ≤ 9000 := by
    simp only [payloadFields, List.cons_append, List.nil_append, List.map_cons, List.map_nil, List.sum_cons, List.sum_nil]
    linarith only [hd1, hd2, hd3, hd4, hd5, hd6, hlist, hn1, hn2, hn3, hn4, hn5, hrunid, hrunlen, hcaptured, hutc.1,
      h1, h2, h3, h4, h5, h6, h7, h8]
  have hbytes : (canonical (toDict r)).length = (toDict r).dumps.length := by
    rw [canonical, List.length_map, String.length_toList]
  have hcount : (payloadFields r ++ [("record_hash", Json.str r.recordHash)]).length = 22 := rfl
  have hparts := length_dumps_dict_le (payloadFields r ++ [("record_hash", .str r.recordHash)])
  rw [List.sum_map_add, List.sum_map_add, List.map_const', List.sum_replicate, hcount] at hparts
  rw [hbytes]
  exact hparts.trans (by simp only [smul_eq_mul]; linarith only [hkeys, hvalues])

theorem splitLines_line {line : List UInt8} (h : ∀ b ∈ line, b ≠ 10 ∧ b ≠ 13) (start : List UInt8) :
    splitLines start (line ++ [10]) = [start ++ line] := by
  induction line generalizing start with
  | nil => simp [splitLines]
  | cons b line ih =>
    rw [List.forall_mem_cons] at h
    obtain ⟨⟨h10, h13⟩, htail⟩ := h
    rw [List.cons_append, splitLines_cons fun hb => absurd hb h13, if_neg (by simp [h10, h13]), ih htail,
      List.append_assoc, List.singleton_append]

/-- The line of a record that follows the others is read back. -/
theorem loadStep_line {n : ℕ} (hloads : lib.loads (canonical (toDict r)) = .ok (.dict (storedFields r)))
    (hvalid : r.validate lib = .ok ())
    (hlinked : r.sequence = n ∧ r.previousHash = lastHash records ∧
      r.eventId ∉ records.map CompletionTelemetryRecord.eventId ∧
      r.bindingId ∉ records.map CompletionTelemetryRecord.bindingId) :
    loadStep lib records (canonical (toDict r), n) = .ok (records ++ [r]) := by
  unfold loadStep
  refine require_then_eq_ok.mpr ⟨⟨canonical_ne_nil _, length_line_le hvalid⟩, ?_⟩
  dsimp only
  rw [recordOfLine_stored n hloads hvalid]
  exact require_then_eq_ok.mpr ⟨hlinked, rfl⟩

/-- The journal of one record loads as that record. -/
theorem loadDescriptor_payload (hloads : lib.loads (canonical (toDict r)) = .ok (.dict (storedFields r)))
    (hvalid : r.validate lib = .ok ()) (hsequence : r.sequence = 1) (hprevious : r.previousHash = ZERO_HASH) :
    loadDescriptor lib (payloadOf [r]) = .ok [r] := by
  have hdata : payloadOf [r] = canonical (toDict r) ++ [10] := by
    unfold payloadOf
    rw [List.flatMap_cons, List.flatMap_nil, List.append_nil]
  rw [loadDescriptor_eq_ok, hdata]
  refine ⟨Or.inr List.getLast?_concat, ?_⟩
  rw [splitLines_line (Command.canonical_printable _)]
  have hstep := @loadStep_line lib r [] 1 hloads hvalid ⟨hsequence, hprevious, List.not_mem_nil, List.not_mem_nil⟩
  rw [List.nil_append] at hstep ⊢
  change ([(canonical (toDict r), 1)] : List (List UInt8 × ℕ)).foldlM (loadStep lib) [] = _
  rw [List.foldlM_cons, hstep]
  rfl

end ReadBack

section Write

/-- The journal gets the whole payload durably, or none of it. -/
def AllOrNothing (host : Host) (payload : List UInt8) : Prop :=
  host.write = none ∨ host.write = some 0 ∨
    ∃ written, host.write = some written ∧ payload.length ≤ written ∧ host.fsync = true

theorem payloadOf_ne_nil {additions : List CompletionTelemetryRecord} (h : additions ≠ []) :
    payloadOf additions ≠ [] := by
  cases additions with
  | nil => exact absurd rfl h
  | cons record additions => simp [payloadOf]

/-- The append keeps what loads, or succeeds, exactly if it is all or nothing. -/
theorem appendPayload_iff (host : Host) {file : LogFile} {additions records : List CompletionTelemetryRecord}
    (hfile : file.regular = true ∧ file.links = 1) (hload : loadDescriptor lib file.data = .ok records)
    (hne : additions ≠ []) :
    ((∃ error, (appendPayload host file additions).2 = .error error) →
      load lib (appendPayload host file additions).1 = .ok records) ↔
    AllOrNothing host (payloadOf additions) := by
  have hkeep : load lib (some file) = .ok records := require_then_eq_ok.mpr ⟨hfile, hload⟩
  unfold appendPayload AllOrNothing
  rw [if_neg hne]
  cases hw : host.write with
  | none => simp [hkeep]
  | some written =>
    dsimp only
    -- Once a byte is appended the old records do not load, so the call must not fail.
    have hpart : written ≠ 0 → load lib (some { file with
        data := file.data ++ (payloadOf additions).take written }) ≠ .ok records := by
      intro hpos he
      obtain ⟨-, hnew⟩ := require_then_eq_ok.mp he
      refine load_append_ne hload ?_ hnew
      simpa [List.take_eq_nil_iff, hpos] using payloadOf_ne_nil hne
    by_cases hzero : written = 0
    · subst hzero
      have hlen := List.length_pos_of_ne_nil (payloadOf_ne_nil hne)
      rw [if_pos hlen]
      simpa using hkeep
    · by_cases hshort : written < (payloadOf additions).length
      · rw [if_pos hshort]
        constructor
        · exact fun h => absurd (h ⟨_, rfl⟩) (hpart hzero)
        · rintro (h | h | ⟨_, h, hle, -⟩)
          · cases h
          · exact absurd (Option.some.inj h) hzero
          · obtain rfl := Option.some.inj h
            omega
      · rw [if_neg hshort]
        cases hf : host.fsync with
        | false =>
          constructor
          · exact fun h => absurd (h ⟨_, rfl⟩) (hpart hzero)
          · rintro (h | h | ⟨_, -, -, h⟩)
            · cases h
            · exact absurd (Option.some.inj h) hzero
            · cases h
        | true =>
          constructor
          · exact fun _ => Or.inr (Or.inr ⟨written, rfl, by omega, rfl⟩)
          · rintro - ⟨error, h⟩
            cases h

end Write

/-- The journal before the append. -/
def opened (journal : Option LogFile) : LogFile := journal.getD ⟨true, 1, []⟩

/-- What an ingest is about to append, once every check before the write has passed. -/
def pending (lib : Library) (host : Host) (journal : Option LogFile) (log : LogFile) (runId : String) :
    Except String (List CompletionTelemetryRecord) := do
  require (boundedToken lib runId 128 = true) "run_id is invalid"
  let (rawHash, events) ← parseQemuLog lib.sha256 log
  require (host.parent = true) "telemetry store parent must be a real directory"
  let existing ← load lib (some (opened journal))
  additionsOf lib rawHash runId host.captured events existing

section Ingest

variable {host : Host} {journal : Option LogFile} {log : LogFile} {runId : String}
  {records : List CompletionTelemetryRecord}

theorem load_opened : load lib (some (opened journal)) = load lib journal := by
  cases journal <;> rfl

theorem opened_ok (h : load lib journal = .ok records) :
    ((opened journal).regular = true ∧ (opened journal).links = 1) ∧
      loadDescriptor lib (opened journal).data = .ok records := by
  rw [← load_opened] at h
  exact require_then_eq_ok.mp h

/-- An ingest fails before the write and leaves the records, or appends what is pending. -/
theorem ingest_cases (h : load lib journal = .ok records) :
    (∃ error, pending lib host journal log runId = .error error ∧
      (ingestQemuLog lib host journal log runId).2 = .error error ∧
      load lib (ingestQemuLog lib host journal log runId).1 = .ok records) ∨
    ∃ additions, pending lib host journal log runId = .ok additions ∧
      ingestQemuLog lib host journal log runId =
        (some (appendPayload host (opened journal) additions).1,
          (appendPayload host (opened journal) additions).2) := by
  have hopen : load lib (some (opened journal)) = .ok records := by rw [load_opened, h]
  obtain ⟨hfile, hdata⟩ := opened_ok h
  unfold pending ingestQemuLog
  cases htoken : boundedToken lib runId 128 with
  | false => exact Or.inl ⟨_, rfl, rfl, h⟩
  | true =>
    cases hparse : parseQemuLog lib.sha256 log with
    | error error => exact Or.inl ⟨error, rfl, rfl, h⟩
    | ok parsed =>
      obtain ⟨rawHash, events⟩ := parsed
      cases hparent : host.parent with
      | false => exact Or.inl ⟨_, rfl, rfl, h⟩
      | true =>
        change (∃ error, (load lib (some (opened journal)) >>= additionsOf lib rawHash runId host.captured
          events) = .error error ∧ _) ∨ ∃ additions, (load lib (some (opened journal)) >>= additionsOf lib
            rawHash runId host.captured events) = .ok additions ∧ _
        have hnot : ¬ ¬ ((opened journal).regular = true ∧ (opened journal).links = 1) := not_not.mpr hfile
        have hjournal : journal.getD ⟨true, 1, []⟩ = opened journal := rfl
        simp only [Bool.not_true, Bool.false_eq_true, if_false, hjournal, if_neg hnot, hopen, hdata]
        cases hadd : (Except.ok records >>= additionsOf lib rawHash runId host.captured events) with
        | error error => exact Or.inl ⟨error, rfl, rfl, hopen⟩
        | ok additions => exact Or.inr ⟨additions, rfl, rfl⟩

/-- A failed ingest leaves the journal as it was exactly if its append, when it gets there, is all or
nothing. -/
theorem failed_ingest_keeps (h : load lib journal = .ok records) :
    ((∃ error, (ingestQemuLog lib host journal log runId).2 = .error error) →
      load lib (ingestQemuLog lib host journal log runId).1 = .ok records) ↔
    ∀ additions, pending lib host journal log runId = .ok additions → additions ≠ [] →
      AllOrNothing host (payloadOf additions) := by
  obtain ⟨hfile, hdata⟩ := opened_ok h
  obtain ⟨error, hpending, -, hkeep⟩ | ⟨additions, hpending, hingest⟩ :=
    @ingest_cases lib host journal log runId records h
  · constructor
    · intro _ additions hok
      rw [hpending] at hok
      cases hok
    · exact fun _ _ => hkeep
  · rw [hingest]
    by_cases hne : additions = []
    · subst hne
      constructor
      · intro _ additions hok hne
        rw [hpending] at hok
        cases hok
        exact absurd rfl hne
      · rintro - ⟨error, he⟩
        cases he
    · rw [appendPayload_iff host hfile hdata hne]
      constructor
      · intro hall additions' hok _
        rw [hpending] at hok
        cases hok
        exact hall
      · exact fun hall => hall additions hpending hne

end Ingest

section Emitted

variable {host : Host} {journal : Option LogFile} {runId : String} {records : List CompletionTelemetryRecord}
  {job : JobDescriptor} {completion : CompletionRecord} {ticks : ℕ}

/-- A log that is one frame. -/
def frameLog (completion : CompletionRecord) (ticks : ℕ) : LogFile :=
  ⟨true, 1, completionTelemetryEmit completion ticks⟩

/-- The record of that frame after the given ones. -/
def frameRecord (lib : Library) (runId captured : String) (records : List CompletionTelemetryRecord)
    (completion : CompletionRecord) (ticks : ℕ) : CompletionTelemetryRecord :=
  newRecord lib (lib.sha256 (frameLog completion ticks).data) runId captured records (eventOf completion ticks 1)

theorem parse_frameLog (hw : FrameWords completion) (h : raveilCompletionRecordValidate job completion = true)
    (ht : 1 ≤ ticks ∧ ticks ≤ UINT64_MAX) : parseQemuLog lib.sha256 (frameLog completion ticks) =
      .ok (lib.sha256 (frameLog completion ticks).data, [eventOf completion ticks 1]) := by
  have hparse := @parse_emitted lib.sha256 job completion ticks [] [] hw h ht ⟨noise_nil, Or.inl rfl⟩ noise_nil
  have hsize : (completionTelemetryEmit completion ticks).length ≤ MAX_LOG_BYTES :=
    (length_emit_le hw h ht).trans (by decide)
  have hone : (splitLines [] []).length + 1 = 1 := rfl
  rw [List.nil_append, List.append_nil, hone] at hparse
  dsimp only [frameLog]
  exact hparse hsize

theorem frameRecord_valid (hsha : Digests lib) {captured : String} (hw : FrameWords completion)
    (h : raveilCompletionRecordValidate job completion = true) (ht : 1 ≤ ticks ∧ ticks ≤ UINT64_MAX)
    (hrun : boundedToken lib runId 128 = true) (hcaptured : parseUtc lib captured = .ok ())
    (hlast : isDigest (lastHash records) = true) (hlength : records.length + 1 ≤ UINT64_MAX) :
    (frameRecord lib runId captured records completion ticks).validate lib = .ok () := by
  have hp := printable_of_completion h hw.jobId hw.epoch hw.sequence ⟨by omega, ht.2⟩
  have hline : (eventOf completion ticks 1).rawLine ≤ UINT64_MAX := by
    change (1 : ℤ) ≤ _
    decide
  exact newRecord_valid hsha (hsha _) hrun hcaptured hlast (validate_eventOf h hp hw.outputs le_rfl) hline hlength

/-- The frame of the log becomes the next record. -/
theorem pending_frameLog (hw : FrameWords completion) (h : raveilCompletionRecordValidate job completion = true)
    (ht : 1 ≤ ticks ∧ ticks ≤ UINT64_MAX) (hrun : boundedToken lib runId 128 = true) (hparent : host.parent = true)
    (hload : load lib journal = .ok records)
    (hvalid : (frameRecord lib runId host.captured records completion ticks).validate lib = .ok ())
    (hevent : (frameRecord lib runId host.captured records completion ticks).eventId ∉
      records.map CompletionTelemetryRecord.eventId)
    (hbinding : (frameRecord lib runId host.captured records completion ticks).bindingId ∉
      records.map CompletionTelemetryRecord.bindingId) :
    pending lib host journal (frameLog completion ticks) runId =
      .ok [frameRecord lib runId host.captured records completion ticks] := by
  have hstep : addStep lib (lib.sha256 (frameLog completion ticks).data) runId host.captured records []
      (eventOf completion ticks 1) = .ok [frameRecord lib runId host.captured records completion ticks] := by
    unfold addStep
    rw [List.append_nil]
    exact (if_neg hevent).trans (require_then_eq_ok.mpr ⟨hbinding, check_then_eq_ok.mpr ⟨hvalid, rfl⟩⟩)
  unfold pending
  refine require_then_eq_ok.mpr ⟨hrun, ?_⟩
  rw [parse_frameLog hw h ht, load_opened, hload]
  refine require_then_eq_ok.mpr ⟨hparent, ?_⟩
  change additionsOf lib _ runId host.captured [eventOf completion ticks 1] records = _
  unfold additionsOf
  rw [List.foldlM_cons, hstep]
  rfl

end Emitted

section ShortWrite

/-- A library for ASCII run ids and well-formed capture times; its `loads` reads no line. -/
def asciiLibrary : Library where
  isalnum := Char.isAlphanum
  fromisoformat := fun _ => true
  loads := fun _ => .error "Expecting value"
  sha256 := Command.hexdigest

theorem digests_asciiLibrary : Digests asciiLibrary := isDigest_hexdigest

/-- The write takes one byte of the payload. -/
def shortHost : Host := ⟨true, "2026-08-11T00:00:00.000000Z", some 1, true⟩

theorem captured_shortHost : parseUtc asciiLibrary shortHost.captured = .ok () := by
  unfold parseUtc
  exact require_then_eq_ok.mpr ⟨by decide, require_of rfl⟩

def firstRecord : CompletionTelemetryRecord :=
  frameRecord asciiLibrary "run-1" shortHost.captured [] oneByteCompletion 37

theorem firstRecord_valid : firstRecord.validate asciiLibrary = .ok () :=
  frameRecord_valid digests_asciiLibrary oneByteCompletion_words oneByteCompletion_valid (by decide) (by decide)
    captured_shortHost isDigest_zero (by decide)

/-- The frame of the log is about to be appended. -/
theorem pending_firstRecord :
    pending asciiLibrary shortHost none (frameLog oneByteCompletion 37) "run-1" = .ok [firstRecord] :=
  pending_frameLog oneByteCompletion_words oneByteCompletion_valid (by decide) (by decide) rfl rfl
    firstRecord_valid List.not_mem_nil List.not_mem_nil

/-- No check of a record reads a text. -/
theorem validate_loads (r : CompletionTelemetryRecord) (loads : List UInt8 → Except String Command.Json) :
    r.validate { lib with loads := loads } = r.validate lib := rfl

/-- The library also reads the line of the first record. -/
def journalLibrary : Library := { asciiLibrary with
  loads := fun raw => if raw = Command.canonical (toDict firstRecord) then .ok (.dict (storedFields firstRecord))
    else .error "Expecting value" }

/-- The journal after the first record. -/
def firstJournal : LogFile := ⟨true, 1, payloadOf [firstRecord]⟩

theorem load_firstJournal : load journalLibrary (some firstJournal) = .ok [firstRecord] := by
  have hloads : journalLibrary.loads (Command.canonical (toDict firstRecord)) = .ok (.dict (storedFields firstRecord)) :=
    if_pos rfl
  have hvalid : firstRecord.validate journalLibrary = .ok () := (validate_loads firstRecord _).trans firstRecord_valid
  exact require_then_eq_ok.mpr ⟨⟨rfl, rfl⟩, loadDescriptor_payload hloads hvalid rfl rfl⟩

theorem failed_ingest_keeps_firstJournal :
    ((∃ error, (ingestQemuLog journalLibrary shortHost (some firstJournal)
        (frameLog threeOutputsCompletion 37) "run-2").2 = .error error) →
      load journalLibrary (ingestQemuLog journalLibrary shortHost (some firstJournal)
        (frameLog threeOutputsCompletion 37) "run-2").1 = .ok [firstRecord]) ↔
    ∀ additions, pending journalLibrary shortHost (some firstJournal) (frameLog threeOutputsCompletion 37) "run-2" =
      .ok additions → additions ≠ [] → AllOrNothing shortHost (payloadOf additions) :=
  failed_ingest_keeps load_firstJournal

/-- A second frame, of another run, follows the first record. -/
theorem pending_secondRecord : ∃ record,
    pending journalLibrary shortHost (some firstJournal) (frameLog threeOutputsCompletion 37) "run-2" = .ok [record] := by
  have hvalid : (frameRecord journalLibrary "run-2" shortHost.captured [firstRecord] threeOutputsCompletion 37).validate
      journalLibrary = .ok () :=
    frameRecord_valid digests_asciiLibrary threeOutputsCompletion_words threeOutputsCompletion_valid (by decide) (by decide)
      captured_shortHost (digests_asciiLibrary _) (by decide)
  have hevent : (frameRecord journalLibrary "run-2" shortHost.captured [firstRecord] threeOutputsCompletion 37).eventId ∉
      [firstRecord].map CompletionTelemetryRecord.eventId := by decide +kernel
  have hbinding : (frameRecord journalLibrary "run-2" shortHost.captured [firstRecord] threeOutputsCompletion 37).bindingId ∉
      [firstRecord].map CompletionTelemetryRecord.bindingId := by decide +kernel
  exact ⟨_, pending_frameLog threeOutputsCompletion_words threeOutputsCompletion_valid (by decide) (by decide) rfl
    load_firstJournal hvalid hevent hbinding⟩

/-- After a short first write the journal no longer loads. -/
theorem not_failed_ingest_keeps :
    ¬ ∀ (lib : Library) (host : Host) (journal : Option LogFile) (log : LogFile) (runId : String)
      (records : List CompletionTelemetryRecord), load lib journal = .ok records →
      (∃ error, (ingestQemuLog lib host journal log runId).2 = .error error) →
        load lib (ingestQemuLog lib host journal log runId).1 = .ok records := by
  intro hall
  obtain ⟨record, hpending⟩ : ∃ record, pending asciiLibrary shortHost none (frameLog oneByteCompletion 37) "run-1" =
      .ok [record] := ⟨firstRecord, pending_firstRecord⟩
  have hkeep := hall asciiLibrary shortHost none (frameLog oneByteCompletion 37) "run-1" [] rfl
  obtain ⟨error, herror, -⟩ | ⟨additions, hok, hingest⟩ :=
    @ingest_cases asciiLibrary shortHost none (frameLog oneByteCompletion 37) "run-1" [] rfl
  · rw [hpending] at herror
    cases herror
  · rw [hpending] at hok
    cases hok
    rw [hingest] at hkeep
    have hpayload : 2 ≤ (payloadOf [record]).length := by
      have := List.length_pos_of_ne_nil (canonical_ne_nil (payloadFields record ++
        [("record_hash", .str record.recordHash)]))
      simp only [payloadOf, List.flatMap_cons, List.flatMap_nil, List.append_nil, List.length_append,
        List.length_singleton, toDict]
      omega
    have hload : loadDescriptor asciiLibrary (opened none).data = .ok [] := rfl
    obtain h | h | ⟨written, h, hle, -⟩ :=
      (appendPayload_iff shortHost ⟨rfl, rfl⟩ hload (List.cons_ne_nil record [])).mp hkeep
    · cases h
    · cases h
    · cases h
      omega

end ShortWrite

end Raveil.Telemetry
