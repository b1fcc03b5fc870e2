import Mathlib.Data.List.Induction
import Raveil.Experience.Consolidate

/-! A restart of the experience store: the log is read in batches, while the index that wrote it was
consolidated at every append. -/
namespace Raveil.Experience

variable {F L : Type} {A : Arithmetic F} {codec : Codec F L} {limit : ℕ}
  {es : List (Evidence F)} {e : Evidence F} {r : ExperienceRecord F} {recs act : List (ExperienceRecord F)}

/-- The records that appends write, in their order. -/
def written (es : List (Evidence F)) : List (ExperienceRecord F) :=
  (es.zipIdx 1).map fun entry => { entry.1 with sequence := entry.2 }

theorem written_append : written (es ++ [e]) = written es ++ [{ e with sequence := es.length + 1 }] := by
  simp [written, List.zipIdx_append, Nat.add_comm]

theorem length_written : (written es).length = es.length := by
  simp [written]

theorem map_sequence_written : (written es).map (·.sequence) = List.range' 1 es.length := by
  unfold written
  rw [List.map_map]
  exact List.zipIdx_map_snd 1 es

theorem map_exactKey_written : (written es).map (·.exactKey) = es.map (·.exactKey) := by
  unfold written
  rw [List.map_map]
  calc (es.zipIdx 1).map _ = ((es.zipIdx 1).map Prod.fst).map (·.exactKey) := by rw [List.map_map]; rfl
    _ = es.map (·.exactKey) := by rw [List.zipIdx_map_fst]

theorem samples_of_mem_written (h : r ∈ written es) : r.samples = 1 := by
  obtain ⟨entry, -, rfl⟩ := List.mem_map.mp h
  rfl

/-- The samples of a key among the written records are its appends. -/
theorem samplesOf_written (k : ExactKey) : samplesOf k (written es) = (es.map (·.exactKey)).count k := by
  induction es using List.reverseRecOn with
  | nil => rfl
  | append_singleton es e ih =>
    rw [written_append, samplesOf_append, ih, List.map_append, List.count_append, samplesOf_cons, samplesOf_nil,
      List.map_singleton, List.count_singleton]
    simp only [beq_iff_eq]
    rfl

theorem writeRecord_lines {opens : Bool} {log log' : ColdLog L} {ls : List L}
    (hlog : log = .missing ∧ ls = [] ∨ log = .lines ls)
    (h : writeRecord codec opens r log = (.ok (), log')) :
    ∃ line, codec.dumps r = some line ∧ log' = .lines (ls ++ [line]) := by
  cases opens with
  | false => rcases hlog with ⟨rfl, -⟩ | rfl <;> simp [writeRecord] at h
  | true =>
    cases hdumps : codec.dumps r with
    | none => rcases hlog with ⟨rfl, -⟩ | rfl <;> simp [writeRecord, hdumps] at h
    | some line =>
      refine ⟨line, rfl, ?_⟩
      rcases hlog with ⟨rfl, rfl⟩ | rfl
      all_goals
        simp only [writeRecord, hdumps, if_true, Prod.mk.injEq, true_and] at h
        exact h.symm

/-- A log that has exactly the written records of some appends. -/
def Logs (codec : Codec F L) (es : List (Evidence F)) (log : ColdLog L) : Prop :=
  log = .missing ∧ es = [] ∨ ∃ ls, log = .lines ls ∧
    List.Forall₂ (fun record line => codec.dumps record = some line) (written es) ls

theorem Logs.append {log log' : ColdLog L} {opens : Bool} (h : Logs codec es log)
    (hw : writeRecord codec opens { e with sequence := es.length + 1 } log = (.ok (), log')) :
    Logs codec (es ++ [e]) log' := by
  unfold Logs
  rw [written_append]
  rcases h with ⟨hmissing, rfl⟩ | ⟨ls, hls, hlines⟩
  · obtain ⟨line, hline, rfl⟩ := writeRecord_lines (.inl ⟨hmissing, rfl⟩) hw
    exact .inr ⟨_, rfl, .cons hline .nil⟩
  · obtain ⟨line, hline, rfl⟩ := writeRecord_lines (.inr hls) hw
    exact .inr ⟨_, rfl, List.rel_append hlines (.cons hline .nil)⟩

variable [LinearOrder F]

/-- The index of a store that is never restarted. -/
def liveIndex (A : Arithmetic F) (limit : ℕ) (recs : List (ExperienceRecord F)) : List (ExperienceRecord F) :=
  recs.foldl (fun act r => consolidate A limit (act ++ [r])) []

/-- What the loop of `_load` makes of the records of the log. -/
def recalled (A : Arithmetic F) (limit : ℕ) (recs : List (ExperienceRecord F)) : ExperienceStore F :=
  recs.foldl (fun store r => store.recall A limit r) {}

/-- The indexes that one can reach from some records, consolidating at any time. -/
inductive Gathered (A : Arithmetic F) (limit : ℕ) :
    List (ExperienceRecord F) → List (ExperienceRecord F) → Prop where
  | nil : Gathered A limit [] []
  | push {recs act : List (ExperienceRecord F)} (h : Gathered A limit recs act) (r : ExperienceRecord F) :
      Gathered A limit (recs ++ [r]) (act ++ [r])
  | consolidate {recs act : List (ExperienceRecord F)} (h : Gathered A limit recs act) :
      Gathered A limit recs (consolidate A limit act)

theorem liveIndex_append : liveIndex A limit (recs ++ [r]) = consolidate A limit (liveIndex A limit recs ++ [r]) := by
  simp [liveIndex]

theorem recalled_append : recalled A limit (recs ++ [r]) = (recalled A limit recs).recall A limit r := by
  simp [recalled]

theorem gathered_liveIndex (recs : List (ExperienceRecord F)) : Gathered A limit recs (liveIndex A limit recs) := by
  induction recs using List.reverseRecOn with
  | nil => exact .nil
  | append_singleton recs r ih =>
    rw [liveIndex_append]
    exact (ih.push r).consolidate

theorem gathered_recalled (recs : List (ExperienceRecord F)) :
    Gathered A limit recs (recalled A limit recs).active := by
  induction recs using List.reverseRecOn with
  | nil => exact .nil
  | append_singleton recs r ih =>
    rw [recalled_append]
    unfold ExperienceStore.recall
    dsimp only
    split
    case isTrue => exact (ih.push r).consolidate
    case isFalse => exact ih.push r

/-- The index of a live store stays within its limit. -/
theorem length_liveIndex_le : (liveIndex A limit recs).length ≤ limit := by
  rcases List.eq_nil_or_concat' recs with rfl | ⟨recs, r, rfl⟩
  · exact Nat.zero_le limit
  · rw [liveIndex_append]
    exact length_consolidate_le

theorem coldCount_recalled : (recalled A limit (written es)).coldCount = es.length := by
  induction es using List.reverseRecOn with
  | nil => rfl
  | append_singleton es e ih =>
    rw [written_append, recalled_append, List.length_append]
    change (recalled A limit (written es)).coldCount + 1 = _
    rw [ih]
    rfl

theorem nextSequence_recalled : (recalled A limit (written es)).nextSequence = es.length + 1 := by
  induction es using List.reverseRecOn with
  | nil => rfl
  | append_singleton es e ih =>
    rw [written_append, recalled_append, List.length_append]
    change max (recalled A limit (written es)).nextSequence (es.length + 1 + 1) = _
    rw [ih]
    simp

/-- Reading the lines of records that are numbered in sequence. -/
theorem foldlM_loadLine (hcodec : codec.Faithful) {ls : List L}
    (h : List.Forall₂ (fun record line => codec.dumps record = some line) recs ls) (j : ℕ) (loading : Loading F)
    (hseq : recs.map (·.sequence) = List.range' loading.expectedSequence recs.length) :
    (ls.zipIdx j).foldlM (loadLine A codec limit) loading = .ok {
      expectedSequence := loading.expectedSequence + recs.length
      store := recs.foldl (fun store r => store.recall A limit r) loading.store } := by
  induction h generalizing j loading with
  | nil => rfl
  | @cons record line recs ls hline h ih =>
    obtain ⟨hloads, hblank⟩ := hcodec record line hline
    rw [List.length_cons, List.range'_succ, List.map_cons, List.cons.injEq] at hseq
    have hstep : loadLine A codec limit loading (line, j) = .ok {
        expectedSequence := loading.expectedSequence + 1, store := loading.store.recall A limit record } := by
      simp [loadLine, hblank, hloads, hseq.1]
    rw [List.zipIdx_cons, List.foldlM_cons, hstep]
    change (ls.zipIdx (j + 1)).foldlM (loadLine A codec limit) _ = _
    rw [ih (j + 1) _ hseq.2, List.length_cons, List.foldl_cons, Nat.add_assoc, Nat.add_comm 1]

/-- A session of successful appends: its index is the live one, and its log has the written records. -/
structure Journalled (A : Arithmetic F) (codec : Codec F L) (limit : ℕ) (es : List (Evidence F))
    (s : Session F L) : Prop where
  store : s.store = {
    active := liveIndex A limit (written es), coldCount := es.length, nextSequence := es.length + 1 }
  log : s.log = .missing ∧ es = [] ∨ ∃ ls, s.log = .lines ls ∧
    List.Forall₂ (fun record line => codec.dumps record = some line) (written es) ls

/-- A successful append: the record it returns, the new index, and the write. -/
theorem append_eq_ok {s s' : Session F L} {opens : Bool} (ha : s.append A codec limit opens e = (.ok r, s')) :
    r = { e with sequence := s.store.nextSequence } ∧ s'.store = (s.store.remember A limit e).2 ∧
      writeRecord codec opens r s.log = (.ok (), s'.log) := by
  unfold Session.append at ha
  dsimp only at ha
  rcases hw : writeRecord codec opens (s.store.remember A limit e).1 s.log with ⟨done, log'⟩
  rw [hw] at ha
  obtain ⟨hok, rfl⟩ := Prod.mk.inj ha
  cases done with
  | error error => cases hok
  | ok done =>
    obtain rfl := Except.ok.inj hok
    exact ⟨rfl, rfl, hw⟩

theorem Journalled.append {s s' : Session F L} {opens : Bool} (h : Journalled A codec limit es s)
    (ha : s.append A codec limit opens e = (.ok r, s')) : Journalled A codec limit (es ++ [e]) s' := by
  obtain ⟨hr, hstore, hw⟩ := append_eq_ok ha
  have hlog : Logs codec es s.log := h.log
  rw [h.store] at hr hstore
  constructor
  · rw [hstore, written_append, liveIndex_append, List.length_append]
    rfl
  · rw [hr] at hw
    exact hlog.append hw

theorem Appends.journalled {s : Session F L} (h : Appends A codec limit es s) : Journalled A codec limit es s := by
  induction h with
  | missing => exact ⟨rfl, .inl ⟨rfl, rfl⟩⟩
  | empty => exact ⟨rfl, .inr ⟨[], rfl, .nil⟩⟩
  | append h ha ih => exact ih.append ha

/-- A store that is opened on such a log has every record of it, read in batches. -/
theorem Logs.openStore_eq {log : ColdLog L} (h : Logs codec es log) (hcodec : codec.Faithful)
    (hlimit : 4 ≤ limit) : openStore A codec limit log = .ok {
      active := consolidate A limit (recalled A limit (written es)).active
      coldCount := es.length
      nextSequence := es.length + 1 } := by
  have hopen : ¬ limit < 4 := by omega
  rcases h with ⟨hlog, rfl⟩ | ⟨ls, hlog, hlines⟩
  · unfold openStore
    rw [if_neg hopen, hlog]
    have : (recalled A limit (written ([] : List (Evidence F)))).active = [] := rfl
    rw [this, consolidate_of_le (Nat.zero_le limit)]
    rfl
  · have hseq : (written es).map (·.sequence) = List.range' 1 (written es).length := by
      rw [map_sequence_written, length_written]
    have hload : load A codec limit ls = .ok { recalled A limit (written es) with
        active := consolidate A limit (recalled A limit (written es)).active } := by
      rw [load, foldlM_loadLine hcodec hlines 1 {} hseq]
      rfl
    unfold openStore
    rw [if_neg hopen, hlog]
    change load A codec limit ls = _
    rw [hload]
    dsimp only
    rw [coldCount_recalled, nextSequence_recalled]

theorem Journalled.openStore_eq {s : Session F L} (h : Journalled A codec limit es s) (hcodec : codec.Faithful)
    (hlimit : 4 ≤ limit) : openStore A codec limit s.log = .ok {
      active := consolidate A limit (recalled A limit (written es)).active
      coldCount := es.length
      nextSequence := es.length + 1 } :=
  Logs.openStore_eq h.log hcodec hlimit

/-- A short history is consolidated once at most, and by both at its end. -/
theorem liveIndex_of_le (h : recs.length ≤ limit + 1) : liveIndex A limit recs = consolidate A limit recs := by
  induction recs using List.reverseRecOn with
  | nil => exact (consolidate_of_le (Nat.zero_le limit)).symm
  | append_singleton recs r ih =>
    rw [List.length_append, List.length_singleton] at h
    have hbefore : liveIndex A limit recs = recs := (ih (by omega)).trans (consolidate_of_le (by omega))
    rw [liveIndex_append, hbefore]

theorem recalled_of_lt (h : recs.length < limit * 2) : (recalled A limit recs).active = recs := by
  induction recs using List.reverseRecOn with
  | nil => rfl
  | append_singleton recs r ih =>
    have := ih (by rw [List.length_append, List.length_singleton] at h; omega)
    rw [recalled_append, ExperienceStore.recall, this]
    exact if_neg (by omega)

/-- An index of records of different keys: all of them, or the best of the first ones and all later ones. -/
def Cut (A : Arithmetic F) (limit : ℕ) (recs act : List (ExperienceRecord F)) : Prop :=
  act = recs ∨ ∃ front later, recs = front ++ later ∧ limit < front.length ∧
    act = Lib.best (Retained A) limit front ++ later

instance : Std.Total (Retained A) := ⟨fun a b => le_total (b.retentionScore A) (a.retentionScore A)⟩

instance : IsTrans (ExperienceRecord F) (Retained A) := ⟨fun _ _ _ hab hbc => le_trans hbc hab⟩

/-- The sequence number in the score tells two records apart. -/
theorem strict_of_nodup (h : (recs.map (·.sequence)).Nodup) : Lib.Strict (Retained A) recs := by
  intro a ha b hb hab hba
  have hscore : a.retentionScore A = b.retentionScore A := le_antisymm hba hab
  have hseq : a.sequence = b.sequence := by
    have := congrArg (fun score : F ×ₗ F ×ₗ ℕ => (ofLex (ofLex score).2).2) hscore
    exact this
  exact List.inj_on_of_nodup_map h ha hb hseq

theorem Cut.push (h : Cut A limit recs act) : Cut A limit (recs ++ [r]) (act ++ [r]) := by
  rcases h with rfl | ⟨front, later, rfl, hlen, rfl⟩
  · exact .inl rfl
  · exact .inr ⟨front, later ++ [r], by simp, hlen, by simp⟩

/-- Wherever the batches end, consolidation gives what it gives on the whole log. -/
theorem Cut.consolidate_eq (h : Cut A limit recs act) (hkeys : (recs.map (·.exactKey)).Nodup)
    (hstrict : Lib.Strict (Retained A) recs) : consolidate A limit act = consolidate A limit recs := by
  rcases h with rfl | ⟨front, later, rfl, hlen, rfl⟩
  · rfl
  · have hwhole : consolidate A limit (front ++ later) = Lib.best (Retained A) limit (front ++ later) := by
      rw [consolidate_of_lt (by rw [List.length_append]; omega), mergeAll_of_nodup hkeys]
    rw [hwhole]
    cases later with
    | nil =>
      rw [List.append_nil, List.append_nil]
      apply consolidate_of_le
      rw [Lib.length_best]
      omega
    | cons r later =>
      have hsub : (Lib.best (Retained A) limit front ++ r :: later).Subperm (front ++ r :: later) := by
        apply List.Subperm.append
        · exact (List.take_sublist _ _).subperm.trans (List.perm_insertionSort (Retained A) front).subperm
        · exact List.Subperm.refl _
      have hnodup : ((Lib.best (Retained A) limit front ++ r :: later).map (·.exactKey)).Nodup := by
        obtain ⟨l, hperm, hl⟩ := hsub
        exact (hperm.map _).nodup_iff.mp ((hl.map _).nodup hkeys)
      rw [consolidate_of_lt, mergeAll_of_nodup hnodup, Lib.best_best_append hstrict]
      simp only [List.length_append, Lib.length_best, List.length_cons]
      omega

theorem Gathered.cut (h : Gathered A limit recs act) (hkeys : (recs.map (·.exactKey)).Nodup)
    (hstrict : Lib.Strict (Retained A) recs) : Cut A limit recs act := by
  induction h with
  | nil => exact .inl rfl
  | @push recs act h r ih =>
    rw [List.map_append] at hkeys
    apply (ih (List.Nodup.of_append_left hkeys) _).push
    intro a ha b hb
    exact hstrict a (List.mem_append_left _ ha) b (List.mem_append_left _ hb)
  | @consolidate recs act h ih =>
    rw [(ih hkeys hstrict).consolidate_eq hkeys hstrict]
    rcases Nat.lt_or_ge limit recs.length with hlen | hlen
    · refine .inr ⟨recs, [], by simp, hlen, ?_⟩
      rw [consolidate_of_lt hlen, mergeAll_of_nodup hkeys, List.append_nil]
    · exact .inl (consolidate_of_le hlen)

theorem Gathered.keys_subset (h : Gathered A limit recs act) :
    ∀ k ∈ act.map (·.exactKey), k ∈ recs.map (·.exactKey) := by
  induction h with
  | nil => exact fun _ hk => hk
  | push h r ih =>
    intro k hk
    rw [List.map_append, List.mem_append] at hk ⊢
    exact hk.imp_left (ih k)
  | consolidate h ih => exact fun k hk => ih k (mem_keys_of_consolidate hk)

theorem length_dedup_le_append {ks ls : List ExactKey} : ks.dedup.length ≤ (ks ++ ls).dedup.length := by
  apply (List.subperm_of_subset (List.nodup_dedup _) _).length_le
  intro key hkey
  rw [List.mem_dedup] at hkey ⊢
  exact List.mem_append_left _ hkey

theorem Gathered.length_keys_le (h : Gathered A limit recs act) :
    (act.map (·.exactKey)).dedup.length ≤ (recs.map (·.exactKey)).dedup.length := by
  apply (List.subperm_of_subset (List.nodup_dedup _) _).length_le
  intro key hkey
  rw [List.mem_dedup] at hkey ⊢
  exact h.keys_subset key hkey

/-- The samples of each key are kept while the keys fit in the index. -/
theorem Gathered.samplesOf_eq (h : Gathered A limit recs act)
    (hfit : (recs.map (·.exactKey)).dedup.length ≤ limit) (k : ExactKey) : samplesOf k act = samplesOf k recs := by
  induction h with
  | nil => rfl
  | push h r ih =>
    rw [List.map_append] at hfit
    rw [samplesOf_append, samplesOf_append, ih (length_dedup_le_append.trans hfit)]
  | consolidate h ih => rw [samplesOf_consolidate (h.length_keys_le.trans hfit), ih hfit]

/-- Histories whose index a restart gives back: short ones, and those that never append a key twice. -/
def Restartable (limit : ℕ) (es : List (Evidence F)) : Prop :=
  es.length ≤ limit + 1 ∨ (es.map (·.exactKey)).Nodup

theorem liveIndex_written (h : Restartable limit es) :
    liveIndex A limit (written es) = consolidate A limit (written es) := by
  rcases h with hlen | hkeys
  · apply liveIndex_of_le
    rwa [length_written]
  · rw [← map_exactKey_written] at hkeys
    have hstrict : Lib.Strict (Retained A) (written es) := by
      apply strict_of_nodup
      rw [map_sequence_written]
      exact List.nodup_range'
    have hcut : Cut A limit (written es) (liveIndex A limit (written es)) :=
      (gathered_liveIndex (written es)).cut hkeys hstrict
    rw [← hcut.consolidate_eq hkeys hstrict]
    exact (consolidate_of_le length_liveIndex_le).symm

theorem consolidate_recalled (hlimit : 4 ≤ limit) (h : Restartable limit es) :
    consolidate A limit (recalled A limit (written es)).active = consolidate A limit (written es) := by
  rcases h with hlen | hkeys
  · rw [recalled_of_lt]
    rw [length_written]
    omega
  · rw [← map_exactKey_written] at hkeys
    have hstrict : Lib.Strict (Retained A) (written es) := by
      apply strict_of_nodup
      rw [map_sequence_written]
      exact List.nodup_range'
    exact ((gathered_recalled (written es)).cut hkeys hstrict).consolidate_eq hkeys hstrict

/-- A restart keeps the counters and, for each key that fits, its samples; the index itself is the same when the
batches cannot matter. -/
theorem restart_agrees {s : Session F L} (hcodec : codec.Faithful) (hlimit : 4 ≤ limit)
    (h : Appends A codec limit es s) : ∃ restarted, openStore A codec limit s.log = .ok restarted ∧
      restarted.coldCount = s.store.coldCount ∧ restarted.nextSequence = s.store.nextSequence ∧
      (Restartable limit es → restarted.active = s.store.active ∧
        ∀ context candidateId n, restarted.nearest A context candidateId n = s.store.nearest A context candidateId n) ∧
      ((es.map (·.exactKey)).dedup.length ≤ limit → ∀ k,
        samplesOf k restarted.active = (es.map (·.exactKey)).count k ∧
        samplesOf k s.store.active = (es.map (·.exactKey)).count k) := by
  have hj := h.journalled
  refine ⟨_, hj.openStore_eq hcodec hlimit, ?_, ?_, ?_, ?_⟩
  · rw [hj.store]
  · rw [hj.store]
  · intro hr
    have hactive : consolidate A limit (recalled A limit (written es)).active = s.store.active := by
      rw [consolidate_recalled hlimit hr, hj.store, liveIndex_written hr]
    refine ⟨hactive, ?_⟩
    intro context candidateId n
    unfold ExperienceStore.nearest
    rw [hactive]
  · intro hfit k
    rw [← map_exactKey_written] at hfit
    have hlive : samplesOf k (liveIndex A limit (written es)) = samplesOf k (written es) :=
      (gathered_liveIndex (written es)).samplesOf_eq hfit k
    have hloaded : samplesOf k (consolidate A limit (recalled A limit (written es)).active) =
        samplesOf k (written es) := (gathered_recalled (written es)).consolidate.samplesOf_eq hfit k
    rw [hj.store, ← samplesOf_written]
    exact ⟨hloaded, hlive⟩

/-- The session of appends to an empty log that opens every time. -/
def appendAll (A : Arithmetic F) (codec : Codec F L) (limit : ℕ) (es : List (Evidence F)) : Session F L :=
  es.foldl (fun s e => (s.append A codec limit true e).2) { store := {}, log := .lines [] }

/-- An append succeeds when the log opens and the record is JSON. -/
theorem append_opens {s : Session F L} (hdumps : codec.dumps (s.store.remember A limit e).1 ≠ none) :
    s.append A codec limit true e = (.ok (s.store.remember A limit e).1, (s.append A codec limit true e).2) := by
  let record := (s.store.remember A limit e).1
  obtain ⟨line, hline⟩ := Option.ne_none_iff_exists'.mp hdumps
  have hwrite (log : ColdLog L) : (writeRecord codec true record log).1 = .ok () := by
    unfold writeRecord
    rw [hline]
    cases log <;> rfl
  refine Prod.ext ?_ rfl
  change (writeRecord codec true record s.log).1.map _ = _
  rw [hwrite]
  rfl

theorem appends_appendAll (hdumps : ∀ record, codec.dumps record ≠ none) (es : List (Evidence F)) :
    Appends A codec limit es (appendAll A codec limit es) := by
  induction es using List.reverseRecOn with
  | nil => exact .empty
  | append_singleton es e ih =>
    have hlast : appendAll A codec limit (es ++ [e]) = ((appendAll A codec limit es).append A codec limit true e).2 := by
      simp [appendAll]
    rw [hlast]
    exact ih.append (append_opens (hdumps _))

/-- Floats as whole numbers, and records as their own lines. -/
def wholeNumbers : Arithmetic ℤ where
  infinity := 1000000
  literal q := q.num / q.den
  ofInt := id
  add := (· + ·)
  mul := (· * ·)
  div := (· / ·)
  quotient := (· / ·)
  round := id
  absLog2 x := x
  jitter _ := 0

def verbatim : Codec ℤ (ExperienceRecord ℤ) where
  dumps := some
  loads := .ok
  blank _ := false

theorem faithful_verbatim : verbatim.Faithful := by
  intro record line h
  cases h
  exact ⟨rfl, rfl⟩

theorem dumps_verbatim (record : ExperienceRecord ℤ) : verbatim.dumps record ≠ none := by
  intro hnone
  cases hnone

def measured : Evidence ℤ where
  context := {
    workload := "dot", shape := 64, memoryBudgetKib := 64
    hardware := { name := "toy-daphnis-v1", lanes := 16, localMemoryKib := 64, externalBytesPerCycle := 32 }
    shape_pos := by decide
    memoryBudgetKib_pos := by decide }
  candidate := {
    candidateId := "baseline", vectorWidth := 1, tileLength := 64, memoryPolicy := "keep", coldPrior := 1 }
  metrics := {
    cycles := 300, peakMemoryKib := 1, externalBytes := 64, energyUnits := 5, valid := true, reason := "" }
  baselineCycles := 100

/-- Six appends of one key to an index of four: the live index is merged at the fifth and keeps the sixth apart, the
restarted one merges all six. -/
theorem not_restart_equivalent : ¬ ∀ es s, Appends wholeNumbers verbatim 4 es s →
    ∃ restarted, openStore wholeNumbers verbatim 4 s.log = .ok restarted ∧
      restarted.coldCount = s.store.coldCount ∧ restarted.nextSequence = s.store.nextSequence ∧
      ∀ record, record ∈ restarted.active ↔ record ∈ s.store.active := by
  intro h
  let es := List.replicate 6 measured
  let sixth : ExperienceRecord ℤ := { measured with sequence := 6 }
  obtain ⟨restarted, hopen, -, -, hsame⟩ := h es _ (appends_appendAll dumps_verbatim es)
  have hlive : sixth ∈ (appendAll wholeNumbers verbatim 4 es).store.active := by decide +kernel
  have hmerged : (openStore wholeNumbers verbatim 4 (appendAll wholeNumbers verbatim 4 es).log).map
      (fun store => decide (sixth ∈ store.active)) = .ok false := by decide +kernel
  rw [hopen] at hmerged
  have hnot : sixth ∉ restarted.active := by
    intro hmem
    simp [Except.map, hmem] at hmerged
  exact hnot ((hsame sixth).mpr hlive)

/-- One key appended five times, merged once on both sides, and nine times, which `_load` reads in two batches. -/
theorem restart_agrees_measured :
    (∃ restarted, openStore wholeNumbers verbatim 4
        (appendAll wholeNumbers verbatim 4 (List.replicate 5 measured)).log = .ok restarted ∧
      restarted.active = (appendAll wholeNumbers verbatim 4 (List.replicate 5 measured)).store.active ∧
      restarted.active.length = 1) ∧
    ∃ restarted, openStore wholeNumbers verbatim 4
        (appendAll wholeNumbers verbatim 4 (List.replicate 9 measured)).log = .ok restarted ∧
      restarted.coldCount = 9 ∧ samplesOf measured.exactKey restarted.active = 9 ∧
      samplesOf measured.exactKey
        (appendAll wholeNumbers verbatim 4 (List.replicate 9 measured)).store.active = 9 := by
  constructor
  · obtain ⟨restarted, hopen, -, -, hsame, -⟩ := restart_agrees faithful_verbatim (by decide : 4 ≤ 4)
      (appends_appendAll dumps_verbatim (List.replicate 5 measured) (A := wholeNumbers))
    obtain ⟨hactive, -⟩ := hsame (Or.inl (by decide))
    refine ⟨restarted, hopen, hactive, ?_⟩
    rw [hactive]
    decide +kernel
  · obtain ⟨restarted, hopen, hcold, -, -, hsamples⟩ := restart_agrees faithful_verbatim (by decide : 4 ≤ 4)
      (appends_appendAll dumps_verbatim (List.replicate 9 measured) (A := wholeNumbers))
    obtain ⟨hrestarted, hlive⟩ := hsamples (by decide +kernel) measured.exactKey
    have hcount : ((List.replicate 9 measured).map (·.exactKey)).count measured.exactKey = 9 := by decide +kernel
    refine ⟨restarted, hopen, ?_, hrestarted.trans hcount, hlive.trans hcount⟩
    rw [hcold]
    decide +kernel

end Raveil.Experience
