import Raveil.Experience.Provenance

/-! Appends that raise: the index in memory has already counted the record, so the numbering of the log gets a gap. -/
namespace Raveil.Experience

variable {F L : Type} [LinearOrder F] {A : Arithmetic F} {codec : Codec F L} {json : JsonText F L} {limit : ℕ}
  {es : List (Evidence F)} {e : Evidence F} {r : ExperienceRecord F} {s : Session F L} {log : ColdLog L} {n : ℕ}

/-- A call of `append`, and whether the log opens in it. -/
structure Attempt (F : Type) where
  evidence : Evidence F
  opens : Bool

section Runs

variable (A codec limit)

/-- Whatever becomes of the calls. -/
def Session.attempt (s : Session F L) (a : Attempt F) : Except AppendError (ExperienceRecord F) × Session F L :=
  s.append A codec limit a.opens a.evidence

/-- Every call of the run that raises leaves the store and the log as they were. -/
def Keeps (s : Session F L) : List (Attempt F) → Prop
  | [] => True
  | a :: as => (∀ error, (s.attempt A codec limit a).1 = .error error → (s.attempt A codec limit a).2 = s) ∧
      Keeps (s.attempt A codec limit a).2 as

/-- After every call of the run that succeeds a new store can load the log. -/
def StaysLoadable (s : Session F L) : List (Attempt F) → Prop
  | [] => True
  | a :: as => (∀ record, (s.attempt A codec limit a).1 = .ok record →
        ∃ store, openStore A codec limit (s.attempt A codec limit a).2.log = .ok store) ∧
      StaysLoadable (s.attempt A codec limit a).2 as

end Runs

section Conditions

variable (codec)

/-- The log opens, and the record with number `n` is JSON. -/
def Writable (n : ℕ) (a : Attempt F) : Prop :=
  a.opens = true ∧ codec.dumps { a.evidence with sequence := n } ≠ none

def AllWritable (n : ℕ) : List (Attempt F) → Prop
  | [] => True
  | a :: as => Writable codec n a ∧ AllWritable (n + 1) as

def NoneWritable (n : ℕ) : List (Attempt F) → Prop
  | [] => True
  | a :: as => ¬ Writable codec n a ∧ NoneWritable (n + 1) as

/-- No call that is not writable comes before one that is. -/
def FailuresLast (n : ℕ) : List (Attempt F) → Prop
  | [] => True
  | a :: as => Writable codec n a ∧ FailuresLast (n + 1) as ∨ ¬ Writable codec n a ∧ NoneWritable codec (n + 1) as

end Conditions

theorem attempt_nextSequence (a : Attempt F) :
    (s.attempt A codec limit a).2.store.nextSequence = s.store.nextSequence + 1 := rfl

/-- The store has a log with the records of `es`, and its next number is `n`. -/
structure Standing (codec : Codec F L) (es : List (Evidence F)) (n : ℕ) (s : Session F L) : Prop where
  next : s.store.nextSequence = n
  log : Logs codec es s.log

/-- A writable call succeeds; its line comes after those of the log. -/
theorem attempt_writable {a : Attempt F} (h : Standing codec es n s) (hw : Writable codec n a) :
    ∃ ls line, List.Forall₂ (fun record line => codec.dumps record = some line) (written es) ls ∧
      codec.dumps { a.evidence with sequence := n } = some line ∧
      s.attempt A codec limit a = (.ok { a.evidence with sequence := n },
        { store := (s.store.remember A limit a.evidence).2, log := .lines (ls ++ [line]) }) := by
  obtain ⟨line, hline⟩ := Option.ne_none_iff_exists'.mp hw.2
  have hrecord : (s.store.remember A limit a.evidence).1 = { a.evidence with sequence := n } := by
    rw [← h.next]
    rfl
  unfold Session.attempt Session.append
  simp only [hrecord, hw.1]
  rcases h.log with ⟨hmissing, rfl⟩ | ⟨ls, hls, hlines⟩
  · refine ⟨[], line, .nil, hline, ?_⟩
    rw [hmissing]
    simp [writeRecord, hline, Except.map]
  · refine ⟨ls, line, hlines, hline, ?_⟩
    rw [hls]
    simp [writeRecord, hline, Except.map]

omit [LinearOrder F] in
/-- A write that is not writable fails, and the log has the records it had; a missing log may have been created. -/
theorem writeRecord_refused (opens : Bool) (record : ExperienceRecord F) (h : Logs codec es log)
    (hw : ¬ (opens = true ∧ codec.dumps record ≠ none)) :
    (∃ error, (writeRecord codec opens record log).1 = .error error) ∧
      Logs codec es (writeRecord codec opens record log).2 := by
  cases opens with
  | false =>
    rcases h with ⟨rfl, rfl⟩ | ⟨ls, rfl, hlines⟩
    · exact ⟨⟨_, rfl⟩, .inl ⟨rfl, rfl⟩⟩
    · exact ⟨⟨_, rfl⟩, .inr ⟨ls, rfl, hlines⟩⟩
  | true =>
    have hnone : codec.dumps record = none := by
      by_contra hsome
      exact hw ⟨rfl, hsome⟩
    rcases h with ⟨rfl, rfl⟩ | ⟨ls, rfl, hlines⟩
    · simp only [writeRecord, hnone, if_true]
      exact ⟨⟨_, rfl⟩, .inr ⟨[], rfl, .nil⟩⟩
    · simp only [writeRecord, hnone, if_true]
      exact ⟨⟨_, rfl⟩, .inr ⟨ls, rfl, hlines⟩⟩

/-- Any other call raises, writes nothing, and skips a number. -/
theorem attempt_not_writable {a : Attempt F} (h : Standing codec es n s) (hw : ¬ Writable codec n a) :
    (∃ error, (s.attempt A codec limit a).1 = .error error) ∧
      Standing codec es (n + 1) (s.attempt A codec limit a).2 := by
  have hrecord : (s.store.remember A limit a.evidence).1 = { a.evidence with sequence := n } := by
    rw [← h.next]
    rfl
  have hnext : (s.attempt A codec limit a).2.store.nextSequence = n + 1 := by
    rw [attempt_nextSequence, h.next]
  obtain ⟨⟨error, herror⟩, hlog⟩ :=
    writeRecord_refused a.opens (s.store.remember A limit a.evidence).1 h.log (by rwa [hrecord])
  refine ⟨⟨error, ?_⟩, hnext, hlog⟩
  show (writeRecord codec a.opens (s.store.remember A limit a.evidence).1 s.log).1.map _ = _
  rw [herror]
  rfl

/-- While no number was skipped, a writable call keeps the log in step with the store. -/
theorem standing_attempt {a : Attempt F} (hn : n = es.length + 1) (h : Standing codec es n s)
    (hw : Writable codec n a) :
    Standing codec (es ++ [a.evidence]) (n + 1) (s.attempt A codec limit a).2 ∧
      n + 1 = (es ++ [a.evidence]).length + 1 := by
  obtain ⟨ls, line, hlines, hline, he⟩ := @attempt_writable _ _ _ A codec limit _ _ _ _ h hw
  rw [he]
  subst n
  refine ⟨⟨congrArg (· + 1) h.next, .inr ⟨_, rfl, ?_⟩⟩, by rw [List.length_append, List.length_singleton]⟩
  rw [written_append]
  exact List.rel_append hlines (.cons hline .nil)

/-- A line with another number than the next one makes the log unloadable. -/
theorem openStore_gap {ls : List L} {line : L} (hcodec : codec.Faithful)
    (hlines : List.Forall₂ (fun record line => codec.dumps record = some line) (written es) ls)
    (hline : codec.dumps r = some line) (hgap : r.sequence ≠ es.length + 1) (store : ExperienceStore F) :
    openStore A codec limit (.lines (ls ++ [line])) ≠ .ok store := by
  obtain ⟨hloads, hblank⟩ := hcodec r line hline
  have hseq : (written es).map (·.sequence) = List.range' 1 (written es).length := by
    rw [map_sequence_written, length_written]
  intro hopen
  unfold openStore at hopen
  split at hopen
  case isTrue => cases hopen
  case isFalse =>
    have hload : load A codec limit (ls ++ [line]) = .ok store := hopen
    have hbad : r.sequence ≠ 1 + es.length := by omega
    rw [load, List.zipIdx_append, List.foldlM_append, foldlM_loadLine hcodec hlines 1 {} hseq] at hload
    simp [bind, Except.bind, loadLine, hblank, hloads, length_written, hbad, List.zipIdx_cons] at hload

/-- The calls of a run leave the store as it was on failure exactly when none of them fails. -/
theorem keeps_iff (as : List (Attempt F)) (hn : n = es.length + 1) (h : Standing codec es n s) :
    Keeps A codec limit s as ↔ AllWritable codec n as := by
  induction as generalizing s es n with
  | nil => exact Iff.rfl
  | cons a as ih =>
    by_cases hw : Writable codec n a
    · obtain ⟨ls, line, -, -, he⟩ := @attempt_writable _ _ _ A codec limit _ _ _ _ h hw
      obtain ⟨hstanding, hnext⟩ := @standing_attempt _ _ _ A codec limit _ _ _ _ hn h hw
      have hrest := ih hnext hstanding
      constructor
      · intro hkeeps
        exact ⟨hw, hrest.mp hkeeps.2⟩
      · intro hall
        refine ⟨fun error herror => ?_, hrest.mpr hall.2⟩
        rw [he] at herror
        cases herror
    · obtain ⟨⟨error, herror⟩, hstanding⟩ := @attempt_not_writable _ _ _ A codec limit _ _ _ _ h hw
      constructor
      · intro hkeeps
        have hsame := hstanding.next
        rw [hkeeps.1 error herror, h.next] at hsame
        omega
      · intro hall
        exact absurd hall.1 hw

/-- After a number was skipped, the log stays loadable only if nothing more is written. -/
theorem staysLoadable_skipped (as : List (Attempt F)) (hcodec : codec.Faithful) (hn : es.length + 1 < n)
    (h : Standing codec es n s) : StaysLoadable A codec limit s as ↔ NoneWritable codec n as := by
  induction as generalizing s n with
  | nil => exact Iff.rfl
  | cons a as ih =>
    by_cases hw : Writable codec n a
    · obtain ⟨ls, line, hlines, hline, he⟩ := @attempt_writable _ _ _ A codec limit _ _ _ _ h hw
      constructor
      · intro hloadable
        have hfirst := hloadable.1 { a.evidence with sequence := n } (by rw [he])
        rw [he] at hfirst
        obtain ⟨store, hopen⟩ := hfirst
        exact absurd hopen (openStore_gap hcodec hlines hline (show n ≠ es.length + 1 by omega) store)
      · intro hnone
        exact absurd hw hnone.1
    · obtain ⟨⟨error, herror⟩, hstanding⟩ := @attempt_not_writable _ _ _ A codec limit _ _ _ _ h hw
      have hrest := ih (by omega) hstanding
      constructor
      · intro hloadable
        exact ⟨hw, hrest.mp hloadable.2⟩
      · intro hnone
        refine ⟨fun record hok => ?_, hrest.mpr hnone.2⟩
        rw [herror] at hok
        cases hok

/-- The log stays loadable exactly when no failed call comes before one that succeeds. -/
theorem staysLoadable_iff (as : List (Attempt F)) (hcodec : codec.Faithful) (hlimit : 4 ≤ limit)
    (hn : n = es.length + 1) (h : Standing codec es n s) :
    StaysLoadable A codec limit s as ↔ FailuresLast codec n as := by
  induction as generalizing s es n with
  | nil => exact Iff.rfl
  | cons a as ih =>
    by_cases hw : Writable codec n a
    · obtain ⟨hstanding, hnext⟩ := @standing_attempt _ _ _ A codec limit _ _ _ _ hn h hw
      have hrest := ih hnext hstanding
      constructor
      · intro hloadable
        exact .inl ⟨hw, hrest.mp hloadable.2⟩
      · rintro (⟨-, hlast⟩ | ⟨hnot, -⟩)
        · exact ⟨fun record _ => ⟨_, hstanding.log.openStore_eq hcodec hlimit⟩, hrest.mpr hlast⟩
        · exact absurd hw hnot
    · obtain ⟨⟨error, herror⟩, hstanding⟩ := @attempt_not_writable _ _ _ A codec limit _ _ _ _ h hw
      have hrest : StaysLoadable A codec limit (s.attempt A codec limit a).2 as ↔ _ :=
        staysLoadable_skipped as hcodec (by omega) hstanding
      constructor
      · intro hloadable
        exact .inr ⟨hw, hrest.mp hloadable.2⟩
      · rintro (⟨hwritable, -⟩ | ⟨-, hnone⟩)
        · exact absurd hwritable hw
        · refine ⟨fun record hok => ?_, hrest.mpr hnone⟩
          rw [herror] at hok
          cases hok

omit [LinearOrder F] in
theorem failuresLast_of_allWritable {as : List (Attempt F)} (h : AllWritable codec n as) :
    FailuresLast codec n as := by
  induction as generalizing n with
  | nil => trivial
  | cons a as ih => exact .inl ⟨h.1, ih h.2⟩

/-- A store without a path writes nothing, so nothing raises. -/
theorem unbacked_run (as : List (Attempt F)) (hlimit : 4 ≤ limit) (h : s.log = .unbacked) :
    Keeps A codec limit s as ∧ StaysLoadable A codec limit s as := by
  induction as generalizing s with
  | nil => exact ⟨trivial, trivial⟩
  | cons a as ih =>
    have hstep : s.attempt A codec limit a = (.ok (s.store.remember A limit a.evidence).1,
        { store := (s.store.remember A limit a.evidence).2, log := .unbacked }) := by
      unfold Session.attempt Session.append
      rw [h]
      rfl
    have hlog : (s.attempt A codec limit a).2.log = .unbacked := by rw [hstep]
    obtain ⟨hkeeps, hloadable⟩ := ih hlog
    refine ⟨⟨fun error herror => ?_, hkeeps⟩, fun record _ => ⟨{}, ?_⟩, hloadable⟩
    · rw [hstep] at herror
      cases herror
    · have hopen : ¬ limit < 4 := by omega
      unfold openStore
      rw [if_neg hopen, hlog]

/-- From every store that successful appends and restarts reach: a run of calls that may raise leaves the store as it
was on failure, and the log loadable, exactly when none of them raises; the log alone stays loadable exactly when
no call that raises comes before one that succeeds. -/
theorem failed_append_keeps_iff {rs : List (ExperienceRecord F)} (hjson : json.Documented) (hlimit : 4 ≤ limit)
    (h : Lives A (codecOf json) limit es rs s) (as : List (Attempt F)) :
    (Keeps A (codecOf json) limit s as ∧ StaysLoadable A (codecOf json) limit s as ↔
      s.log = .unbacked ∨ AllWritable (codecOf json) (es.length + 1) as) ∧
    (StaysLoadable A (codecOf json) limit s as ↔
      s.log = .unbacked ∨ FailuresLast (codecOf json) (es.length + 1) as) := by
  have hcodec := faithful_codecOf hjson
  have hkept := h.kept hcodec
  rcases hkept.log with hnone | hlog
  · have hrun : Keeps A (codecOf json) limit s as ∧ StaysLoadable A (codecOf json) limit s as :=
      unbacked_run as hlimit hnone
    obtain ⟨hkeeps, hloadable⟩ := hrun
    exact ⟨⟨fun _ => .inl hnone, fun _ => ⟨hkeeps, hloadable⟩⟩, fun _ => .inl hnone, fun _ => hloadable⟩
  · have hbacked : s.log ≠ .unbacked := by
      rcases hlog with ⟨hmissing, -⟩ | ⟨ls, hls, -⟩
      · simp [hmissing]
      · simp [hls]
    have hstanding : Standing (codecOf json) es (es.length + 1) s := ⟨hkept.nextSequence, hlog⟩
    have hkeeps : Keeps A (codecOf json) limit s as ↔ _ := keeps_iff as rfl hstanding
    have hloadable : StaysLoadable A (codecOf json) limit s as ↔ _ :=
      staysLoadable_iff as hcodec hlimit rfl hstanding
    simp only [hkeeps, hloadable, hbacked, false_or, and_true]
    exact ⟨fun hall => hall.1, fun hall => ⟨hall, failuresLast_of_allWritable hall⟩⟩

/-- A log that does not open in the first call: the second call succeeds, and its record has number 2. -/
def unopenedFirst : List (Attempt ℤ) := [⟨measured, false⟩, ⟨measured, true⟩]

theorem not_failed_append_keeps : ¬ ∀ (es : List (Evidence ℤ)) (s s' : Session ℤ (JsonValue ℤ)) (e : Evidence ℤ)
    (opens : Bool) (error : AppendError), Appends wholeNumbers (codecOf plainJson) 4 es s →
      s.append wholeNumbers (codecOf plainJson) 4 opens e = (.error error, s') →
        s' = s ∧ ∀ later record s'',
          s'.append wholeNumbers (codecOf plainJson) 4 true later = (.ok record, s'') →
            ∃ store, openStore wholeNumbers (codecOf plainJson) 4 s''.log = .ok store := by
  intro h
  have hsame := (h [] { store := {}, log := .missing } _ measured false .unopened .missing rfl).1
  have hcold := congrArg (fun s => s.store.coldCount) hsame
  cases hcold

theorem failed_append_keeps_iff_unopened :
    ¬ StaysLoadable wholeNumbers (codecOf plainJson) 4 { store := {}, log := .missing } unopenedFirst := by
  rw [(failed_append_keeps_iff documented_plainJson (by decide) Lives.missing unopenedFirst).2]
  rintro (hunbacked | ⟨⟨hopens, -⟩, -⟩ | ⟨-, hnone, -⟩)
  · cases hunbacked
  · cases hopens
  · exact hnone ⟨rfl, dumps_plainJson _⟩

end Raveil.Experience
