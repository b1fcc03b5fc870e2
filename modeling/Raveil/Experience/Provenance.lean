import Mathlib.Data.List.Forall2
import Raveil.Experience.Lines
import Raveil.Experience.Restart

/-! Where the records of the bounded index come from: each stands for the appended records it was merged from, and
no appended record stands behind two of them. -/
namespace Raveil.Experience

variable {F L : Type} {A : Arithmetic F} {codec : Codec F L} {json : JsonText F L} {limit : ℕ}
  {k : ExactKey} {es : List (Evidence F)} {r previous record : ExperienceRecord F}
  {recs act l xs : List (ExperienceRecord F)} {os : List (List (ExperienceRecord F))}
  {merged : List (ExactKey × ExperienceRecord F)}

/-- A record is made of some appended records: of itself, or by merging two records of one key. -/
inductive MergedFrom (A : Arithmetic F) : ExperienceRecord F → List (ExperienceRecord F) → Prop where
  | appended (r : ExperienceRecord F) : MergedFrom A r [r]
  | merged {previous record : ExperienceRecord F} {xs ys : List (ExperienceRecord F)}
      (hp : MergedFrom A previous xs) (hr : MergedFrom A record ys)
      (hk : previous.exactKey = record.exactKey) : MergedFrom A (previous.merge A record) (xs ++ ys)

theorem MergedFrom.ne_nil (h : MergedFrom A r xs) : xs ≠ [] := by
  induction h with
  | appended r => simp
  | merged hp hr hk ihp ihr => simp [ihp]

/-- Merging adds up how many appended records there are, when each of them counts once. -/
theorem MergedFrom.samples_eq (h : MergedFrom A r xs) (hone : ∀ a ∈ xs, a.samples = 1) :
    r.samples = xs.length := by
  induction h with
  | appended r => exact hone r List.mem_cons_self
  | @merged previous record xs ys hp hr hk ihp ihr =>
    have htotal : (previous.merge A record).samples = previous.samples + record.samples := rfl
    rw [htotal, ihp fun a ha => hone a (List.mem_append_left ys ha),
      ihr fun a ha => hone a (List.mem_append_right xs ha), List.length_append]

theorem MergedFrom.exactKey_eq (h : MergedFrom A r xs) : ∀ a ∈ xs, a.exactKey = r.exactKey := by
  induction h with
  | appended r =>
    intro a ha
    rw [List.mem_singleton.mp ha]
  | @merged previous record xs ys hp hr hk ihp ihr =>
    intro a ha
    rw [exactKey_merge]
    rcases List.mem_append.mp ha with ha | ha
    · exact (ihp a ha).trans hk
    · exact ihr a ha

/-- Storing a record that takes over what stood under its key. -/
theorem origins_assign {key : ExactKey} (h : List.Forall₂ (MergedFrom A) (merged.map Prod.snd) os)
    (hnone : merged.lookup key = none → MergedFrom A record xs)
    (hsome : ∀ previous ys, merged.lookup key = some previous → MergedFrom A previous ys →
      MergedFrom A record (ys ++ xs)) :
    ∃ os', List.Forall₂ (MergedFrom A) ((Lib.assign key record merged).map Prod.snd) os' ∧
      os'.flatten.Perm (os.flatten ++ xs) := by
  induction merged generalizing os with
  | nil =>
    cases h
    exact ⟨[xs], .cons (hnone rfl) .nil, by simp⟩
  | cons entry merged ih =>
    cases h with
    | @cons _ ys _ os hentry hrest =>
      unfold Lib.assign
      rw [Lib.lookup_cons_eq_if] at hnone hsome
      split
      case isTrue hkey =>
        rw [if_pos hkey.symm] at hsome
        refine ⟨(ys ++ xs) :: os, .cons (hsome entry.2 ys rfl hentry) hrest, ?_⟩
        rw [List.flatten_cons, List.flatten_cons, List.append_assoc, List.append_assoc]
        exact (List.perm_append_comm).append_left ys
      case isFalse hkey =>
        rw [if_neg (Ne.symm hkey)] at hnone hsome
        obtain ⟨os', horigins, hperm⟩ := ih hrest hnone hsome
        refine ⟨ys :: os', .cons hentry horigins, ?_⟩
        rw [List.flatten_cons, List.flatten_cons, List.append_assoc]
        exact hperm.append_left ys

theorem Keyed.exactKey_of_lookup (h : Keyed merged) (hr : merged.lookup k = some r) : r.exactKey = k := by
  induction merged with
  | nil => cases hr
  | cons entry merged ih =>
    rw [Lib.lookup_cons_eq_if] at hr
    split at hr
    case isTrue hkey =>
      obtain rfl := Option.some.inj hr
      exact (h.own entry List.mem_cons_self).trans hkey.symm
    case isFalse => exact ih h.tail hr

theorem origins_mergeInto (hm : Keyed merged) (h : List.Forall₂ (MergedFrom A) (merged.map Prod.snd) os)
    (hr : MergedFrom A record xs) :
    ∃ os', List.Forall₂ (MergedFrom A) ((mergeInto A merged record).map Prod.snd) os' ∧
      os'.flatten.Perm (os.flatten ++ xs) := by
  unfold mergeInto
  split
  case h_1 hnone =>
    apply origins_assign h (fun _ => hr)
    intro previous ys hsome
    rw [hnone] at hsome
    cases hsome
  case h_2 previous hprevious =>
    apply origins_assign h
    · intro hnone
      rw [hprevious] at hnone
      cases hnone
    · intro previous' ys hsome hys
      obtain rfl := Option.some.inj (hprevious.symm.trans hsome)
      exact hys.merged hr (hm.exactKey_of_lookup hprevious)

theorem origins_foldl {ls : List (List (ExperienceRecord F))} (hm : Keyed merged)
    (h : List.Forall₂ (MergedFrom A) (merged.map Prod.snd) os) (hl : List.Forall₂ (MergedFrom A) l ls) :
    ∃ os', List.Forall₂ (MergedFrom A) ((l.foldl (mergeInto A) merged).map Prod.snd) os' ∧
      os'.flatten.Perm (os.flatten ++ ls.flatten) := by
  induction hl generalizing merged os with
  | nil => exact ⟨os, h, by simp⟩
  | @cons record xs l ls hr hl ih =>
    obtain ⟨os₁, horigins₁, hperm₁⟩ := origins_mergeInto hm h hr
    obtain ⟨os₂, horigins₂, hperm₂⟩ := ih (keyed_mergeInto hm) horigins₁
    refine ⟨os₂, horigins₂, hperm₂.trans ?_⟩
    rw [List.flatten_cons, ← List.append_assoc]
    exact hperm₁.append_right ls.flatten

/-- Merging loses no appended record. -/
theorem origins_mergeAll (h : List.Forall₂ (MergedFrom A) act os) :
    ∃ os', List.Forall₂ (MergedFrom A) (mergeAll A act) os' ∧ os'.flatten.Perm os.flatten := by
  obtain ⟨os', horigins, hperm⟩ := origins_foldl keyed_nil .nil h
  exact ⟨os', horigins, by simpa using hperm⟩

/-- A record of the index and the appended records it was merged from. -/
structure StandsFor (A : Arithmetic F) (r : ExperienceRecord F) (xs : List (ExperienceRecord F)) : Prop where
  merged : MergedFrom A r xs
  samples : r.samples = xs.length
  exactKey : ∀ a ∈ xs, a.exactKey = r.exactKey
  nonempty : xs ≠ []

theorem MergedFrom.standsFor (h : MergedFrom A r xs) (hone : ∀ a ∈ xs, a.samples = 1) : StandsFor A r xs :=
  ⟨h, h.samples_eq hone, h.exactKey_eq, h.ne_nil⟩

theorem forall₂_standsFor (h : List.Forall₂ (MergedFrom A) act os) (hone : ∀ a ∈ os.flatten, a.samples = 1) :
    List.Forall₂ (StandsFor A) act os := by
  induction h with
  | nil => exact .nil
  | cons hr h ih =>
    rw [List.flatten_cons] at hone
    exact .cons (hr.standsFor fun a ha => hone a (List.mem_append_left _ ha))
      (ih fun a ha => hone a (List.mem_append_right _ ha))

theorem sum_samples (h : List.Forall₂ (StandsFor A) act os) :
    (act.map (·.samples)).sum = os.flatten.length := by
  induction h with
  | nil => rfl
  | cons hr h ih => rw [List.map_cons, List.sum_cons, ih, hr.samples, List.flatten_cons, List.length_append]

theorem writeRecord_unbacked {opens : Bool} {done : Except AppendError Unit} {log : ColdLog L}
    (h : writeRecord codec opens r .unbacked = (done, log)) : log = .unbacked := by
  obtain ⟨-, rfl⟩ := Prod.mk.inj h
  rfl

variable [LinearOrder F]

/-- Consolidation drops appended records only by evicting, and evicts nothing while the keys fit. -/
theorem origins_consolidate (h : List.Forall₂ (MergedFrom A) act os) :
    ∃ os', List.Forall₂ (MergedFrom A) (consolidate A limit act) os' ∧ os'.flatten.Subperm os.flatten ∧
      ((act.map (·.exactKey)).dedup.length ≤ limit → os'.flatten.Perm os.flatten) := by
  by_cases hle : act.length ≤ limit
  · rw [consolidate_of_le hle]
    exact ⟨os, h, List.Subperm.refl _, fun _ => List.Perm.refl _⟩
  · rw [consolidate_of_lt (by omega)]
    obtain ⟨merged, horigins, hperm⟩ := origins_mergeAll h
    obtain ⟨sorted, hsorted, hsortedPerm⟩ :=
      List.perm_comp_forall₂ (List.perm_insertionSort (Retained A) (mergeAll A act)) horigins
    have hflat : sorted.flatten.Perm os.flatten := hsortedPerm.flatten.trans hperm
    refine ⟨sorted.take limit, List.forall₂_take limit hsorted, ?_, ?_⟩
    · exact (((List.take_sublist limit sorted).flatten).subperm).trans hflat.subperm
    · intro hfit
      have hlen : sorted.length ≤ limit := by
        rw [← hsorted.length_eq, List.length_insertionSort]
        exact length_mergeAll_le.trans hfit
      rwa [List.take_of_length_le hlen]

/-- Whatever the order of appends and consolidations, the index stands for different appended records, and for all
of them while the keys fit. -/
theorem Gathered.origins (h : Gathered A limit recs act) :
    ∃ os, List.Forall₂ (MergedFrom A) act os ∧ os.flatten.Subperm recs ∧
      ((recs.map (·.exactKey)).dedup.length ≤ limit → os.flatten.Perm recs) := by
  induction h with
  | nil => exact ⟨[], .nil, List.Subperm.refl _, fun _ => List.Perm.refl _⟩
  | @push recs act h r ih =>
    obtain ⟨os, horigins, hsub, hall⟩ := ih
    have hflat : (os ++ [[r]]).flatten = os.flatten ++ [r] := by simp
    refine ⟨os ++ [[r]], List.rel_append horigins (.cons (.appended r) .nil), ?_, fun hfit => ?_⟩
    · rw [hflat]
      exact hsub.append (List.Subperm.refl _)
    · rw [hflat]
      rw [List.map_append] at hfit
      exact (hall (length_dedup_le_append.trans hfit)).append_right [r]
  | @consolidate recs act h ih =>
    obtain ⟨os, horigins, hsub, hall⟩ := ih
    obtain ⟨os', horigins', hsub', hall'⟩ := @origins_consolidate _ A limit _ _ _ horigins
    refine ⟨os', horigins', hsub'.trans hsub, fun hfit => ?_⟩
    exact (hall' (h.length_keys_le.trans hfit)).trans (hall hfit)

/-- The sessions of a store over successful appends, possibly closed and loaded again in between, with the evidence
given and the records returned. -/
inductive Lives (A : Arithmetic F) (codec : Codec F L) (limit : ℕ) :
    List (Evidence F) → List (ExperienceRecord F) → Session F L → Prop where
  | unbacked : Lives A codec limit [] [] { store := {}, log := .unbacked }
  | missing : Lives A codec limit [] [] { store := {}, log := .missing }
  | empty : Lives A codec limit [] [] { store := {}, log := .lines [] }
  | append {es : List (Evidence F)} {rs : List (ExperienceRecord F)} {s s' : Session F L} {opens : Bool}
      {e : Evidence F} {r : ExperienceRecord F} (h : Lives A codec limit es rs s)
      (ha : s.append A codec limit opens e = (.ok r, s')) : Lives A codec limit (es ++ [e]) (rs ++ [r]) s'
  | reload {es : List (Evidence F)} {rs : List (ExperienceRecord F)} {s : Session F L}
      {store : ExperienceStore F} (h : Lives A codec limit es rs s) (hb : s.log ≠ .unbacked)
      (ho : openStore A codec limit s.log = .ok store) : Lives A codec limit es rs { s with store := store }

/-- What every session keeps. -/
structure Kept (A : Arithmetic F) (codec : Codec F L) (limit : ℕ) (es : List (Evidence F))
    (rs : List (ExperienceRecord F)) (s : Session F L) : Prop where
  returned : rs = written es
  coldCount : s.store.coldCount = es.length
  nextSequence : s.store.nextSequence = es.length + 1
  bounded : s.store.active.length ≤ limit
  gathered : Gathered A limit (written es) s.store.active
  log : s.log = .unbacked ∨ Logs codec es s.log

theorem kept_new {log : ColdLog L} (h : log = .unbacked ∨ Logs codec [] log) :
    Kept A codec limit [] [] { store := {}, log := log } :=
  ⟨rfl, rfl, rfl, Nat.zero_le limit, .nil, h⟩

theorem Kept.append {rs : List (ExperienceRecord F)} {s s' : Session F L} {opens : Bool} {e : Evidence F}
    (h : Kept A codec limit es rs s) (ha : s.append A codec limit opens e = (.ok r, s')) :
    Kept A codec limit (es ++ [e]) (rs ++ [r]) s' := by
  obtain ⟨hr, hstore, hw⟩ := append_eq_ok ha
  rw [h.nextSequence] at hr
  have hrecord : { e with sequence := s.store.nextSequence } = r := by rw [hr, h.nextSequence]
  constructor
  · rw [written_append, h.returned, hr]
  · rw [hstore, List.length_append]
    exact congrArg (· + 1) h.coldCount
  · rw [hstore, List.length_append]
    exact congrArg (· + 1) h.nextSequence
  · rw [hstore]
    exact length_consolidate_le
  · rw [hstore, written_append, ← hr]
    simp only [ExperienceStore.remember, hrecord]
    exact (h.gathered.push r).consolidate
  · rcases h.log with hnone | hlog
    · rw [hnone] at hw
      exact .inl (writeRecord_unbacked hw)
    · rw [hr] at hw
      exact .inr (hlog.append hw)

theorem openStore_limit {log : ColdLog L} {store : ExperienceStore F}
    (h : openStore A codec limit log = .ok store) : 4 ≤ limit := by
  unfold openStore at h
  split at h
  case isTrue => cases h
  case isFalse hlimit => omega

theorem Kept.reload {rs : List (ExperienceRecord F)} {s : Session F L} {store : ExperienceStore F}
    (h : Kept A codec limit es rs s) (hcodec : codec.Faithful) (hb : s.log ≠ .unbacked)
    (ho : openStore A codec limit s.log = .ok store) : Kept A codec limit es rs { s with store := store } := by
  have hlog : Logs codec es s.log := h.log.resolve_left hb
  rw [hlog.openStore_eq hcodec (openStore_limit ho)] at ho
  obtain rfl := Except.ok.inj ho
  exact ⟨h.returned, rfl, rfl, length_consolidate_le, (gathered_recalled (written es)).consolidate, .inr hlog⟩

theorem Lives.kept {rs : List (ExperienceRecord F)} {s : Session F L} (hcodec : codec.Faithful)
    (h : Lives A codec limit es rs s) : Kept A codec limit es rs s := by
  induction h with
  | unbacked => exact kept_new (.inl rfl)
  | missing => exact kept_new (.inr (.inl ⟨rfl, rfl⟩))
  | empty => exact kept_new (.inr (.inr ⟨[], rfl, .nil⟩))
  | append h ha ih => exact ih.append ha
  | reload h hb ho ih => exact ih.reload hcodec hb ho

/-- The index of a store that was given the evidence `es`. -/
structure Conserves (A : Arithmetic F) (limit : ℕ) (es : List (Evidence F)) (store : ExperienceStore F) :
    Prop where
  bounded : store.active.length ≤ limit
  origins : ∃ os, List.Forall₂ (StandsFor A) store.active os ∧ os.flatten.Subperm (written es)
  samples : (es.map (·.exactKey)).dedup.length ≤ limit → ∀ k,
    samplesOf k store.active = (es.map (·.exactKey)).count k
  total : (es.map (·.exactKey)).dedup.length ≤ limit →
    (store.active.map (·.samples)).sum = store.coldCount

/-- Nothing is lost silently: the numbering, the log, the bound, the origin of every active record, and the sums. -/
theorem index_without_loss {rs : List (ExperienceRecord F)} {s : Session F L} (hjson : json.Documented)
    (h : Lives A (codecOf json) limit es rs s) :
    rs.map (·.sequence) = List.range' 1 es.length ∧ rs = written es ∧
      (s.log = .unbacked ∨ Logs (codecOf json) es s.log) ∧ Conserves A limit es s.store := by
  have hkept := h.kept (faithful_codecOf hjson)
  obtain ⟨os, horigins, hsub, hall⟩ := hkept.gathered.origins
  have hstands : List.Forall₂ (StandsFor A) s.store.active os :=
    forall₂_standsFor horigins fun a ha => samples_of_mem_written (hsub.subset ha)
  refine ⟨?_, hkept.returned, hkept.log, hkept.bounded, ⟨os, hstands, hsub⟩, fun hfit k => ?_, fun hfit => ?_⟩
  · rw [hkept.returned, map_sequence_written]
  · rw [← map_exactKey_written] at hfit
    rw [hkept.gathered.samplesOf_eq hfit, samplesOf_written]
  · rw [← map_exactKey_written] at hfit
    rw [sum_samples hstands, (hall hfit).length_eq, length_written, hkept.coldCount]

/-- JSON values as their own lines. -/
def plainJson : JsonText ℤ (JsonValue ℤ) where
  dumps := some
  loads := .ok
  blank _ := false
  toInt
    | .int i => .ok i
    | _ => .error .wrongType
  describe _ := ""

theorem documented_plainJson : plainJson.Documented where
  loads value line h := by
    cases h
    rfl
  blank value line h := rfl
  toInt i := rfl

theorem dumps_plainJson (record : ExperienceRecord ℤ) : (codecOf plainJson).dumps record ≠ none := by
  intro hnone
  cases hnone

theorem Lives.plain {rs : List (ExperienceRecord ℤ)} {es : List (Evidence ℤ)}
    {s : Session ℤ (JsonValue ℤ)} (h : Lives wholeNumbers (codecOf plainJson) 4 es rs s) (e : Evidence ℤ) :
    Lives wholeNumbers (codecOf plainJson) 4 (es ++ [e]) (rs ++ [(s.store.remember wholeNumbers 4 e).1])
      (s.append wholeNumbers (codecOf plainJson) 4 true e).2 :=
  h.append (append_opens (dumps_plainJson _))

/-- Five appends of one key, of which the fifth merges, a restart, and five appends that merge again. -/
theorem index_without_loss_measured : ∃ s : Session ℤ (JsonValue ℤ),
    s.store.coldCount = 10 ∧ s.store.active.length = 2 ∧
      Conserves wholeNumbers 4 (List.replicate 10 measured) s.store := by
  have hfive := ((((Lives.missing.plain measured).plain measured).plain measured).plain measured).plain measured
  have hreloaded := hfive.reload (by simp [Session.append, writeRecord, codecOf, plainJson]) rfl
  have hten := ((((hreloaded.plain measured).plain measured).plain measured).plain measured).plain measured
  exact ⟨_, by decide +kernel, by decide +kernel, (index_without_loss documented_plainJson hten).2.2.2⟩

end Raveil.Experience
