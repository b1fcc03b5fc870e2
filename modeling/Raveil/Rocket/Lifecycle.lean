import Mathlib.Data.List.Induction
import Raveil.Rocket.Ledger

/-! Whole runs of the lifecycle ledger: tokens are taken once, end once, and are counted in one class. -/
namespace Raveil.Rocket

variable {e q : ℕ}

/-- A token that is no longer active, and the events that it saw. -/
structure Ended (e q : ℕ) where
  epoch : BitVec e
  sequence : BitVec q
  store : Bool
  events : List Event

/-- The token's A was accepted after a core attempt, its D completed without error after that, and it retired. -/
def Completes (events : List Event) : Prop :=
  [.coreAttempt, .aAccept, .dComplete].Sublist events ∧ .retire ∈ events

instance (events : List Event) : Decidable (Completes events) := by
  unfold Completes
  infer_instance

def Ended.CommittedLoad (r : Ended e q) : Prop := r.store = false ∧ Completes r.events

def Ended.CommittedStore (r : Ended e q) : Prop :=
  r.store = true ∧ Completes r.events ∧ .storeAuthorize ∈ r.events

instance : DecidablePred (Ended.CommittedLoad (e := e) (q := q)) := fun r =>
  inferInstanceAs (Decidable (r.store = false ∧ Completes r.events))

instance : DecidablePred (Ended.CommittedStore (e := e) (q := q)) := fun r =>
  inferInstanceAs (Decidable (r.store = true ∧ Completes r.events ∧ .storeAuthorize ∈ r.events))

def Ended.NonCommitted (r : Ended e q) : Prop := ¬ r.CommittedLoad ∧ ¬ r.CommittedStore

instance : DecidablePred (Ended.NonCommitted (e := e) (q := q)) := fun r =>
  inferInstanceAs (Decidable (¬ r.CommittedLoad ∧ ¬ r.CommittedStore))

/-- A run: the registers, the tokens taken so far, the events of the active one, and the tokens that have ended. -/
structure Session (e q : ℕ) where
  regs : Observer e q := .reset
  allocated : List (BitVec e × BitVec q) := []
  live : List Event := []
  ended : List (Ended e q) := []

/-- The events of the active token, with the one of this cycle. -/
def Session.seen (x : Session e q) (io : Input e q) : List Event := x.live ++ (x.regs.touches io).toList

def Session.step (x : Session e q) (io : Input e q) : Session e q where
  regs := x.regs.step io
  allocated :=
    if (x.regs.step io).allocatedCount = x.regs.allocatedCount then x.allocated
    else x.allocated ++ [((x.regs.step io).token.epoch, (x.regs.step io).token.sequence)]
  live := if x.regs.active then x.seen io else []
  ended :=
    if x.regs.active && !(x.regs.step io).active then
      x.ended ++ [{
        epoch := x.regs.token.epoch
        sequence := x.regs.token.sequence
        store := x.regs.token.store
        events := x.seen io }]
    else x.ended

def run (ios : List (Input e q)) : Session e q := ios.foldl Session.step {}

def Ended.key (r : Ended e q) : BitVec e × BitVec q := (r.epoch, r.sequence)

/-- The token that is still active. -/
def Session.current (x : Session e q) : List (BitVec e × BitVec q) :=
  if x.regs.active then [(x.regs.token.epoch, x.regs.token.sequence)] else []

theorem concat_sublist_concat {α : Type} {p l : List α} {c k : α} :
    (p ++ [c]).Sublist (l ++ [k]) ↔ (p ++ [c]).Sublist l ∨ c = k ∧ p.Sublist l := by
  rw [← @List.reverse_sublist _ (p ++ [c]) (l ++ [k]), ← @List.reverse_sublist _ (p ++ [c]) l,
    ← @List.reverse_sublist _ p l]
  simp only [List.reverse_append, List.reverse_singleton, List.singleton_append]
  rw [List.cons_sublist_cons']

/-- The flags of the active token say which events it has seen, in which order. -/
structure Reflects (token : Token e q) (events : List Event) : Prop where
  coreAttempt : token.coreAttempt = true ↔ [.coreAttempt].Sublist events
  aAccepted : token.aAccepted = true ↔ [.coreAttempt, .aAccept].Sublist events
  dCompleted : token.dCompleted = true ↔ [.coreAttempt, .aAccept, .dComplete].Sublist events
  retired : token.retired = true ↔ .retire ∈ events
  storeAuthorized : token.storeAuthorized = true ↔ token.store = true ∧ .storeAuthorize ∈ events

theorem Reflects.after {token : Token e q} {events : List Event} (h : Reflects token events) (kind : Event) :
    Reflects (token.after kind) (events ++ [kind]) := by
  have hattempt := @concat_sublist_concat _ [] events .coreAttempt kind
  have haccept := @concat_sublist_concat _ [.coreAttempt] events .aAccept kind
  have hcomplete := @concat_sublist_concat _ [.coreAttempt, .aAccept] events .dComplete kind
  simp only [List.nil_append, List.cons_append] at hattempt haccept hcomplete
  obtain ⟨h₁, h₂, h₃, h₄, h₅⟩ := h
  constructor
  · rw [hattempt, ← h₁]
    cases kind <;> simp [Token.after]
  · rw [haccept, ← h₂, ← h₁]
    cases kind <;> simp [Token.after]
  · rw [hcomplete, ← h₃, ← h₂]
    cases kind <;> simp [Token.after]
  · rw [List.mem_append, ← h₄]
    cases kind <;> simp [Token.after]
  · rw [List.mem_append]
    cases kind
    case storeAuthorize =>
      simp only [Token.after, Bool.or_eq_true, h₅, List.mem_singleton, or_true, and_true]
      exact ⟨fun h => h.elim And.left id, .inr⟩
    all_goals simp [Token.after, h₅]

/-- A token is complete when its events are those of a commit. -/
theorem Reflects.complete_iff {token : Token e q} {events : List Event} (h : Reflects token events) :
    token.complete = true ↔ Completes events ∧ (token.store = true → .storeAuthorize ∈ events) := by
  unfold Token.complete Completes
  rw [Bool.and_eq_true, Bool.and_eq_true, Bool.or_eq_true, h.dCompleted, h.retired, h.storeAuthorized]
  cases token.store <;> simp

theorem Reflects.fresh {token : Token e q} (h₁ : token.coreAttempt = false) (h₂ : token.aAccepted = false)
    (h₃ : token.dCompleted = false) (h₄ : token.retired = false) (h₅ : token.storeAuthorized = false) :
    Reflects token [] := by
  constructor <;> simp [h₁, h₂, h₃, h₄, h₅]

/-- A token that comes before every token still to be taken, by epoch and then by sequence number. -/
def Ledger.Past (l : Ledger e q) (key : BitVec e × BitVec q) : Prop :=
  key.1.toNat < l.currentEpoch.toNat ∨
    key.1 = l.currentEpoch ∧ (l.sequenceExhausted = true ∨ key.2.toNat < l.nextSequence.toNat)

/-- What holds of tokens in every cycle of a run. -/
structure Tokens (x : Session e q) : Prop where
  epoch : x.regs.active = true → x.regs.token.epoch = x.regs.currentEpoch
  incomplete : x.regs.active = true → x.regs.token.complete = false
  reflects : x.regs.active = true → Reflects x.regs.token x.live
  nodup : x.allocated.Nodup
  past : ∀ key ∈ x.allocated, x.regs.Past key
  allocated : x.allocated = x.ended.map Ended.key ++ x.current

variable {x : Session e q} {io : Input e q}

theorem step_take (hstep : x.regs.step io = x.regs.take io) (hidle : x.regs.active = false) :
    x.step io = {
      regs := x.regs.take io
      allocated := x.allocated ++ [(io.eventEpoch, io.eventSequence)]
      live := []
      ended := x.ended } := by
  have hmoved : ¬ (x.regs.take io).allocatedCount = x.regs.allocatedCount := by
    change ¬ x.regs.allocatedCount + 1 = x.regs.allocatedCount
    bv_omega
  unfold Session.step
  rw [hstep, if_neg hmoved, hidle]
  rfl

theorem step_untouched (h : Observer.Untouched x.regs.toLedger (x.regs.step io).toLedger) :
    (x.step io).allocated = x.allocated ∧ (x.step io).ended = x.ended ∧
      (x.step io).live = if x.regs.active then x.seen io else [] := by
  refine ⟨if_pos h.allocatedCount, ?_, rfl⟩
  unfold Session.step
  dsimp only
  rw [h.active, Bool.and_not_self, if_neg Bool.false_ne_true]

/-- What the active token leaves when an event ends it. -/
def Session.leaves (x : Session e q) (kind : Event) : Ended e q where
  epoch := x.regs.token.epoch
  sequence := x.regs.token.sequence
  store := x.regs.token.store
  events := x.live ++ [kind]

theorem step_matched {kind : Event} (hstep : (x.regs.step io).toLedger = x.regs.toLedger.matched kind)
    (hactive : x.regs.active = true) (htouch : x.regs.touches io = some kind) :
    (x.step io).allocated = x.allocated ∧ (x.step io).live = x.live ++ [kind] ∧
      (x.step io).ended = if (x.regs.step io).active then x.ended else x.ended ++ [x.leaves kind] := by
  have hcount : (x.regs.step io).allocatedCount = x.regs.allocatedCount :=
    (congrArg Ledger.allocatedCount hstep).trans (Ledger.allocatedCount_matched _ _)
  have hseen : x.seen io = x.live ++ [kind] := by
    unfold Session.seen
    rw [htouch]
    rfl
  refine ⟨if_pos hcount, ?_, ?_⟩
  · rw [← hseen]
    exact if_pos hactive
  · unfold Session.step
    dsimp only
    rw [hactive, hseen, Bool.true_and]
    cases (x.regs.step io).active <;> rfl

theorem toNat_succ {w : ℕ} {a : BitVec w} (h : a ≠ BitVec.allOnes w) : (a + 1).toNat = a.toNat + 1 := by
  have hlt : a.toNat + 1 < 2 ^ w := by
    rcases Nat.lt_or_ge (a.toNat + 1) (2 ^ w) with hlt | hge
    · exact hlt
    · refine absurd (BitVec.eq_of_toNat_eq ?_) h
      rw [BitVec.toNat_allOnes]
      have := a.isLt
      omega
  have hone : 1 < 2 ^ w := by omega
  rw [BitVec.toNat_add, show (1 : BitVec w).toNat = 1 by simp [Nat.mod_eq_of_lt hone], Nat.mod_eq_of_lt hlt]

/-- The next token has not been taken yet. -/
theorem Tokens.fresh (h : Tokens x) (ht : x.regs.Takes io) : (io.eventEpoch, io.eventSequence) ∉ x.allocated := by
  intro hmem
  rcases h.past _ hmem with hlt | ⟨-, hex | hlt⟩
  · rw [ht.epoch] at hlt
    exact Nat.lt_irrefl _ hlt
  · rw [ht.unexhausted] at hex
    cases hex
  · rw [ht.sequence] at hlt
    exact Nat.lt_irrefl _ hlt

theorem Tokens.take (h : Tokens x) (hstep : x.regs.step io = x.regs.take io) (ht : x.regs.Takes io) :
    Tokens (x.step io) := by
  rw [step_take hstep ht.idle]
  constructor
  · exact fun _ => ht.epoch
  · exact fun _ => rfl
  · exact fun _ => Reflects.fresh rfl rfl rfl rfl rfl
  · rw [List.nodup_append]
    refine ⟨h.nodup, List.nodup_singleton _, ?_⟩
    rintro key hkey _ hmem rfl
    rw [List.mem_singleton] at hmem
    exact h.fresh ht (hmem ▸ hkey)
  · intro key hkey
    change _ ∨ key.1 = x.regs.currentEpoch ∧
      ((if io.eventSequence = BitVec.allOnes q then true else x.regs.sequenceExhausted) = true ∨
        key.2.toNat < (if io.eventSequence = BitVec.allOnes q then x.regs.nextSequence else io.eventSequence + 1).toNat)
    by_cases hmax : io.eventSequence = BitVec.allOnes q
    · rw [if_pos hmax]
      rcases List.mem_append.mp hkey with hkey | hkey
      · exact (h.past key hkey).imp_right fun hp => ⟨hp.1, .inl rfl⟩
      · rw [List.mem_singleton] at hkey
        subst hkey
        exact .inr ⟨ht.epoch, .inl rfl⟩
    · rw [if_neg hmax, if_neg hmax, toNat_succ hmax]
      rcases List.mem_append.mp hkey with hkey | hkey
      · refine (h.past key hkey).imp_right fun hp => ⟨hp.1, ?_⟩
        refine hp.2.imp_right fun hlt => ?_
        rw [ht.sequence]
        omega
      · rw [List.mem_singleton] at hkey
        subst hkey
        exact .inr ⟨ht.epoch, .inr (Nat.lt_succ_self _)⟩
  · have hcurrent : x.current = [] := by
      unfold Session.current
      rw [ht.idle]
      rfl
    have := h.allocated
    rw [hcurrent, List.append_nil] at this
    rw [this]
    rfl

theorem Tokens.untouched (h : Tokens x) (hs : Observer.Untouched x.regs.toLedger (x.regs.step io).toLedger)
    (htouch : x.regs.touches io = none ∨ x.regs.active = true ∧ x.regs.touches io = some .allocate) :
    Tokens (x.step io) := by
  obtain ⟨hallocated, hended, hlive⟩ := step_untouched hs
  have hactive : (x.step io).regs.active = x.regs.active := hs.active
  have htoken : (x.step io).regs.token = x.regs.token := hs.token
  have hepoch : (x.step io).regs.currentEpoch = x.regs.currentEpoch := hs.currentEpoch
  have hnext : (x.step io).regs.nextSequence = x.regs.nextSequence := hs.nextSequence
  have hexhausted : (x.step io).regs.sequenceExhausted = x.regs.sequenceExhausted := hs.sequenceExhausted
  constructor
  · rw [hactive, htoken, hepoch]
    exact h.epoch
  · rw [hactive, htoken]
    exact h.incomplete
  · rw [hactive, htoken, hlive]
    intro ha
    rw [if_pos ha, Session.seen]
    rcases htouch with hnone | ⟨-, hsome⟩
    · rw [hnone, Option.toList_none, List.append_nil]
      exact h.reflects ha
    · rw [hsome]
      exact (h.reflects ha).after .allocate
  · rw [hallocated]
    exact h.nodup
  · rw [hallocated]
    unfold Ledger.Past
    rw [hepoch, hnext, hexhausted]
    exact h.past
  · rw [hallocated, hended, Session.current, hactive, htoken]
    exact h.allocated

theorem Ledger.Past.nextEpoch {l : Ledger e q} {key : BitVec e × BitVec q} (h : l.Past key) :
    l.nextEpoch.Past key := by
  unfold Ledger.nextEpoch
  by_cases hmax : l.currentEpoch = BitVec.allOnes e
  · rw [if_pos hmax]
    exact h
  · rw [if_neg hmax]
    left
    change key.1.toNat < (l.currentEpoch + 1).toNat
    rw [toNat_succ hmax]
    rcases h with hlt | ⟨heq, -⟩
    · omega
    · rw [heq]
      omega

/-- A cycle in which the active token ends. -/
theorem Tokens.finish {kind : Event} (h : Tokens x)
    (hstep : (x.regs.step io).toLedger = x.regs.toLedger.matched kind) (hactive : x.regs.active = true)
    (htouch : x.regs.touches io = some kind) (hidle : (x.regs.step io).active = false)
    (hpast : ∀ key, x.regs.Past key → (x.regs.step io).Past key) : Tokens (x.step io) := by
  obtain ⟨hallocated, -, hended⟩ := step_matched hstep hactive htouch
  have hnever : ¬ (x.step io).regs.active = true := by
    intro hon
    rw [show (x.step io).regs.active = false from hidle] at hon
    cases hon
  refine ⟨fun ha => (hnever ha).elim, fun ha => (hnever ha).elim, fun ha => (hnever ha).elim, ?_, ?_, ?_⟩
  · rw [hallocated]
    exact h.nodup
  · rw [hallocated]
    exact fun key hkey => hpast key (h.past key hkey)
  · rw [hallocated, hended, hidle, h.allocated, Session.current, Session.current, if_pos hactive, if_neg hnever,
      if_neg Bool.false_ne_true, List.map_append, List.append_nil]
    rfl

theorem Tokens.matched {kind : Event} (h : Tokens x)
    (hstep : (x.regs.step io).toLedger = x.regs.toLedger.matched kind) (hactive : x.regs.active = true)
    (htouch : x.regs.touches io = some kind) : Tokens (x.step io) := by
  cases hends : x.regs.token.ends kind with
  | true =>
    rcases Ledger.matched_of_ends _ hends with hl | hl
    · rw [hl] at hstep
      apply h.finish (hstep.trans hl.symm) hactive htouch
      · rw [hstep]
      · rw [hstep]
        exact fun _ hp => hp
    · rw [hl] at hstep
      apply h.finish (hstep.trans hl.symm) hactive htouch
      · rw [hstep, Ledger.active_nextEpoch]
      · rw [hstep]
        intro key hp
        apply Ledger.Past.nextEpoch
        exact hp
  | false =>
    cases hc : (x.regs.token.after kind).complete with
    | true =>
      have hl := Ledger.matched_of_complete _ hends hc
      rw [hl] at hstep
      apply h.finish (hstep.trans hl.symm) hactive htouch
      · rw [hstep]
      · rw [hstep]
        exact fun _ hp => hp
    | false =>
      obtain ⟨hallocated, hlive, hended⟩ := step_matched hstep hactive htouch
      rw [Ledger.matched_of_goes_on _ hends hc] at hstep
      have hon : (x.regs.step io).active = true := by
        rw [hstep]
        exact hactive
      have htoken : (x.step io).regs.token = x.regs.token.after kind := by
        change (x.regs.step io).token = _
        rw [hstep]
      have hkey : (x.regs.token.after kind).epoch = x.regs.token.epoch ∧
          (x.regs.token.after kind).sequence = x.regs.token.sequence := by
        cases kind <;> exact ⟨rfl, rfl⟩
      constructor
      · intro _
        rw [htoken, hkey.1, h.epoch hactive]
        change _ = (x.regs.step io).currentEpoch
        rw [hstep]
        rfl
      · intro _
        rw [htoken, hc]
      · intro _
        rw [htoken, hlive]
        exact (h.reflects hactive).after kind
      · rw [hallocated]
        exact h.nodup
      · rw [hallocated]
        change ∀ key ∈ x.allocated, (x.regs.step io).Past key
        rw [hstep]
        exact h.past
      · rw [hallocated, hended, if_pos hon, h.allocated, Session.current, Session.current, if_pos hactive, htoken,
          hkey.1, hkey.2]
        exact congrArg _ (if_pos hon).symm

theorem tokens_reset : Tokens ({} : Session e q) where
  epoch h := nomatch h
  incomplete h := nomatch h
  reflects h := nomatch h
  nodup := List.nodup_nil
  past := fun _ h => nomatch h
  allocated := rfl

theorem Tokens.step (h : Tokens x) (io : Input e q) : Tokens (x.step io) := by
  rcases Observer.step_cases x.regs io with
    ⟨hstep, ht, -⟩ | ⟨kind, htouch, -, hactive, hstep⟩ | ⟨hsame, htouch⟩
  · exact h.take hstep ht
  · have hl : (x.regs.step io).toLedger = x.regs.toLedger.matched kind := by
      rw [hstep]
      exact Observer.toLedger_matched (h.incomplete hactive)
    exact h.matched hl hactive htouch
  · exact h.untouched hsame htouch

theorem run_append (ios : List (Input e q)) (io : Input e q) : run (ios ++ [io]) = (run ios).step io := by
  simp [run]

theorem tokens_run (ios : List (Input e q)) : Tokens (run ios) := by
  induction ios using List.reverseRecOn with
  | nil => exact tokens_reset
  | append_singleton ios io ih =>
    rw [run_append]
    exact ih.step io

/-- The counters count the tokens, after `n` events. -/
structure Counts (x : Session e q) (n : ℕ) : Prop where
  allocated : x.regs.allocatedCount.toNat = x.allocated.length
  load : x.regs.committedLoadCount.toNat = x.ended.countP fun r => r.CommittedLoad
  store : x.regs.committedStoreCount.toNat = x.ended.countP fun r => r.CommittedStore
  nonCommitted : x.regs.nonCommittedCount.toNat = x.ended.countP fun r => r.NonCommitted
  retired : x.regs.committedLoadCount.toNat + x.regs.committedStoreCount.toNat +
    (x.regs.active && x.regs.token.retired).toNat ≤ x.regs.retireCount.toNat
  completed : x.regs.committedLoadCount.toNat + x.regs.committedStoreCount.toNat +
    (x.regs.active && x.regs.token.dCompleted).toNat ≤ x.regs.dCompletedCount.toNat
  authorized : x.regs.committedStoreCount.toNat + (x.regs.active && x.regs.token.storeAuthorized).toNat ≤
    x.regs.storeAuthorizedCount.toNat
  allocated_le : x.allocated.length ≤ n
  retired_le : x.regs.retireCount.toNat ≤ n
  completed_le : x.regs.dCompletedCount.toNat ≤ n
  authorized_le : x.regs.storeAuthorizedCount.toNat ≤ n

theorem counts_reset : Counts ({} : Session e q) 0 := by
  constructor <;> rfl

variable {n m : ℕ}

theorem Counts.untouched (h : Counts x n) (hs : Observer.Untouched x.regs.toLedger (x.regs.step io).toLedger)
    (hnm : n ≤ m) (hd : x.regs.dCompletedCount.toNat ≤ (x.regs.step io).dCompletedCount.toNat)
    (hdm : (x.regs.step io).dCompletedCount.toNat ≤ m) : Counts (x.step io) m := by
  obtain ⟨hallocated, hended, -⟩ := step_untouched hs
  have hload : (x.step io).regs.committedLoadCount = x.regs.committedLoadCount := hs.committedLoadCount
  have hstore : (x.step io).regs.committedStoreCount = x.regs.committedStoreCount := hs.committedStoreCount
  have hnon : (x.step io).regs.nonCommittedCount = x.regs.nonCommittedCount := hs.nonCommittedCount
  have hactive : (x.step io).regs.active = x.regs.active := hs.active
  have htoken : (x.step io).regs.token = x.regs.token := hs.token
  have hretire : (x.step io).regs.retireCount = x.regs.retireCount := hs.retireCount
  have hauth : (x.step io).regs.storeAuthorizedCount = x.regs.storeAuthorizedCount := hs.storeAuthorizedCount
  have hcount : (x.step io).regs.allocatedCount = x.regs.allocatedCount := hs.allocatedCount
  constructor
  · rw [hcount, hallocated, h.allocated]
  · rw [hload, hended, h.load]
  · rw [hstore, hended, h.store]
  · rw [hnon, hended, h.nonCommitted]
  · rw [hload, hstore, hactive, htoken, hretire]
    exact h.retired
  · rw [hload, hstore, hactive, htoken]
    exact h.completed.trans hd
  · rw [hstore, hactive, htoken, hauth]
    exact h.authorized
  · rw [hallocated]
    exact h.allocated_le.trans hnm
  · rw [hretire]
    exact h.retired_le.trans hnm
  · exact hdm
  · rw [hauth]
    exact h.authorized_le.trans hnm

theorem Counts.take (h : Counts x n) (hstep : x.regs.step io = x.regs.take io) (ht : x.regs.Takes io)
    (hn : n + 1 < 2 ^ 32) : Counts (x.step io) (n + 1) := by
  rw [step_take hstep ht.idle]
  have hidle := ht.idle
  have hcount : (x.regs.take io).allocatedCount.toNat = x.regs.allocatedCount.toNat + 1 :=
    toNat_tick (b := true) (h.allocated.le.trans h.allocated_le) hn
  obtain ⟨hallocated, hload, hstore, hnon, hretired, hcompleted, hauthorized, hle, hle₁, hle₂, hle₃⟩ := h
  rw [hidle] at hretired hcompleted hauthorized
  constructor
  · rw [hcount, hallocated, List.length_append, List.length_singleton]
  · exact hload
  · exact hstore
  · exact hnon
  · exact hretired
  · exact hcompleted
  · exact hauthorized
  · rw [List.length_append, List.length_singleton]
    exact Nat.succ_le_succ hle
  · exact Nat.le_succ_of_le hle₁
  · exact Nat.le_succ_of_le hle₂
  · exact Nat.le_succ_of_le hle₃

/-- The class of the token that ends is the one that its flags give. -/
theorem leaves_class (kind : Event) (h : Tokens x) (hactive : x.regs.active = true) :
    ((x.leaves kind).CommittedLoad ↔ ((x.regs.token.after kind).complete && !x.regs.token.store) = true) ∧
    ((x.leaves kind).CommittedStore ↔ ((x.regs.token.after kind).complete && x.regs.token.store) = true) := by
  have hreflects := (h.reflects hactive).after kind
  have hstore : (x.regs.token.after kind).store = x.regs.token.store := by
    cases kind <;> rfl
  have hcomplete := hreflects.complete_iff
  rw [hstore] at hcomplete
  unfold Ended.CommittedLoad Ended.CommittedStore
  rw [Bool.and_eq_true, Bool.and_eq_true, hcomplete]
  change (x.regs.token.store = false ∧ Completes (x.live ++ [kind]) ↔ _) ∧ (x.regs.token.store = true ∧ _ ↔ _)
  cases x.regs.token.store with
  | false => simp
  | true =>
    simp only [Bool.true_eq_false, false_and, Bool.not_true, Bool.false_eq_true, and_false, true_and, and_true,
      forall_const]
    exact Iff.rfl

theorem countP_concat {α : Type} {p : α → Prop} [DecidablePred p] {l : List α} {a : α} {b : Bool}
    (h : p a ↔ b = true) : (l ++ [a]).countP (fun r => p r) = (l.countP fun r => p r) + b.toNat := by
  rw [List.countP_append, List.countP_singleton]
  cases b with
  | false => simp [h]
  | true => simp [h]

/-- What the three flags of a commit become, as the counters see it. -/
theorem Token.toNat_after (token : Token e q) (kind : Event) :
    (token.after kind).retired.toNat = token.retired.toNat + (kind == .retire && !token.retired).toNat ∧
    (token.after kind).dCompleted.toNat ≤ token.dCompleted.toNat +
      ((kind == .dComplete || kind == .dError) && token.aAccepted && !token.dCompleted).toNat ∧
    (token.after kind).storeAuthorized.toNat = token.storeAuthorized.toNat +
      (kind == .storeAuthorize && token.store && !token.storeAuthorized).toNat := by
  obtain ⟨_, _, store, _, _, accepted, completed, retired, authorized⟩ := token
  cases kind
  case dComplete | dError => cases accepted <;> cases completed <;> simp [Token.after]
  case retire => cases retired <;> simp [Token.after]
  case storeAuthorize => cases store <;> cases authorized <;> simp [Token.after]
  all_goals simp [Token.after]

theorem Token.complete_le (token : Token e q) : token.complete.toNat ≤ token.retired.toNat ∧
    token.complete.toNat ≤ token.dCompleted.toNat ∧
    (token.complete && token.store).toNat ≤ token.storeAuthorized.toNat := by
  unfold Token.complete
  cases token.retired <;> cases token.dCompleted <;> cases token.store <;> cases token.storeAuthorized <;> decide

theorem Counts.matched {kind : Event} (h : Counts x n) (ht : Tokens x)
    (hstep : (x.regs.step io).toLedger = x.regs.toLedger.matched kind) (hactive : x.regs.active = true)
    (htouch : x.regs.touches io = some kind) (hn : n + 1 < 2 ^ 32) : Counts (x.step io) (n + 1) := by
  obtain ⟨hallocated, -, hended⟩ := step_matched hstep hactive htouch
  have hmoved := Ledger.moved_matched x.regs.toLedger kind (ht.incomplete hactive)
  rw [← hstep] at hmoved
  obtain ⟨hmovedA, hmovedD, hmovedR, hmovedS, hmovedL, hmovedW, hmovedN, hmovedOn, hmovedT⟩ := hmoved
  rw [hactive, Bool.true_and] at hmovedOn
  have hlen : x.ended.length + 1 = x.allocated.length := by
    rw [ht.allocated, Session.current, if_pos hactive]
    simp
  have hcount₁ : x.ended.countP (fun r => r.CommittedLoad) ≤ x.ended.length := List.countP_le_length
  have hcount₂ : x.ended.countP (fun r => r.CommittedStore) ≤ x.ended.length := List.countP_le_length
  have hcount₃ : x.ended.countP (fun r => r.NonCommitted) ≤ x.ended.length :=
    List.countP_le_length
  obtain ⟨hcA, hcL, hcW, hcN, hcR, hcD, hcS, hle, hleR, hleD, hleS⟩ := h
  -- No counter can wrap, since each counts at most one for each event.
  have hload := congrArg BitVec.toNat hmovedL
  rw [toNat_tick (by omega) hn] at hload
  have hstore := congrArg BitVec.toNat hmovedW
  rw [toNat_tick (by omega) hn] at hstore
  have hnon := congrArg BitVec.toNat hmovedN
  rw [toNat_tick (by omega) hn] at hnon
  have hretire := congrArg BitVec.toNat hmovedR
  rw [Ledger.counted, toNat_tick hleR hn] at hretire
  have hcompleted := congrArg BitVec.toNat hmovedD
  rw [Ledger.counted, toNat_tick hleD hn] at hcompleted
  have hauthorized := congrArg BitVec.toNat hmovedS
  rw [Ledger.counted, toNat_tick hleS hn] at hauthorized
  obtain ⟨hafterR, hafterD, hafterS⟩ := x.regs.token.toNat_after kind
  obtain ⟨hcompleteR, hcompleteD, hcompleteS⟩ := (x.regs.token.after kind).complete_le
  have hkeep : (x.regs.token.after kind).store = x.regs.token.store := by
    cases kind <;> rfl
  rw [hkeep] at hcompleteS
  have hsum : ((x.regs.token.after kind).complete && !x.regs.token.store).toNat +
      ((x.regs.token.after kind).complete && x.regs.token.store).toNat =
      (x.regs.token.after kind).complete.toNat := by
    cases (x.regs.token.after kind).complete <;> cases x.regs.token.store <;> rfl
  rw [hactive, Bool.true_and] at hcR hcD hcS
  -- A flag of the token that goes on, or the commit that it was needed for.
  have hflag (flag : Token e q → Bool) (b : Bool) (hb : b = true → (x.regs.token.after kind).complete = true)
      (hle : b.toNat ≤ (flag (x.regs.token.after kind)).toNat) :
      ((x.regs.step io).active && flag (x.regs.step io).token).toNat + b.toNat ≤
        (flag (x.regs.token.after kind)).toNat := by
    cases hon : (x.regs.step io).active with
    | false =>
      rw [Bool.false_and, Bool.toNat_false, Nat.zero_add]
      exact hle
    | true =>
      have hnot : b = false := by
        rw [hon] at hmovedOn
        cases b with
        | false => rfl
        | true =>
          rw [hb rfl, Bool.not_true, Bool.and_false] at hmovedOn
          cases hmovedOn
      rw [hnot, hmovedT hon, Bool.true_and, Bool.toNat_false, Nat.add_zero]
  have hflagR : ((x.regs.step io).active && (x.regs.step io).token.retired).toNat +
      (x.regs.token.after kind).complete.toNat ≤ (x.regs.token.after kind).retired.toNat :=
    hflag (·.retired) _ id hcompleteR
  have hflagD : ((x.regs.step io).active && (x.regs.step io).token.dCompleted).toNat +
      (x.regs.token.after kind).complete.toNat ≤ (x.regs.token.after kind).dCompleted.toNat :=
    hflag (·.dCompleted) _ id hcompleteD
  have hflagS : ((x.regs.step io).active && (x.regs.step io).token.storeAuthorized).toNat +
      ((x.regs.token.after kind).complete && x.regs.token.store).toNat ≤
        (x.regs.token.after kind).storeAuthorized.toNat :=
    hflag (·.storeAuthorized) _ (fun h => (Bool.and_eq_true_iff.mp h).1) hcompleteS
  have hclasses : (x.step io).regs.committedLoadCount.toNat = (x.step io).ended.countP (fun r => r.CommittedLoad) ∧
      (x.step io).regs.committedStoreCount.toNat = (x.step io).ended.countP (fun r => r.CommittedStore) ∧
      (x.step io).regs.nonCommittedCount.toNat =
        (x.step io).ended.countP (fun r => r.NonCommitted) := by
    cases hon : (x.regs.step io).active with
    | true =>
      rw [hon] at hmovedOn
      obtain ⟨hends, hc⟩ := Bool.and_eq_true_iff.mp hmovedOn.symm
      rw [Bool.not_eq_true'] at hends hc
      rw [hc] at hload hstore
      rw [hends] at hnon
      rw [hended, if_pos hon]
      exact ⟨hload.trans hcL, hstore.trans hcW, hnon.trans hcN⟩
    | false =>
      obtain ⟨hclassL, hclassW⟩ := leaves_class kind ht hactive
      have hclassN : (x.leaves kind).NonCommitted ↔ x.regs.token.ends kind = true := by
        rw [Ended.NonCommitted, hclassL, hclassW]
        cases hends : x.regs.token.ends kind with
        | true =>
          rw [Token.after_of_ends hends, ht.incomplete hactive]
          simp
        | false =>
          have hc : (x.regs.token.after kind).complete = true := by
            rw [hon, hends] at hmovedOn
            simpa using hmovedOn
          rw [hc]
          simp
      rw [hended, hon, if_neg Bool.false_ne_true, countP_concat hclassL, countP_concat hclassW, ← hcL, ← hcW,
        countP_concat hclassN, ← hcN]
      exact ⟨hload, hstore, hnon⟩
  obtain ⟨hclassL, hclassW, hclassN⟩ := hclasses
  refine ⟨?_, hclassL, hclassW, hclassN, ?_, ?_, ?_, ?_, ?_, ?_, ?_⟩
  · rw [hallocated, ← hcA]
    exact congrArg BitVec.toNat hmovedA
  · change (x.regs.step io).committedLoadCount.toNat + (x.regs.step io).committedStoreCount.toNat +
      ((x.regs.step io).active && (x.regs.step io).token.retired).toNat ≤ (x.regs.step io).retireCount.toNat
    rw [hload, hstore, hretire]
    omega
  · change (x.regs.step io).committedLoadCount.toNat + (x.regs.step io).committedStoreCount.toNat +
      ((x.regs.step io).active && (x.regs.step io).token.dCompleted).toNat ≤ (x.regs.step io).dCompletedCount.toNat
    rw [hload, hstore, hcompleted]
    omega
  · change (x.regs.step io).committedStoreCount.toNat +
      ((x.regs.step io).active && (x.regs.step io).token.storeAuthorized).toNat ≤
        (x.regs.step io).storeAuthorizedCount.toNat
    rw [hstore, hauthorized]
    omega
  · rw [hallocated]
    exact Nat.le_succ_of_le hle
  · exact hretire.le.trans (Nat.add_le_add hleR (Bool.toNat_le _))
  · exact hcompleted.le.trans (Nat.add_le_add hleD (Bool.toNat_le _))
  · exact hauthorized.le.trans (Nat.add_le_add hleS (Bool.toNat_le _))

theorem Counts.step (h : Counts x n) (ht : Tokens x) (io : Input e q) (hn : n + 1 < 2 ^ 32) :
    Counts (x.step io) (n + 1) := by
  rcases Observer.step_cases x.regs io with
    ⟨hstep, htakes, -⟩ | ⟨kind, htouch, -, hactive, hstep⟩ | ⟨hsame, -⟩
  · exact h.take hstep htakes hn
  · have hl : (x.regs.step io).toLedger = x.regs.toLedger.matched kind := by
      rw [hstep]
      exact Observer.toLedger_matched (ht.incomplete hactive)
    exact h.matched ht hl hactive htouch hn
  · obtain ⟨b, hb⟩ := hsame.dCompletedCount
    have hd := congrArg BitVec.toNat hb
    rw [toNat_tick h.completed_le hn] at hd
    apply h.untouched hsame (Nat.le_succ n)
    · omega
    · exact hd.le.trans (Nat.add_le_add h.completed_le (Bool.toNat_le _))

/-- A cycle without an event moves no counter. -/
theorem Counts.quiet (h : Counts x n) (hio : io.eventValid = false) : Counts (x.step io) n := by
  have hstep : x.regs.step io = x.regs := by
    unfold Observer.step
    rw [hio]
    rfl
  apply h.untouched
  · rw [hstep]
    exact Observer.untouched_refl _
  · exact Nat.le_refl n
  · rw [hstep]
  · rw [hstep]
    exact h.completed_le

theorem counts_run (ios : List (Input e q)) (hcount : ios.countP (·.eventValid) < 2 ^ 32) :
    Counts (run ios) (ios.countP (·.eventValid)) := by
  induction ios using List.reverseRecOn with
  | nil => exact counts_reset
  | append_singleton ios io ih =>
    rw [List.countP_append, List.countP_singleton] at hcount ⊢
    rw [run_append]
    cases hio : io.eventValid with
    | false =>
      rw [hio, if_neg Bool.false_ne_true, Nat.add_zero] at hcount
      exact (ih hcount).quiet hio
    | true =>
      rw [hio, if_pos rfl] at hcount
      exact (ih (by omega)).step (tokens_run ios) io hcount

/-- Every token that has ended is in exactly one class. -/
theorem length_eq_classes (l : List (Ended e q)) : l.length = (l.countP fun r => r.CommittedLoad) +
    (l.countP fun r => r.CommittedStore) + l.countP fun r => r.NonCommitted := by
  induction l with
  | nil => rfl
  | cons r l ih =>
    simp only [List.countP_cons, List.length_cons]
    by_cases hload : r.CommittedLoad
    · have hstore : ¬ r.CommittedStore := by
        intro hstore
        cases hload.1.symm.trans hstore.1
      have hnon : ¬ r.NonCommitted := fun h => h.1 hload
      simp only [hload, hstore, hnon, decide_true, decide_false, if_true, if_false, Bool.false_eq_true]
      omega
    · by_cases hstore : r.CommittedStore
      · have hnon : ¬ r.NonCommitted := fun h => h.2 hstore
        simp only [hload, hstore, hnon, decide_true, decide_false, if_true, if_false, Bool.false_eq_true]
        omega
      · have hnon : r.NonCommitted := ⟨hload, hstore⟩
        simp only [hload, hstore, hnon, decide_true, decide_false, if_true, if_false, Bool.false_eq_true]
        omega

/-- The module's assertions follow from what the counters count. -/
theorem Counts.asserts (h : Counts x n) (ht : Tokens x) (hn : n < 2 ^ 32) : x.regs.Asserts := by
  have hsum : x.regs.committedLoadCount.toNat + x.regs.committedStoreCount.toNat ≤ x.regs.retireCount.toNat :=
    (Nat.le_add_right _ _).trans h.retired
  have hadd : (x.regs.committedLoadCount + x.regs.committedStoreCount).toNat =
      x.regs.committedLoadCount.toNat + x.regs.committedStoreCount.toNat := by
    rw [BitVec.toNat_add]
    exact Nat.mod_eq_of_lt (Nat.lt_of_le_of_lt (hsum.trans h.retired_le) hn)
  constructor
  · rw [BitVec.le_def, hadd]
    exact hsum
  · rw [BitVec.le_def, hadd]
    exact (Nat.le_add_right _ _).trans h.completed
  · rw [BitVec.le_def]
    exact (Nat.le_add_right _ _).trans h.authorized
  · have htokens := congrArg List.length ht.allocated
    rw [List.length_append, List.length_map, length_eq_classes, ← h.load, ← h.store, ← h.nonCommitted,
      ← h.allocated] at htokens
    have hle := h.allocated.le.trans h.allocated_le
    apply BitVec.eq_of_toNat_eq
    unfold Session.current at htokens
    rw [BitVec.toNat_add, BitVec.toNat_add, hadd, Nat.mod_add_mod]
    cases hactive : x.regs.active with
    | false =>
      rw [hactive, if_neg Bool.false_ne_true, List.length_nil] at htokens
      change _ = (_ + 0) % 2 ^ 32
      rw [Nat.mod_eq_of_lt (by omega)]
      exact htokens
    | true =>
      rw [hactive, if_pos rfl, List.length_singleton] at htokens
      change _ = (_ + 1) % 2 ^ 32
      rw [Nat.mod_eq_of_lt (by omega)]
      exact htokens
  · exact ht.epoch

/-- The ledger in every cycle of every run with fewer than `2 ^ 32` events: the module's assertions hold, no token is
taken twice, tokens end one by one in the order in which they were taken, the counters count them by the events that
they saw, and an event that does not match the active token changes neither. -/
theorem ledger_invariant (ios : List (Input e q)) (hcount : ios.countP (·.eventValid) < 2 ^ 32) :
    (run ios).regs.Asserts ∧ (run ios).allocated.Nodup ∧
    (run ios).allocated = (run ios).ended.map Ended.key ++ (run ios).current ∧
    (run ios).regs.committedLoadCount.toNat = (run ios).ended.countP (fun r => r.CommittedLoad) ∧
    (run ios).regs.committedStoreCount.toNat = (run ios).ended.countP (fun r => r.CommittedStore) ∧
    (run ios).regs.nonCommittedCount.toNat = (run ios).ended.countP (fun r => r.NonCommitted) ∧
    ∀ io, (run ios).regs.eventMatchesActive io = false →
      ((run ios).regs.active = true → (run (ios ++ [io])).regs.active = true ∧
        (run (ios ++ [io])).regs.token = (run ios).regs.token) ∧
      (run (ios ++ [io])).regs.committedLoadCount = (run ios).regs.committedLoadCount ∧
      (run (ios ++ [io])).regs.committedStoreCount = (run ios).regs.committedStoreCount ∧
      (run (ios ++ [io])).regs.nonCommittedCount = (run ios).regs.nonCommittedCount := by
  have ht := tokens_run ios
  have hc := counts_run ios hcount
  refine ⟨hc.asserts ht hcount, ht.nodup, ht.allocated, hc.load, hc.store, hc.nonCommitted, ?_⟩
  intro io hm
  rw [run_append]
  exact Observer.step_frame hm

/-- The events of a load that commits: it retires before its D completes. -/
def committingLoad : List (Input 2 2) :=
  ([0, 1, 4, 7, 5] : List (BitVec 4)).map fun kind => {
    eventValid := true
    eventKind := kind
    metadataPresent := true
    eventEpoch := 1
    eventSequence := 1
    eventStore := false
    eventPc := 0 }

theorem ledger_invariant_load : (run committingLoad).regs.Asserts ∧
    (run committingLoad).regs.committedLoadCount.toNat = 1 := by
  have hcount : committingLoad.countP (·.eventValid) < 2 ^ 32 :=
    Nat.lt_of_le_of_lt List.countP_le_length (by simp [committingLoad])
  have h := ledger_invariant committingLoad hcount
  exact ⟨h.1, by decide +kernel⟩

end Raveil.Rocket
