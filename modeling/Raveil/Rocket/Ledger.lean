import Raveil.Rocket.Observer

/-! What one cycle of the observer does to the ledger, in terms of the active token. -/
namespace Raveil.Rocket

variable {e q : ℕ}

def tick (b : Bool) (count : BitVec 32) : BitVec 32 := if b then count + 1 else count

theorem toNat_tick {b : Bool} {count : BitVec 32} {n : ℕ} (h : count.toNat ≤ n) (hn : n + 1 < 2 ^ 32) :
    (tick b count).toNat = count.toNat + b.toNat := by
  cases b with
  | false => rfl
  | true =>
    change (count + 1).toNat = count.toNat + 1
    rw [BitVec.toNat_add]
    exact Nat.mod_eq_of_lt (by change count.toNat + 1 < 2 ^ 32; omega)

/-- The flags of a token after an event of its own that does not end it. -/
def Token.after (token : Token e q) : Event → Token e q
  | .coreAttempt => { token with coreAttempt := true }
  | .aAccept => { token with aAccepted := token.aAccepted || token.coreAttempt }
  | .dComplete => { token with dCompleted := token.dCompleted || token.aAccepted }
  | .retire => { token with retired := true }
  | .storeAuthorize => { token with storeAuthorized := token.storeAuthorized || token.store }
  | _ => token

/-- Everything that a commit asks of a token. -/
def Token.complete (token : Token e q) : Bool :=
  token.dCompleted && token.retired && (!token.store || token.storeAuthorized)

/-- The events that end a token without a commit. -/
def Token.ends (token : Token e q) : Event → Bool
  | .kill | .exception | .redirect | .rollback | .resetInvalidate => true
  | .dError => token.aAccepted && !token.dCompleted
  | _ => false

/-- An event that ends a token sets no flag that a commit asks for. -/
theorem Token.after_of_ends {token : Token e q} {kind : Event} (h : token.ends kind = true) :
    token.after kind = token := by
  cases kind <;> first | rfl | exact nomatch h

/-- The step to the next epoch, where there is one. -/
def Ledger.nextEpoch (l : Ledger e q) : Ledger e q :=
  if l.currentEpoch = BitVec.allOnes e then l
  else { l with currentEpoch := l.currentEpoch + 1, nextSequence := 1, sequenceExhausted := false }

/-- The counters that one event of the active token moves. -/
def Ledger.counted (l : Ledger e q) (kind : Event) : Ledger e q :=
  { l with
    dCompletedCount :=
      tick ((kind == .dComplete || kind == .dError) && l.token.aAccepted && !l.token.dCompleted) l.dCompletedCount
    retireCount := tick (kind == .retire && !l.token.retired) l.retireCount
    storeAuthorizedCount :=
      tick (kind == .storeAuthorize && l.token.store && !l.token.storeAuthorized) l.storeAuthorizedCount }

/-- What the token of a ledger becomes when it ends; its flags are not read again. -/
def Token.last (token : Token e q) (kind : Event) : Token e q :=
  if kind = .dError then { token with dCompleted := true } else token

/-- The ledger after an event of its active token: the token ends, or it commits, or it goes on. -/
def Ledger.matched (l : Ledger e q) (kind : Event) : Ledger e q :=
  let counted := l.counted kind
  if l.token.ends kind then
    let ended := { counted with
      active := false, token := l.token.last kind, nonCommittedCount := counted.nonCommittedCount + 1 }
    if kind = .redirect ∨ kind = .resetInvalidate then ended.nextEpoch else ended
  else if (l.token.after kind).complete then
    { counted with
      active := false
      token := l.token.after kind
      committedLoadCount := tick (!l.token.store) counted.committedLoadCount
      committedStoreCount := tick l.token.store counted.committedStoreCount }
  else { counted with token := l.token.after kind }

section Matched

variable (l : Ledger e q) (kind : Event)

@[simp] theorem Ledger.allocatedCount_nextEpoch : l.nextEpoch.allocatedCount = l.allocatedCount := by
  unfold nextEpoch
  split <;> rfl

@[simp] theorem Ledger.active_nextEpoch : l.nextEpoch.active = l.active := by
  unfold nextEpoch
  split <;> rfl

/-- An event that ends the token counts one token that was not committed. -/
theorem Ledger.matched_of_ends {kind : Event} (h : l.token.ends kind = true) :
    let ended : Ledger e q := { l.counted kind with
      active := false, token := l.token.last kind, nonCommittedCount := l.nonCommittedCount + 1 }
    l.matched kind = ended ∨ l.matched kind = ended.nextEpoch := by
  unfold matched
  dsimp only
  rw [if_pos h]
  split
  · exact .inr rfl
  · exact .inl rfl

theorem Ledger.matched_of_complete {kind : Event} (h : l.token.ends kind = false)
    (hc : (l.token.after kind).complete = true) : l.matched kind = { l.counted kind with
      active := false
      token := l.token.after kind
      committedLoadCount := tick (!l.token.store) l.committedLoadCount
      committedStoreCount := tick l.token.store l.committedStoreCount } := by
  unfold matched
  dsimp only
  rw [h, if_neg Bool.false_ne_true, if_pos hc]
  rfl

theorem Ledger.matched_of_goes_on {kind : Event} (h : l.token.ends kind = false)
    (hc : (l.token.after kind).complete = false) :
    l.matched kind = { l.counted kind with token := l.token.after kind } := by
  unfold matched
  dsimp only
  rw [h, if_neg Bool.false_ne_true, hc, if_neg Bool.false_ne_true]

theorem Ledger.allocatedCount_matched : (l.matched kind).allocatedCount = l.allocatedCount := by
  unfold matched
  dsimp only
  split
  · split
    · rw [allocatedCount_nextEpoch]
      rfl
    · rfl
  · split <;> rfl

/-- The counters after an event of the active token, and whether the token goes on. -/
structure Ledger.Moved (l : Ledger e q) (kind : Event) (l' : Ledger e q) : Prop where
  allocatedCount : l'.allocatedCount = l.allocatedCount
  dCompletedCount : l'.dCompletedCount = (l.counted kind).dCompletedCount
  retireCount : l'.retireCount = (l.counted kind).retireCount
  storeAuthorizedCount : l'.storeAuthorizedCount = (l.counted kind).storeAuthorizedCount
  committedLoadCount :
    l'.committedLoadCount = tick ((l.token.after kind).complete && !l.token.store) l.committedLoadCount
  committedStoreCount :
    l'.committedStoreCount = tick ((l.token.after kind).complete && l.token.store) l.committedStoreCount
  nonCommittedCount : l'.nonCommittedCount = tick (l.token.ends kind) l.nonCommittedCount
  active : l'.active = (l.active && !l.token.ends kind && !(l.token.after kind).complete)
  token : l'.active = true → l'.token = l.token.after kind

theorem Ledger.Moved.nextEpoch {l l' : Ledger e q} {kind : Event} (h : l.Moved kind l') : l.Moved kind l'.nextEpoch := by
  unfold Ledger.nextEpoch
  split
  · exact h
  · exact ⟨h.1, h.2, h.3, h.4, h.5, h.6, h.7, h.8, h.9⟩

theorem Ledger.moved_matched (h : l.token.complete = false) : l.Moved kind (l.matched kind) := by
  cases hends : l.token.ends kind with
  | true =>
    have hended : l.Moved kind { l.counted kind with
        active := false, token := l.token.last kind, nonCommittedCount := l.nonCommittedCount + 1 } := by
      refine ⟨rfl, rfl, rfl, rfl, ?_, ?_, ?_, ?_, fun ha => nomatch ha⟩
      · rw [Token.after_of_ends hends, h]
        rfl
      · rw [Token.after_of_ends hends, h]
        rfl
      · rw [hends]
        rfl
      · simp [hends]
    rcases Ledger.matched_of_ends l hends with hl | hl
    · rw [hl]
      exact hended
    · rw [hl]
      exact hended.nextEpoch
  | false =>
    cases hc : (l.token.after kind).complete with
    | true =>
      rw [Ledger.matched_of_complete l hends hc]
      refine ⟨rfl, rfl, rfl, rfl, ?_, ?_, ?_, ?_, fun ha => nomatch ha⟩
      · rw [hc]
        rfl
      · rw [hc]
        rfl
      · rw [hends]
        rfl
      · simp [hc]
    | false =>
      rw [Ledger.matched_of_goes_on l hends hc]
      refine ⟨rfl, rfl, rfl, rfl, ?_, ?_, ?_, ?_, fun _ => rfl⟩
      · rw [hc]
        rfl
      · rw [hc]
        rfl
      · rw [hends]
        rfl
      · rw [hends, hc, Bool.not_false, Bool.and_true, Bool.and_true]
        rfl

end Matched

namespace Observer

variable {s t : Observer e q} {io : Input e q} {code : Violation} {unknown : Bool} {kind : Event}

@[simp] theorem toLedger_recordViolation : (s.recordViolation io code unknown t).toLedger = t.toLedger := rfl

theorem toLedger_newEpoch : (s.newEpoch io).toLedger =
    { s.toLedger with active := false, nonCommittedCount := s.nonCommittedCount + 1 }.nextEpoch := by
  unfold newEpoch Ledger.nextEpoch
  dsimp only
  split <;> rfl

theorem toLedger_commit : (s.commit kind t).toLedger =
    if s.loadWillCommit kind || s.storeWillCommit kind then
      { t.toLedger with
        active := false
        committedLoadCount := if s.loadWillCommit kind then s.committedLoadCount + 1 else t.committedLoadCount
        committedStoreCount := if s.loadWillCommit kind then t.committedStoreCount else s.committedStoreCount + 1 }
    else t.toLedger := by
  unfold commit
  split <;> rfl

/-- A token that was not complete commits in the cycle that completes it, and in no other. -/
theorem willCommit_iff (kind : Event) (h : s.token.complete = false) :
    s.loadWillCommit kind = ((s.token.after kind).complete && !s.token.store) ∧
    s.storeWillCommit kind = ((s.token.after kind).complete && s.token.store) := by
  unfold loadWillCommit storeWillCommit commitEligibleEvent validDCompletion validRetirement validStoreAuthorization
  unfold Token.complete at h ⊢
  generalize s.token = token at h ⊢
  obtain ⟨_, _, store, _, _, accepted, completed, retired, authorized⟩ := token
  dsimp only at h ⊢
  cases kind
  case dComplete | retire | storeAuthorize =>
    dsimp only [Token.after]
    revert h
    cases store <;> cases accepted <;> cases completed <;> cases retired <;> cases authorized <;> decide
  all_goals simp [Token.after, h]

/-- The switch on an event's kind, on the ledger. -/
theorem toLedger_effect (s : Observer e q) (io : Input e q) (kind : Event) : (s.effect io kind).toLedger =
    if s.token.ends kind then
      let ended : Ledger e q := { s.toLedger.counted kind with
        active := false, token := s.token.last kind, nonCommittedCount := s.nonCommittedCount + 1 }
      if kind = .redirect ∨ kind = .resetInvalidate then ended.nextEpoch else ended
    else { s.toLedger.counted kind with token := s.token.after kind } := by
  cases kind
  case redirect | resetInvalidate => exact toLedger_newEpoch
  case kill | exception | rollback | allocate | coreReplay | dcacheRetry =>
    unfold effect
    repeat' split
    all_goals first | rfl | contradiction
  -- The rest look at one or two flags of the token, whose values decide the branch.
  all_goals
    obtain ⟨⟨_, _, _, _, ⟨_, _, store, _, attempt, accepted, completed, retired, authorized⟩, _, _, _, _, _, _, _⟩, _, _,
      _, _, _, _, _, _, _, _, _, _, _, _, _, _, _⟩ := s
  case coreAttempt => cases attempt <;> rfl
  case aAccept => cases attempt <;> cases accepted <;> rfl
  case dComplete => cases accepted <;> cases completed <;> rfl
  case dError => cases accepted <;> cases completed <;> rfl
  case retire => cases retired <;> rfl
  case storeAuthorize => cases store <;> cases authorized <;> rfl

/-- An event of the active token, as long as that token has not committed. -/
theorem toLedger_matched (h : s.token.complete = false) :
    (s.commit kind (s.effect io kind)).toLedger = s.toLedger.matched kind := by
  obtain ⟨hload, hstore⟩ := willCommit_iff kind h
  have heffect := toLedger_effect s io kind
  rw [toLedger_commit]
  unfold Ledger.matched
  cases hends : s.token.ends kind with
  | true =>
    rw [Token.after_of_ends hends, h] at hload hstore
    rw [hload, hstore, if_neg (by simp), heffect, hends]
    rfl
  | false =>
    rw [hends, if_neg Bool.false_ne_true] at heffect
    rw [if_neg Bool.false_ne_true, heffect]
    rw [hload, hstore]
    dsimp only
    cases (s.token.after kind).complete with
    | false => rfl
    | true => cases s.token.store <;> rfl

/-- The ledger keeps everything but the count of completions, which outcomes without a live token move too. -/
structure Untouched (l l' : Ledger e q) : Prop where
  currentEpoch : l'.currentEpoch = l.currentEpoch
  nextSequence : l'.nextSequence = l.nextSequence
  sequenceExhausted : l'.sequenceExhausted = l.sequenceExhausted
  active : l'.active = l.active
  token : l'.token = l.token
  allocatedCount : l'.allocatedCount = l.allocatedCount
  dCompletedCount : ∃ b, l'.dCompletedCount = tick b l.dCompletedCount
  retireCount : l'.retireCount = l.retireCount
  storeAuthorizedCount : l'.storeAuthorizedCount = l.storeAuthorizedCount
  committedLoadCount : l'.committedLoadCount = l.committedLoadCount
  committedStoreCount : l'.committedStoreCount = l.committedStoreCount
  nonCommittedCount : l'.nonCommittedCount = l.nonCommittedCount

theorem untouched_tick (l : Ledger e q) (b : Bool) :
    Untouched l { l with dCompletedCount := tick b l.dCompletedCount } :=
  ⟨rfl, rfl, rfl, rfl, rfl, rfl, ⟨b, rfl⟩, rfl, rfl, rfl, rfl, rfl⟩

theorem untouched_refl (l : Ledger e q) : Untouched l l := untouched_tick l false

theorem untouched_unmatched (kind : Event) : Untouched s.toLedger (s.unmatched io kind).toLedger := by
  unfold unmatched
  dsimp only
  split
  · split
    · exact untouched_tick _ true
    · exact untouched_refl _
  · split
    · split
      · exact untouched_tick _ true
      · exact untouched_refl _
    · exact untouched_refl _

/-- A token can be taken. -/
structure Takes (s : Observer e q) (io : Input e q) : Prop where
  idle : s.active = false
  unexhausted : s.sequenceExhausted = false
  epoch : io.eventEpoch = s.currentEpoch
  sequence : io.eventSequence = s.nextSequence

theorem allocate_cases (s : Observer e q) (io : Input e q) :
    s.allocate io = s.take io ∧ s.Takes io ∨ Untouched s.toLedger (s.allocate io).toLedger := by
  unfold allocate
  split
  · exact .inr (untouched_refl _)
  · split
    · exact .inr (untouched_refl _)
    · split
      · exact .inr (untouched_refl _)
      · split
        · exact .inr (untouched_refl _)
        · split
          · exact .inr (untouched_refl _)
          · split
            · exact .inr (untouched_refl _)
            · rename_i hactive hexhausted _ hepoch hsequence
              refine .inl ⟨rfl, ?_, ?_, ?_, ?_⟩
              · simpa using hactive
              · simpa using hexhausted
              · exact not_not.mp hepoch
              · exact not_not.mp hsequence

/-- The event that a cycle brings to the active token. -/
def touches (s : Observer e q) (io : Input e q) : Option Event :=
  if io.eventValid && s.eventMatchesActive io then Event.ofCode io.eventKind else none

theorem matches_iff : s.eventMatchesActive io = true ↔ s.active = true ∧ io.metadataPresent = true ∧
    io.eventEpoch = s.token.epoch ∧ io.eventSequence = s.token.sequence := by
  simp [eventMatchesActive, and_assoc]

/-- Everything that one cycle can do: it takes a token, it brings an event to the active one, or it leaves the ledger
alone. -/
theorem step_cases (s : Observer e q) (io : Input e q) : s.step io = s.take io ∧ s.Takes io ∧ s.touches io = none ∨
    (∃ kind, s.touches io = some kind ∧ kind ≠ .allocate ∧ s.active = true ∧
      s.step io = s.commit kind (s.effect io kind)) ∨
    Untouched s.toLedger (s.step io).toLedger ∧
      (s.touches io = none ∨ s.active = true ∧ s.touches io = some .allocate) := by
  unfold step touches
  cases hvalid : io.eventValid with
  | false => exact .inr (.inr ⟨untouched_refl _, .inl rfl⟩)
  | true =>
    rw [if_pos rfl, Bool.true_and]
    cases hkind : Event.ofCode io.eventKind with
    | none => exact .inr (.inr ⟨untouched_refl _, .inl (by split <;> rfl)⟩)
    | some kind =>
      dsimp only
      by_cases halloc : kind = .allocate
      · subst halloc
        rw [if_pos rfl]
        rcases allocate_cases s io with ⟨htake, htakes⟩ | hsame
        · refine .inl ⟨htake, htakes, ?_⟩
          rw [if_neg (by simp [matches_iff, htakes.idle])]
        · refine .inr (.inr ⟨hsame, ?_⟩)
          split
          case isTrue hm => exact .inr ⟨(matches_iff.mp hm).1, rfl⟩
          case isFalse => exact .inl rfl
      · rw [if_neg halloc]
        by_cases hm : s.eventMatchesActive io = true
        · obtain ⟨hactive, hmeta, -⟩ := matches_iff.mp hm
          refine .inr (.inl ⟨kind, if_pos hm, halloc, hactive, ?_⟩)
          rw [hmeta, Bool.not_true, if_neg Bool.false_ne_true, if_pos hm]
        · refine .inr (.inr ⟨?_, .inl (if_neg hm)⟩)
          rw [if_neg hm]
          split
          · exact untouched_refl _
          · exact untouched_unmatched kind

/-- An event that does not match the active token leaves it, and all counts of ended tokens, as they are. -/
theorem step_frame (h : s.eventMatchesActive io = false) :
    (s.active = true → (s.step io).active = true ∧ (s.step io).token = s.token) ∧
    (s.step io).committedLoadCount = s.committedLoadCount ∧
    (s.step io).committedStoreCount = s.committedStoreCount ∧
    (s.step io).nonCommittedCount = s.nonCommittedCount := by
  rcases step_cases s io with ⟨hstep, htakes, -⟩ | ⟨kind, htouch, -⟩ | ⟨hsame, -⟩
  · rw [hstep]
    refine ⟨?_, rfl, rfl, rfl⟩
    intro hactive
    rw [htakes.idle] at hactive
    cases hactive
  · unfold touches at htouch
    rw [h, Bool.and_false] at htouch
    cases htouch
  · refine ⟨fun ha => ⟨hsame.active.trans ha, hsame.token⟩, ?_, ?_, ?_⟩
    · exact hsame.committedLoadCount
    · exact hsame.committedStoreCount
    · exact hsame.nonCommittedCount

end Observer

end Raveil.Rocket
