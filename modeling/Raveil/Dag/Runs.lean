import Raveil.Dag.Simulation
import Raveil.Dag.Agreement

/-! Every byte string on the guest: which are run, what the run says, and what it never does. -/
namespace Raveil.Dag
open Raveil.Lib Raveil.Fold Raveil.Authority Raveil.Dispatch

variable {caps : Caps} {p : List UInt8} {n i k : ℕ} {g : Guest} {s : State} {r : Run} {rx : ℕ → ℕ → Option Char}

theorem Run.upTo_succ (p : List UInt8) (rx : ℕ → ℕ → Option Char) (k : ℕ) :
    Run.upTo p rx (k + 1) = Run.step p rx (Run.upTo p rx k) k := by
  unfold Run.upTo
  rw [List.range_succ, List.foldl_append]
  rfl

/-- The guest starts with the versions of a fresh store. -/
theorem Sim.start (h : Accepted p n) (hcaps : Authorized caps s) :
    ∃ g, guestStart caps (decoded p) s = some g ∧ Sim caps p g (Run.start p) := by
  have hepoch : 0 < word64 p 16 ∧ word64 p 16 < 2 ^ 64 := ⟨Nat.pos_of_ne_zero h.header.epoch, word64_lt p 16⟩
  obtain ⟨t, hprepare, hready⟩ := @ready_prepare _ _ 8 _ le_rfl hcaps hepoch
  have hready' : Ready caps (word64 p 16) 8 Store.initial.versions Store.initial.banks 0 t := hready
  let g0 : Guest := ⟨t, fun _ => 1, fun _ _ => 0, fun _ => false, fun _ _ => 0, fun _ _ => 0, 0, 0, []⟩
  have hread : readState g0 = ({ g0 with published := readBack .initial g0 }, true) :=
    readState_eq hready' rfl fun _ _ _ _ => rfl
  refine ⟨({ g0 with published := readBack .initial g0 } : Guest).say
    (.start (word64 p 16) (word p 12) (word p 24) Store.initial.versionList), ?_, ?_⟩
  · unfold guestStart
    have hprepare' : prepare caps (decoded p).epoch 8 s = some t := hprepare
    rw [hprepare']
    simp only [Option.bind_eq_bind, Option.bind_some]
    change (if _ then _ else _) = _
    rw [hread]
    have hused : g0.authority.planeExperienceUsed = 0 := hready'.used
    exact if_neg (by simp [hused])
  · refine ⟨hready', ⟨rfl, fun _ _ _ _ => rfl, fun _ => rfl, fun _ _ _ hp => ?_⟩, fun slot hslot j hj => ?_, rfl, rfl, rfl⟩
    · cases hp
    · exact if_pos ⟨hslot, hj⟩

theorem RunOk.start (p : List UInt8) : RunOk p 0 (Run.start p) := ⟨.initial p, fun _ => rfl⟩

/-- Both loops over the first `k` jobs. -/
theorem Sim.run (h : Accepted p n) (hs : Sim caps p g (Run.start p)) (hk : k ≤ word p 12) :
    Sim caps p (guestLoop caps p (decoded p) rx g k) (Run.upTo p rx k) ∧ RunOk p k (Run.upTo p rx k) := by
  induction k with
  | zero => exact ⟨hs, .start p⟩
  | succ k ih =>
    obtain ⟨hsim, hok⟩ := ih (by omega)
    rw [guestLoop, List.range_succ, List.foldl_append, Run.upTo_succ]
    exact ⟨hsim.step h (by omega) hok, hok.step h (by omega)⟩

theorem RunOk.upTo (h : Accepted p n) (hk : k ≤ word p 12) : RunOk p k (Run.upTo p rx k) := by
  induction k with
  | zero => exact .start p
  | succ k ih =>
    rw [Run.upTo_succ]
    exact (ih (by omega)).step h (by omega)

section Finish

variable (h : Accepted p n) (hok : RunOk p (word p 12) r)

include h hok

/-- An available job is read back whole. -/
theorem Sim.output_eq (hs : Sim caps p g r) (hi : i < word p 12) (hav : r.store.available p i = true) :
    ((List.range (cellsAt p i)).map fun j => g.published ((decoded p).destination i (j / 128)) (j % 128)) =
      r.store.value i := by
  cases hp : r.store.producers i with
  | none => simp [Store.available, hp] at hav
  | some saved =>
    obtain ⟨vs, out⟩ := saved
    have hvalue : r.store.value i = out := by simp [Store.value, hp]
    have hout : out = composed p (word p 12) i := (hok.store.saved i vs out hp).2
    rw [hvalue]
    refine output_words hi ?_ fun j hj m hm => ?_
    · rw [hout]
      exact (composed_ok h le_rfl hi).1
    · rw [hs.published _ (h.slot_lt hi hj) m hm, hok.store.held_of_available h le_rfl hp hav hj]

/-- The closing lines. -/
theorem Sim.finish (hs : Sim caps p g r) : (guestFinish p (decoded p) g).log = r.finish p := by
  have hi : word p 24 < word p 12 := h.header.output.1
  have hav : available (decoded p) g (decoded p).output = r.store.available p (word p 24) :=
    available_eq h hok.store hs.books hi
  have hdecode : raveilFoldDecode (p.drop ((decoded p).offsets (decoded p).output))
      ((decoded p).lengths (decoded p).output) = _ := decode_decoded h hi
  have hversions : g.versionList = r.store.versionList := by
    unfold Guest.versionList
    rw [hs.books.versions]
    rfl
  unfold guestFinish Run.finish
  rw [hdecode, hav]
  dsimp only
  have houtput : r.store.available p (word p 24) = true → ((List.range (cellsAt p (word p 24))).map fun j =>
      g.published ((decoded p).destination (word p 24) (j / 128)) (j % 128)) = r.store.value (word p 24) :=
    hs.output_eq h hok hi
  change g.log ++ [_] ++ [.finish _ g.processed _ g.halted g.versionList] = r.log ++ [_, _]
  rw [hs.log, hs.processed, hs.halted, hversions, List.append_assoc]
  cases hok' : r.store.available p (word p 24) with
  | true =>
    have hout := houtput hok'
    simp only [if_true] at hout ⊢
    rw [← hout]
    rfl
  | false => rfl

end Finish

section Answers

theorem composed_of_lt (hik : i < k) (hkn : k ≤ n) : composed p n i = composed p k i := by
  induction n with
  | zero => omega
  | succ n ih =>
    obtain hle | rfl : k ≤ n ∨ k = n + 1 := by omega
    · rw [composed_succ_of_ne (by omega)]
      exact ih hle
    · rfl

/-- How the device answers job `i` when every job before it succeeded. -/
def answerAt (p : List UInt8) (rx : ℕ → ℕ → Option Char) (i : ℕ) : Outcome :=
  outcome (rx i) (idAt p i) (word64 p 16) (i + 1) (Run.cookieAt p i) (composed p (word p 12) i)

/-- The committed jobs are the processed ones that the device answered correctly. -/
structure Answered (p : List UInt8) (rx : ℕ → ℕ → Option Char) (k : ℕ) (r : Run) : Prop where
  bound : r.processed ≤ k
  halted : r.halted = 0 ∨ r.halted = 1 ∨ r.halted = 3
  committed : ∀ i, (r.store.producers i).isSome ↔ i < r.processed ∧ answerAt p rx i = .correct

theorem RunOk.expected_eq (hk : k < word p 12) (hok : RunOk p k r)
    (hbad : r.store.badSource p k = none) :
    r.store.expected p k = composed p (word p 12) k ∧ Run.outcomeAt p rx r.store k = answerAt p rx k := by
  have hexpected : r.store.expected p k = composed p (word p 12) k := by
    rw [hok.store.expected_eq hbad, composed_of_lt (Nat.lt_succ_self k) hk]
  refine ⟨hexpected, ?_⟩
  rw [Run.outcomeAt, hexpected, answerAt]

theorem Answered.step (hk : k < word p 12) (hok : RunOk p k r) (ha : Answered p rx k r) :
    Answered p rx (k + 1) (Run.step p rx r k) := by
  have hbound := ha.bound
  unfold Run.step
  by_cases hrun : r.halted ≠ 0
  · rw [if_pos hrun]
    exact ⟨by omega, ha.halted, ha.committed⟩
  · have hprocessed := hok.running (not_not.mp hrun)
    rw [if_neg hrun]
    cases hbad : r.store.badSource p k with
    | some bad => exact ⟨by dsimp only; omega, Or.inr (Or.inr rfl), ha.committed⟩
    | none =>
      obtain ⟨-, hanswer⟩ := @RunOk.expected_eq _ _ _ rx hk hok hbad
      refine ⟨by dsimp only; omega, ?_, fun i => ?_⟩
      · dsimp only
        split
        · exact Or.inr (Or.inl rfl)
        · exact Or.inl rfl
      · have hcommitted := ha.committed i
        rw [hprocessed] at hcommitted ⊢
        change ((Run.settle p rx r.store k).producers i).isSome = true ↔ i < k + 1 ∧ answerAt p rx i = .correct
        unfold Run.settle
        rw [hanswer]
        by_cases hcorrect : answerAt p rx k = .correct
        · rw [if_pos hcorrect]
          change (Function.update r.store.producers k _ i).isSome = true ↔ i < k + 1 ∧ answerAt p rx i = .correct
          by_cases hik : i = k
          · rw [hik, Function.update_self]
            exact ⟨fun _ => ⟨Nat.lt_succ_self k, hcorrect⟩, fun _ => rfl⟩
          · rw [Function.update_of_ne hik, hcommitted]
            exact and_congr_left' (by omega)
        · rw [if_neg hcorrect, hcommitted]
          constructor
          · exact fun hand => ⟨by omega, hand.2⟩
          · rintro ⟨hlt, hi⟩
            refine ⟨?_, hi⟩
            by_contra hge
            exact hcorrect ((show i = k by omega) ▸ hi)

theorem Answered.upTo (h : Accepted p n) (hk : k ≤ word p 12) : Answered p rx k (Run.upTo p rx k) := by
  induction k with
  | zero =>
    refine ⟨le_rfl, Or.inl rfl, fun i => ?_⟩
    change (none : Option (List ℕ × List ℕ)).isSome = true ↔ i < 0 ∧ _
    simp
  | succ k ih =>
    rw [Run.upTo_succ]
    exact (ih (by omega)).step (by omega) (.upTo h (by omega))

/-- Every result line is approved exactly when the device answered correctly, and then shows the composition. -/
def ResultsOk (p : List UInt8) (rx : ℕ → ℕ → Option Char) (log : List Event) : Prop :=
  ∀ i request epoch sequence cookie status approved count output,
    Event.result i request epoch sequence cookie status approved count output ∈ log →
      approved = decide (answerAt p rx i = .correct) ∧
        output = if approved then some (composed p (word p 12) i) else none

theorem ResultsOk.upTo (h : Accepted p n) (hk : k ≤ word p 12) : ResultsOk p rx (Run.upTo p rx k).log := by
  induction k with
  | zero =>
    intro i request epoch sequence cookie status approved count output hmem
    cases List.mem_singleton.mp hmem
  | succ k ih =>
    have ih := ih (by omega)
    have hok : RunOk p k (Run.upTo p rx k) := .upTo h (by omega)
    rw [Run.upTo_succ]
    unfold Run.step
    split
    · exact ih
    · cases hbad : (Run.upTo p rx k).store.badSource p k with
      | some bad =>
        intro i request epoch sequence cookie status approved count output hmem
        obtain hmem | hmem := List.mem_append.mp hmem
        · exact ih _ _ _ _ _ _ _ _ _ hmem
        · cases List.mem_singleton.mp hmem
      | none =>
        obtain ⟨hexpected, hanswer⟩ := @RunOk.expected_eq _ _ _ rx hk hok hbad
        intro i request epoch sequence cookie status approved count output hmem
        obtain hmem | hmem := List.mem_append.mp hmem
        · exact ih _ _ _ _ _ _ _ _ _ hmem
        · rw [Run.lines, hexpected, hanswer] at hmem
          simp only [List.mem_cons, List.not_mem_nil, or_false, reduceCtorEq, false_or, Event.result.injEq] at hmem
          obtain ⟨rfl, -, -, -, -, -, rfl, -, rfl⟩ := hmem
          exact ⟨rfl, rfl⟩

/-- While the device answers correctly, no job is blocked. -/
theorem Run.unblocked (h : Accepted p n) (hk : k ≤ word p 12) (hcorrect : ∀ i, i < k → answerAt p rx i = .correct) :
    (Run.upTo p rx k).processed = k ∧ (Run.upTo p rx k).halted = 0 := by
  induction k with
  | zero => exact ⟨rfl, rfl⟩
  | succ k ih =>
    obtain ⟨hprocessed, hhalted⟩ := ih (by omega) fun i hi => hcorrect i (by omega)
    have hok : RunOk p k (Run.upTo p rx k) := .upTo h (by omega)
    have hans : Answered p rx k (Run.upTo p rx k) := .upTo h (by omega)
    have hbad : (Run.upTo p rx k).store.badSource p k = none := by
      refine List.find?_eq_none.mpr fun q hq => ?_
      obtain ⟨b, hb, rfl⟩ := List.mem_map.mp hq
      obtain ⟨hb2, hl⟩ := mem_linksBelow.mp hb
      have hlt := (h.link (by omega) hb2 hl).1
      have hcommitted := (hans.committed (sourceAt p k b)).mpr ⟨by omega, hcorrect _ (by omega)⟩
      rw [hok.store.link_available h (by omega) hb2 hl, hcommitted]
      decide
    obtain ⟨-, hanswer⟩ := @RunOk.expected_eq _ _ _ rx hk hok hbad
    rw [Run.upTo_succ]
    unfold Run.step
    rw [if_neg (not_not.mpr hhalted), hbad, hanswer, hcorrect k (Nat.lt_succ_self k)]
    exact ⟨congrArg (· + 1) hprocessed, rfl⟩

theorem Run.all_committed (h : Accepted p n) (hk : k ≤ word p 12)
    (hcorrect : ∀ i, i < k → answerAt p rx i = .correct) (hi : i < k) :
    ((Run.upTo p rx k).store.producers i).isSome = true := by
  refine ((Answered.upTo h hk).committed i).mpr ⟨?_, hcorrect i hi⟩
  rw [(Run.unblocked h hk hcorrect).1]
  exact hi

/-- The device of a host that computes every job along the links. -/
def composedAnswers (p : List UInt8) : ℕ → ℕ → Option Char :=
  answering fun i => responseBytes (idAt p i) (word64 p 16) (i + 1) (Run.cookieAt p i) (composed p (word p 12) i) 0

theorem answerAt_composedAnswers (p : List UInt8) (i : ℕ) : answerAt p (composedAnswers p) i = .correct :=
  outcome_answering rfl

end Answers

section Main

variable {dag : FoldDag} {start : Guest}

/-- What the guest shows of a run. -/
structure Follows (g : Guest) (r : Run) : Prop where
  versions : g.versions = r.store.versions
  objects : ∀ slot, slot < 8 →
    (jobObjectLookup g.authority (slot + 1)).map (fun object => object.version) = some (r.store.versions slot) ∧
    jobObjectRead g.authority (slot + 1) 0 512 = some (packWords ((List.range 128).map (r.store.banks slot)))
  published : ∀ slot, slot < 8 → (List.range 128).map (g.published slot) = (List.range 128).map (r.store.banks slot)
  committed : ∀ i, g.producerOk i = (r.store.producers i).isSome
  empty : jobSubmissionCount g.authority = 0 ∧ jobInflightCount g.authority = 0 ∧
    jobCompletionCount g.authority = 0 ∧ jobShadowCount g.authority = 0
  processed : g.processed = r.processed
  halted : g.halted = r.halted
  log : g.log = r.log

theorem Sim.follows (hs : Sim caps p g r) : Follows g r where
  versions := hs.books.versions
  objects slot hslot := by
    rw [hs.ready.lookup le_rfl hslot, hs.ready.read le_rfl hslot]
    exact ⟨rfl, rfl⟩
  published slot hslot := List.map_congr_left fun j hj => hs.published slot hslot j (List.mem_range.mp hj)
  committed := hs.books.ok
  empty := hs.ready.empty
  processed := hs.processed
  halted := hs.halted
  log := hs.log

/-- How a boot goes on at the request address. -/
inductive Boot
  | absent
  | rejected
  | ran (g : Guest)

/-- `fold_dag_run_if_present` on the bytes at the request address. -/
def foldDagRunIfPresent (caps : Caps) (source : List UInt8) (rx : ℕ → ℕ → Option Char) (s : State) : Boot :=
  if word source 0 ≠ RAVEIL_FOLD_DAG_MAGIC then .absent
  else
    let size := word source 8
    if size < 348 ∨ size > RAVEIL_FOLD_DAG_MAX_BYTES then .rejected
    else match foldDagRun caps (source.take size) size rx s with
      | none => .rejected
      | some g => .ran g

theorem word_take {source : List UInt8} {n j : ℕ} (hj : j + 4 ≤ n) : word (source.take n) j = word source j := by
  simp only [word, List.getD_eq_getElem?_getD, List.getElem?_take]
  rw [if_pos (by omega), if_pos (by omega), if_pos (by omega), if_pos (by omega)]

theorem foldDagRunIfPresent_of_some {source : List UInt8}
    (hdag : raveilFoldDagDecode (source.take (word source 8)) (word source 8) = some dag) :
    foldDagRunIfPresent caps source rx s =
      match foldDagRun caps (source.take (word source 8)) (word source 8) rx s with
      | none => .rejected
      | some g => .ran g := by
  have hheader := (raveilFoldDagDecode_eq_some.mp hdag).1.header
  have hsize := hheader.size
  have hmagic := hheader.magic.1
  rw [word_take (by omega)] at hmagic
  unfold foldDagRunIfPresent
  rw [if_neg (not_not.mpr hmagic)]
  dsimp only
  rw [if_neg (by omega)]

/-- The guest runs exactly the envelopes the decoder accepts, and it runs them as the store of versioned banks
does, however the device answers. -/
theorem fold_dag_follows_store (hcaps : Authorized caps s) (source : List UInt8) (rx : ℕ → ℕ → Option Char) :
    (word source 0 ≠ RAVEIL_FOLD_DAG_MAGIC → foldDagRunIfPresent caps source rx s = .absent) ∧
    (word source 0 = RAVEIL_FOLD_DAG_MAGIC →
      raveilFoldDagDecode (source.take (word source 8)) (word source 8) = none →
      foldDagRunIfPresent caps source rx s = .rejected) ∧
    ∀ dag, raveilFoldDagDecode (source.take (word source 8)) (word source 8) = some dag →
      ∃ start final, guestStart caps dag s = some start ∧
        (∀ k, k ≤ dag.count → Follows (guestLoop caps (source.take (word source 8)) dag rx start k)
          (Run.upTo (source.take (word source 8)) rx k)) ∧
        foldDagRunIfPresent caps source rx s = .ran final ∧
        final.log = (Run.upTo (source.take (word source 8)) rx dag.count).finish (source.take (word source 8)) := by
  refine ⟨fun hmagic => if_pos hmagic, fun hmagic hnone => ?_, fun dag hdag => ?_⟩
  · unfold foldDagRunIfPresent
    rw [if_neg (not_not.mpr hmagic)]
    dsimp only
    split
    · rfl
    · have hrun : foldDagRun caps (source.take (word source 8)) (word source 8) rx s = none := by
        unfold foldDagRun
        rw [hnone]
        rfl
      rw [hrun]
  · rw [foldDagRunIfPresent_of_some hdag]
    set p := source.take (word source 8) with hp
    obtain ⟨h, rfl⟩ := raveilFoldDagDecode_eq_some.mp hdag
    obtain ⟨start, hstart, hsim⟩ := Sim.start h hcaps
    obtain ⟨hlast, hok⟩ := @Sim.run _ _ _ _ _ rx h hsim le_rfl
    refine ⟨start, guestFinish p (decoded p) (guestLoop caps p (decoded p) rx start (word p 12)), hstart,
      fun k hk => (hsim.run h hk).1.follows, ?_, hlast.finish h hok⟩
    unfold foldDagRun
    rw [hdag]
    simp only [Option.bind_eq_bind, Option.bind_some, hstart]
    rfl

/-- The envelope of the two copies is accepted. -/
theorem copy_decoded : ∃ p dag, raveilFoldDagDecode p p.length = some dag ∧ dag.count = 2 := by
  obtain ⟨d, h⟩ := compilePlan_eq_ok (show compilePlan copySession = .ok copyPlan by decide)
  have hids : IdsOk copySession [3, 4] := ⟨rfl, by decide, by decide⟩
  have hepoch : 0 < 5 ∧ 5 < 2 ^ 64 := by decide
  refine ⟨_, _, raveilFoldDagDecode_eq_some.mpr ⟨h.accepted hids hepoch, rfl⟩, ?_⟩
  exact Layout.count_bytes (h.layout_ok hids hepoch)

theorem fold_dag_follows_store_copy : ∃ p start final, word p 8 = p.length ∧
    Follows (guestLoop bootCaps p (decoded p) (composedAnswers p) start 2) (Run.upTo p (composedAnswers p) 2) ∧
    (Run.upTo p (composedAnswers p) 2).processed = 2 ∧ (Run.upTo p (composedAnswers p) 2).halted = 0 ∧
    foldDagRunIfPresent bootCaps p (composedAnswers p) bootState = .ran final := by
  obtain ⟨p, dag, hdag, hcount⟩ := copy_decoded
  have hsize := (raveilFoldDagDecode_eq_some.mp hdag).1.header.size.2.2
  have hwhole : p.take (word p 8) = p := by
    rw [hsize]
    exact List.take_length
  obtain ⟨-, -, hruns⟩ := fold_dag_follows_store authorized_boot p (composedAnswers p)
  rw [hwhole, hsize] at hruns
  obtain ⟨start, final, -, hfollows, hrun, -⟩ := hruns dag hdag
  obtain ⟨h, rfl⟩ := raveilFoldDagDecode_eq_some.mp hdag
  obtain ⟨hprocessed, hhalted⟩ := Run.unblocked h hcount.ge fun i _ => answerAt_composedAnswers p i
  exact ⟨p, start, final, hsize, hfollows 2 hcount.ge, hprocessed, hhalted, hrun⟩

/-- The authority never stops a session, and a job that is still needed keeps its objects. -/
theorem live_results_kept (hcaps : Authorized caps s) (hdag : raveilFoldDagDecode p n = some dag)
    (hstart : guestStart caps dag s = some start) (rx : ℕ → ℕ → Option Char) {k : ℕ} (hk : k ≤ dag.count) :
    (guestLoop caps p dag rx start k).halted ≠ 2 ∧
    ∀ i, (guestLoop caps p dag rx start k).producerOk i = true → k ≤ dag.lastUse i + 1 →
      available dag (guestLoop caps p dag rx start k) i = true ∧
      ∀ j, j < dag.chunks i →
        jobObjectRead (guestLoop caps p dag rx start k).authority (dag.destination i j + 1) 0 512 =
          some (packWords ((List.range 128).map (chunkWords (composed p dag.count i) j))) := by
  obtain ⟨h, rfl⟩ := raveilFoldDagDecode_eq_some.mp hdag
  obtain ⟨start', hstart', hsim⟩ := Sim.start h hcaps
  obtain rfl := Option.some.inj (hstart.symm.trans hstart')
  obtain ⟨hs, hok⟩ := @Sim.run _ _ _ _ _ rx h hsim hk
  refine ⟨?_, fun i hcommitted hlast => ?_⟩
  · have hhalted := (@Answered.upTo _ _ _ rx h hk).halted
    rw [hs.halted]
    omega
  · rw [hs.books.ok] at hcommitted
    obtain ⟨⟨vs, out⟩, hp⟩ := Option.isSome_iff_exists.mp hcommitted
    have hik := hok.store.lt hp
    have hi : i < word p 12 := hik.trans_le hk
    have hlast' : k ≤ lastUses p i + 1 := hlast
    have hav : (Run.upTo p rx k).store.available p i = true :=
      hok.store.available_of_kept h hk hp fun slot hslot q hq hqk => slot_kept hq (by omega) hslot
    refine ⟨(available_eq h hok.store hs.books hi).trans hav, fun j hj => ?_⟩
    rw [chunks_decoded hi] at hj
    have hout : out = composed p k i := (hok.store.saved i vs out hp).2
    rw [destination_decoded hi, hs.ready.read le_rfl (h.slot_lt hi hj), hok.store.held_of_available h hk hp hav hj, hout]
    rw [← composed_of_lt hik hk]

/-- Both copies are committed, and the output stays in its object to the end. -/
theorem live_results_kept_copy : ∃ p dag start, guestStart bootCaps dag bootState = some start ∧
    (guestLoop bootCaps p dag (composedAnswers p) start 2).producerOk 0 = true ∧
    (guestLoop bootCaps p dag (composedAnswers p) start 2).producerOk 1 = true ∧
    available dag (guestLoop bootCaps p dag (composedAnswers p) start 2) dag.output = true ∧
    ∀ j, j < dag.chunks dag.output →
      jobObjectRead (guestLoop bootCaps p dag (composedAnswers p) start 2).authority
        (dag.destination dag.output j + 1) 0 512 =
          some (packWords ((List.range 128).map (chunkWords (composed p dag.count dag.output) j))) := by
  obtain ⟨p, dag, hdag, hcount⟩ := copy_decoded
  obtain ⟨h, rfl⟩ := raveilFoldDagDecode_eq_some.mp hdag
  obtain ⟨start, hstart, hsim⟩ := Sim.start h authorized_boot
  have hcommitted : ∀ i, i < 2 →
      (guestLoop bootCaps p (decoded p) (composedAnswers p) start 2).producerOk i = true := by
    intro i hi
    rw [(hsim.run h hcount.ge).1.books.ok]
    exact Run.all_committed h hcount.ge (fun i _ => answerAt_composedAnswers p i) hi
  have hout : (decoded p).output < 2 := h.header.output.1.trans_eq hcount
  have hlast : 2 ≤ (decoded p).lastUse (decoded p).output + 1 := by
    change 2 ≤ lastUses p (word p 24) + 1
    have hcount' : word p 12 = 2 := hcount
    rw [lastUses, Function.update_self, hcount']
    decide
  exact ⟨p, _, start, hstart, hcommitted 0 (by decide), hcommitted 1 (by decide),
    (live_results_kept authorized_boot hdag hstart (composedAnswers p) hcount.ge).2 _ (hcommitted _ hout) hlast⟩

/-- Every approved result is the composition along the links, and a device that answers every job correctly
gets the whole DAG through. -/
theorem approved_results_composed (hcaps : Authorized caps s) (hdag : raveilFoldDagDecode p n = some dag)
    (rx : ℕ → ℕ → Option Char) :
    ∃ final, foldDagRun caps p n rx s = some final ∧ ResultsOk p rx final.log ∧
      (∀ i, final.producerOk i = true ↔ i < final.processed ∧ answerAt p rx i = .correct) ∧
      Event.output dag.output (final.producerOk dag.output)
        (if final.producerOk dag.output then (composed p dag.count dag.output).length else 0)
        (if final.producerOk dag.output then some (composed p dag.count dag.output) else none) ∈ final.log ∧
      ((∀ i, i < dag.count → answerAt p rx i = .correct) ↔
        ∀ i, i < dag.count → final.producerOk i = true) := by
  obtain ⟨h, rfl⟩ := raveilFoldDagDecode_eq_some.mp hdag
  obtain ⟨start, hstart, hsim⟩ := Sim.start h hcaps
  obtain ⟨hs, hok⟩ := @Sim.run _ _ _ _ _ rx h hsim le_rfl
  have hans : Answered p rx (word p 12) (Run.upTo p rx (word p 12)) := .upTo h le_rfl
  have hrun : foldDagRun caps p n rx s =
      some (guestFinish p (decoded p) (guestLoop caps p (decoded p) rx start (word p 12))) := by
    unfold foldDagRun
    rw [hdag]
    simp only [Option.bind_eq_bind, Option.bind_some, hstart]
    rfl
  have hcommitted : ∀ i, (guestLoop caps p (decoded p) rx start (word p 12)).producerOk i = true ↔
      i < (guestLoop caps p (decoded p) rx start (word p 12)).processed ∧ answerAt p rx i = .correct := by
    intro i
    rw [hs.books.ok, hs.processed]
    exact hans.committed i
  have hlog := hs.finish h hok
  refine ⟨_, hrun, ?_, hcommitted, ?_, ?_⟩
  · rw [hlog]
    intro i request epoch sequence cookie status approved count output hmem
    obtain hmem | hmem := List.mem_append.mp hmem
    · exact ResultsOk.upTo h le_rfl _ _ _ _ _ _ _ _ _ hmem
    · simp at hmem
  · have hout : word p 24 < word p 12 := h.header.output.1
    have hproducer : (guestFinish p (decoded p) (guestLoop caps p (decoded p) rx start (word p 12))).producerOk
        (decoded p).output = (Run.upTo p rx (word p 12)).store.available p (word p 24) := by
      rw [hok.store.output_available h le_rfl]
      exact hs.books.ok (word p 24)
    rw [hlog, hproducer]
    refine List.mem_append_right _ (List.mem_cons.mpr (Or.inl ?_))
    cases hav : (Run.upTo p rx (word p 12)).store.available p (word p 24) with
    | false => rfl
    | true =>
      have hvalue : (Run.upTo p rx (word p 12)).store.value (word p 24) = composed p (word p 12) (word p 24) := by
        rw [hok.store.output_available h le_rfl] at hav
        obtain ⟨⟨vs, out⟩, hp⟩ := Option.isSome_iff_exists.mp hav
        rw [Store.value, hp]
        exact (hok.store.saved _ vs out hp).2
      rw [hvalue, ← (composed_ok h le_rfl hout).1]
      rfl
  · constructor
    · intro hcorrect i hi
      refine (hcommitted i).mpr ⟨?_, hcorrect i hi⟩
      rw [hs.processed, (Run.unblocked h le_rfl hcorrect).1]
      exact hi
    · exact fun hall i hi => ((hcommitted i).mp (hall i hi)).2

/-- A device that answers with the composed words gets both copies through. -/
theorem approved_results_composed_copy : ∃ p dag final, raveilFoldDagDecode p p.length = some dag ∧
    foldDagRun bootCaps p p.length (composedAnswers p) bootState = some final ∧
    ResultsOk p (composedAnswers p) final.log ∧ final.producerOk 0 = true ∧ final.producerOk 1 = true := by
  obtain ⟨p, dag, hdag, hcount⟩ := copy_decoded
  obtain ⟨final, hrun, hresults, -, -, hall⟩ := approved_results_composed authorized_boot hdag (composedAnswers p)
  have hcommitted := hall.mp fun i _ => answerAt_composedAnswers p i
  exact ⟨p, dag, final, hdag, hrun, hresults, hcommitted 0 (by omega), hcommitted 1 (by omega)⟩

end Main

end Raveil.Dag
