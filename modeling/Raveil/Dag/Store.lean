import Raveil.Dag.Guest
import Raveil.Dag.Shape

/-! The session as a store of versioned banks: what the guest loop does, without its authority. -/
namespace Raveil.Dag
open Raveil.Lib Raveil.Fold Raveil.Authority Raveil.Dispatch

/-- Eight versioned banks, and for each committed job the versions it left with its output. -/
structure Store where
  versions : ℕ → ℕ
  banks : ℕ → ℕ → ℕ
  producers : ℕ → Option (List ℕ × List ℕ)

/-- Operand `b` of job `i` where the jobs before it gave `values`. -/
def linked (p : List UInt8) (values : ℕ → List ℕ) (i b : ℕ) : List ℕ :=
  if sourceAt p i b = UINT32_MAX then literalAt p i b
  else ((values (sourceAt p i b)).drop (startAt p i b)).take (extentAt p i b)

/-- The output of job `i` where the jobs before it gave `values`. -/
def evaluated (p : List UInt8) (values : ℕ → List ℕ) (i : ℕ) : List ℕ :=
  outputWords (configAt p i) (placed (linked p values i 0) (linked p values i 1))

/-- The outputs of the first `k` jobs, composed along the links. -/
def composed (p : List UInt8) : ℕ → ℕ → List ℕ
  | 0 => fun _ => []
  | k + 1 => Function.update (composed p k) k (evaluated p (composed p k) k)

namespace Store

def initial : Store := ⟨fun _ => 1, fun _ _ => 0, fun _ => none⟩

def value (s : Store) (i : ℕ) : List ℕ := ((s.producers i).map Prod.snd).getD []

def available (p : List UInt8) (s : Store) (i : ℕ) : Bool :=
  (s.producers i).any fun saved => saved.1 = (destinationsAt p i).map s.versions

/-- The first producer of job `i` that is not available. -/
def badSource (p : List UInt8) (s : Store) (i : ℕ) : Option ℕ :=
  (usesAt p i).find? fun q => !s.available p q

def expected (p : List UInt8) (s : Store) (i : ℕ) : List ℕ := evaluated p s.value i

def commit (p : List UInt8) (s : Store) (i : ℕ) : Store where
  versions := fun slot => if slot ∈ destinationsAt p i then s.versions slot + 1 else s.versions slot
  banks := fun slot =>
    if slot ∈ destinationsAt p i then chunkWords (s.expected p i) ((destinationsAt p i).idxOf slot)
    else s.banks slot
  producers := Function.update s.producers i
    (some ((destinationsAt p i).map (fun slot => s.versions slot + 1), s.expected p i))

def versionList (s : Store) : List ℕ := (List.range 8).map s.versions

def content (s : Store) : List (List ℕ) := (List.range 8).map fun i => (List.range 128).map (s.banks i)

end Store

/-- The store with the counters and the console of the loop. -/
structure Run where
  store : Store
  processed : ℕ
  halted : ℕ
  log : List Event

namespace Run

variable (p : List UInt8) (rx : ℕ → ℕ → Option Char)

def cookieAt (i : ℕ) : Identity := makeCookie (word64 p 16) (idAt p i) (i + 1)

/-- The request that job `i` sends. -/
def dispatched (s : Store) (i : ℕ) : List UInt8 :=
  let a := linked p s.value i 0
  let b := linked p s.value i 1
  packWords (requestWords (configAt p i) a b (idAt p i) ++ requestTail (configAt p i) a b (idAt p i))

def outcomeAt (s : Store) (i : ℕ) : Outcome :=
  outcome (rx i) (idAt p i) (word64 p 16) (i + 1) (cookieAt p i) (s.expected p i)

/-- The store after job `i` was answered. -/
def settle (s : Store) (i : ℕ) : Store := if outcomeAt p rx s i = .correct then s.commit p i else s

/-- The lines of job `i`. -/
def lines (s : Store) (i : ℕ) : List Event :=
  let t := settle p rx s i
  let ok : Bool := outcomeAt p rx s i = .correct
  [.dispatch (idAt p i) (word64 p 16) (i + 1) (cookieAt p i) (cellsAt p i) (dispatched p s i),
    .state i true (outcomeAt p rx s i ≠ .lost) (maskOf (destinationsAt p i)) (maskOf (readSlots p i))
      t.versionList (i + 1) 0 0 0 0 t.content,
    .result i (idAt p i) (word64 p 16) (i + 1) (cookieAt p i) (if ok then 1 else 4) ok
      (if ok then cellsAt p i else 0) (if ok then some (s.expected p i) else none)]

def start : Run :=
  ⟨.initial, 0, 0, [.start (word64 p 16) (word p 12) (word p 24) Store.initial.versionList]⟩

def step (r : Run) (i : ℕ) : Run :=
  if r.halted ≠ 0 then r
  else match r.store.badSource p i with
    | some bad => { r with halted := 3, log := r.log ++ [.block i bad] }
    | none =>
      { store := settle p rx r.store i
        processed := r.processed + 1
        halted := if outcomeAt p rx r.store i = .lost then 1 else 0
        log := r.log ++ lines p rx r.store i }

/-- The run up to job `k`. -/
def upTo (k : ℕ) : Run := (List.range k).foldl (step p rx) (start p)

/-- The log with the closing lines. -/
def finish (r : Run) : List Event :=
  let ok := r.store.available p (word p 24)
  r.log ++ [.output (word p 24) ok (if ok then cellsAt p (word p 24) else 0)
      (if ok then some (r.store.value (word p 24)) else none),
    .finish (word64 p 16) r.processed (word p 12) r.halted r.store.versionList]

end Run

section Composition

variable {p : List UInt8} {n k i : ℕ}

theorem composed_succ_of_ne (hi : i ≠ k) : composed p (k + 1) i = composed p k i :=
  Function.update_of_ne hi _ _

theorem composed_self (p : List UInt8) (k : ℕ) : composed p (k + 1) k = evaluated p (composed p k) k :=
  Function.update_self k _ _

theorem linked_congr {values values' : ℕ → List ℕ} {b : ℕ}
    (hv : sourceAt p i b ≠ UINT32_MAX → values (sourceAt p i b) = values' (sourceAt p i b)) :
    linked p values i b = linked p values' i b := by
  unfold linked
  split
  · rfl
  · rename_i hs
    rw [hv hs]

/-- Values of the declared sizes give operands of the declared sizes. -/
theorem linked_ok (h : Accepted p n) (hi : i < word p 12) {values : ℕ → List ℕ} {b : ℕ} (hb : b < 2)
    (hv : sourceAt p i b ≠ UINT32_MAX → (values (sourceAt p i b)).length = cellsAt p (sourceAt p i b) ∧
      ∀ w ∈ values (sourceAt p i b), w < 2 ^ 32) :
    (linked p values i b).length = extentAt p i b ∧ ∀ w ∈ linked p values i b, w < 2 ^ 32 := by
  unfold linked
  split
  · have hok := (h.request hi).2
    refine ⟨h.length_literal hi hb, ?_⟩
    obtain rfl | rfl : b = 0 ∨ b = 1 := by omega
    · exact hok.wordsA
    · exact hok.wordsB
  · rename_i hs
    obtain ⟨-, -, hfits⟩ := h.link hi hb hs
    obtain ⟨hlen, hw⟩ := hv hs
    refine ⟨?_, fun w hw' => hw w (List.mem_of_mem_drop (List.mem_of_mem_take hw'))⟩
    rw [List.length_take, List.length_drop, hlen]
    omega

/-- The request of a job whose operands have the declared sizes. -/
theorem linked_request (h : Accepted p n) (hi : i < word p 12) {values : ℕ → List ℕ}
    (hv : ∀ b, b < 2 → sourceAt p i b ≠ UINT32_MAX →
      (values (sourceAt p i b)).length = cellsAt p (sourceAt p i b) ∧
        ∀ w ∈ values (sourceAt p i b), w < 2 ^ 32) :
    RequestOk (configAt p i) (linked p values i 0) (linked p values i 1) (idAt p i) := by
  have hok := (h.request hi).2
  obtain ⟨h0, hw0⟩ := linked_ok h hi (by omega) (hv 0 (by omega))
  obtain ⟨h1, hw1⟩ := linked_ok h hi (by omega) (hv 1 (by omega))
  exact ⟨hok.length, hok.admissible, hok.words, hok.id, h0, h1, hw0, hw1⟩

theorem evaluated_ok {values : ℕ → List ℕ}
    (hok : RequestOk (configAt p i) (linked p values i 0) (linked p values i 1) (idAt p i)) :
    (evaluated p values i).length = cellsAt p i ∧ ∀ w ∈ evaluated p values i, w < 2 ^ 32 :=
  ⟨outputWords_length _ _, outputWords_lt (placed_words hok.wordsA hok.wordsB)⟩

theorem composed_ok (h : Accepted p n) (hk : k ≤ word p 12) (hi : i < k) :
    (composed p k i).length = cellsAt p i ∧ ∀ w ∈ composed p k i, w < 2 ^ 32 := by
  induction k generalizing i with
  | zero => omega
  | succ k ih =>
    obtain hlt | rfl : i < k ∨ i = k := by omega
    · rw [composed_succ_of_ne (by omega)]
      exact ih (by omega) hlt
    · rw [composed_self]
      refine evaluated_ok (linked_request h (by omega) fun b hb hs => ?_)
      exact ih (by omega) (h.link (by omega) hb hs).1

end Composition

/-- What the store keeps over the first `k` jobs. -/
structure StoreOk (p : List UInt8) (k : ℕ) (s : Store) : Prop where
  fresh : ∀ i, k ≤ i → s.producers i = none
  versions : ∀ slot, 1 ≤ s.versions slot ∧ s.versions slot ≤ k + 1
  words : ∀ slot j, s.banks slot j < 2 ^ 32
  tail : ∀ slot j, 128 ≤ j → s.banks slot j = 0
  saved : ∀ i vs out, s.producers i = some (vs, out) → vs.length = chunksAt p i ∧ out = composed p k i
  older : ∀ i vs out, s.producers i = some (vs, out) → ∀ j, j < chunksAt p i →
    vs.getD j 0 ≤ s.versions (slotAt p i j)
  held : ∀ i vs out, s.producers i = some (vs, out) → ∀ j, j < chunksAt p i →
    vs.getD j 0 = s.versions (slotAt p i j) → s.banks (slotAt p i j) = chunkWords out j
  kept : ∀ i vs out, s.producers i = some (vs, out) → ∀ j, j < chunksAt p i →
    (∀ q, i < q → q < k → slotAt p i j ∉ destinationsAt p q) → vs.getD j 0 = s.versions (slotAt p i j)

theorem StoreOk.initial (p : List UInt8) : StoreOk p 0 .initial := by
  refine ⟨fun _ _ => rfl, fun _ => ⟨le_rfl, le_rfl⟩, fun _ _ => Nat.two_pow_pos 32, fun _ _ _ => rfl, ?_, ?_, ?_, ?_⟩
  all_goals
    intro i vs out hp
    cases hp

section Invariant

variable {p : List UInt8} {n k i : ℕ} {s : Store}

theorem StoreOk.lt (hs : StoreOk p k s) {vs out : List ℕ} (hp : s.producers i = some (vs, out)) : i < k := by
  by_contra hik
  have := hs.fresh i (by omega)
  rw [hp] at this
  cases this

/-- A job that was not committed leaves the store as it was. -/
theorem StoreOk.skip (hs : StoreOk p k s) : StoreOk p (k + 1) s where
  fresh i hi := hs.fresh i (by omega)
  versions slot := by
    have := hs.versions slot
    omega
  words := hs.words
  tail := hs.tail
  saved i vs out hp := by
    have hlt := hs.lt hp
    rw [composed_succ_of_ne (by omega)]
    exact hs.saved i vs out hp
  older := hs.older
  held := hs.held
  kept i vs out hp j hj hq := hs.kept i vs out hp j hj fun q hiq hqk => hq q hiq (by omega)

theorem available_eq_true {vs out : List ℕ} (hp : s.producers i = some (vs, out)) :
    s.available p i = true ↔ vs = (destinationsAt p i).map s.versions := by
  simp [Store.available, hp]

theorem badSource_eq_none {b : ℕ} (hbad : s.badSource p k = none) (hb : b < 2)
    (hl : sourceAt p k b ≠ UINT32_MAX) : s.available p (sourceAt p k b) = true := by
  have := List.find?_eq_none.mp hbad (sourceAt p k b)
    (List.mem_map.mpr ⟨b, mem_linksBelow.mpr ⟨hb, hl⟩, rfl⟩)
  simpa using this

/-- The producers of an unblocked job were committed. -/
theorem StoreOk.value_eq (hs : StoreOk p k s) {b : ℕ} (hbad : s.badSource p k = none) (hb : b < 2)
    (hl : sourceAt p k b ≠ UINT32_MAX) : s.value (sourceAt p k b) = composed p k (sourceAt p k b) := by
  have ha := badSource_eq_none hbad hb hl
  cases hp : s.producers (sourceAt p k b) with
  | none => simp [Store.available, hp] at ha
  | some saved =>
    obtain ⟨vs, out⟩ := saved
    rw [Store.value, hp, Option.map_some, Option.getD_some]
    exact (hs.saved _ vs out hp).2

theorem StoreOk.linked_eq (hs : StoreOk p k s) {b : ℕ} (hbad : s.badSource p k = none) (hb : b < 2) :
    linked p s.value k b = linked p (composed p k) k b :=
  linked_congr fun hl => hs.value_eq hbad hb hl

theorem StoreOk.expected_eq (hs : StoreOk p k s) (hbad : s.badSource p k = none) :
    s.expected p k = composed p (k + 1) k := by
  rw [composed_self, Store.expected, evaluated, evaluated, hs.linked_eq hbad (by omega),
    hs.linked_eq hbad (by omega)]

theorem chunkWords_lt {out : List ℕ} (ho : ∀ w ∈ out, w < 2 ^ 32) (j m : ℕ) : chunkWords out j m < 2 ^ 32 := by
  unfold chunkWords
  split
  · exact getD_lt ho _
  · exact Nat.two_pow_pos 32

variable (h : Accepted p n)

include h

theorem slotVersions_getD (hi : i < word p 12) {j : ℕ} (hj : j < chunksAt p i) (f : ℕ → ℕ) :
    ((destinationsAt p i).map f).getD j 0 = f (slotAt p i j) := by
  have hlen := (h.slots i hi).slots
  rw [List.getD_eq_getElem _ _ (by rw [List.length_map]; omega), List.getElem_map, slotAt,
    List.getD_eq_getElem _ _ (by omega)]

/-- A committed job whose slots nobody was given since is available. -/
theorem StoreOk.available_of_kept (hs : StoreOk p k s) (hk : k ≤ word p 12)
    {vs out : List ℕ} (hp : s.producers i = some (vs, out))
    (hq : ∀ slot ∈ destinationsAt p i, ∀ q, i < q → q < k → slot ∉ destinationsAt p q) :
    s.available p i = true := by
  have hi := hs.lt hp
  rw [available_eq_true hp]
  have hvs := (hs.saved i vs out hp).1
  have hlen := (h.slots i (by omega)).slots
  refine List.ext_getElem (by rw [List.length_map]; omega) fun j hj hj' => ?_
  have hkept := hs.kept i vs out hp j (by omega) (hq _ (h.slot_mem (by omega) (by omega)))
  rw [List.getD_eq_getElem _ _ hj] at hkept
  rw [hkept, List.getElem_map, slotAt, List.getD_eq_getElem]

/-- Available banks hold the output. -/
theorem StoreOk.held_of_available (hs : StoreOk p k s) (hk : k ≤ word p 12) {vs out : List ℕ}
    (hp : s.producers i = some (vs, out)) (ha : s.available p i = true) {j : ℕ} (hj : j < chunksAt p i) :
    s.banks (slotAt p i j) = chunkWords out j := by
  have hi := hs.lt hp
  refine hs.held i vs out hp j hj ?_
  rw [(available_eq_true hp).mp ha, slotVersions_getD h (by omega) hj]

/-- For a linked producer, available and committed are the same. -/
theorem StoreOk.link_available (hs : StoreOk p k s) (hk : k < word p 12) {b : ℕ} (hb : b < 2)
    (hl : sourceAt p k b ≠ UINT32_MAX) :
    s.available p (sourceAt p k b) = (s.producers (sourceAt p k b)).isSome := by
  cases hp : s.producers (sourceAt p k b) with
  | none => simp [Store.available, hp]
  | some saved =>
    obtain ⟨vs, out⟩ := saved
    rw [Option.isSome_some]
    refine hs.available_of_kept h hk.le hp fun slot hslot q hq hqk => ?_
    exact link_kept hk hb hl hq hqk.le hslot

/-- The designated output is never released. -/
theorem StoreOk.output_available (hs : StoreOk p k s) (hk : k ≤ word p 12) :
    s.available p (word p 24) = (s.producers (word p 24)).isSome := by
  cases hp : s.producers (word p 24) with
  | none => simp [Store.available, hp]
  | some saved =>
    obtain ⟨vs, out⟩ := saved
    rw [Option.isSome_some]
    refine hs.available_of_kept h hk hp fun slot hslot q hq hqk => slot_kept hq ?_ hslot
    rw [lastUses, Function.update_self]
    omega

theorem StoreOk.request (hs : StoreOk p k s) (hk : k < word p 12) (hbad : s.badSource p k = none) :
    RequestOk (configAt p k) (linked p s.value k 0) (linked p s.value k 1) (idAt p k) := by
  refine linked_request h hk fun b hb hl => ?_
  rw [hs.value_eq hbad hb hl]
  exact composed_ok h hk.le (h.link hk hb hl).1

/-- A commit extends the store by the output of the job. -/
theorem StoreOk.commit (hs : StoreOk p k s) (hk : k < word p 12) (hbad : s.badSource p k = none) :
    StoreOk p (k + 1) (s.commit p k) := by
  have hexp := evaluated_ok (hs.request h hk hbad)
  have hproducer : ∀ {i vs out}, (s.commit p k).producers i = some (vs, out) →
      (i = k ∧ vs = (destinationsAt p k).map (fun slot => s.versions slot + 1) ∧ out = s.expected p k) ∨
        (i < k ∧ s.producers i = some (vs, out)) := by
    intro i vs out hp
    by_cases hik : i = k
    · subst hik
      simp only [Store.commit, Function.update_self, Option.some.injEq, Prod.mk.injEq] at hp
      exact Or.inl ⟨rfl, hp.1.symm, hp.2.symm⟩
    · simp only [Store.commit, Function.update_of_ne hik] at hp
      exact Or.inr ⟨hs.lt hp, hp⟩
  have hversion : ∀ slot, s.versions slot ≤ (s.commit p k).versions slot ∧
      (slot ∈ destinationsAt p k → (s.commit p k).versions slot = s.versions slot + 1) ∧
      (slot ∉ destinationsAt p k → (s.commit p k).versions slot = s.versions slot ∧
        (s.commit p k).banks slot = s.banks slot) := by
    intro slot
    simp only [Store.commit]
    split
    · rename_i hm
      exact ⟨by omega, fun _ => rfl, fun hn => absurd hm hn⟩
    · rename_i hm
      exact ⟨le_rfl, fun hn => absurd hn hm, fun _ => ⟨rfl, rfl⟩⟩
  refine ⟨fun i hi => ?_, fun slot => ?_, fun slot j => ?_, fun slot j hj => ?_, fun i vs out hp => ?_,
    fun i vs out hp j hj => ?_, fun i vs out hp j hj he => ?_, fun i vs out hp j hj hq => ?_⟩
  · simp only [Store.commit, Function.update_of_ne (show i ≠ k by omega)]
    exact hs.fresh i (by omega)
  · have := hs.versions slot
    simp only [Store.commit]
    split <;> omega
  · simp only [Store.commit]
    split
    · exact chunkWords_lt hexp.2 _ _
    · exact hs.words slot j
  · simp only [Store.commit]
    split
    · exact if_neg (by omega)
    · exact hs.tail slot j hj
  · obtain ⟨rfl, rfl, rfl⟩ | ⟨hlt, hp⟩ := hproducer hp
    · refine ⟨?_, hs.expected_eq hbad⟩
      rw [List.length_map]
      exact (h.slots i hk).slots
    · rw [composed_succ_of_ne (by omega)]
      exact hs.saved i vs out hp
  · obtain ⟨rfl, rfl, rfl⟩ | ⟨hlt, hp⟩ := hproducer hp
    · rw [slotVersions_getD h hk hj, (hversion _).2.1 (h.slot_mem hk hj)]
    · exact (hs.older i vs out hp j hj).trans (hversion _).1
  · obtain ⟨rfl, rfl, rfl⟩ | ⟨hlt, hp⟩ := hproducer hp
    · have hmem := h.slot_mem hk hj
      simp only [Store.commit, if_pos hmem, h.idxOf_slot hk hj]
    · by_cases hm : slotAt p i j ∈ destinationsAt p k
      · have := hs.older i vs out hp j hj
        rw [(hversion _).2.1 hm] at he
        omega
      · obtain ⟨hv, hb⟩ := (hversion _).2.2 hm
        rw [hb]
        exact hs.held i vs out hp j hj (he.trans hv)
  · obtain ⟨rfl, rfl, rfl⟩ | ⟨hlt, hp⟩ := hproducer hp
    · rw [slotVersions_getD h hk hj, (hversion _).2.1 (h.slot_mem hk hj)]
    · rw [((hversion _).2.2 (hq k hlt (by omega))).1]
      exact hs.kept i vs out hp j hj fun q hiq hqk => hq q hiq (by omega)

end Invariant

end Raveil.Dag
