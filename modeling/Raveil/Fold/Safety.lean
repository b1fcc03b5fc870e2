import Raveil.Fold.Evaluate
import Raveil.Fold.ControllerValidate

/-! The three configuration validators agree, and what they accept executes safely. -/
namespace Raveil.Fold
open Raveil.Lib

/-- The registers that the switch of `raveil_fold_evaluate` reads for an instruction word. -/
def registersRead (w : ℕ) : List ℕ :=
  match opcode w with
  | 2 | 4 | 5 => [srcA w, srcB w]
  | 3 | 6 | 7 => [srcA w]
  | _ => []

def registerWritten (w : ℕ) : Option ℕ :=
  match opcode w with
  | 1 | 2 | 4 | 5 | 6 | 7 => some (dst w)
  | _ => none

/-- The intermediate results of the load address, in the order the C expressions compute them. -/
def addressSteps (c : List ℕ) (v i j k : ℕ) : List ℕ :=
  [view c v 2 * i, view c v 1 + view c v 2 * i, view c v 3 * j,
    view c v 1 + view c v 2 * i + view c v 3 * j, view c v 4 * k, address c v i j k,
    324 * view c v 0, 324 * view c v 0 + address c v i j k]

/-- What execution relies on at one instruction of one iteration. -/
structure SafeAt (c : List ℕ) (i j k pc : ℕ) : Prop where
  /-- The default branch of the switch is not taken. -/
  decoded : ∀ r : Request, r.config = c → ∀ s, (evaluateInst r i j k s pc).isSome
  written : ∀ q ∈ registersRead (inst c pc), ∃ pc' < pc, registerWritten (inst c pc') = some q
  inside : opcode (inst c pc) = 1 →
    address c (srcA (inst c pc)) i j k < cfg c (5 + view c (srcA (inst c pc)) 0)
  exact : opcode (inst c pc) = 1 → ∀ n ∈ addressSteps c (srcA (inst c pc)) i j k, n < 2 ^ 32

theorem registerWritten_eq {c : List ℕ} (h : Admissible c) {pc q : ℕ} (hpc : pc < ninst c)
    (hq : q ∈ definedAt c pc) : ∃ pc' < pc, registerWritten (inst c pc') = some q := by
  obtain ⟨pc', hlt, hd⟩ := mem_definedAt.mp hq
  refine ⟨pc', hlt, ?_⟩
  unfold registerWritten
  obtain ⟨h1, -⟩ | ⟨h2 | h2 | h2, -⟩ | ⟨h6 | h6, -⟩ := inst_computes h (show pc' < ninst c - 1 by omega)
  all_goals simp [*]

theorem safeAt {c : List ℕ} (h : Admissible c) {i j k pc : ℕ} (hi : i < rows c) (hj : j < cols c)
    (hk : k < extent c) (hpc : pc < ninst c) : SafeAt c i j k pc := by
  have hn := h.header.ninst
  refine ⟨?_, ?_, ?_, ?_⟩
  · rintro r rfl ⟨values, acc⟩
    obtain hlt | rfl : pc < ninst r.config - 1 ∨ pc = ninst r.config - 1 := by omega
    · rw [evaluateInst_computes h hi hj hk hlt]
      rfl
    · rw [evaluateInst_yields h]
      rfl
  · intro q hq
    refine registerWritten_eq h hpc ?_
    unfold registersRead at hq
    obtain hlt | rfl : pc < ninst c - 1 ∨ pc = ninst c - 1 := by omega
    · obtain ⟨h1, -⟩ | ⟨h2 | h2 | h2, ha, hb, -⟩ | ⟨h6 | h6, ha⟩ := inst_computes h hlt
      all_goals simp_all
      all_goals aesop
    · obtain ⟨h3, -, -, ha⟩ := inst_yields h
      simp_all
  · intro h1
    exact address_lt h (Controller.load_view h hpc h1).2 hi hj hk
  · intro h1
    have hv := (Controller.load_view h hpc h1).2
    have ha := address_lt_324 h hv hi hj hk
    have hb := (view_le h hv).1
    unfold address at ha
    simp only [addressSteps, address, List.forall_mem_cons]
    refine ⟨?_, ?_, ?_, ?_, ?_, ?_, ?_, ?_, by simp⟩
    all_goals omega

namespace Controller

/-- Started from idle, the controller goes through header and validate into execute. -/
def ReachesExecute (s : Regs) (x : ℕ → Inputs) : Prop :=
  ∃ n, (run s x n).state = .execute ∧
    ∀ m, 0 < m → m < n → (run s x m).state = .header ∨ (run s x m).state = .validate

/-- Started from idle, the controller goes back to idle with a fault before it executes. -/
def FinishesWithFault (s : Regs) (x : ℕ → Inputs) : Prop :=
  ∃ n, 0 < n ∧ (run s x n).state = .idle ∧ (run s x n).done = true ∧ (run s x n).fault = true ∧
    (run s x n).success = false ∧
    ∀ m, 0 < m → m < n → (run s x m).state = .header ∨ (run s x m).state = .validate

theorem run_succ' (s : Regs) (x : ℕ → Inputs) (n : ℕ) :
    run s x (n + 1) = run (step s (x 0)) (fun m => x (m + 1)) n := by
  induction n with
  | zero => rfl
  | succ n ih =>
    rw [run, ih]
    rfl

/-- The end of the checking phases: an execute state or a fault. -/
def Verdict (c : List ℕ) (s : Regs) : Prop :=
  (Admissible c ∧ s.state = .execute) ∨
    (¬ Admissible c ∧ s.state = .idle ∧ s.done = true ∧ s.fault = true ∧ s.success = false)

/-- One cycle of the validate state. -/
theorem validate_step {s : Regs} {x : Inputs} (h : Control s) (hs : s.state = .validate)
    (ha : abort s x = false) :
    Verdict s.cfg (step s x) ∨ ((step s x).state = .validate ∧ (step s x).cfg = s.cfg ∧
      (step s x).pendingCancel = s.pendingCancel ∧ (step s x).pc = s.pc + 1 ∧
      s.pc + 1 < ninst s.cfg) := by
  have hnext := control_validate h hs ha
  obtain ⟨hu, hc⟩ := h
  replace hu := hu (by simp [hs])
  simp only [hs] at hc
  obtain ⟨hch, hpc, -, hd, -⟩ := hc
  have hn := hch.header.ninst
  rw [step_validate hs ha] at hnext ⊢
  cases hv : instructionValid s with
  | false =>
    have hbad : ¬ Admissible s.cfg := by
      intro hadm
      have hok := (instructionValid_eq_true hu hch.header hpc hd).mpr (hadm.insts s.pc (by omega))
      simp [hok] at hv
    exact Or.inl (Or.inr ⟨hbad, rfl, rfl, rfl, rfl⟩)
  | true =>
    by_cases hf : isFinal s = true
    · simp only [hv, hf, Bool.not_true, Bool.false_eq_true, ↓reduceIte] at hnext ⊢
      exact Or.inl (Or.inl ⟨hnext.2.1, rfl⟩)
    · have hlt := (defined_succ hu hch.header hpc hf hd).1
      simp only [hf, Bool.not_true, Bool.false_eq_true, ↓reduceIte]
      exact Or.inr ⟨hs, trivial, trivial, Nat.mod_eq_of_lt (by omega), hlt⟩

/-- By induction on the number of instructions still to be checked. -/
theorem validate_verdict {c : List ℕ} (d : ℕ) : ∀ (s : Regs) (x : ℕ → Inputs), Control s →
    s.state = .validate → s.cfg = c → s.pendingCancel = false → (∀ n, (x n).cancel = false) →
    ninst c - 1 - s.pc = d →
    ∃ n, Verdict c (run s x n) ∧ ∀ m, m < n → (run s x m).state = .validate := by
  induction d using Nat.strong_induction_on with
  | _ d ih =>
    rintro s x h hs rfl hp hx rfl
    obtain hv | ⟨hs', hc', hp', hpc', hlt⟩ := validate_step h hs (x := x 0) (by simp [abort, hp, hx])
    · refine ⟨1, hv, fun m hm => ?_⟩
      obtain rfl : m = 0 := by omega
      exact hs
    · obtain ⟨n, hv, hm⟩ := ih _ (by omega) (step s (x 0)) (fun n => x (n + 1)) (control_step _ h) hs'
        hc' (hp'.trans hp) (fun n => hx (n + 1)) rfl
      refine ⟨n + 1, by rwa [run_succ'], fun m hlt => ?_⟩
      cases m with
      | zero => exact hs
      | succ m =>
        rw [run_succ']
        exact hm m (by omega)

theorem header_verdict {s : Regs} {x : ℕ → Inputs} (h : Control s) (hs : s.state = .header)
    (hp : s.pendingCancel = false) (hx : ∀ n, (x n).cancel = false) :
    ∃ n, Verdict s.cfg (run s x n) ∧
      ∀ m, m < n → (run s x m).state = .header ∨ (run s x m).state = .validate := by
  have ha : abort s (x 0) = false := by simp [abort, hp, hx]
  have hstep := step_header hs ha
  have hnext := control_step (x 0) h
  have hu := h.1 (by simp [hs])
  by_cases hv : headerValid s.cfg = true
  · rw [if_pos hv] at hstep
    rw [hstep] at hnext
    obtain ⟨n, hn, hm⟩ := validate_verdict _ { s with state := .validate } (fun n => x (n + 1)) hnext
      rfl rfl hp (fun n => hx (n + 1)) rfl
    refine ⟨n + 1, by rwa [run_succ', hstep], fun m hlt => ?_⟩
    cases m with
    | zero => exact Or.inl hs
    | succ m =>
      rw [run_succ', hstep]
      exact Or.inr (hm m (by omega))
  · rw [if_neg hv] at hstep
    refine ⟨1, Or.inr ⟨?_, ?_⟩, fun m hm => ?_⟩
    · intro hadm
      refine hv ((headerValid_eq_true hu).mpr ⟨hadm.header, hadm.views, fun p hp hn => ?_⟩)
      have := hadm.insts p hp
      unfold InstOk at this
      rwa [if_pos hn] at this
    · rw [run_succ', hstep]
      exact ⟨rfl, rfl, rfl, rfl⟩
    · obtain rfl : m = 0 := by omega
      exact Or.inl hs

/-- The cycles of a run that is started on `c` and not cancelled. -/
structure Started (c : List ℕ) (s : Regs) (x : ℕ → Inputs) : Prop where
  idle : s.state = .idle
  start : (x 0).start = true
  cfg : (x 0).cfg = c
  cancel : ∀ n, (x n).cancel = false

theorem started_verdict {c : List ℕ} {s : Regs} {x : ℕ → Inputs} (h : Started c s x) :
    ∃ n, 0 < n ∧ Verdict c (run s x n) ∧ ∀ m, 0 < m → m < n →
      (run s x m).state = .header ∨ (run s x m).state = .validate := by
  obtain ⟨hs, hstart, hc, hx⟩ := h
  have hnext := control_step (x 0) (control_idle hs)
  have hstep : (step s (x 0)).state = .header ∧ (step s (x 0)).cfg = c ∧
      (step s (x 0)).pendingCancel = false := by
    simp [step, hs, hstart, hc, hx]
  obtain ⟨hs', hc', hp'⟩ := hstep
  obtain ⟨n, hv, hm⟩ := header_verdict hnext hs' hp' (x := fun n => x (n + 1)) fun n => hx (n + 1)
  refine ⟨n + 1, by omega, ?_, fun m h0 hlt => ?_⟩
  · rwa [run_succ', ← hc']
  · cases m with
    | zero => omega
    | succ m =>
      rw [run_succ']
      exact hm m (by omega)

/-- A run has one end of its checking phases, so the two outcomes exclude each other. -/
theorem not_reaches_and_faults {s : Regs} {x : ℕ → Inputs} (hs : s.state = .idle) :
    ¬ (ReachesExecute s x ∧ FinishesWithFault s x) := by
  rintro ⟨⟨n, hn, hbefore⟩, n', h0, hn', -, -, -, hbefore'⟩
  have hpos : 0 < n := by
    by_contra hz
    obtain rfl : n = 0 := by omega
    simp [run, hs] at hn
  obtain hlt | rfl | hlt := lt_trichotomy n n'
  · have := hbefore' n hpos hlt
    simp [hn] at this
  · simp [hn] at hn'
  · have := hbefore n' h0 hlt
    simp [hn'] at this

theorem reachesExecute_iff {c : List ℕ} {s : Regs} {x : ℕ → Inputs} (h : Started c s x) :
    (ReachesExecute s x ↔ Admissible c) ∧ (FinishesWithFault s x ↔ ¬ Admissible c) := by
  have hex := not_reaches_and_faults (x := x) h.idle
  obtain ⟨n, h0, ⟨hadm, hn⟩ | ⟨hadm, hn, hd, hf, hsucc⟩, hm⟩ := started_verdict h
  · have hr : ReachesExecute s x := ⟨n, hn, hm⟩
    exact ⟨iff_of_true hr hadm, iff_of_false (fun hf => hex ⟨hr, hf⟩) (not_not.mpr hadm)⟩
  · have hf : FinishesWithFault s x := ⟨n, h0, hn, hd, hf, hsucc, hm⟩
    exact ⟨iff_of_false (fun hr => hex ⟨hr, hf⟩) hadm, iff_of_true hf hadm⟩

end Controller

open Controller in
/-- The Python, the C and the hardware validator accept the same words, and an accepted
configuration never reads an unwritten register, leaves its buffers, wraps an address, meets an
unknown opcode or takes the controller's load fault. -/
theorem validators_agree {c : List ℕ} (hlen : c.length = 65) (hw : ∀ w ∈ c, w < 2 ^ 32) :
    ((∃ c', validateConfig (c.map Int.ofNat) = .ok c') ↔ raveilFoldValidate c = true) ∧
    (∀ s x, Started c s x → (ReachesExecute s x ↔ raveilFoldValidate c = true) ∧
      (FinishesWithFault s x ↔ raveilFoldValidate c = false)) ∧
    (raveilFoldValidate c = true → ∀ i j k pc, i < rows c → j < cols c → k < extent c →
      pc < ninst c → SafeAt c i j k pc) ∧
    (∀ s x, s.state = .idle → ∀ n, (run s x n).state = .execute →
      slice (instAt (run s x n)) 31 28 = 1 → loadFaults (run s x n) = false) := by
  refine ⟨?_, fun s x h => ?_, ?_, ?_⟩
  · rw [raveilFoldValidate_eq_true]
    have hback : (c.map Int.ofNat).map Int.toNat = c := (List.map_map ..).trans (List.map_id c)
    constructor
    · rintro ⟨c', h⟩
      obtain ⟨-, -, rfl, hadm⟩ := validateConfig_eq_ok.mp h
      rwa [hback] at hadm
    · intro hadm
      refine ⟨c, validateConfig_eq_ok.mpr ⟨by simpa using hlen, fun w hwm => ?_, hback.symm, hadm⟩⟩
      obtain ⟨n, hn, rfl⟩ := List.mem_map.mp hwm
      have := hw n hn
      simp only [Int.ofNat_eq_natCast, MASK]
      omega
  · rw [← Bool.not_eq_true, raveilFoldValidate_eq_true]
    exact reachesExecute_iff h
  · intro hv i j k pc hi hj hk hpc
    exact safeAt (raveilFoldValidate_eq_true.mp hv) hi hj hk hpc
  · intro s x hs n hn ho
    exact loadFaults_eq_false (control_run (control_idle hs) x n) hn ho

theorem copyConfig_length : copyConfig.length = 65 := by decide

theorem copyConfig_word : ∀ w ∈ copyConfig, w < 2 ^ 32 := by decide

def copyInputs : Controller.Inputs where
  cfg := copyConfig
  cfg_length := copyConfig_length
  cfg_word := copyConfig_word
  start := true
  cancel := false
  reqReady := true
  respValid := true
  respData := 0
  respError := false

theorem validators_agree_copy :
    (∃ c', validateConfig (copyConfig.map Int.ofNat) = .ok c') ∧
      Controller.ReachesExecute (Controller.reset []) (fun _ => copyInputs) ∧
      SafeAt copyConfig 0 0 0 1 :=
  have hv : raveilFoldValidate copyConfig = true := by decide
  have h := validators_agree (c := copyConfig) copyInputs.cfg_length copyInputs.cfg_word
  ⟨h.1.mpr hv, (h.2.1 _ _ ⟨rfl, rfl, rfl, fun _ => rfl⟩).1.mpr hv,
    h.2.2.1 hv 0 0 0 1 (by decide) (by decide) (by decide) (by decide)⟩

end Raveil.Fold
