import Raveil.Fold.Evaluate
import Raveil.Fold.ControllerValidate

/-! The controller attached to a memory that answers with any latency, and what a run leaves in
the output words. -/
namespace Raveil.Fold.Controller
open Raveil.Lib

/-- Everything one cycle can do to registers that satisfy the control invariant. -/
inductive Move (s : Regs) (x : Inputs) (inputs : List ℕ) : Regs → Prop
  | rest (hs : s.state = .idle) (hx : x.start = false) : Move s x inputs s
  | start (hs : s.state = .idle) (t : Regs) (ht : t.state = .header) (hc : t.cfg = x.cfg)
      (hp : t.pendingCancel = x.cancel) (hf : t.success = false) (hv : t.values = fun _ => 0)
      (ha : t.acc = 0) : Move s x inputs t
  | stop (hs : s.state ≠ .idle) (hq : s.state ≠ .request)
      (hv : s.state = .response → x.respValid = true) (ha : abort s x = true) (t : Regs) (bad : Bool) :
      Move s x inputs (finish t false bad true)
  | reject (hs : s.state = .header ∨ s.state = .validate) : Move s x inputs (finish s false true false)
  | check (hs : s.state = .header ∨ s.state = .validate) (ha : abort s x = false) (d pc : ℕ) :
      Move s x inputs { s with defined := d, pc := pc, state := .validate }
  | enter (hs : s.state = .validate) (ha : abort s x = false) :
      Move s x inputs { s with pc := 0, state := .execute }
  | load (hs : s.state = .execute) (ha : abort s x = false) (hpc : s.pc < ninst s.cfg - 1)
      (ho : opcode (inst s.cfg s.pc) = 1) :
      Move s x inputs { s with
        reqAddress := 324 * view s.cfg (srcA (inst s.cfg s.pc)) 0 +
          address s.cfg (srcA (inst s.cfg s.pc)) s.i s.j s.k
        reqData := 0
        reqWrite := false
        loadDestination := dst (inst s.cfg s.pc)
        state := .request }
  | store (hs : s.state = .execute) (ha : abort s x = false) (hpc : s.pc = ninst s.cfg - 1)
      (hk : s.k + 1 = extent s.cfg) :
      Move s x inputs { s with
        reqAddress := 648 + s.i * cols s.cfg + s.j
        reqData := combine s.cfg s.acc (s.values (srcA (inst s.cfg s.pc)))
        reqWrite := true
        state := .request }
  | fold (hs : s.state = .execute) (ha : abort s x = false) (hpc : s.pc = ninst s.cfg - 1)
      (hk : s.k + 1 < extent s.cfg) :
      Move s x inputs { s with
        acc := combine s.cfg s.acc (s.values (srcA (inst s.cfg s.pc)))
        k := s.k + 1
        pc := 0
        values := fun _ => 0 }
  | compute (hs : s.state = .execute) (ha : abort s x = false) (hpc : s.pc < ninst s.cfg - 1) :
      Move s x inputs { s with
        values := execute s.cfg inputs s.i s.j s.k s.values s.pc
        pc := s.pc + 1 }
  | hold (hs : s.state = .request) (hr : x.reqReady = false) :
      Move s x inputs { s with pendingCancel := abort s x }
  | accept (hs : s.state = .request) (hr : x.reqReady = true) :
      Move s x inputs { s with pendingCancel := abort s x, state := .response }
  | wait (hs : s.state = .response) (hv : x.respValid = false) :
      Move s x inputs { s with pendingCancel := abort s x }
  | error (hs : s.state = .response) (hv : x.respValid = true) (he : x.respError = true) (t : Regs)
      (stop : Bool) : Move s x inputs (finish t false true stop)
  | loaded (hs : s.state = .response) (hv : x.respValid = true) (he : x.respError = false)
      (ha : abort s x = false) (hw : s.reqWrite = false) (hpc : s.pc < ninst s.cfg - 1) :
      Move s x inputs { s with
        values := Function.update s.values (dst (inst s.cfg s.pc)) x.respData
        pc := s.pc + 1
        state := .execute }
  | last (hs : s.state = .response) (hv : x.respValid = true) (he : x.respError = false)
      (ha : abort s x = false) (hw : s.reqWrite = true) (hi : s.i + 1 = rows s.cfg)
      (hj : s.j + 1 = cols s.cfg) : Move s x inputs (finish s true false false)
  | advance (hs : s.state = .response) (hv : x.respValid = true) (he : x.respError = false)
      (ha : abort s x = false) (hw : s.reqWrite = true) (i j : ℕ) (hi : i < rows s.cfg)
      (hj : j < cols s.cfg) (hq : i * cols s.cfg + j = s.i * cols s.cfg + s.j + 1) :
      Move s x inputs { s with
        i := i
        j := j
        k := 0
        pc := 0
        acc := 0
        values := fun _ => 0
        state := .execute }

theorem step_response_move {s : Regs} {x : Inputs} (h : Control s) (hs : s.state = .response)
    (inputs : List ℕ) : Move s x inputs (step s x) := by
  obtain ⟨-, hc⟩ := h
  simp only [hs] at hc
  obtain ⟨hadm, hi, hj, -, hr⟩ := hc
  rw [step_response hs]
  cases hv : x.respValid with
  | false =>
    rw [latch_busy (by simp [hs])]
    exact .wait hs hv
  | true =>
    cases ha : abort s x with
    | true => exact .stop (by simp [hs]) (by simp [hs]) (fun _ => hv) ha _ _
    | false =>
      cases he : x.respError with
      | true => exact .error hs hv he _ _
      | false =>
        simp only [latch_eq ha]
        obtain ⟨hw, hpc, hstep⟩ | ⟨hw, hi', hj', hstep⟩ | ⟨hw, i, j, hi', hj', hq, hstep⟩ :=
          stepResponse_cases hadm hi hj hr x.respData
        · simp only [hstep]
          exact .loaded hs hv he ha hw hpc
        · simp only [hstep]
          exact .last hs hv he ha hw hi' hj'
        · simp only [hstep]
          exact .advance hs hv he ha hw i j hi' hj' hq

theorem step_execute_move {s : Regs} {x : Inputs} (h : Control s) (hs : s.state = .execute)
    (ha : abort s x = false) (inputs : List ℕ) : Move s x inputs (step s x) := by
  rw [step_execute hs ha]
  obtain ⟨hpc, ho, he⟩ | ⟨hpc, hk, he⟩ | ⟨hpc, hk, he⟩ | ⟨hpc, he⟩ := stepExecute_cases h hs inputs
  · rw [he]
    exact .load hs ha hpc ho
  · rw [he]
    exact .store hs ha hpc hk
  · rw [he]
    exact .fold hs ha hpc hk
  · rw [he]
    exact .compute hs ha hpc

theorem step_move {s : Regs} (x : Inputs) (h : Control s) (inputs : List ℕ) :
    Move s x inputs (step s x) := by
  cases hs : s.state with
  | idle =>
    have hl : latch s x = s := by simp [latch, hs]
    simp only [step, hs, hl]
    cases hx : x.start with
    | true => exact .start hs _ rfl rfl rfl rfl rfl rfl
    | false => exact .rest hs hx
  | header =>
    cases ha : abort s x with
    | true =>
      rw [step_abort (Or.inl hs) ha]
      exact .stop (by simp [hs]) (by simp [hs]) (by simp [hs]) ha _ _
    | false =>
      rw [step_header hs ha]
      split
      · exact .check (Or.inl hs) ha s.defined s.pc
      · exact .reject (Or.inl hs)
  | validate =>
    cases ha : abort s x with
    | true =>
      rw [step_abort (Or.inr (Or.inl hs)) ha]
      exact .stop (by simp [hs]) (by simp [hs]) (by simp [hs]) ha _ _
    | false =>
      rw [step_validate hs ha]
      split
      · exact .reject (Or.inr hs)
      · split
        · exact .enter hs ha
        · have : Move s x inputs _ := Move.check (Or.inr hs) ha
            ((s.defined ||| (1 <<< slice (instAt s) 27 25)) % 2 ^ 8) ((s.pc + 1) % 2 ^ 5)
          rwa [← hs] at this
  | execute =>
    cases ha : abort s x with
    | true =>
      rw [step_abort (Or.inr (Or.inr hs)) ha]
      exact .stop (by simp [hs]) (by simp [hs]) (by simp [hs]) ha _ _
    | false => exact step_execute_move h hs ha inputs
  | request =>
    rw [step_request hs, latch_busy (by simp [hs])]
    cases hr : x.reqReady with
    | true => exact .accept hs hr
    | false => exact .hold hs hr
  | response => exact step_response_move h hs inputs

/-- A request the memory has accepted; `applied` says that its write has taken effect. -/
structure Accepted where
  write : Bool
  address : ℕ
  data : ℕ
  applied : Bool
  deriving DecidableEq, Repr

structure System where
  regs : Regs
  mem : ℕ → ℕ
  pending : List Accepted

/-- What the host and the memory choose in one cycle. A write takes effect when it is accepted or
when it is answered; one answered with an error need not take effect at all. -/
structure Choice where
  cfg : List ℕ
  cfg_length : cfg.length = 65
  cfg_word : ∀ w ∈ cfg, w < 2 ^ 32
  start : Bool
  cancel : Bool
  reqReady : Bool
  respond : Bool
  respError : Bool
  applies : Bool
  otherData : ℕ

/-- The wires of one cycle: only an accepted request is answered, a read with the current word. -/
def System.inputs (s : System) (e : Choice) : Inputs where
  cfg := e.cfg
  cfg_length := e.cfg_length
  cfg_word := e.cfg_word
  start := e.start
  cancel := e.cancel
  reqReady := e.reqReady
  respValid := e.respond && !s.pending.isEmpty
  respData := match s.pending with
    | q :: _ => if q.write || e.respError then e.otherData else s.mem q.address
    | [] => e.otherData
  respError := e.respError

def busy (s : System) : Prop := s.regs.state ≠ .idle

def reqValid (s : System) : Prop := s.regs.state = .request

def reqFires (s : System) (e : Choice) : Bool := s.regs.state = .request && e.reqReady

def respFires (s : System) (e : Choice) : Bool :=
  s.regs.state = .response && (s.inputs e).respValid

/-- The word written in this cycle. -/
def landed (s : System) (e : Choice) : Option (ℕ × ℕ) :=
  if reqFires s e && s.regs.reqWrite && e.applies then some (s.regs.reqAddress, s.regs.reqData)
  else match s.pending with
    | q :: _ =>
      if respFires s e && q.write && !q.applied && (!e.respError || e.applies) then
        some (q.address, q.data)
      else none
    | [] => none

def store (mem : ℕ → ℕ) (w : ℕ × ℕ) : ℕ → ℕ := Function.update mem w.1 w.2

def cycle (s : System) (e : Choice) : System where
  regs := step s.regs (s.inputs e)
  mem := (landed s e).toList.foldl store s.mem
  pending := (if respFires s e then s.pending.tail else s.pending) ++
    if reqFires s e then
      [⟨s.regs.reqWrite, s.regs.reqAddress, s.regs.reqData, s.regs.reqWrite && e.applies⟩]
    else []

/-- The system after `n` cycles from reset. -/
def execution (cfg : List ℕ) (mem : ℕ → ℕ) (e : ℕ → Choice) : ℕ → System
  | 0 => { regs := reset cfg, mem := mem, pending := [] }
  | n + 1 => cycle (execution cfg mem e n) (e n)

/-- The words written in the `d` cycles from `t` on, in order. -/
def writes (sys : ℕ → System) (e : ℕ → Choice) (t d : ℕ) : List (ℕ × ℕ) :=
  (List.range d).flatMap fun m => (landed (sys (t + m)) (e (t + m))).toList

/-- Everything outstanding, in terms of the registers. -/
def Outstanding (s : System) : Prop :=
  (s.regs.state = .response →
    ∃ applied, s.pending = [⟨s.regs.reqWrite, s.regs.reqAddress, s.regs.reqData, applied⟩] ∧
      (applied = true → s.regs.reqWrite = true)) ∧
  (s.regs.state ≠ .response → s.pending = [])

/-- Success is only reported in idle and alone. -/
def Flags (s : Regs) : Prop :=
  (s.state ≠ .idle → s.success = false) ∧
    (s.success = true → s.fault = false ∧ s.cancelled = false)

theorem flags_step {s : Regs} (x : Inputs) (hc : Control s) (h : Flags s) : Flags (step s x) := by
  have hbusy : s.state ≠ .idle → ∀ t : Regs, t.success = s.success → Flags t := by
    intro hs t ht
    have hf := ht.trans (h.1 hs)
    exact ⟨fun _ => hf, fun h' => by simp [hf] at h'⟩
  have hm := step_move x hc []
  generalize step s x = t at hm ⊢
  cases hm with
  | rest hs => exact h
  | start hs t ht hc hp hf => exact ⟨fun _ => hf, by simp [hf]⟩
  | stop => simp [Flags, finish]
  | reject => simp [Flags, finish]
  | error => simp [Flags, finish]
  | last => simp [Flags, finish]
  | check hs => exact hbusy (by rcases hs with hs | hs <;> simp [hs]) _ rfl
  | enter hs | load hs | store hs | fold hs | compute hs | hold hs | accept hs | wait hs
  | loaded hs | advance hs => exact hbusy (by simp [hs]) _ rfl

/-- A request once offered keeps its registers until it is accepted. -/
theorem request_held {s : Regs} {x : Inputs} (hc : Control s) (hs : s.state = .request) :
    (step s x).state = (if x.reqReady then .response else .request) ∧
      (step s x).reqWrite = s.reqWrite ∧ (step s x).reqAddress = s.reqAddress ∧
      (step s x).reqData = s.reqData := by
  have hm := step_move x hc []
  generalize step s x = t at hm ⊢
  cases hm <;> simp_all

theorem outstanding_cycle {s : System} (e : Choice) (h : Outstanding s) (hc : Control s.regs) :
    Outstanding (cycle s e) := by
  have hm := step_move (s.inputs e) hc []
  unfold Outstanding at h ⊢
  simp only [cycle]
  generalize step s.regs (s.inputs e) = t at hm ⊢
  obtain ⟨hpend, hnone⟩ := h
  cases hm with
  | accept hs hr =>
    have hr' : e.reqReady = true := hr
    simp +contextual [hs, respFires, reqFires, hr', hnone]
  | hold hs hr =>
    have hr' : e.reqReady = false := hr
    simp [hs, respFires, reqFires, hr', hnone]
  | wait hs hv =>
    simpa [hs, respFires, reqFires, hv] using hpend hs
  | rest hs => simp [hs, respFires, reqFires, hnone]
  | start hs t ht => simp [hs, ht, respFires, reqFires, hnone]
  | stop hs hq hv =>
    by_cases hr : s.regs.state = .response
    · obtain ⟨applied, hp, -⟩ := hpend hr
      simp [hr, respFires, reqFires, hv hr, finish, hp]
    · simp [hr, respFires, reqFires, hq, finish, hnone]
  | reject hs | check hs =>
    rcases hs with hs | hs <;> simp [hs, respFires, reqFires, finish, hnone]
  | enter hs | load hs | store hs | fold hs | compute hs =>
    simp [hs, respFires, reqFires, hnone]
  | error hs hv | loaded hs hv | last hs hv | advance hs hv =>
    obtain ⟨applied, hp, -⟩ := hpend hs
    simp [hs, respFires, reqFires, hv, finish, hp]

/-- What every state reached from reset satisfies. -/
structure Sound (s : System) : Prop where
  control : Control s.regs
  flags : Flags s.regs
  outstanding : Outstanding s

theorem sound_cycle {s : System} (e : Choice) (h : Sound s) : Sound (cycle s e) :=
  ⟨control_step _ h.control, flags_step _ h.control h.flags,
    outstanding_cycle e h.outstanding h.control⟩

theorem sound_execution (cfg : List ℕ) (mem : ℕ → ℕ) (e : ℕ → Choice) (n : ℕ) :
    Sound (execution cfg mem e n) := by
  induction n with
  | zero =>
    exact ⟨control_idle rfl, by simp [Flags, execution, reset],
      by simp [Outstanding, execution, reset]⟩
  | succ n ih => exact sound_cycle (e n) ih

/-- The output cells in the order and at the addresses they are written. -/
def cells (c inputs : List ℕ) (n : ℕ) : List (ℕ × ℕ) :=
  (List.range n).map fun q => (648 + q, cellValue c inputs (q / cols c) (q % cols c))

theorem cells_succ {c inputs : List ℕ} {i j : ℕ} (hj : j < cols c) :
    cells c inputs (i * cols c + j + 1) =
      cells c inputs (i * cols c + j) ++ [(648 + i * cols c + j, cellValue c inputs i j)] := by
  unfold cells
  rw [List.range_succ, List.map_append, List.map_singleton, div_row hj, mod_row hj, Nat.add_assoc]

/-- A run started on `c` with memory `mem` that has written `w` so far. -/
def Progress (c : List ℕ) (mem : ℕ → ℕ) (s : System) (w : List (ℕ × ℕ)) : Prop :=
  let inputs := (List.range 648).map mem
  let r := s.regs
  let here := r.cfg = c ∧ r.values = regsAt c inputs r.i r.j r.k r.pc ∧
    r.acc = accAt c inputs r.i r.j r.k
  let offered := r.reqWrite = true → r.reqData = cellValue c inputs r.i r.j
  match r.state with
  | .idle => r.success = true → Admissible c ∧ w = cells c inputs (rows c * cols c)
  | .header | .validate => r.cfg = c ∧ r.values = (fun _ => 0) ∧ r.acc = 0 ∧ w = []
  | .execute => here ∧ w = cells c inputs (r.i * cols c + r.j)
  | .request => here ∧ offered ∧ w = cells c inputs (r.i * cols c + r.j)
  | .response => here ∧ offered ∧ ∀ q ∈ s.pending,
      w = cells c inputs (r.i * cols c + r.j + if q.applied then 1 else 0)

theorem cells_store_input {c inputs : List ℕ} {mem : ℕ → ℕ} {a : ℕ} (ha : a < 648) (n : ℕ) :
    (cells c inputs n).foldl store mem a = mem a := by
  induction n with
  | zero => rfl
  | succ n ih =>
    rw [cells, List.range_succ, List.map_append, List.foldl_append]
    exact (Function.update_of_ne (show a ≠ 648 + n by omega) _ _).trans ih

theorem cells_store_output {c inputs : List ℕ} {mem : ℕ → ℕ} {q n : ℕ} (hq : q < n) :
    (cells c inputs n).foldl store mem (648 + q) = cellValue c inputs (q / cols c) (q % cols c) := by
  induction n with
  | zero => omega
  | succ n ih =>
    rw [cells, List.range_succ, List.map_append, List.foldl_append]
    obtain hlt | rfl : q < n ∨ q = n := by omega
    · exact (Function.update_of_ne (show 648 + q ≠ 648 + n by omega) _ _).trans (ih hlt)
    · exact Function.update_self _ _ _

theorem landed_none {s : System} (e : Choice) (h : Outstanding s) (hq : s.regs.state ≠ .request)
    (hr : s.regs.state ≠ .response) : landed s e = none := by
  simp [landed, reqFires, hq, h.2 hr]

theorem landed_request {s : System} {e : Choice} (h : Outstanding s) (hs : s.regs.state = .request)
    (hr : e.reqReady = true) : landed s e =
      if s.regs.reqWrite && e.applies then some (s.regs.reqAddress, s.regs.reqData) else none := by
  simp [landed, reqFires, hs, hr, h.2 (by simp [hs])]

theorem landed_response {s : System} {e : Choice} {q : Accepted} (hs : s.regs.state = .response)
    (hp : s.pending = [q]) : landed s e =
      if respFires s e && q.write && !q.applied && (!e.respError || e.applies) then
        some (q.address, q.data) else none := by
  simp [landed, reqFires, hs, hp]

/-- A load inside the iteration space reads a word of one of the two inputs. -/
theorem load_address_lt {c : List ℕ} (h : Admissible c) {i j k pc : ℕ} (hi : i < rows c)
    (hj : j < cols c) (hk : k < extent c) (hpc : pc < ninst c) (ho : opcode (inst c pc) = 1) :
    324 * view c (srcA (inst c pc)) 0 + address c (srcA (inst c pc)) i j k < 648 := by
  have hv := (load_view h hpc ho).2
  have ha := address_lt_324 h hv hi hj hk
  have hb := (view_le h hv).1
  omega

theorem execute_load {c inputs : List ℕ} {i j k pc : ℕ} {values : ℕ → ℕ}
    (ho : opcode (inst c pc) = 1) :
    execute c inputs i j k values pc = Function.update values (dst (inst c pc))
      (inputs.getD (324 * view c (srcA (inst c pc)) 0 + address c (srcA (inst c pc)) i j k) 0) := by
  unfold execute executeWord
  simp only [ho]

theorem getD_inputs {mem : ℕ → ℕ} {a : ℕ} (ha : a < 648) :
    ((List.range 648).map mem).getD a 0 = mem a := by
  rw [List.getD_eq_getElem?_getD, List.getElem?_map, List.getElem?_range ha]
  rfl

/-- After an answered write the cell counts as written. -/
theorem written_response {c inputs : List ℕ} {s : System} {e : Choice} {w : List (ℕ × ℕ)}
    (hs : s.regs.state = .response) (hv : (s.inputs e).respValid = true) (he : e.respError = false)
    (hw : s.regs.reqWrite = true) (hout : Outstanding s) (hj : s.regs.j < cols c)
    (haddr : s.regs.reqAddress = 648 + s.regs.i * cols c + s.regs.j)
    (hdata : s.regs.reqData = cellValue c inputs s.regs.i s.regs.j)
    (hp : ∀ q ∈ s.pending,
      w = cells c inputs (s.regs.i * cols c + s.regs.j + if q.applied then 1 else 0)) :
    w ++ (landed s e).toList = cells c inputs (s.regs.i * cols c + s.regs.j + 1) := by
  obtain ⟨applied, hpend, -⟩ := hout.1 hs
  rw [hpend, List.forall_mem_singleton] at hp
  rw [landed_response hs hpend]
  cases applied with
  | true => simpa using hp
  | false =>
    rw [cells_succ hj]
    simpa [respFires, hs, hv, hw, he, haddr, hdata] using hp

/-- One cycle of a run that has not ended. -/
theorem progress_cycle {c : List ℕ} {mem : ℕ → ℕ} {s : System} {w : List (ℕ × ℕ)} (e : Choice)
    (hs : s.regs.state ≠ .idle) (h : Sound s) (hp : Progress c mem s w)
    (hmem : s.mem = w.foldl store mem) :
    Progress c mem (cycle s e) (w ++ (landed s e).toList) := by
  have hm := step_move (s.inputs e) h.control ((List.range 648).map mem)
  obtain ⟨hu, hctl⟩ := h.control
  have hout := h.outstanding
  unfold Progress at hp ⊢
  simp only [cycle]
  generalize step s.regs (s.inputs e) = t at hm ⊢
  cases hm with
  | rest hi => exact absurd hi hs
  | start hi => exact absurd hi hs
  | stop => simp [finish]
  | reject => simp [finish]
  | error => simp [finish]
  | check hs =>
    rw [landed_none e hout (by rcases hs with hs | hs <;> simp [hs])
      (by rcases hs with hs | hs <;> simp [hs])]
    rcases hs with hs | hs
    · simpa [hs] using hp
    · simpa [hs] using hp
  | enter hs =>
    rw [landed_none e hout (by simp [hs]) (by simp [hs])]
    simp only [hs] at hp hctl
    obtain ⟨-, -, -, -, hi, hj, hk⟩ := hctl
    obtain ⟨hcfg, hval, hacc, hw⟩ := hp
    simp [hcfg, hval, hacc, hw, hi, hj, hk, regsAt_zero, accAt_zero, cells]
  | load hs =>
    rw [landed_none e hout (by simp [hs]) (by simp [hs])]
    simp only [hs] at hp
    obtain ⟨⟨hcfg, hval, hacc⟩, hw⟩ := hp
    exact ⟨⟨hcfg, hval, hacc⟩, by simp, by simpa using hw⟩
  | store hs ha hpc hk =>
    rw [landed_none e hout (by simp [hs]) (by simp [hs])]
    simp only [hs] at hp
    obtain ⟨⟨hcfg, hval, hacc⟩, hw⟩ := hp
    refine ⟨⟨hcfg, hval, hacc⟩, fun _ => ?_, by simpa using hw⟩
    rw [hcfg] at hpc hk
    simp only [hcfg, hval, hacc, hpc]
    rw [cellValue, ← hk, accAt_succ]
    rfl
  | fold hs ha hpc hk =>
    rw [landed_none e hout (by simp [hs]) (by simp [hs])]
    simp only [hs] at hp ⊢
    obtain ⟨⟨hcfg, hval, hacc⟩, hw⟩ := hp
    rw [hcfg] at hpc
    refine ⟨⟨hcfg, rfl, ?_⟩, by simpa using hw⟩
    rw [accAt_succ, hcfg, hval, hacc, hpc]
    rfl
  | compute hs ha hpc =>
    rw [landed_none e hout (by simp [hs]) (by simp [hs])]
    simp only [hs] at hp ⊢
    obtain ⟨⟨hcfg, hval, hacc⟩, hw⟩ := hp
    refine ⟨⟨hcfg, ?_, hacc⟩, by simpa using hw⟩
    rw [regsAt_succ, hcfg, hval]
  | hold hs hr =>
    have hl : landed s e = none := by
      have hr' : e.reqReady = false := hr
      simp [landed, reqFires, hs, hr', hout.2]
    simp only [hs] at hp ⊢
    simpa [hl] using hp
  | accept hs hr =>
    rw [landed_request hout hs hr]
    simp only [hs] at hp hctl
    obtain ⟨⟨hcfg, hval, hacc⟩, hoff, hw⟩ := hp
    refine ⟨⟨hcfg, hval, hacc⟩, hoff, ?_⟩
    have hpend : s.pending = [] := hout.2 (by simp [hs])
    have hr' : e.reqReady = true := hr
    intro q hq
    obtain rfl : q = ⟨s.regs.reqWrite, s.regs.reqAddress, s.regs.reqData,
        s.regs.reqWrite && e.applies⟩ := by
      simpa [respFires, reqFires, hs, hr', hpend] using hq
    cases hx : s.regs.reqWrite && e.applies with
    | false => simpa using hw
    | true =>
      obtain ⟨hwrite, -⟩ := Bool.and_eq_true_iff.mp hx
      obtain ⟨-, -, hj, -, ⟨hno, -⟩ | ⟨-, -, -, haddr⟩⟩ := hctl
      · simp [hwrite] at hno
      · rw [hcfg] at hj haddr
        simp only [↓reduceIte, Option.toList_some]
        rw [cells_succ hj, hw, haddr, hoff hwrite]
  | wait hs hv =>
    have hl : landed s e = none := by
      obtain ⟨applied, hpend, -⟩ := hout.1 hs
      rw [landed_response hs hpend]
      simp [respFires, hv]
    simp only [hs] at hp ⊢
    simpa [hl, respFires, hv, reqFires, hs] using hp
  | loaded hs hv he ha hw hpc =>
    obtain ⟨applied, hpend, happ⟩ := hout.1 hs
    simp only [hs] at hp hctl
    obtain ⟨⟨hcfg, hval, hacc⟩, -, hwr⟩ := hp
    obtain ⟨hadm, hi, hj, hk, ⟨-, -, ho, haddr, -⟩ | ⟨hwrite, -⟩⟩ := hctl
    · have hlt := load_address_lt hadm hi hj hk (show s.regs.pc < ninst s.regs.cfg by omega) ho
      obtain rfl : applied = false := by
        cases applied with
        | false => rfl
        | true => simp [hw] at happ
      rw [hpend, List.forall_mem_singleton] at hwr
      have hread : (s.inputs e).respData = ((List.range 648).map mem).getD s.regs.reqAddress 0 := by
        have he' : e.respError = false := he
        rw [haddr, getD_inputs hlt, ← haddr]
        simp only [System.inputs, hpend, hw, he', Bool.or_self, Bool.false_eq_true, ↓reduceIte]
        rw [hmem, hwr, cells_store_input (haddr ▸ hlt)]
      have hl : landed s e = none := by
        rw [landed_response hs hpend]
        simp [hw]
      refine ⟨⟨hcfg, ?_, hacc⟩, by simpa [hl] using hwr⟩
      rw [regsAt_succ, ← hval, hread, haddr, hcfg, execute_load (hcfg ▸ ho)]
    · simp [hw] at hwrite
  | last hs hv he ha hw hi hj =>
    simp only [hs] at hp hctl
    obtain ⟨⟨hcfg, -⟩, hoff, hwr⟩ := hp
    obtain ⟨hadm, -, hj', -, ⟨hno, -⟩ | ⟨-, -, -, haddr⟩⟩ := hctl
    · simp [hw] at hno
    · rw [hcfg] at hadm hi hj hj' haddr
      refine fun _ => ⟨hadm, ?_⟩
      rw [written_response hs hv he hw hout hj' haddr (hoff hw) hwr, ← hi, ← hj, Nat.succ_mul]
      rfl
  | advance hs hv he ha hw i j hi hj hq =>
    simp only [hs] at hp hctl
    obtain ⟨⟨hcfg, -⟩, hoff, hwr⟩ := hp
    obtain ⟨-, -, hj', -, ⟨hno, -⟩ | ⟨-, -, -, haddr⟩⟩ := hctl
    · simp [hw] at hno
    · rw [hcfg] at hj' haddr hq
      refine ⟨⟨hcfg, rfl, rfl⟩, ?_⟩
      rw [written_response hs hv he hw hout hj' haddr (hoff hw) hwr, ← hq]

theorem progress_start {s : System} {e : Choice} (hs : s.regs.state = .idle) (hx : e.start = true)
    (h : Sound s) :
    Progress e.cfg s.mem (cycle s e) [] ∧ (cycle s e).regs.state ≠ .idle ∧
      (cycle s e).regs.pendingCancel = e.cancel := by
  have hm := step_move (s.inputs e) h.control []
  unfold Progress
  simp only [cycle]
  generalize step s.regs (s.inputs e) = t at hm ⊢
  cases hm with
  | start hs t ht hc hp hf hv ha => simp [ht, hc, hp, hv, ha, System.inputs]
  | rest hs hx' => simp [System.inputs, hx] at hx'
  | stop hs' => exact absurd hs hs'
  | reject hs' | check hs' => simp [hs] at hs'
  | enter hs' | load hs' | store hs' | fold hs' | compute hs' | hold hs' | accept hs' | wait hs'
  | error hs' | loaded hs' | last hs' | advance hs' => simp [hs] at hs'

/-- A cancel seen during a run is remembered until the run ends without success. -/
def Tainted (s : Regs) : Prop :=
  (s.state = .idle → s.success = false) ∧ (s.state ≠ .idle → s.pendingCancel = true)

theorem tainted_step {s : Regs} {x : Inputs} (hc : Control s) (hs : s.state ≠ .idle)
    (ha : abort s x = true) : Tainted (step s x) := by
  have hm := step_move x hc []
  unfold Tainted
  generalize step s x = t at hm ⊢
  cases hm <;> simp_all [finish]

theorem error_step {s : System} {e : Choice} (hc : Control s.regs) (hf : respFires s e = true)
    (he : e.respError = true) :
    (cycle s e).regs.state = .idle ∧ (cycle s e).regs.success = false := by
  have hm := step_move (s.inputs e) hc []
  have he' : (s.inputs e).respError = true := he
  simp only [respFires, Bool.and_eq_true, decide_eq_true_iff] at hf
  simp only [cycle]
  generalize step s.regs (s.inputs e) = t at hm ⊢
  cases hm <;> simp_all [finish]

theorem writes_succ (sys : ℕ → System) (e : ℕ → Choice) (t d : ℕ) :
    writes sys e t (d + 1) = writes sys e t d ++ (landed (sys (t + d)) (e (t + d))).toList := by
  simp [writes, List.range_succ]

theorem mem_writes (cfg : List ℕ) (mem : ℕ → ℕ) (e : ℕ → Choice) (t d : ℕ) :
    (execution cfg mem e (t + d)).mem =
      (writes (execution cfg mem e) e t d).foldl store (execution cfg mem e t).mem := by
  induction d with
  | zero => rfl
  | succ d ih =>
    rw [writes_succ, List.foldl_append, ← ih]
    rfl

/-- The cycles from a start in idle to the next idle. -/
structure Runs (sys : ℕ → System) (e : ℕ → Choice) (t n : ℕ) : Prop where
  idle : (sys t).regs.state = .idle
  start : (e t).start = true
  lt : t < n
  during : ∀ m, t < m → m < n → busy (sys m)
  ended : ¬ busy (sys n)

section Run

variable {cfg : List ℕ} {mem : ℕ → ℕ} {e : ℕ → Choice} {t n : ℕ}

theorem progress_run (h : Runs (execution cfg mem e) e t n) (d : ℕ) (hd : t + d + 1 ≤ n) :
    Progress (e t).cfg (execution cfg mem e t).mem (execution cfg mem e (t + d + 1))
      (writes (execution cfg mem e) e t (d + 1)) := by
  induction d with
  | zero =>
    have hs := sound_execution cfg mem e t
    have hl := landed_none (e t) hs.outstanding (by simp [h.idle]) (by simp [h.idle])
    rw [writes_succ]
    simp only [Nat.add_zero, hl]
    exact (progress_start h.idle h.start hs).1
  | succ d ih =>
    have hm := mem_writes cfg mem e t (d + 1)
    rw [writes_succ]
    exact progress_cycle (e (t + d + 1)) (h.during _ (by omega) (by omega))
      (sound_execution cfg mem e (t + d + 1)) (ih (by omega)) hm

theorem tainted_run (h : Runs (execution cfg mem e) e t n) {m : ℕ} (hm : t ≤ m) (hn : m < n)
    (hx : (e m).cancel = true) (d : ℕ) (hd : m + d + 1 ≤ n) :
    Tainted (execution cfg mem e (m + d + 1)).regs := by
  induction d with
  | zero =>
    have hs := sound_execution cfg mem e m
    obtain rfl | hlt : t = m ∨ t < m := by omega
    · obtain ⟨-, hb, hp⟩ := progress_start h.idle h.start hs
      exact ⟨fun hi => absurd hi hb, fun _ => hp.trans hx⟩
    · exact tainted_step hs.control (h.during m hlt hn) (by simp [abort, System.inputs, hx])
  | succ d ih =>
    have hb := h.during (m + d + 1) (by omega) (by omega)
    have hp := (ih (by omega)).2 hb
    exact tainted_step (sound_execution cfg mem e (m + d + 1)).control hb (Bool.or_eq_true_iff.mpr (Or.inl hp))

/-- A cancel in the start cycle or a busy cycle, or an answer with an error, excludes success. -/
theorem not_success (h : Runs (execution cfg mem e) e t n) {m : ℕ} (hm : t ≤ m) (hn : m < n)
    (hbad : (e m).cancel = true ∨
      (respFires (execution cfg mem e m) (e m) = true ∧ (e m).respError = true)) :
    (execution cfg mem e n).regs.success = false := by
  have hidle : (execution cfg mem e n).regs.state = .idle := not_not.mp h.ended
  obtain hx | ⟨hf, he⟩ := hbad
  · have ht := tainted_run h hm hn hx (n - m - 1) (by omega)
    rw [show m + (n - m - 1) + 1 = n by omega] at ht
    exact ht.1 hidle
  · obtain ⟨hs, hsucc⟩ := error_step (sound_execution cfg mem e m).control hf he
    obtain rfl : m + 1 = n := by
      by_contra hne
      exact h.during (m + 1) (by omega) (by omega) hs
    exact hsucc

theorem run_success (h : Runs (execution cfg mem e) e t n)
    (hs : (execution cfg mem e n).regs.success = true) :
    Admissible (e t).cfg ∧ writes (execution cfg mem e) e t (n - t) =
      cells (e t).cfg ((List.range 648).map (execution cfg mem e t).mem)
        (rows (e t).cfg * cols (e t).cfg) := by
  have hidle : (execution cfg mem e n).regs.state = .idle := not_not.mp h.ended
  have hlt := h.lt
  have hp := progress_run h (n - t - 1) (by omega)
  rw [show t + (n - t - 1) + 1 = n by omega, show n - t - 1 + 1 = n - t by omega] at hp
  simp only [Progress, hidle] at hp
  exact hp hs

end Run

/-- What an offered request may touch, given the captured configuration. -/
def RequestInside (s : Regs) : Prop :=
  if s.reqWrite then 648 ≤ s.reqAddress ∧ s.reqAddress < 648 + rows s.cfg * cols s.cfg
  else s.reqAddress < 648

theorem requestInside {s : Regs} (h : Control s) (hs : s.state = .request) : RequestInside s := by
  obtain ⟨-, hc⟩ := h
  simp only [hs] at hc
  obtain ⟨hadm, hi, hj, hk, ⟨hw, hpc, ho, haddr, -⟩ | ⟨hw, -, -, haddr⟩⟩ := hc
  · simp only [RequestInside, hw, Bool.false_eq_true, ↓reduceIte, haddr]
    exact load_address_lt hadm hi hj hk (by omega) ho
  · simp only [RequestInside, hw, ↓reduceIte, haddr]
    have hle := Nat.mul_le_mul_right (cols s.cfg) (show s.i + 1 ≤ rows s.cfg by omega)
    rw [Nat.succ_mul] at hle
    omega

/-- The controller against any memory and any host: one request outstanding, offers held, bounded
addresses, and a successful run leaves exactly the evaluator's output. -/
theorem controller_refines (cfg : List ℕ) (mem : ℕ → ℕ) (e : ℕ → Choice) :
    let sys := execution cfg mem e
    (∀ n, (sys n).pending.length ≤ 1) ∧
    (∀ n, reqValid (sys n) → reqFires (sys n) (e n) = false → reqValid (sys (n + 1)) ∧
      (sys (n + 1)).regs.reqWrite = (sys n).regs.reqWrite ∧
      (sys (n + 1)).regs.reqAddress = (sys n).regs.reqAddress ∧
      (sys (n + 1)).regs.reqData = (sys n).regs.reqData) ∧
    (∀ n, reqValid (sys n) → RequestInside (sys n).regs) ∧
    (∀ n, (sys n).regs.success = true →
      ¬ busy (sys n) ∧ (sys n).regs.fault = false ∧ (sys n).regs.cancelled = false) ∧
    (∀ t n, Runs sys e t n →
      ((∃ m, t ≤ m ∧ m < n ∧ ((e m).cancel = true ∨
        (respFires (sys m) (e m) = true ∧ (e m).respError = true))) →
        (sys n).regs.success = false) ∧
      ((sys n).regs.success = true → ∀ requestId output, output.length = 256 →
        ∃ words, raveilFoldEvaluate ⟨requestId, (e t).cfg, (List.range 648).map (sys t).mem⟩ output =
            some words ∧
          (∀ q, q < rows (e t).cfg * cols (e t).cfg → (sys n).mem (648 + q) = words.getD q 0) ∧
          (∀ a, a < 648 → (sys n).mem a = (sys t).mem a) ∧
          writes sys e t (n - t) = (List.range (rows (e t).cfg * cols (e t).cfg)).map
            fun q => (648 + q, words.getD q 0))) := by
  intro sys
  have hsound : ∀ n, Sound (sys n) := sound_execution cfg mem e
  refine ⟨fun n => ?_, fun n hv hf => ?_, fun n hv => requestInside (hsound n).control hv,
    fun n hs => ?_, fun t n h => ⟨?_, fun hs requestId output hlen => ?_⟩⟩
  · obtain ⟨hresp, hnone⟩ := (hsound n).outstanding
    by_cases hs : (sys n).regs.state = .response
    · obtain ⟨applied, hp, -⟩ := hresp hs
      simp [hp]
    · simp [hnone hs]
  · have hr : (e n).reqReady = false := by
      simpa [reqFires, show (sys n).regs.state = .request from hv] using hf
    have hh := request_held (x := (sys n).inputs (e n)) (hsound n).control hv
    rw [show ((sys n).inputs (e n)).reqReady = false from hr] at hh
    exact hh
  · obtain ⟨hb, hf⟩ := (hsound n).flags
    refine ⟨fun hbusy => ?_, hf hs⟩
    simp [hb hbusy] at hs
  · rintro ⟨m, hm, hn, hbad⟩
    exact not_success h hm hn hbad
  · obtain ⟨hadm, hw⟩ := run_success h hs
    have hget : ∀ q, q < rows (e t).cfg * cols (e t).cfg →
        (outputWords (e t).cfg ((List.range 648).map (sys t).mem) ++
          output.drop (rows (e t).cfg * cols (e t).cfg)).getD q 0 =
        cellValue (e t).cfg ((List.range 648).map (sys t).mem) (q / cols (e t).cfg)
          (q % cols (e t).cfg) := by
      intro q hq
      rw [List.getD_append _ _ _ _ (by rwa [outputWords_length]), List.getD_eq_getElem?_getD,
        outputWords, List.getElem?_map, List.getElem?_range hq]
      rfl
    have hmem := mem_writes cfg mem e t (n - t)
    rw [show t + (n - t) = n by have := h.lt; omega, hw] at hmem
    refine ⟨_, raveilFoldEvaluate_eq hadm hlen, fun q hq => ?_, fun a ha => ?_, ?_⟩
    · rw [hget q hq, hmem, cells_store_output hq]
    · rw [hmem, cells_store_input ha]
    · rw [hw, cells]
      refine List.map_congr_left fun q hq => ?_
      rw [hget q (List.mem_range.mp hq)]

/-- A host that starts at once and a memory that answers at once. -/
def copyChoice : Choice where
  cfg := copyConfig
  cfg_length := by decide
  cfg_word := by decide
  start := true
  cancel := false
  reqReady := true
  respond := true
  respError := false
  applies := false
  otherData := 0

example : (execution [] (fun _ => 7) (fun _ => copyChoice) 10).regs.success = true ∧
    (execution [] (fun _ => 7) (fun _ => copyChoice) 10).mem 648 = 7 := by decide

end Raveil.Fold.Controller
