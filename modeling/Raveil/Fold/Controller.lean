import Raveil.Fold.Validate

/-! The `AffineFoldRegion` controller, one clock cycle at a time, with the register widths of the
hardware description. -/
namespace Raveil.Fold.Controller
open Raveil.Lib

inductive Phase
  | idle | header | validate | execute | request | response
  deriving DecidableEq, Repr

structure Regs where
  state : Phase
  cfg : List ℕ
  pc : ℕ
  defined : ℕ
  values : ℕ → ℕ
  i : ℕ
  j : ℕ
  k : ℕ
  acc : ℕ
  pendingCancel : Bool
  done : Bool
  success : Bool
  fault : Bool
  cancelled : Bool
  reqWrite : Bool
  reqAddress : ℕ
  reqData : ℕ
  loadDestination : ℕ

/-- The input wires of one cycle; `cfg` is a `Vec(65, UInt(32.W))`. -/
structure Inputs where
  cfg : List ℕ
  cfg_length : cfg.length = 65
  cfg_word : ∀ w ∈ cfg, w < 2 ^ 32
  start : Bool
  cancel : Bool
  reqReady : Bool
  respValid : Bool
  respData : ℕ
  respError : Bool

/-- The registers after reset; `cfg` has no reset value. -/
def reset (cfg : List ℕ) : Regs where
  state := .idle
  cfg := cfg
  pc := 0
  defined := 0
  values := fun _ => 0
  i := 0
  j := 0
  k := 0
  acc := 0
  pendingCancel := false
  done := false
  success := false
  fault := false
  cancelled := false
  reqWrite := false
  reqAddress := 0
  reqData := 0
  loadDestination := 0

/-- The bit slice `w(high, low)`. -/
def slice (w high low : ℕ) : ℕ := (w >>> low) % 2 ^ (high - low + 1)

/-- `x - 1.U` on a 32-bit wire. -/
def pred32 (x : ℕ) : ℕ := (x + 2 ^ 32 - 1) % 2 ^ 32

def instAt (s : Regs) : ℕ := cfg s.cfg ((49 + s.pc) % 2 ^ 7)

def isFinal (s : Regs) : Bool := s.pc = pred32 (ninst s.cfg)

def instructionValid (s : Regs) : Bool :=
  let inst := instAt s
  let op := slice inst 31 28
  let dst := slice inst 27 25
  let a := slice inst 24 22
  let b := slice inst 21 19
  let immediate := slice inst 21 0
  let sourceA := s.defined.testBit a
  let sourceB := s.defined.testBit b
  let binary := op = 2 ∨ op = 4 ∨ op = 5
  let unary := op = 6 ∨ op = 7
  if isFinal s then op = 3 ∧ dst = 0 ∧ immediate = 0 ∧ sourceA
  else (op = 1 ∧ a < nviews s.cfg ∧ immediate = 0) ∨
    (binary ∧ sourceA ∧ sourceB ∧ slice inst 18 0 = 0) ∨ (unary ∧ sourceA)

/-- `Mux(buffer === 0.U, cfg(5), cfg(6))`. -/
def bufferLength (c : List ℕ) (buffer : ℕ) : ℕ := if buffer = 0 then cfg c 5 else cfg c 6

def viewValid (c : List ℕ) (v : ℕ) : Bool :=
  let base := 9 + 5 * v
  let buffer := cfg c base
  let offset := cfg c (base + 1)
  let si := cfg c (base + 2)
  let sj := cfg c (base + 3)
  let sk := cfg c (base + 4)
  let last := (offset + si * pred32 (rows c) + sj * pred32 (cols c) + sk * pred32 (extent c)) % 2 ^ 96
  if v < nviews c then
    buffer ≤ 1 ∧ offset ≤ 323 ∧ si ≤ 323 ∧ sj ≤ 323 ∧ sk ≤ 323 ∧ last < bufferLength c buffer
  else (List.range 5).all fun x => cfg c (base + x) = 0

def headerValid (c : List ℕ) : Bool :=
  (cfg c 0 = 0x4d463031 ∧ rows c ≥ 1 ∧ rows c ≤ 16 ∧ cols c ≥ 1 ∧ cols c ≤ 16 ∧
    extent c ≥ 1 ∧ extent c ≤ 64 ∧ cfg c 4 ≤ 1 ∧ cfg c 5 ≤ 324 ∧ cfg c 6 ≤ 324 ∧
    nviews c ≥ 1 ∧ nviews c ≤ 8 ∧ ninst c ≥ 2 ∧ ninst c ≤ 16) &&
  (List.range 8).all (viewValid c) &&
  (List.range 16).all fun p => p < ninst c ∨ cfg c (49 + p) = 0

/-- `finish(ok, bad, stop)`. -/
def finish (s : Regs) (ok bad stop : Bool) : Regs :=
  { s with state := .idle, done := true, success := ok, fault := bad, cancelled := stop }

/-- The load address of the instruction at hand, on 71 bits. -/
def loadAddress (s : Regs) : ℕ :=
  let viewBase := (9 + slice (instAt s) 24 22 * 5) % 2 ^ 7
  (cfg s.cfg ((viewBase + 1) % 2 ^ 7) + cfg s.cfg ((viewBase + 2) % 2 ^ 7) * s.i +
    cfg s.cfg ((viewBase + 3) % 2 ^ 7) * s.j + cfg s.cfg ((viewBase + 4) % 2 ^ 7) * s.k) % 2 ^ 71

def loadBuffer (s : Regs) : ℕ := cfg s.cfg ((9 + slice (instAt s) 24 22 * 5) % 2 ^ 7)

/-- The branch of `execute` in which a load finishes the run with a fault. -/
def loadFaults (s : Regs) : Bool := loadAddress s ≥ bufferLength s.cfg (loadBuffer s)

/-- The accumulator after a yield. -/
def nextAcc (s : Regs) : ℕ :=
  let x := s.values (slice (instAt s) 24 22)
  if cfg s.cfg 4 = 0 then (s.acc + x) % 2 ^ 32 else if s.acc > x then s.acc else x

def mapResult (s : Regs) : ℕ :=
  let inst := instAt s
  let x := s.values (slice inst 24 22)
  let y := s.values (slice inst 21 19)
  let immediate := slice inst 21 0
  match slice inst 31 28 with
  | 2 => (x + y) % 2 ^ 32
  | 4 => if x > y then x else y
  | 5 => x * y % 2 ^ 32
  | 6 => (x + immediate) % 2 ^ 32
  | 7 => if x ≥ immediate then 1 else 0
  | _ => 0

/-- `is(execute)` without an abort. -/
def stepExecute (s : Regs) : Regs :=
  let inst := instAt s
  let op := slice inst 31 28
  if op = 1 then
    if loadFaults s then finish s false true false
    else { s with
      reqAddress := (loadAddress s + if loadBuffer s = 0 then 0 else 324) % 2 ^ 10
      reqData := 0
      reqWrite := false
      loadDestination := slice inst 27 25
      state := .request }
  else if op = 3 then
    if (s.k + 1) % 2 ^ 7 = extent s.cfg then { s with
      reqAddress := (648 + s.i * cols s.cfg + s.j) % 2 ^ 10
      reqData := nextAcc s
      reqWrite := true
      state := .request }
    else { s with
      acc := nextAcc s
      k := (s.k + 1) % 2 ^ 7
      pc := 0
      values := fun _ => 0 }
  else { s with
    values := Function.update s.values (slice inst 27 25) (mapResult s)
    pc := (s.pc + 1) % 2 ^ 5 }

/-- `is(response)` when the response fires without abort or error. -/
def stepResponse (s : Regs) (data : ℕ) : Regs :=
  if !s.reqWrite then { s with
    values := Function.update s.values s.loadDestination data
    pc := (s.pc + 1) % 2 ^ 5
    state := .execute }
  else if (s.i + 1) % 2 ^ 5 = rows s.cfg ∧ (s.j + 1) % 2 ^ 5 = cols s.cfg then
    finish s true false false
  else
    { s with
      i := if (s.j + 1) % 2 ^ 5 = cols s.cfg then (s.i + 1) % 2 ^ 5 else s.i
      j := if (s.j + 1) % 2 ^ 5 = cols s.cfg then 0 else (s.j + 1) % 2 ^ 5
      k := 0
      pc := 0
      acc := 0
      values := fun _ => 0
      state := .execute }

/-- `when(state =/= idle && io.cancel) { pendingCancel := true.B }`. -/
def latch (s : Regs) (x : Inputs) : Regs :=
  if s.state ≠ .idle ∧ x.cancel then { s with pendingCancel := true } else s

def abort (s : Regs) (x : Inputs) : Bool := s.pendingCancel || x.cancel

/-- One clock cycle. -/
def step (s : Regs) (x : Inputs) : Regs :=
  let s' := latch s x
  match s.state with
  | .idle =>
    if x.start then
      { s' with
        cfg := x.cfg
        done := false
        success := false
        fault := false
        cancelled := false
        pendingCancel := x.cancel
        pc := 0
        defined := 0
        i := 0
        j := 0
        k := 0
        acc := 0
        values := fun _ => 0
        state := .header }
    else s'
  | .header =>
    if abort s x then finish s' false false true
    else if !headerValid s.cfg then finish s' false true false
    else { s' with state := .validate }
  | .validate =>
    if abort s x then finish s' false false true
    else if !instructionValid s then finish s' false true false
    else if isFinal s then { s' with pc := 0, state := .execute }
    else { s' with
      defined := (s.defined ||| (1 <<< slice (instAt s) 27 25)) % 2 ^ 8
      pc := (s.pc + 1) % 2 ^ 5 }
  | .execute => if abort s x then finish s' false false true else stepExecute s'
  | .request => if x.reqReady then { s' with state := .response } else s'
  | .response =>
    if x.respValid then
      if abort s x ∨ x.respError then finish s' false x.respError (abort s x)
      else stepResponse s' x.respData
    else s'

/-- The registers after `n` cycles. -/
def run (s : Regs) (x : ℕ → Inputs) : ℕ → Regs
  | 0 => s
  | n + 1 => step (run s x n) (x n)

end Raveil.Fold.Controller
