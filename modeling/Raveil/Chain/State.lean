import Raveil.Chain.Facts
import Raveil.Dispatch.Guest

/-! The class `State` that follows a chain on the host, and the loop that checks the guest against it. -/
namespace Raveil.Chain
open Raveil.Lib Raveil.Fold Raveil.Authority Raveil.Dispatch

/-- The lines the guest writes to its console, as data. -/
inductive Line
  | start (epoch jobs : ℕ) (versions : List ℕ)
  | dispatch (request epoch sequence : ℕ) (cookie : Identity) (count : ℕ) (envelope : List UInt8)
  | block (index source : ℕ)
  | state (index : ℕ) (stable framed : Bool) (destination source : ℕ) (versions : List ℕ)
      (ledger submissions inflight shadows completions : ℕ) (content : List ℕ)
  | result (index request epoch sequence : ℕ) (cookie : Identity) (status : ℕ) (approved : Bool)
      (version count : ℕ) (output : Option (List ℕ))
  | finish (epoch processed total halted : ℕ) (versions : List ℕ)

/-- An entry of `self.producers`. -/
structure Saved where
  bank : ℕ
  version : ℕ
  output : List ℕ

/-- `class State`. -/
structure State where
  versions : ℕ → ℕ
  banks : ℕ → List ℕ
  producers : ℕ → Option Saved
  active : ℕ

/-- `State.__init__`. -/
def State.init : State where
  versions := fun _ => 1
  banks := fun _ => List.replicate 256 0
  producers := fun _ => none
  active := 1

/-- What `resolve` returns: the job with its inputs filled in, and the two banks. -/
structure Resolved where
  name : String
  region : Region
  inputs : List (List ℕ)
  source : ℕ
  destination : ℕ

/-- The inputs that `resolve` fills in. -/
def State.inputs (s : State) (job : Job) (source : ℕ) : Except String (List (List ℕ)) :=
  job.inputs.mapM fun operand =>
    match operand with
    | .link _ =>
      match s.producers source with
      | none => .error "KeyError"
      | some saved => .ok saved.output
    | .literal values => .ok values

/-- `State.resolve`; `none` is an unavailable producer. -/
def State.resolve (session : Session) (s : State) (index : ℕ) : Except String (Option Resolved) :=
  match session.jobs[index]? with
  | none => .error "IndexError"
  | some job => do
    let link ← links session index
    if link.2 ≠ 0 then
      match s.producers link.1 with
      | none => pure none
      | some saved =>
        if s.versions saved.bank ≠ saved.version then pure none
        else do
          let inputs ← s.inputs job link.1
          pure (some ⟨job.name, job.region, inputs, saved.bank, saved.bank ^^^ 1⟩)
    else do
      let inputs ← s.inputs job link.1
      pure (some ⟨job.name, job.region, inputs, UINT32_MAX, s.active ^^^ 1⟩)

/-- `State.commit`. -/
def State.commit (s : State) (index destination : ℕ) (expected : List ℕ) (success : Bool) : State :=
  if success then
    { versions := Function.update s.versions destination (s.versions destination + 1)
      active := destination
      banks := Function.update s.banks destination (expected ++ List.replicate (256 - expected.length) 0)
      producers := Function.update s.producers index
        (some ⟨destination, s.versions destination + 1, expected⟩) }
  else s

/-- `version_text`. -/
def State.versionList (s : State) : List ℕ := (List.range 2).map s.versions

/-- What a receipt says about one job. -/
structure Row where
  index : ℕ
  name : String
  inputs : List (List ℕ)
  approved : Bool
  destination : ℕ
  source : ℕ
  version : ℕ
  output : List ℕ

/-- The locals of the loop of `run`, with the lines it waits for. -/
structure Host where
  state : State
  rows : List Row
  halted : ℕ
  lines : List Line

def Host.say (h : Host) (line : Line) : Host := { h with lines := h.lines ++ [line] }

/-- The lines that `check_step` demands after the exchange, and the row it returns. -/
def checkStep (h : Host) (epoch id : ℕ) (cookie : Identity) (index : ℕ) (r : Resolved) (expected : List ℕ)
    (o : Outcome) : Host :=
  let success := decide (o = .correct)
  let state := h.state.commit index r.destination expected success
  let version := state.versions r.destination
  { state := state
    rows := h.rows ++ [⟨index, r.name, r.inputs, success, r.destination, r.source, version,
      if success then expected else []⟩]
    halted := if o = .lost then 1 else h.halted
    lines := h.lines ++
      [.state index true (decide (o ≠ .lost)) r.destination r.source state.versionList (index + 1) 0 0 0 0
        ((List.range 2).flatMap state.banks),
      .result index id epoch (index + 1) cookie (if success then 1 else 4) success version
        (if success then expected.length else 0) (if success then some expected else none)] }

/-- What the host cannot know beforehand: the cookie of a job and the way the device answers. -/
structure Device where
  cookie : ℕ → Identity
  outcome : ℕ → List ℕ → Outcome

/-- The body of the loop over the jobs in `run`. -/
def hostJob (session : Session) (epoch : ℕ) (ids : List ℕ) (device : Device) (h : Host) (index : ℕ) :
    Except String Host :=
  if h.halted ≠ 0 then pure h
  else do
    match ← h.state.resolve session index with
    | none =>
      let link ← links session index
      pure { h.say (.block index link.1) with halted := 3 }
    | some r =>
      let id := ids.getD index 0
      let config ← compileRegion r.region
      let request ← requestBytes config r.inputs id
      let expected ← reference r.region r.inputs
      let h := h.say (.dispatch id epoch (index + 1) (device.cookie index) expected.length request)
      pure (checkStep h epoch id (device.cookie index) index r expected (device.outcome index expected))

/-- The loop of `run`, up to job `k`. -/
def hostLoop (session : Session) (epoch : ℕ) (ids : List ℕ) (device : Device) (k : ℕ) : Except String Host :=
  (List.range k).foldlM (hostJob session epoch ids device)
    ⟨.init, [], 0, [.start epoch session.jobs.length [1, 1]]⟩

/-- The last line the host waits for. -/
def hostFinish (session : Session) (epoch : ℕ) (h : Host) : Line :=
  .finish epoch h.rows.length session.jobs.length h.halted h.state.versionList

end Raveil.Chain
