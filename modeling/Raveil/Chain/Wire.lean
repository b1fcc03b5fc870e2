import Raveil.Session.Wire

/-! Chains of linked jobs: the host validates and encodes them, the guest decodes them. -/
namespace Raveil.Chain
open Raveil.Lib Raveil.Fold
open Raveil.Session (FoldSession)

def RAVEIL_FOLD_CHAIN_MAGIC : ℕ := 0x51434631
def RAVEIL_FOLD_CHAIN_END : ℕ := 0x43454e44
def RAVEIL_FOLD_CHAIN_MAX_BYTES : ℕ := 32 + 8 * (8 + RAVEIL_FOLD_MAX_BYTES)

/-- An input of a job: the dictionary `{"from": source}`, or a literal array. -/
inductive Operand
  | link (source : String)
  | literal (values : List ℕ)
  deriving DecidableEq

structure Job where
  name : String
  region : Region
  inputs : List Operand
  deriving DecidableEq

structure Session where
  schema : String
  jobs : List Job
  deriving DecidableEq

/-- `session["jobs"][source]["region"]["shape"]`. -/
def shapeAt (session : Session) (source : ℕ) : List ℤ :=
  (session.jobs[source]?).elim [] fun job => job.region.shape

/-- The locals of the operand loop of `validate`. -/
structure OperandLoop where
  producer : Option ℕ
  literal : List (List ℕ)

/-- The body of the loop over the operands. -/
def validateOperand (session : Session) (names : String → Option ℕ) (s : OperandLoop)
    (operand : Operand × ℕ) : Except String OperandLoop :=
  match operand.1 with
  | .link name => do
    require (names name).isSome "link must name an earlier producer"
    let source := (names name).getD 0
    require (¬ (s.producer.isSome ∧ s.producer ≠ some source)) "at most one distinct producer per job"
    let shape := shapeAt session source
    require ((operand.2 : ℤ) = shape.getD 0 0 * shape.getD 1 0)
      "linked extent must equal producer logical output"
    pure ⟨some source, s.literal ++ [List.replicate operand.2 0]⟩
  | .literal values => pure { s with literal := s.literal ++ [values] }

/-- The body of the loop over the jobs; the state is `names`. -/
def validateJob (session : Session) (names : String → Option ℕ) (job : Job × ℕ) :
    Except String (String → Option ℕ) := do
  let index := job.2
  let job := job.1
  require (nameOk job.name) "name must contain only letters, digits, '-' or '_' (1..80 characters)"
  require (names job.name).isNone "duplicate chain name"
  let config ← compileRegion job.region
  require (job.inputs.length = 2) "two inputs required"
  let s ← (job.inputs.zip [cfg config 5, cfg config 6]).foldlM (validateOperand session names) ⟨none, []⟩
  let _ ← reference job.region s.literal
  pure (Function.update names job.name (some index))

def validate (session : Session) : Except String Session := do
  require (session.schema = "raveil.fold-chain.v1") "invalid chain schema"
  require (1 ≤ session.jobs.length ∧ session.jobs.length ≤ 8) "chain requires1..8 jobs"
  let _ ← session.jobs.zipIdx.foldlM (validateJob session) fun _ => none
  pure session

/-- The dictionary `names` of `links`. -/
def jobNames (session : Session) : String → Option ℕ :=
  session.jobs.zipIdx.foldl (fun names job => Function.update names job.1.name (some job.2)) fun _ => none

/-- The body of the loop of `links`; the state is `source` with `mask`. -/
def linkOperand (session : Session) (s : ℕ × ℕ) (operand : Operand × ℕ) : Except String (ℕ × ℕ) :=
  match operand.1 with
  | .link name =>
    match jobNames session name with
    | none => .error "KeyError"
    | some source => .ok (source, s.2 ||| 1 <<< operand.2)
  | .literal _ => .ok s

def links (session : Session) (index : ℕ) : Except String (ℕ × ℕ) :=
  match session.jobs[index]? with
  | none => .error "IndexError"
  | some job => job.inputs.zipIdx.foldlM (linkOperand session) (UINT32_MAX, 0)

/-- The array of an operand that is not a link. -/
def literalValues : Option Operand → List ℕ
  | some (.literal values) => values
  | _ => []

/-- The inputs of a job that go on the wire; linked ones are zero. -/
def wireInputs (config : List ℕ) (mask : ℕ) (job : Job) : List (List ℕ) :=
  (List.range 2).map fun b =>
    if mask &&& 1 <<< b ≠ 0 then List.replicate (cfg config (5 + b)) 0 else literalValues job.inputs[b]?

/-- `encode` of a chain: the envelope and the requests in it. -/
def encode (session : Session) (epoch : ℕ) (requestIds : List ℕ) :
    Except String (List UInt8 × List (List UInt8)) := do
  let _ ← validate session
  require (0 < epoch ∧ epoch < 2 ^ 64) "nonzero epoch required"
  require (requestIds.length = session.jobs.length ∧ (∀ i ∈ requestIds, 0 < i ∧ i < 2 ^ 64) ∧
    requestIds.Nodup) "distinct nonzero request identities required"
  let r ← (session.jobs.zip requestIds).zipIdx.foldlM (fun (s : List (List UInt8) × List UInt8) job => do
    let config ← compileRegion job.1.1.region
    let link ← links session job.2
    let child ← requestBytes config (wireInputs config link.2 job.1.1) job.1.2
    pure (s.1 ++ [child], s.2 ++ (packWords [link.1, link.2] ++ child))) ([], [])
  let body := packWords [RAVEIL_FOLD_CHAIN_MAGIC, 1, 32 + r.2.length, r.1.length] ++ le64 epoch ++ r.2
  pure (body ++ packWords [crc32 body, RAVEIL_FOLD_CHAIN_END], r.1)

/-- `struct raveil_fold_chain`; entries that were never assigned are zero. -/
structure FoldChain where
  jobs : FoldSession
  sources : ℕ → ℕ
  masks : ℕ → ℕ

/-- The locals of the job loop. -/
structure ChainLoop where
  admitted : FoldChain
  ids : ℕ → ℕ
  counts : ℕ → ℕ
  offset : ℕ

/-- The body of the loop over the inputs of a job: `false` rejects. -/
def chainInput (request : Request) (counts : ℕ → ℕ) (source mask input : ℕ) : Bool :=
  if mask &&& 1 <<< input ≠ 0 then
    if cfg request.config (5 + input) ≠ counts source then false
    else (List.range (cfg request.config (5 + input))).all fun k => request.inputs.getD (324 * input + k) 0 = 0
  else true

/-- The body of the job loop. -/
def chainJob (p : List UInt8) (n : ℕ) (s : ChainLoop) (i : ℕ) : Option ChainLoop :=
  if s.offset + 308 > n - 8 then none
  else
    let source := word p s.offset
    let mask := word p (s.offset + 4)
    let offset := s.offset + 8
    let length := word p (offset + 8)
    if word p offset ≠ RAVEIL_FOLD_BRIDGE_MAGIC ∨ length < 300 ∨ length > RAVEIL_FOLD_MAX_BYTES ∨
        length > n - 8 - offset then none
    else match raveilFoldDecode (p.drop offset) length with
      | none => none
      | some request =>
        if (List.range i).any fun j => s.ids j = request.requestId then none
        else if mask > 3 ∨ (if mask = 0 then source ≠ UINT32_MAX else source ≥ i) then none
        else if !(List.range 2).all (chainInput request s.counts source mask) then none
        else some
          { admitted :=
              { jobs := { s.admitted.jobs with
                  offsets := Function.update s.admitted.jobs.offsets i offset
                  lengths := Function.update s.admitted.jobs.lengths i length }
                sources := Function.update s.admitted.sources i source
                masks := Function.update s.admitted.masks i mask }
            ids := Function.update s.ids i request.requestId
            counts := Function.update s.counts i (cfg request.config 1 * cfg request.config 2)
            offset := offset + length }

def raveilFoldChainDecode (p : List UInt8) (n : ℕ) : Option FoldChain :=
  if n < 340 ∨ n > RAVEIL_FOLD_CHAIN_MAX_BYTES ∨ word p 0 ≠ RAVEIL_FOLD_CHAIN_MAGIC ∨
      word p 4 ≠ 1 ∨ word p 8 ≠ n ∨ word p 12 < 1 ∨ word p 12 > 8 ∨
      word p (n - 4) ≠ RAVEIL_FOLD_CHAIN_END ∨ word p (n - 8) ≠ crc p (n - 8) then none
  else
    let admitted : FoldChain := ⟨⟨word64 p 16, word p 12, fun _ => 0, fun _ => 0⟩, fun _ => 0, fun _ => 0⟩
    if admitted.jobs.epoch = 0 then none
    else do
      let s ← (List.range admitted.jobs.count).foldlM (chainJob p n)
        ⟨admitted, fun _ => 0, fun _ => 0, 24⟩
      if s.offset ≠ n - 8 then none else some s.admitted

end Raveil.Chain
