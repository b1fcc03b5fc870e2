import Raveil.Fold.Batch

/-! Sessions of independent jobs: the host validates and encodes them, the guest decodes them. -/
namespace Raveil.Session
open Raveil.Lib Raveil.Fold

def RAVEIL_FOLD_SESSION_MAGIC : ℕ := 0x51534631
def RAVEIL_FOLD_SESSION_END : ℕ := 0x53454e44
def RAVEIL_FOLD_SESSION_MAX_BYTES : ℕ := 32 + 8 * RAVEIL_FOLD_MAX_BYTES

structure Job where
  name : String
  region : Region
  inputs : List (List ℕ)
  deriving DecidableEq

structure SessionSource where
  schema : String
  jobs : List Job
  deriving DecidableEq

/-- The body of the loop of `validate`; the state is `names`. -/
def validateJob (names : Finset String) (job : Job) : Except String (Finset String) := do
  require (nameOk job.name) "name must contain only letters, digits, '-' or '_' (1..80 characters)"
  require (job.name ∉ names) "duplicate session name"
  let _ ← compileRegion job.region
  let _ ← reference job.region job.inputs
  pure (insert job.name names)

def validate (session : SessionSource) : Except String SessionSource := do
  require (session.schema = "raveil.fold-session.v1") "invalid session schema"
  require (1 ≤ session.jobs.length ∧ session.jobs.length ≤ 8) "session requires1..8 jobs"
  let _ ← session.jobs.foldlM validateJob ∅
  pure session

/-- `encode` of a session: the envelope and the requests in it. -/
def encode (session : SessionSource) (epoch : ℕ) (requestIds : List ℕ) :
    Except String (List UInt8 × List (List UInt8)) := do
  let _ ← validate session
  require (0 < epoch ∧ epoch < 2 ^ 64) "nonzero session epoch required"
  require (requestIds.length = session.jobs.length ∧ (∀ i ∈ requestIds, 0 < i ∧ i < 2 ^ 64) ∧
    requestIds.Nodup) "distinct nonzero request identities required"
  let requests ← (session.jobs.zip requestIds).mapM fun job => do
    let config ← compileRegion job.1.region
    requestBytes config job.1.inputs job.2
  let size := 32 + (requests.map List.length).sum
  let body := packWords [RAVEIL_FOLD_SESSION_MAGIC, 1, size, requests.length] ++ le64 epoch ++
    requests.flatten
  pure (body ++ packWords [crc32 body, RAVEIL_FOLD_SESSION_END], requests)

/-- `struct raveil_fold_session`; entries that were never assigned are zero. -/
structure FoldSession where
  epoch : ℕ
  count : ℕ
  offsets : ℕ → ℕ
  lengths : ℕ → ℕ

/-- The locals of the job loop. -/
structure SessionLoop where
  admitted : FoldSession
  ids : ℕ → ℕ
  offset : ℕ

/-- The body of the job loop. -/
def sessionJob (p : List UInt8) (n : ℕ) (s : SessionLoop) (i : ℕ) : Option SessionLoop :=
  if s.offset + 300 > n - 8 ∨ word p s.offset ≠ RAVEIL_FOLD_BRIDGE_MAGIC then none
  else
    let length := word p (s.offset + 8)
    if length < 300 ∨ length > RAVEIL_FOLD_MAX_BYTES ∨ length > n - 8 - s.offset then none
    else match raveilFoldDecode (p.drop s.offset) length with
      | none => none
      | some request =>
        if (List.range i).any fun j => s.ids j = request.requestId then none
        else some
          { admitted := { s.admitted with
              offsets := Function.update s.admitted.offsets i s.offset
              lengths := Function.update s.admitted.lengths i length }
            ids := Function.update s.ids i request.requestId
            offset := s.offset + length }

def raveilFoldSessionDecode (p : List UInt8) (n : ℕ) : Option FoldSession :=
  if n < 332 ∨ n > RAVEIL_FOLD_SESSION_MAX_BYTES ∨ word p 0 ≠ RAVEIL_FOLD_SESSION_MAGIC ∨
      word p 4 ≠ 1 ∨ word p 8 ≠ n ∨ word p 12 < 1 ∨ word p 12 > 8 ∨
      word p (n - 4) ≠ RAVEIL_FOLD_SESSION_END ∨ word p (n - 8) ≠ crc p (n - 8) then none
  else
    let admitted : FoldSession := ⟨word64 p 16, word p 12, fun _ => 0, fun _ => 0⟩
    if admitted.epoch = 0 then none
    else do
      let s ← (List.range admitted.count).foldlM (sessionJob p n) ⟨admitted, fun _ => 0, 24⟩
      if s.offset ≠ n - 8 then none else some s.admitted

end Raveil.Session
