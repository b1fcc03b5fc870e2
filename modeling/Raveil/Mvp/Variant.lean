import Raveil.Mvp.Program

/-! Candidates, memory plans and graph variants with their checks, and the compiler's slate. -/
namespace Raveil.Mvp

open Lib

def VARIANT_SCHEMA : String := "raveil.graph-variant/v1"
def MEMORY_PLAN_SCHEMA : String := "raveil.memory-plan/v1"

/-- `BenchmarkCandidate` with what its constructor has checked. -/
structure BenchmarkCandidate where
  candidateId : String
  loopOrder : String
  tile : ℤ
  materialization : String
  coldPriority : ℤ
  trustedBaseline : Bool
  supported : tile ∈ [0, 8, 16, 32, 64]
  tiled : loopOrder = "tiled" → tile ≠ 0
  untiled : loopOrder ≠ "tiled" → tile = 0
  deriving DecidableEq

namespace BenchmarkCandidate

variable {F : Type}

/-- The constructor. -/
def new (candidateId loopOrder : String) (tile : ℤ) (materialization : String) (coldPriority : ℤ)
    (trustedBaseline : Bool) : Except PyError BenchmarkCandidate := do
  let ⟨supported⟩ ← ensure (tile ∈ [0, 8, 16, 32, 64])
    ("candidate " ++ candidateId ++ " has unsupported tile " ++ toString tile)
  let ⟨tiled⟩ ← ensure (loopOrder = "tiled" → tile ≠ 0) ("candidate " ++ candidateId ++ " requires a tile")
  let ⟨untiled⟩ ← ensure (loopOrder ≠ "tiled" → tile = 0) ("candidate " ++ candidateId ++ " must not set a tile")
  return { candidateId, loopOrder, tile, materialization, coldPriority, trustedBaseline, supported, tiled, untiled }

theorem new_fields (c : BenchmarkCandidate) :
    new c.candidateId c.loopOrder c.tile c.materialization c.coldPriority c.trustedBaseline = .ok c := by
  rw [new, ensure_of c.supported, ensure_of c.tiled, ensure_of c.untiled]
  rfl

def toDict (c : BenchmarkCandidate) : Fields F := [
  ("candidate_id", .str c.candidateId),
  ("loop_order", .str c.loopOrder),
  ("tile", .int c.tile),
  ("materialization", .str c.materialization),
  ("cold_priority", .int c.coldPriority),
  ("trusted_baseline", .bool c.trustedBaseline)]

/-- The keys and the types of a candidate, as `GraphVariant.from_dict` checks them, and `cls(**value)`. -/
def fromDict (value : Fields F) : Except PyError (Except PyError BenchmarkCandidate) := do
  requireExactKeys value ["candidate_id", "loop_order", "tile", "materialization", "cold_priority",
    "trusted_baseline"] "benchmark candidate"
  let candidateId ← readStr "benchmark candidate fields have invalid types" (item value "candidate_id")
  let loopOrder ← readStr "benchmark candidate fields have invalid types" (item value "loop_order")
  let materialization ← readStr "benchmark candidate fields have invalid types" (item value "materialization")
  let tile ← readInt "benchmark candidate fields have invalid types" (item value "tile")
  let coldPriority ← readInt "benchmark candidate fields have invalid types" (item value "cold_priority")
  let trustedBaseline ← readBool "benchmark candidate fields have invalid types" (item value "trusted_baseline")
  return new candidateId loopOrder tile materialization coldPriority trustedBaseline

theorem fromDict_toDict (c : BenchmarkCandidate) : fromDict (F := F) c.toDict = .ok (.ok c) := by
  simp [fromDict, toDict, requireExactKeys, item, List.lookup_cons, require, new_fields, bind, Except.bind, pure,
    Except.pure]

end BenchmarkCandidate

/-- `value in {...}` raises on values that cannot be hashed. -/
def hashable {F : Type} : PyValue F → Except PyError Unit
  | .list _ => .error (.typeError "unhashable type: 'list'")
  | .dict _ => .error (.typeError "unhashable type: 'dict'")
  | .tuple items => hashableAll items
  | _ => .ok ()
where
  hashableAll : List (PyValue F) → Except PyError Unit
  | [] => .ok ()
  | value :: rest => do
    hashable value
    hashableAll rest

/-- `MemoryPlan` with what its constructor has checked. -/
structure MemoryPlan where
  planId : String
  storage : String
  materialization : String
  maximumIntermediateBytes : ℤ
  schema : String
  named : schema = MEMORY_PLAN_SCHEMA ∧ planId ≠ ""
  onHost : storage = "host-memory"
  supported : materialization = "fused" ∨ materialization = "materialized"
  bounded : 0 ≤ maximumIntermediateBytes ∧ maximumIntermediateBytes ≤ 512 * 512 * 8
  deriving DecidableEq

namespace MemoryPlan

variable {F : Type}

/-- The constructor; it checks the types of the fields that `from_dict` leaves to it. -/
def new (planId : String) (storage materialization maximumIntermediateBytes : PyValue F) (schema : String) :
    Except PyError MemoryPlan := do
  let ⟨named⟩ ← ensure (schema = MEMORY_PLAN_SCHEMA ∧ planId ≠ "") "invalid memory plan identity or schema"
  let storage ← readStr "unsupported MVP memory-plan storage" storage
  let ⟨onHost⟩ ← ensure (storage = "host-memory") "unsupported MVP memory-plan storage"
  hashable materialization
  let materialization ← readStr "unsupported MVP materialization" materialization
  let ⟨supported⟩ ← ensure (materialization = "fused" ∨ materialization = "materialized")
    "unsupported MVP materialization"
  let maximumIntermediateBytes ← readInt "memory-plan bound is outside the MVP limit" maximumIntermediateBytes
  let ⟨bounded⟩ ← ensure (0 ≤ maximumIntermediateBytes ∧ maximumIntermediateBytes ≤ 512 * 512 * 8)
    "memory-plan bound is outside the MVP limit"
  return { planId, storage, materialization, maximumIntermediateBytes, schema, named, onHost, supported, bounded }

theorem new_fields (p : MemoryPlan) : new (F := F) p.planId (.str p.storage) (.str p.materialization)
    (.int p.maximumIntermediateBytes) p.schema = .ok p := by
  simp only [new, ensure_of p.named, readStr_str, ensure_of p.onHost, hashable, ensure_of p.supported, readInt_int,
    ensure_of p.bounded, bind, Except.bind, pure, Except.pure]

def toDict (p : MemoryPlan) : Fields F := [
  ("plan_id", .str p.planId),
  ("storage", .str p.storage),
  ("materialization", .str p.materialization),
  ("maximum_intermediate_bytes", .int p.maximumIntermediateBytes),
  ("schema", .str p.schema)]

def fromDict (value : Fields F) : Except PyError MemoryPlan := do
  requireExactKeys value ["plan_id", "storage", "materialization", "maximum_intermediate_bytes", "schema"]
    "memory plan"
  let planId ← readStr "memory plan fields have invalid types" (item value "plan_id")
  let schema ← readStr "memory plan fields have invalid types" (item value "schema")
  new planId (item value "storage") (item value "materialization") (item value "maximum_intermediate_bytes") schema

theorem fromDict_toDict (p : MemoryPlan) : fromDict (F := F) p.toDict = .ok p := by
  simp [fromDict, toDict, requireExactKeys, item, List.lookup_cons, require, new_fields, bind, Except.bind]

end MemoryPlan

/-- `GraphVariant` with what its constructor has checked. -/
structure GraphVariant where
  candidate : BenchmarkCandidate
  transforms : List String
  programSha256 : Identity
  contractSha256 : Identity
  memoryPlan : MemoryPlan
  schema : String
  isSchema : schema = VARIANT_SCHEMA
  transformed : transforms ≠ [] ∧ (∀ transform ∈ transforms, transform ≠ "") ∧ transforms.Nodup
  planned : memoryPlan.materialization = candidate.materialization
  deriving DecidableEq

namespace GraphVariant

variable {F : Type}

/-- The constructor; it checks the types of the fields that `from_dict` leaves to it. -/
def new (candidate : BenchmarkCandidate) (transforms : List (PyValue F)) (programSha256 contractSha256 : PyValue F)
    (memoryPlan : MemoryPlan) (schema : PyValue F) : Except PyError GraphVariant := do
  let schema ← readStr "unsupported graph-variant schema" schema
  let ⟨isSchema⟩ ← ensure (schema = VARIANT_SCHEMA) "unsupported graph-variant schema"
  let programSha256 ← readIdentity "graph variant lineage identities must be SHA-256" programSha256
  let contractSha256 ← readIdentity "graph variant lineage identities must be SHA-256" contractSha256
  let transforms ← transforms.mapM (readStr "graph variant transforms must be unique nonempty strings")
  let ⟨transformed⟩ ← ensure (transforms ≠ [] ∧ (∀ transform ∈ transforms, transform ≠ "") ∧ transforms.Nodup)
    "graph variant transforms must be unique nonempty strings"
  let ⟨planned⟩ ← ensure (memoryPlan.materialization = candidate.materialization)
    "memory plan does not match candidate materialization"
  return { candidate, transforms, programSha256, contractSha256, memoryPlan, schema, isSchema, transformed, planned }

theorem new_fields (v : GraphVariant) : new (F := F) v.candidate (v.transforms.map .str) (.str v.programSha256.text)
    (.str v.contractSha256.text) v.memoryPlan (.str v.schema) = .ok v := by
  have htransforms : (v.transforms.map PyValue.str).mapM
      (readStr (F := F) "graph variant transforms must be unique nonempty strings") = .ok v.transforms :=
    mapM_encode fun _ _ => rfl
  simp only [new, readStr_str, ensure_of v.isSchema, readIdentity_text, htransforms, ensure_of v.transformed,
    ensure_of v.planned, bind, Except.bind, pure, Except.pure]

def variantId (v : GraphVariant) : String := v.candidate.candidateId

def toDict (v : GraphVariant) : Fields F := [
  ("candidate", .dict v.candidate.toDict),
  ("transforms", .tuple (v.transforms.map .str)),
  ("program_sha256", .str v.programSha256.text),
  ("contract_sha256", .str v.contractSha256.text),
  ("memory_plan", .dict v.memoryPlan.toDict),
  ("schema", .str v.schema)]

def fromDict (value : Fields F) : Except PyError GraphVariant := do
  requireExactKeys value ["candidate", "transforms", "program_sha256", "contract_sha256", "memory_plan", "schema"]
    "graph variant"
  let candidate ← readDict "graph variant nested records must be objects" (item value "candidate")
  let memoryPlan ← readDict "graph variant nested records must be objects" (item value "memory_plan")
  let candidate ← BenchmarkCandidate.fromDict candidate
  let candidate ← wrapping "invalid graph variant nested record" candidate
  let memoryPlan ← wrapping "invalid graph variant nested record" (MemoryPlan.fromDict memoryPlan)
  let transforms ← readArray "graph variant transforms must be an array" (item value "transforms")
  new candidate transforms (item value "program_sha256") (item value "contract_sha256") memoryPlan
    (item value "schema")

theorem fromDict_toDict (v : GraphVariant) : fromDict (F := F) v.toDict = .ok v := by
  simp [fromDict, toDict, requireExactKeys, item, List.lookup_cons, require, BenchmarkCandidate.fromDict_toDict,
    MemoryPlan.fromDict_toDict, new_fields, bind, Except.bind]

end GraphVariant

/-- `variant_set_identity`. -/
def variantSetIdentity (variants : List GraphVariant) : Identity :=
  identityOf (.list (variants.map fun variant => .dict variant.toDict))

namespace GraphCompiler

def baselineIjk : BenchmarkCandidate :=
  ⟨"baseline-ijk", "ijk", 0, "materialized", 0, true, by decide, by decide, by decide⟩

def loopIkj : BenchmarkCandidate :=
  ⟨"loop-ikj", "ikj", 0, "materialized", 1, false, by decide, by decide, by decide⟩

def tile32 : BenchmarkCandidate :=
  ⟨"tile32", "tiled", 32, "materialized", 2, false, by decide, by decide, by decide⟩

def loopIkjFused : BenchmarkCandidate :=
  ⟨"loop-ikj-fused", "ikj", 0, "fused", 3, false, by decide, by decide, by decide⟩

def tile32Fused : BenchmarkCandidate :=
  ⟨"tile32-fused", "tiled", 32, "fused", 4, false, by decide, by decide, by decide⟩

/-- The candidates of a family with their transforms. -/
def slate (family : Native.Family) : List (BenchmarkCandidate × List String) :=
  [(baselineIjk, ["trusted-baseline"]), (loopIkj, ["loop-interchange"]), (tile32, ["loop-tiling:32"])] ++
    if family = .gemmBiasRelu then
      [(loopIkjFused, ["loop-interchange", "fuse:bias_add+relu"]),
        (tile32Fused, ["loop-tiling:32", "fuse:bias_add+relu"])]
    else []

/-- The inner function `variant`. -/
def variant (contract : ExecutionContract) (program : GraphProgram) (candidate : BenchmarkCandidate)
    (transforms : List String) : Except PyError GraphVariant := do
  let intermediateBytes := program.m * program.n * 8
  let plan ← MemoryPlan.new (F := Empty) ("host-" ++ candidate.candidateId) (.str "host-memory")
    (.str candidate.materialization) (.int (if candidate.materialization = "fused" then 0 else intermediateBytes))
    MEMORY_PLAN_SCHEMA
  GraphVariant.new (F := Empty) candidate (transforms.map .str) (.str program.identity.text)
    (.str contract.identity.text) plan (.str VARIANT_SCHEMA)

def compile (contract : ExecutionContract) (program : GraphProgram) : Except PyError (List GraphVariant) := do
  contract.validate program
  (slate program.family).mapM fun entry => variant contract program entry.1 entry.2

variable {contract : ExecutionContract} {program : GraphProgram}

theorem intermediateBytes_le (program : GraphProgram) :
    0 ≤ program.m * program.n * 8 ∧ program.m * program.n * 8 ≤ 512 * 512 * 8 := by
  have hdim := program.dimensions
  have hm : 0 ≤ program.m ∧ program.m ≤ 512 := by omega
  have hn : 0 ≤ program.n ∧ program.n ≤ 512 := by omega
  have hlow : 0 ≤ program.m * program.n := mul_nonneg hm.1 hn.1
  have hhigh : program.m * program.n ≤ 512 * 512 := mul_le_mul hm.2 hn.2 hn.1 (by norm_num)
  omega

/-- What the compiler needs of a candidate and its transforms to build their variant. -/
structure Compiles (candidate : BenchmarkCandidate) (transforms : List String) : Prop where
  named : candidate.candidateId ≠ ""
  supported : candidate.materialization = "fused" ∨ candidate.materialization = "materialized"
  transformed : transforms ≠ [] ∧ (∀ transform ∈ transforms, transform ≠ "") ∧ transforms.Nodup

theorem slate_compiles {family : Native.Family} {entry : BenchmarkCandidate × List String}
    (h : entry ∈ slate family) : Compiles entry.1 entry.2 := by
  have hall : entry ∈ slate .gemmBiasRelu := by
    rcases List.mem_append.mp h with h | h
    · exact List.mem_append_left _ h
    · split at h
      · exact List.mem_append_right _ h
      · cases h
  simp only [slate, if_true, List.cons_append, List.nil_append, List.mem_cons, List.not_mem_nil, or_false] at hall
  rcases hall with rfl | rfl | rfl | rfl | rfl <;> constructor <;> decide

/-- A variant of a candidate under a contract. -/
structure VariantOf (contract : ExecutionContract) (program : GraphProgram)
    (entry : BenchmarkCandidate × List String) (v : GraphVariant) : Prop where
  candidate : v.candidate = entry.1
  transforms : v.transforms = entry.2
  program : v.programSha256 = program.identity
  contract : v.contractSha256 = contract.identity

theorem variant_total (contract : ExecutionContract) (program : GraphProgram)
    {entry : BenchmarkCandidate × List String} (h : Compiles entry.1 entry.2) :
    ∃ v, variant contract program entry.1 entry.2 = .ok v ∧ VariantOf contract program entry v := by
  obtain ⟨hlow, hhigh⟩ := intermediateBytes_le program
  let plan : MemoryPlan := {
    planId := "host-" ++ entry.1.candidateId
    storage := "host-memory"
    materialization := entry.1.materialization
    maximumIntermediateBytes := if entry.1.materialization = "fused" then 0 else program.m * program.n * 8
    schema := MEMORY_PLAN_SCHEMA
    named := ⟨rfl, by simp [String.append_eq_empty_iff]⟩
    onHost := rfl
    supported := h.supported
    bounded := by split <;> omega }
  let v : GraphVariant := {
    candidate := entry.1
    transforms := entry.2
    programSha256 := program.identity
    contractSha256 := contract.identity
    memoryPlan := plan
    schema := VARIANT_SCHEMA
    isSchema := rfl
    transformed := h.transformed
    planned := rfl }
  refine ⟨v, ?_, ⟨rfl, rfl, rfl, rfl⟩⟩
  have hplan := MemoryPlan.new_fields (F := Empty) plan
  have hv := GraphVariant.new_fields (F := Empty) v
  unfold variant
  exact except_bind_eq_ok.mpr ⟨plan, hplan, hv⟩

theorem variant_spec {entry : BenchmarkCandidate × List String} {v : GraphVariant}
    (h : Compiles entry.1 entry.2) (hv : variant contract program entry.1 entry.2 = .ok v) :
    VariantOf contract program entry v := by
  obtain ⟨v', hv', hof⟩ := variant_total contract program h
  cases hv.symm.trans hv'
  exact hof

/-- The compiler never fails on a program its contract admits. -/
theorem compile_total (h : contract.validate program = .ok ()) :
    ∃ variants, compile contract program = .ok variants ∧
      List.Forall₂ (VariantOf contract program) (slate program.family) variants := by
  obtain ⟨variants, hvariants, hall⟩ := mapM_total (l := slate program.family) fun entry hentry =>
    variant_total contract program (slate_compiles hentry)
  exact ⟨variants, check_then_eq_ok.mpr ⟨h, hvariants⟩, hall⟩

theorem compile_spec {variants : List GraphVariant} (h : compile contract program = .ok variants) :
    List.Forall₂ (VariantOf contract program) (slate program.family) variants := by
  have hvalid : contract.validate program = .ok () := (check_then_eq_ok.mp h).1
  obtain ⟨variants', hvariants, hall⟩ := compile_total hvalid
  cases h.symm.trans hvariants
  exact hall

theorem compile_candidates {variants : List GraphVariant} (h : compile contract program = .ok variants) :
    variants.map GraphVariant.candidate = (slate program.family).map Prod.fst := by
  have hall : List.Forall₂ (· = ·) (variants.map GraphVariant.candidate) ((slate program.family).map Prod.fst) := by
    rw [List.forall₂_map_left_iff, List.forall₂_map_right_iff]
    exact (compile_spec h).flip.imp fun _ _ hof => hof.candidate
  rwa [List.forall₂_eq_eq_eq] at hall

/-- The trusted baseline comes first and is the only one, and the candidates have different names. -/
theorem slate_trusted (family : Native.Family) :
    ∃ rest, (slate family).map Prod.fst = baselineIjk :: rest ∧ (∀ c ∈ rest, c.trustedBaseline = false) ∧
      (((slate family).map Prod.fst).map BenchmarkCandidate.candidateId).Nodup := by
  cases family with
  | gemm => exact ⟨_, rfl, by decide, by decide⟩
  | gemmBiasRelu => exact ⟨_, rfl, by decide, by decide⟩
  | mlp2 => exact ⟨_, rfl, by decide, by decide⟩

/-- The slate a program is compiled to. -/
theorem compile_trusted {variants : List GraphVariant} (h : compile contract program = .ok variants) :
    ∃ baseline rest, variants = baseline :: rest ∧ baseline.candidate = baselineIjk ∧
      (∀ v ∈ rest, v.candidate.trustedBaseline = false) ∧ (variants.map GraphVariant.variantId).Nodup := by
  have hcandidates := compile_candidates h
  obtain ⟨candidates, hslate, htrusted, hnodup⟩ := slate_trusted program.family
  rw [← hcandidates, List.map_map] at hnodup
  rw [hslate] at hcandidates
  obtain ⟨baseline, rest, rfl, hbaseline, hrest⟩ := List.map_eq_cons_iff.mp hcandidates
  refine ⟨baseline, rest, rfl, hbaseline, ?_, hnodup⟩
  intro v hv
  apply htrusted
  rw [← hrest]
  exact List.mem_map_of_mem hv

theorem compile_lineage {variants : List GraphVariant} (h : compile contract program = .ok variants)
    {v : GraphVariant} (hv : v ∈ variants) : v.programSha256 = program.identity ∧
      v.contractSha256 = contract.identity ∧ v.variantId ≠ "" := by
  obtain ⟨entry, hentry, hvariant⟩ := exists_of_mem_mapM (check_then_eq_ok.mp h).2 hv
  have hcompiles := slate_compiles hentry
  have hof := variant_spec hcompiles hvariant
  refine ⟨hof.program, hof.contract, ?_⟩
  rw [GraphVariant.variantId, hof.candidate]
  exact hcompiles.named

end GraphCompiler

end Raveil.Mvp
