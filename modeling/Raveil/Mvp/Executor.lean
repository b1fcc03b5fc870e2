import Raveil.Mvp.Proposal

/-! Measurements and the semantic oracle's verdicts, the results and their readers, and the executor. -/
namespace Raveil.Mvp

open Lib

def RESULT_SCHEMA : String := "raveil.graph-mvp-result/v1"

structure NativeMeasurement where
  latencyNs : Option ℤ
  checksum : Option String
  referenceChecksum : Option String
  semanticValid : Bool
  failure : String
  deriving DecidableEq

structure SemanticVerdict where
  approved : Bool
  baselineValid : Bool
  candidateValid : Bool
  equivalent : Bool
  reason : String
  deriving DecidableEq

namespace PavaneSemanticOracle

def expectedChecksum (program : GraphProgram) : String := Native.Oracle.expectedChecksum program.native

/-- `_valid`. -/
def valid (measurement : NativeMeasurement) : Bool :=
  measurement.semanticValid && measurement.checksum.isSome && measurement.referenceChecksum.isSome &&
    decide (measurement.checksum = measurement.referenceChecksum)

def baseline (program : GraphProgram) (measurement : NativeMeasurement) : SemanticVerdict :=
  let expected := expectedChecksum program
  let valid := valid measurement && decide (measurement.checksum = some expected)
  ⟨valid, valid, false, valid,
    if valid then "trusted baseline matched its exact integer reference"
    else "trusted baseline failed exact integer reference validation"⟩

def compare (program : GraphProgram) (baseline candidate : NativeMeasurement) : SemanticVerdict :=
  let expected := expectedChecksum program
  let baselineValid := valid baseline && decide (baseline.checksum = some expected)
  let candidateValid := valid candidate && decide (candidate.checksum = some expected)
  let equivalent := baselineValid && candidateValid && decide (candidate.checksum = baseline.checksum) &&
    decide (candidate.referenceChecksum = baseline.referenceChecksum)
  ⟨equivalent, baselineValid, candidateValid, equivalent,
    if equivalent then "candidate matched baseline and exact integer reference"
    else "candidate failed reference validation or disagreed with baseline"⟩

/-- A measurement that equals the expected checksum and its own reference. -/
structure Matches (program : GraphProgram) (measurement : NativeMeasurement) : Prop where
  semantic : measurement.semanticValid = true
  checksum : measurement.checksum = some (expectedChecksum program)
  reference : measurement.referenceChecksum = some (expectedChecksum program)

variable {program : GraphProgram} {measurement b c : NativeMeasurement}

theorem valid_and_eq : (valid measurement && decide (measurement.checksum = some (expectedChecksum program))) = true ↔
    Matches program measurement := by
  simp only [valid, Bool.and_eq_true, decide_eq_true_eq]
  constructor
  · rintro ⟨⟨⟨⟨hsemantic, -⟩, -⟩, hreference⟩, hchecksum⟩
    exact ⟨hsemantic, hchecksum, hreference.symm.trans hchecksum⟩
  · rintro ⟨hsemantic, hchecksum, hreference⟩
    rw [hchecksum, hreference]
    exact ⟨⟨⟨⟨hsemantic, rfl⟩, rfl⟩, rfl⟩, rfl⟩

theorem baseline_approved : (baseline program measurement).approved = true ↔ Matches program measurement :=
  valid_and_eq

theorem compare_candidateValid : (compare program b c).candidateValid = true ↔ Matches program c :=
  valid_and_eq

end PavaneSemanticOracle

structure VariantObservation where
  variantId : String
  latencyNs : Option ℤ
  checksum : Option String
  referenceChecksum : Option String
  semanticValid : Bool
  failure : String
  deriving DecidableEq

namespace VariantObservation

variable {F : Type}

def toDict (o : VariantObservation) : Fields F := [
  ("variant_id", .str o.variantId),
  ("latency_ns", ofOptionalInt o.latencyNs),
  ("checksum", ofOptionalStr o.checksum),
  ("reference_checksum", ofOptionalStr o.referenceChecksum),
  ("semantic_valid", .bool o.semanticValid),
  ("failure", .str o.failure)]

/-- `None` or an integer that is not negative. -/
def readLatency (message : String) : PyValue F → Except PyError (Option ℤ)
  | .none => .ok none
  | .int i => if i < 0 then .error (.valueError message) else .ok (some i)
  | _ => .error (.valueError message)

def fromDict (value : PyValue F) : Except PyError VariantObservation := do
  let value ← readDict "variant observation is not an object" value
  requireExactKeys value ["variant_id", "latency_ns", "checksum", "reference_checksum", "semantic_valid", "failure"]
    "variant observation"
  let variantId ← readStr "variant observation fields have invalid types" (item value "variant_id")
  require (variantId ≠ "") (.valueError "variant observation fields have invalid types")
  let failure ← readStr "variant observation fields have invalid types" (item value "failure")
  let latencyNs ← readLatency "variant observation fields have invalid types" (item value "latency_ns")
  let checksum ← readOptionalStr "variant observation fields have invalid types" (item value "checksum")
  let referenceChecksum ←
    readOptionalStr "variant observation fields have invalid types" (item value "reference_checksum")
  let semanticValid ← readBool "variant observation fields have invalid types" (item value "semantic_valid")
  return { variantId, latencyNs, checksum, referenceChecksum, semanticValid, failure }

def fromMeasurement (variantId : String) (measurement : NativeMeasurement) : VariantObservation where
  variantId := variantId
  latencyNs := measurement.latencyNs
  checksum := measurement.checksum
  referenceChecksum := measurement.referenceChecksum
  semanticValid := measurement.semanticValid
  failure := measurement.failure

/-- An observation that its reader accepts. -/
structure Sound (o : VariantObservation) : Prop where
  named : o.variantId ≠ ""
  latency : ∀ latency ∈ o.latencyNs, 0 ≤ latency

theorem readLatency_of {message : String} {latencyNs : Option ℤ} (h : ∀ latency ∈ latencyNs, 0 ≤ latency) :
    readLatency (F := F) message (ofOptionalInt latencyNs) = .ok latencyNs := by
  cases latencyNs with
  | none => rfl
  | some latency => exact if_neg (not_lt.mpr (h latency rfl))

theorem fromDict_toDict {o : VariantObservation} (h : o.Sound) : fromDict (F := F) (.dict o.toDict) = .ok o := by
  simp [fromDict, toDict, requireExactKeys, item, List.lookup_cons, require, h.named, readLatency_of h.latency, bind,
    Except.bind, pure, Except.pure]

end VariantObservation

structure GraphMVPResult (F : Type) [Floats F] where
  programId : String
  programSha256 : String
  contractSha256 : String
  variants : List (Fields F)
  proposal : OptimizationProposal F
  observations : List VariantObservation
  selectedVariant : Option String
  outcome : String
  rollbackReason : String
  claimStatus : String
  evidenceClass : String
  schema : String

namespace GraphMVPResult

variable {F : Type} [Floats F]

def toDict (r : GraphMVPResult F) : Fields F := [
  ("program_id", .str r.programId),
  ("program_sha256", .str r.programSha256),
  ("contract_sha256", .str r.contractSha256),
  ("variants", .tuple (r.variants.map .dict)),
  ("proposal", .dict r.proposal.toDict),
  ("observations", .tuple (r.observations.map fun o => .dict o.toDict)),
  ("selected_variant", ofOptionalStr r.selectedVariant),
  ("outcome", .str r.outcome),
  ("rollback_reason", .str r.rollbackReason),
  ("claim_status", .str r.claimStatus),
  ("evidence_class", .str r.evidenceClass),
  ("schema", .str r.schema)]

def fromDict (value : PyValue F) : Except PyError (GraphMVPResult F) := do
  let value ← readDict "graph MVP result is not an object" value
  requireExactKeys value ["program_id", "program_sha256", "contract_sha256", "variants", "proposal", "observations",
    "selected_variant", "outcome", "rollback_reason", "claim_status", "evidence_class", "schema"] "graph MVP result"
  let programId ← readStr "graph MVP result fields have invalid types" (item value "program_id")
  let outcome ← readStr "graph MVP result fields have invalid types" (item value "outcome")
  let rollbackReason ← readStr "graph MVP result fields have invalid types" (item value "rollback_reason")
  let claimStatus ← readStr "graph MVP result fields have invalid types" (item value "claim_status")
  let evidenceClass ← readStr "graph MVP result fields have invalid types" (item value "evidence_class")
  let schema ← readStr "graph MVP result fields have invalid types" (item value "schema")
  let selectedVariant ← readOptionalStr "graph MVP result fields have invalid types" (item value "selected_variant")
  let variantItems ← readArray "graph MVP result variants and observations must be arrays" (item value "variants")
  let observationItems ←
    readArray "graph MVP result variants and observations must be arrays" (item value "observations")
  let proposal ← readDict "graph MVP result proposal is not an object" (item value "proposal")
  let variants ← (dicts variantItems).mapM GraphVariant.fromDict
  let observations ← (dicts observationItems).mapM fun fields => VariantObservation.fromDict (.dict fields)
  require (variants.length = variantItems.length ∧ observations.length = observationItems.length)
    (.valueError "graph MVP result nested records must be objects")
  let proposal ← wrapping "invalid graph MVP result proposal" (OptimizationProposal.fromDict proposal)
  require (schema = RESULT_SCHEMA ∧ claimStatus = "development-non-claim" ∧ evidenceClass = "host-correctness")
    (.valueError "unsupported graph MVP result schema or lineage")
  let programSha256 ← readIdentity "unsupported graph MVP result schema or lineage" (item value "program_sha256")
  let contractSha256 ← readIdentity "unsupported graph MVP result schema or lineage" (item value "contract_sha256")
  return { programId, programSha256 := programSha256.text, contractSha256 := contractSha256.text,
           variants := variants.map GraphVariant.toDict, proposal, observations, selectedVariant, outcome,
           rollbackReason, claimStatus, evidenceClass, schema }

/-- A result that its reader accepts. -/
structure Readable (r : GraphMVPResult F) : Prop where
  program : ∃ i : Identity, r.programSha256 = i.text
  contract : ∃ i : Identity, r.contractSha256 = i.text
  variants : ∃ variants : List GraphVariant, r.variants = variants.map GraphVariant.toDict
  observations : ∀ o ∈ r.observations, o.Sound
  labels : r.schema = RESULT_SCHEMA ∧ r.claimStatus = "development-non-claim" ∧ r.evidenceClass = "host-correctness"

theorem fromDict_toDict {r : GraphMVPResult F} (h : r.Readable) : fromDict (.dict r.toDict) = .ok r := by
  have hkeys : requireExactKeys r.toDict ["program_id", "program_sha256", "contract_sha256", "variants", "proposal",
      "observations", "selected_variant", "outcome", "rollback_reason", "claim_status", "evidence_class", "schema"]
      "graph MVP result" = .ok () := by
    simp [requireExactKeys, toDict, require]
  obtain ⟨programId, programSha256, contractSha256, records, proposal, observations, selectedVariant, outcome,
    rollbackReason, claimStatus, evidenceClass, schema⟩ := r
  obtain ⟨hprogram, hcontract, hvariants, hsound, hlabels⟩ := h
  dsimp only at hprogram hcontract hvariants hsound hlabels
  obtain ⟨program, rfl⟩ := hprogram
  obtain ⟨contract, rfl⟩ := hcontract
  obtain ⟨variants, rfl⟩ := hvariants
  have hitems := dicts_map_dict variants (GraphVariant.toDict (F := F))
  have hread : (variants.map (GraphVariant.toDict (F := F))).mapM GraphVariant.fromDict = .ok variants :=
    mapM_encode fun v _ => v.fromDict_toDict
  have hobserved : (observations.map VariantObservation.toDict).mapM
      (fun fields => VariantObservation.fromDict (F := F) (.dict fields)) = .ok observations :=
    mapM_encode fun o ho => VariantObservation.fromDict_toDict (hsound o ho)
  simp only [fromDict, readDict_dict, hkeys, bind, Except.bind]
  simp [toDict, item, List.lookup_cons, require, Function.comp_def, hitems, hread, hobserved, hlabels,
    OptimizationProposal.fromDict_toDict, pure, Except.pure]

end GraphMVPResult

namespace GraphExecutor

/-- `backend.measure`. -/
abbrev ExecutionBackend : Type := WorkloadSpec → BenchmarkCandidate → NativeMeasurement

variable {F : Type} [Floats F] (contract : ExecutionContract) (program : GraphProgram) (variants : List GraphVariant)
  (proposal : OptimizationProposal F)

/-- A result with the fields of `common` and the defaults. -/
def report (observations : List VariantObservation) (selectedVariant : Option String)
    (outcome rollbackReason : String) : GraphMVPResult F where
  programId := program.programId
  programSha256 := program.identity.text
  contractSha256 := contract.identity.text
  variants := variants.map GraphVariant.toDict
  proposal := proposal
  observations := observations
  selectedVariant := selectedVariant
  outcome := outcome
  rollbackReason := rollbackReason
  claimStatus := "development-non-claim"
  evidenceClass := "host-correctness"
  schema := RESULT_SCHEMA

/-- `by_id.get(variant_id)`; of two variants with one identifier the dictionary keeps the last. -/
def byId (variantId : String) : Option GraphVariant :=
  variants.reverse.find? fun variant => variant.variantId = variantId

/-- `variants[0]`. -/
def first : Except PyError GraphVariant :=
  match variants with
  | [] => .error (.indexError "tuple index out of range")
  | variant :: _ => .ok variant

/-- What follows the measurement of the proposed variant. -/
def judge (baseline proposed : GraphVariant) (b p : NativeMeasurement) : GraphMVPResult F :=
  let observations := [VariantObservation.fromMeasurement baseline.variantId b,
    VariantObservation.fromMeasurement proposed.variantId p]
  let verdict := PavaneSemanticOracle.compare program b p
  let report := report contract program variants proposal observations
  if verdict.candidateValid = false then
    report (some baseline.variantId) "rolled-back" "proposal failed semantic or execution validation"
  else if verdict.approved = false then
    report (some baseline.variantId) "rolled-back" "proposal disagreed with the trusted baseline"
  else match p.latencyNs, b.latencyNs with
    | some proposedLatency, some baselineLatency =>
      if proposedLatency ≥ baselineLatency then
        report (some baseline.variantId) "rolled-back" "proposal did not improve the observed development run"
      else report (some proposed.variantId) "committed-proposal" ""
    | _, _ =>
      report (some baseline.variantId) "rolled-back" "backend supplied no candidate-selection timing"

/-- What follows the measurement of the baseline. -/
def choose (backend : ExecutionBackend) (context : WorkloadSpec) (baseline : GraphVariant) :
    Except PyError (GraphMVPResult F) :=
  let b := backend context baseline.candidate
  let observations := [VariantObservation.fromMeasurement baseline.variantId b]
  let report := report contract program variants proposal observations
  if (PavaneSemanticOracle.baseline program b).approved = false then
    .ok (report none "failed-closed" "trusted baseline failed semantic or execution validation")
  else match if proposal.abstained then none else proposal.variantId with
    | none => .ok (report (some baseline.variantId) "abstained" proposal.reason)
    | some variantId =>
      match byId variants variantId with
      | none => .error (.valueError "proposal must name a non-baseline variant in the slate")
      | some proposed =>
        if proposed.candidate.trustedBaseline then
          .error (.valueError "proposal must name a non-baseline variant in the slate")
        else .ok (judge contract program variants proposal baseline proposed b (backend context proposed.candidate))

def execute (backend : ExecutionBackend) (innerIterations : ℤ) : Except PyError (GraphMVPResult F) := do
  MiroirsStructuralValidator.validate program contract variants proposal
  let baseline ← first variants
  let context ← program.workload innerIterations
  choose contract program variants proposal backend context baseline

end GraphExecutor

end Raveil.Mvp
