import Raveil.Mvp.Variant

/-! Proposals with their checks, and the validator that admits them. -/
namespace Raveil.Mvp

open Lib

def PROPOSAL_SCHEMA : String := "raveil.optimization-proposal/v1"

/-- Floating-point numbers and the tests made on them: `math.isfinite(x)`, `0 <= x <= 1` and `x < 0`. -/
class Floats (F : Type) where
  isfinite : F → Bool
  inUnit : F → Bool
  negative : F → Bool

/-- Integers from the halfway point to `2 ** 1024` on have no `float`. -/
@[irreducible] def floatLimit : ℤ := 2 ^ 1024 - 2 ^ 970

def FitsFloat (i : ℤ) : Prop := |i| < floatLimit

instance (i : ℤ) : Decidable (FitsFloat i) := inferInstanceAs (Decidable (_ < _))

/-- A number of type `int` or `float`. -/
inductive Number (F : Type) where
  | int (i : ℤ)
  | float (x : F)

namespace Number

variable {F : Type}

def toValue : Number F → PyValue F
  | int i => .int i
  | float x => .float x

def read (message : String) : PyValue F → Except PyError (Number F)
  | .int i => .ok (.int i)
  | .float x => .ok (.float x)
  | _ => .error (.valueError message)

@[simp] theorem read_toValue {message : String} (x : Number F) : read message x.toValue = .ok x := by
  cases x <;> rfl

variable [Floats F]

/-- `math.isfinite` is true. -/
def Finite : Number F → Prop
  | int i => FitsFloat i
  | float x => Floats.isfinite x = true

def InUnit : Number F → Prop
  | int i => 0 ≤ i ∧ i ≤ 1
  | float x => Floats.inUnit x = true

def Negative : Number F → Prop
  | int i => i < 0
  | float x => Floats.negative x = true

instance (x : Number F) : Decidable x.InUnit :=
  match x with
  | int i => inferInstanceAs (Decidable (0 ≤ i ∧ i ≤ 1))
  | float x => inferInstanceAs (Decidable (Floats.inUnit x = true))

instance (x : Number F) : Decidable x.Negative :=
  match x with
  | int i => inferInstanceAs (Decidable (i < 0))
  | float x => inferInstanceAs (Decidable (Floats.negative x = true))

/-- `if not math.isfinite(x): raise ValueError(message)`. -/
def checkFinite (message : String) : (x : Number F) → Except PyError (PLift x.Finite)
  | int i =>
    if h : FitsFloat i then .ok ⟨h⟩
    else .error (.overflowError "int too large to convert to float")
  | float x => ensure (Floats.isfinite x = true) message

theorem checkFinite_of {message : String} {x : Number F} (h : x.Finite) : x.checkFinite message = .ok ⟨h⟩ := by
  cases x with
  | int i => exact dif_pos h
  | float x => exact dif_pos h

end Number

structure RankedVariant (F : Type) where
  variantId : String
  relativeCost : Number F

namespace RankedVariant

variable {F : Type}

def toDict (r : RankedVariant F) : Fields F := [
  ("variant_id", .str r.variantId),
  ("relative_cost", r.relativeCost.toValue)]

/-- An entry of the ranking that `OptimizationProposal.from_dict` reads. -/
def fromDict (value : PyValue F) : Except PyError (RankedVariant F) := do
  let value ← readDict "proposal ranking entries must be objects" value
  requireExactKeys value ["variant_id", "relative_cost"] "ranked variant"
  let variantId ← readStr "ranked variant fields have invalid types" (item value "variant_id")
  let relativeCost ← Number.read "ranked variant fields have invalid types" (item value "relative_cost")
  return ⟨variantId, relativeCost⟩

theorem fromDict_toDict (r : RankedVariant F) : fromDict (.dict r.toDict) = .ok r := by
  simp [fromDict, toDict, requireExactKeys, item, List.lookup_cons, require, bind, Except.bind, pure, Except.pure]

variable [Floats F]

/-- A cost that the constructor of a proposal lets pass. -/
def Costed (r : RankedVariant F) : Prop := r.relativeCost.Finite ∧ ¬ r.relativeCost.Negative

/-- The loop over the costs of the ranking. -/
def checkCosts : (ranking : List (RankedVariant F)) → Except PyError (PLift (∀ r ∈ ranking, r.Costed))
  | [] => .ok ⟨List.forall_mem_nil _⟩
  | r :: rest => do
    let ⟨finite⟩ ← r.relativeCost.checkFinite "proposal ranking is invalid"
    let ⟨positive⟩ ← ensure (¬ r.relativeCost.Negative) "proposal ranking is invalid"
    let ⟨hrest⟩ ← checkCosts rest
    return ⟨List.forall_mem_cons.mpr ⟨⟨finite, positive⟩, hrest⟩⟩

theorem checkCosts_of {ranking : List (RankedVariant F)} (h : ∀ r ∈ ranking, r.Costed) :
    checkCosts ranking = .ok ⟨h⟩ := by
  induction ranking with
  | nil => rfl
  | cons r rest ih =>
    obtain ⟨⟨hfinite, hpositive⟩, hrest⟩ := List.forall_mem_cons.mp h
    rw [checkCosts, Number.checkFinite_of hfinite, ensure_of hpositive, ih hrest]
    rfl

end RankedVariant

/-- `OptimizationProposal` with what its constructor has checked. -/
structure OptimizationProposal (F : Type) [Floats F] where
  variantId : Option String
  predictedImprovement : Number F
  abstained : Bool
  reason : String
  ranking : List (RankedVariant F)
  programSha256 : Identity
  contractSha256 : Identity
  candidateSetSha256 : Identity
  schema : String
  isSchema : schema = PROPOSAL_SCHEMA
  finite : predictedImprovement.Finite
  inUnit : predictedImprovement.InUnit
  explained : reason ≠ "" ∧ ranking ≠ []
  distinct : (ranking.map RankedVariant.variantId).Nodup
  costed : ∀ r ∈ ranking, r.Costed
  agrees : abstained = variantId.isNone
  ranked : ∀ id ∈ variantId, id ∈ ranking.map RankedVariant.variantId

namespace OptimizationProposal

variable {F : Type} [Floats F]

/-- The constructor; it checks the type of the field that `from_dict` leaves to it. -/
def new (variantId : Option String) (predictedImprovement : PyValue F) (abstained : Bool) (reason : String)
    (ranking : List (RankedVariant F)) (programSha256 contractSha256 candidateSetSha256 schema : String) :
    Except PyError (OptimizationProposal F) := do
  let ⟨isSchema⟩ ← ensure (schema = PROPOSAL_SCHEMA) "invalid optimization-proposal schema or lineage"
  let programSha256 ← readIdentity "invalid optimization-proposal schema or lineage" (PyValue.str (F := F) programSha256)
  let contractSha256 ← readIdentity "invalid optimization-proposal schema or lineage" (PyValue.str (F := F) contractSha256)
  let candidateSetSha256 ←
    readIdentity "invalid optimization-proposal schema or lineage" (PyValue.str (F := F) candidateSetSha256)
  let predictedImprovement ←
    Number.read "predicted improvement must be finite and in [0, 1]" predictedImprovement
  let ⟨finite⟩ ← predictedImprovement.checkFinite "predicted improvement must be finite and in [0, 1]"
  let ⟨inUnit⟩ ← ensure predictedImprovement.InUnit "predicted improvement must be finite and in [0, 1]"
  let ⟨explained⟩ ← ensure (reason ≠ "" ∧ ranking ≠ []) "proposal reason and ranking are required"
  let ⟨distinct⟩ ← ensure (ranking.map RankedVariant.variantId).Nodup "proposal ranking is invalid"
  let ⟨costed⟩ ← RankedVariant.checkCosts ranking
  let ⟨agrees⟩ ← ensure (abstained = variantId.isNone) "proposal abstention and variant must agree"
  let ⟨ranked⟩ ← ensure (∀ id ∈ variantId, id ∈ ranking.map RankedVariant.variantId)
    "proposal variant is outside its ranking"
  return { variantId, predictedImprovement, abstained, reason, ranking, programSha256, contractSha256,
           candidateSetSha256, schema, isSchema, finite, inUnit, explained, distinct, costed, agrees, ranked }

theorem new_fields (p : OptimizationProposal F) : new p.variantId p.predictedImprovement.toValue p.abstained p.reason
    p.ranking p.programSha256.text p.contractSha256.text p.candidateSetSha256.text p.schema = .ok p := by
  simp only [new, ensure_of p.isSchema, readIdentity_text, Number.read_toValue, Number.checkFinite_of p.finite,
    ensure_of p.inUnit, ensure_of p.explained, ensure_of p.distinct, RankedVariant.checkCosts_of p.costed,
    ensure_of p.agrees, ensure_of p.ranked, bind, Except.bind, pure, Except.pure]

def toDict (p : OptimizationProposal F) : Fields F := [
  ("variant_id", ofOptionalStr p.variantId),
  ("predicted_improvement", p.predictedImprovement.toValue),
  ("abstained", .bool p.abstained),
  ("reason", .str p.reason),
  ("ranking", .tuple (p.ranking.map fun r => .dict r.toDict)),
  ("program_sha256", .str p.programSha256.text),
  ("contract_sha256", .str p.contractSha256.text),
  ("candidate_set_sha256", .str p.candidateSetSha256.text),
  ("schema", .str p.schema)]

def fromDict (value : Fields F) : Except PyError (OptimizationProposal F) := do
  requireExactKeys value ["variant_id", "predicted_improvement", "abstained", "reason", "ranking", "program_sha256",
    "contract_sha256", "candidate_set_sha256", "schema"] "optimization proposal"
  let reason ← readStr "optimization proposal fields have invalid types" (item value "reason")
  let programSha256 ← readStr "optimization proposal fields have invalid types" (item value "program_sha256")
  let contractSha256 ← readStr "optimization proposal fields have invalid types" (item value "contract_sha256")
  let candidateSetSha256 ←
    readStr "optimization proposal fields have invalid types" (item value "candidate_set_sha256")
  let schema ← readStr "optimization proposal fields have invalid types" (item value "schema")
  let variantId ← readOptionalStr "optimization proposal fields have invalid types" (item value "variant_id")
  let abstained ← readBool "optimization proposal fields have invalid types" (item value "abstained")
  let items ← readArray "proposal ranking must be an array" (item value "ranking")
  let ranking ← items.mapM RankedVariant.fromDict
  new variantId (item value "predicted_improvement") abstained reason ranking programSha256 contractSha256
    candidateSetSha256 schema

theorem fromDict_toDict (p : OptimizationProposal F) : fromDict p.toDict = .ok p := by
  have hranking : (p.ranking.map fun r => PyValue.dict r.toDict).mapM RankedVariant.fromDict = .ok p.ranking :=
    mapM_encode fun r _ => r.fromDict_toDict
  simp [fromDict, toDict, requireExactKeys, item, List.lookup_cons, require, hranking, new_fields, bind, Except.bind]

end OptimizationProposal

namespace MiroirsStructuralValidator

variable {F : Type} [Floats F]

def validate (program : GraphProgram) (contract : ExecutionContract) (variants : List GraphVariant)
    (proposal : OptimizationProposal F) : Except PyError Unit := do
  contract.validate program
  require ((variants.head?.any fun first => first.candidate.trustedBaseline) = true)
    (.valueError "variant slate must start with the trusted baseline")
  require ((variants.countP fun item => item.candidate.trustedBaseline) = 1)
    (.valueError "variant slate must contain exactly one trusted baseline")
  require (variants.map GraphVariant.variantId).Nodup (.valueError "variant identifiers must be unique")
  require (∀ item ∈ variants, item.programSha256 = program.identity ∧ item.contractSha256 = contract.identity)
    (.valueError "variant lineage does not match program and contract")
  require (proposal.programSha256 = program.identity ∧ proposal.contractSha256 = contract.identity ∧
      proposal.candidateSetSha256 = variantSetIdentity variants)
    (.valueError "proposal lineage does not match admitted variants")
  require ((∀ id ∈ proposal.ranking.map RankedVariant.variantId, id ∈ variants.map GraphVariant.variantId) ∧
      ∀ id ∈ variants.map GraphVariant.variantId, id ∈ proposal.ranking.map RankedVariant.variantId)
    (.valueError "proposal ranking does not match admitted variants")
  require (∀ id ∈ proposal.variantId, id ∈ variants.map GraphVariant.variantId)
    (.valueError "proposal must name a variant in the admitted slate")
  let canonical ← GraphCompiler.compile contract program
  require (variants = canonical) (.valueError "variant slate does not match the canonical compiler output")

variable {program : GraphProgram} {contract : ExecutionContract} {variants : List GraphVariant}
  {proposal : OptimizationProposal F}

/-- What an admitted slate and proposal are: the compiler's slate, and a proposal about it. -/
structure Admitted (program : GraphProgram) (contract : ExecutionContract) (variants : List GraphVariant)
    (proposal : OptimizationProposal F) : Prop where
  compiled : GraphCompiler.compile contract program = .ok variants
  program : proposal.programSha256 = program.identity
  contract : proposal.contractSha256 = contract.identity
  candidates : proposal.candidateSetSha256 = variantSetIdentity variants
  ranking : ∀ id, id ∈ proposal.ranking.map RankedVariant.variantId ↔ id ∈ variants.map GraphVariant.variantId

theorem admitted_of_validate (h : validate program contract variants proposal = .ok ()) :
    Admitted program contract variants proposal := by
  obtain ⟨-, h⟩ := check_then_eq_ok.mp h
  obtain ⟨-, h⟩ := require_then_eq_ok.mp h
  obtain ⟨-, h⟩ := require_then_eq_ok.mp h
  obtain ⟨-, h⟩ := require_then_eq_ok.mp h
  obtain ⟨-, h⟩ := require_then_eq_ok.mp h
  obtain ⟨hlineage, h⟩ := require_then_eq_ok.mp h
  obtain ⟨hranking, h⟩ := require_then_eq_ok.mp h
  obtain ⟨-, h⟩ := require_then_eq_ok.mp h
  obtain ⟨canonical, hcompiled, h⟩ := except_bind_eq_ok.mp h
  cases require_eq_ok.mp h
  exact ⟨hcompiled, hlineage.1, hlineage.2.1, hlineage.2.2, fun id => ⟨hranking.1 id, hranking.2 id⟩⟩

theorem validate_of_admitted (h : Admitted program contract variants proposal) :
    validate program contract variants proposal = .ok () := by
  have hvalid : contract.validate program = .ok () := (check_then_eq_ok.mp h.compiled).1
  obtain ⟨baseline, rest, hvariants, hbaseline, htrusted, hnodup⟩ := GraphCompiler.compile_trusted h.compiled
  have hfirst : baseline.candidate.trustedBaseline = true := by
    rw [hbaseline]
    rfl
  refine check_then_eq_ok.mpr ⟨hvalid, require_then_eq_ok.mpr ⟨?_, require_then_eq_ok.mpr ⟨?_,
    require_then_eq_ok.mpr ⟨hnodup, require_then_eq_ok.mpr ⟨?_, require_then_eq_ok.mpr ⟨?_,
    require_then_eq_ok.mpr ⟨?_, require_then_eq_ok.mpr ⟨?_, except_bind_eq_ok.mpr ⟨variants, h.compiled,
    require_of rfl⟩⟩⟩⟩⟩⟩⟩⟩⟩
  · rw [hvariants]
    exact hfirst
  · have hrest : (rest.countP fun item => item.candidate.trustedBaseline) = 0 := by
      apply List.countP_eq_zero.mpr
      intro v hv
      rw [htrusted v hv]
      decide
    have hpos : (baseline :: rest).countP (fun item => item.candidate.trustedBaseline) =
        (rest.countP fun item => item.candidate.trustedBaseline) + 1 := List.countP_cons_of_pos hfirst
    rw [hvariants, hpos, hrest]
  · intro v hv
    obtain ⟨hprogram, hcontract, -⟩ := GraphCompiler.compile_lineage h.compiled hv
    exact ⟨hprogram, hcontract⟩
  · exact ⟨h.program, h.contract, h.candidates⟩
  · exact ⟨fun id => (h.ranking id).mp, fun id => (h.ranking id).mpr⟩
  · intro id hid
    exact (h.ranking id).mp (proposal.ranked id hid)

end MiroirsStructuralValidator

end Raveil.Mvp
