import Raveil.Mvp.Executor

/-! The executor fails closed, and its results pass their reader and the validator of the directory. -/
namespace Raveil.Mvp

open Lib PavaneSemanticOracle

namespace GraphDirectory

variable {F : Type} [Floats F]

/-- `observation_ids` as they have to be. -/
def expectedObservations (result : GraphMVPResult F) (baselineId : String) : List (Option String) :=
  if result.proposal.abstained = true ∨ result.outcome = "failed-closed" then [some baselineId]
  else [some baselineId, result.proposal.variantId]

/-- `consistent`. -/
def consistent (result : GraphMVPResult F) (baselineId : String) : Bool :=
  if result.outcome = "failed-closed" then
    decide (result.selectedVariant = none ∧ result.rollbackReason ≠ "")
  else if result.outcome = "abstained" then
    result.proposal.abstained && decide (result.selectedVariant = some baselineId ∧ result.rollbackReason ≠ "")
  else if result.outcome = "rolled-back" then
    !result.proposal.abstained && decide (result.selectedVariant = some baselineId ∧ result.rollbackReason ≠ "")
  else if result.outcome = "committed-proposal" then
    !result.proposal.abstained &&
      decide (result.selectedVariant = result.proposal.variantId ∧ result.rollbackReason = "")
  else false

def semanticallyValid (observation : VariantObservation) : Bool :=
  observation.semanticValid && observation.checksum.isSome &&
    decide (observation.checksum = observation.referenceChecksum)

/-- `result.observations[0]`. -/
def checkBaseline (result : GraphMVPResult F) : Except PyError Unit :=
  if result.outcome = "failed-closed" then .ok ()
  else match result.observations with
    | [] => .error (.indexError "tuple index out of range")
    | observation :: _ => require (semanticallyValid observation = true)
        (.valueError "trusted baseline observation is not semantically valid")

/-- `next(item for item in result.observations if item.variant_id == selected)`. -/
def checkSelected (result : GraphMVPResult F) : Except PyError Unit :=
  match result.selectedVariant with
  | none => .ok ()
  | some selected =>
    match result.observations.find? fun observation => observation.variantId = selected with
    | none => .error .stopIteration
    | some observation => require (semanticallyValid observation = true)
        (.valueError "selected result observation is not semantically valid")

def improves (baseline candidate : VariantObservation) : Bool :=
  match baseline.latencyNs, candidate.latencyNs with
  | some baselineLatency, some candidateLatency => candidateLatency < baselineLatency
  | _, _ => false

/-- `baseline, candidate = result.observations`. -/
def checkImproves (result : GraphMVPResult F) : Except PyError Unit :=
  if result.outcome = "committed-proposal" then
    match result.observations with
    | [baseline, candidate] => require (improves baseline candidate = true)
        (.valueError "committed result does not improve the observed development run")
    | [] => .error (.valueError "not enough values to unpack (expected 2, got 0)")
    | [_] => .error (.valueError "not enough values to unpack (expected 2, got 1)")
    | _ => .error (.valueError "too many values to unpack (expected 2)")
  else .ok ()

/-- `_validate`. -/
def validate (program : GraphProgram) (result : GraphMVPResult F) : Except PyError ExecutionContract := do
  let contract := ExecutionContract.default
  let variants ← result.variants.mapM GraphVariant.fromDict
  MiroirsStructuralValidator.validate program contract variants result.proposal
  require (result.programId = program.programId ∧ result.programSha256 = program.identity.text)
    (.valueError "result program lineage does not match program input")
  require (result.contractSha256 = contract.identity.text)
    (.valueError "result contract lineage does not match canonical contract")
  let canonical ← GraphCompiler.compile contract program
  require (variants = canonical) (.valueError "result variants do not match canonical compiler output")
  let baseline ← GraphExecutor.first variants
  require (result.observations.map (fun observation => some observation.variantId) =
    expectedObservations result baseline.variantId)
    (.valueError "result observations do not match the execution outcome")
  require (consistent result baseline.variantId = true)
    (.valueError "result selection does not match its outcome and proposal")
  checkBaseline result
  checkSelected result
  checkImproves result
  return contract

end GraphDirectory

namespace GraphExecutor

section Slate

variable {contract : ExecutionContract} {program : GraphProgram} {variants : List GraphVariant} {v : GraphVariant}
  {variantId : String}

theorem byId_eq_some (h : byId variants variantId = some v) : v ∈ variants ∧ v.variantId = variantId := by
  have hmem := List.mem_of_find?_eq_some h
  have hid := List.find?_some h
  exact ⟨List.mem_reverse.mp hmem, of_decide_eq_true hid⟩

theorem head?_of_first (h : first variants = .ok v) : variants.head? = some v := by
  cases variants with
  | nil => cases h
  | cons w rest =>
    cases h
    rfl

theorem exists_byId (h : variantId ∈ variants.map GraphVariant.variantId) : ∃ v, byId variants variantId = some v := by
  obtain ⟨v, hv, hid⟩ := List.mem_map.mp h
  apply Option.isSome_iff_exists.mp
  rw [byId, List.find?_isSome]
  exact ⟨v, List.mem_reverse.mpr hv, decide_eq_true hid⟩

end Slate

section Runs

variable {F : Type} [Floats F] (contract : ExecutionContract) (program : GraphProgram) (variants : List GraphVariant)
  (proposal : OptimizationProposal F) (backend : ExecutionBackend) (context : WorkloadSpec) (baseline : GraphVariant)

/-- The variant a proposal names, other than the baseline. -/
structure Proposed (proposed : GraphVariant) : Prop where
  mem : proposed ∈ variants
  named : proposal.variantId = some proposed.variantId
  untrusted : proposed.candidate.trustedBaseline = false

/-- The observation of a variant. -/
def observe (v : GraphVariant) : VariantObservation :=
  VariantObservation.fromMeasurement v.variantId (backend context v.candidate)

/-- The ways a run ends, with what each of them needs. -/
inductive Settled : GraphMVPResult F → Prop
  | failedClosed (reason : String) (hreason : reason ≠ "")
      (hb : ¬ Matches program (backend context baseline.candidate)) :
      Settled (report contract program variants proposal [observe backend context baseline] none "failed-closed" reason)
  | abstained (hb : Matches program (backend context baseline.candidate)) (hp : proposal.variantId = none) :
      Settled (report contract program variants proposal [observe backend context baseline] (some baseline.variantId)
        "abstained" proposal.reason)
  | rolledBack (reason : String) (hreason : reason ≠ "") (proposed : GraphVariant)
      (hb : Matches program (backend context baseline.candidate)) (hp : Proposed variants proposal proposed) :
      Settled (report contract program variants proposal
        [observe backend context baseline, observe backend context proposed] (some baseline.variantId)
        "rolled-back" reason)
  | committed (proposed : GraphVariant) (x y : ℤ) (hb : Matches program (backend context baseline.candidate))
      (hp : Proposed variants proposal proposed) (hc : Matches program (backend context proposed.candidate))
      (hx : (backend context proposed.candidate).latencyNs = some x)
      (hy : (backend context baseline.candidate).latencyNs = some y) (hlt : x < y) :
      Settled (report contract program variants proposal
        [observe backend context baseline, observe backend context proposed] (some proposed.variantId)
        "committed-proposal" "")

variable {contract program variants proposal backend context baseline}

theorem judge_settled {proposed : GraphVariant} (hb : Matches program (backend context baseline.candidate))
    (hp : Proposed variants proposal proposed) :
    Settled contract program variants proposal backend context baseline
      (judge contract program variants proposal baseline proposed (backend context baseline.candidate)
        (backend context proposed.candidate)) := by
  unfold judge
  dsimp only
  split
  · exact .rolledBack _ (by decide) proposed hb hp
  · rename_i hvalid
    have hc : Matches program (backend context proposed.candidate) :=
      compare_candidateValid.mp (Bool.not_eq_false _ ▸ hvalid)
    split
    · exact .rolledBack _ (by decide) proposed hb hp
    · split
      · rename_i x y hx hy
        split
        · exact .rolledBack _ (by decide) proposed hb hp
        · rename_i hlatency
          exact .committed proposed x y hb hp hc hx hy (not_le.mp hlatency)
      · exact .rolledBack _ (by decide) proposed hb hp

/-- A proposal that does not abstain names a variant. -/
theorem proposal_named (proposal : OptimizationProposal F) :
    (if proposal.abstained then none else proposal.variantId) = proposal.variantId := by
  rw [proposal.agrees]
  cases proposal.variantId <;> rfl

theorem baseline_failed (h : (PavaneSemanticOracle.baseline program (backend context baseline.candidate)).approved =
    false) : ¬ Matches program (backend context baseline.candidate) := by
  intro hm
  rw [baseline_approved.mpr hm] at h
  cases h

theorem choose_settled {r : GraphMVPResult F}
    (h : choose contract program variants proposal backend context baseline = .ok r) :
    Settled contract program variants proposal backend context baseline r := by
  unfold choose at h
  simp only [proposal_named] at h
  split at h
  · cases h
    exact .failedClosed _ (by decide) (baseline_failed ‹_›)
  · rename_i happroved
    have hb : Matches program (backend context baseline.candidate) :=
      baseline_approved.mp (Bool.not_eq_false _ ▸ happroved)
    split at h
    · cases h
      exact .abstained hb ‹_›
    · rename_i variantId hid
      split at h
      · cases h
      · rename_i proposed hproposed
        obtain ⟨hmem, rfl⟩ := byId_eq_some hproposed
        split at h
        · cases h
        · rename_i huntrusted
          cases h
          exact judge_settled hb ⟨hmem, hid, Bool.not_eq_true _ ▸ huntrusted⟩

end Runs

section Admitted

variable {F : Type} [Floats F] {contract : ExecutionContract} {program : GraphProgram} {variants : List GraphVariant}
  {proposal : OptimizationProposal F} {backend : ExecutionBackend} {context : WorkloadSpec}
  {baseline proposed v w : GraphVariant}

/-- The slate of the compiler and its baseline. -/
structure Slate (contract : ExecutionContract) (program : GraphProgram) (variants : List GraphVariant)
    (baseline : GraphVariant) : Prop where
  compiled : GraphCompiler.compile contract program = .ok variants
  first : first variants = .ok baseline
  mem : baseline ∈ variants
  trusted : baseline.candidate.trustedBaseline = true
  only : ∀ v ∈ variants, v.candidate.trustedBaseline = true → v = baseline

theorem exists_slate (h : GraphCompiler.compile contract program = .ok variants) :
    ∃ baseline, Slate contract program variants baseline := by
  obtain ⟨baseline, rest, rfl, hbaseline, huntrusted, -⟩ := GraphCompiler.compile_trusted h
  refine ⟨baseline, h, rfl, List.mem_cons_self, ?_, ?_⟩
  · rw [hbaseline]
    rfl
  · intro v hv htrusted
    rcases List.mem_cons.mp hv with rfl | hv
    · rfl
    · rw [huntrusted v hv] at htrusted
      cases htrusted

theorem Slate.eq_of_variantId (hs : Slate contract program variants baseline) (hv : v ∈ variants) (hw : w ∈ variants)
    (h : v.variantId = w.variantId) : v = w := by
  obtain ⟨-, -, -, -, -, hnodup⟩ := GraphCompiler.compile_trusted hs.compiled
  exact List.inj_on_of_nodup_map hnodup hv hw h

theorem Slate.ne_baseline (hs : Slate contract program variants baseline) (hp : Proposed variants proposal proposed) :
    baseline.variantId ≠ proposed.variantId := by
  intro h
  have heq := hs.eq_of_variantId hs.mem hp.mem h
  have htrusted := hs.trusted
  rw [heq, hp.untrusted] at htrusted
  cases htrusted

/-- The executor raises after its checks exactly when the baseline passed and the proposal names it. -/
theorem choose_error_iff (hs : Slate contract program variants baseline)
    (hranking : ∀ id ∈ proposal.variantId, id ∈ variants.map GraphVariant.variantId) :
    (∃ e, choose contract program variants proposal backend context baseline = .error e) ↔
      Matches program (backend context baseline.candidate) ∧ proposal.variantId = some baseline.variantId := by
  constructor
  · rintro ⟨e, h⟩
    unfold choose at h
    simp only [proposal_named] at h
    split at h
    · cases h
    · rename_i happroved
      have hb : Matches program (backend context baseline.candidate) :=
        baseline_approved.mp (Bool.not_eq_false _ ▸ happroved)
      split at h
      · cases h
      · rename_i variantId hid
        obtain ⟨v, hv⟩ := exists_byId (hranking variantId hid)
        obtain ⟨hmem, hvid⟩ := byId_eq_some hv
        rw [hv] at h
        dsimp only at h
        split at h
        · rename_i htrusted
          rw [hid, ← hvid, hs.only v hmem htrusted]
          exact ⟨hb, rfl⟩
        · cases h
  · rintro ⟨hb, hid⟩
    obtain ⟨v, hv⟩ := exists_byId (hranking baseline.variantId hid)
    obtain ⟨hmem, hvid⟩ := byId_eq_some hv
    have hbaseline : v = baseline := hs.eq_of_variantId hmem hs.mem hvid
    refine ⟨.valueError "proposal must name a non-baseline variant in the slate", ?_⟩
    have hnamed := (proposal_named proposal).trans hid
    unfold choose
    simp only [hnamed, hv, baseline_approved.mpr hb, hbaseline, hs.trusted, Bool.true_eq_false, if_false, if_true]

theorem execute_eq {innerIterations : ℤ} (hs : Slate contract program variants baseline)
    (hadmitted : MiroirsStructuralValidator.validate program contract variants proposal = .ok ())
    (hcontext : program.workload innerIterations = .ok context) :
    execute contract program variants proposal backend innerIterations =
      choose contract program variants proposal backend context baseline := by
  simp only [execute, hadmitted, hs.first, hcontext, bind, Except.bind]

theorem execute_eq_ok {innerIterations : ℤ} {r : GraphMVPResult F}
    (h : execute contract program variants proposal backend innerIterations = .ok r)
    (hs : Slate contract program variants baseline) :
    ∃ context, program.workload innerIterations = .ok context ∧
      choose contract program variants proposal backend context baseline = .ok r := by
  obtain ⟨-, h⟩ := check_then_eq_ok.mp h
  obtain ⟨baseline', hfirst, h⟩ := except_bind_eq_ok.mp h
  obtain ⟨context, hcontext, h⟩ := except_bind_eq_ok.mp h
  cases hs.first.symm.trans hfirst
  exact ⟨context, hcontext, h⟩

theorem observe_sound (hs : Slate contract program variants baseline) (hv : v ∈ variants)
    (hlatency : ∀ latency ∈ (backend context v.candidate).latencyNs, 0 ≤ latency) :
    (observe backend context v).Sound := by
  obtain ⟨-, -, hnamed⟩ := GraphCompiler.compile_lineage hs.compiled hv
  exact ⟨hnamed, hlatency⟩

theorem report_readable {observations : List VariantObservation} {selectedVariant : Option String}
    {outcome rollbackReason : String} (h : ∀ o ∈ observations, o.Sound) :
    (report contract program variants proposal observations selectedVariant outcome rollbackReason).Readable :=
  ⟨⟨program.identity, rfl⟩, ⟨contract.identity, rfl⟩, ⟨variants, rfl⟩, h, rfl, rfl, rfl⟩

/-- Every result of the executor passes its reader. -/
theorem settled_readable {r : GraphMVPResult F} (hs : Slate contract program variants baseline)
    (hlatency : ∀ candidate, ∀ latency ∈ (backend context candidate).latencyNs, 0 ≤ latency)
    (h : Settled contract program variants proposal backend context baseline r) : r.Readable := by
  have hone : ∀ o ∈ [observe backend context baseline], o.Sound := by
    intro o ho
    rw [List.mem_singleton.mp ho]
    exact observe_sound hs hs.mem (hlatency _)
  have htwo : ∀ proposed ∈ variants, ∀ o ∈ [observe backend context baseline, observe backend context proposed],
      o.Sound := by
    intro proposed hproposed o ho
    rcases List.mem_cons.mp ho with rfl | ho
    · exact observe_sound hs hs.mem (hlatency _)
    · rw [List.mem_singleton.mp ho]
      exact observe_sound hs hproposed (hlatency _)
  cases h with
  | failedClosed => exact report_readable hone
  | abstained => exact report_readable hone
  | rolledBack reason hreason proposed hb hp => exact report_readable (htwo proposed hp.mem)
  | committed proposed x y hb hp => exact report_readable (htwo proposed hp.mem)

theorem observe_semanticallyValid (h : Matches program (backend context v.candidate)) :
    GraphDirectory.semanticallyValid (observe backend context v) = true := by
  have hchecksum : (observe backend context v).checksum = some (expectedChecksum program) := h.checksum
  have hreference : (observe backend context v).referenceChecksum = some (expectedChecksum program) := h.reference
  have hsemantic : (observe backend context v).semanticValid = true := h.semantic
  simp [GraphDirectory.semanticallyValid, hchecksum, hreference, hsemantic]

/-- What the validator of the directory has left to check of a report on an admitted slate. -/
theorem validate_report {observations : List VariantObservation} {selectedVariant : Option String}
    {outcome rollbackReason : String} {r : GraphMVPResult F}
    (hr : r = report .default program variants proposal observations selectedVariant outcome rollbackReason)
    (hs : Slate .default program variants baseline)
    (hadmitted : MiroirsStructuralValidator.validate program .default variants proposal = .ok ())
    (hobserved : observations.map (fun observation => some observation.variantId) =
      GraphDirectory.expectedObservations r baseline.variantId)
    (hconsistent : GraphDirectory.consistent r baseline.variantId = true)
    (hbaseline : GraphDirectory.checkBaseline r = .ok ()) (hselected : GraphDirectory.checkSelected r = .ok ())
    (himproves : GraphDirectory.checkImproves r = .ok ()) : GraphDirectory.validate program r = .ok .default := by
  subst hr
  have hread : (variants.map (GraphVariant.toDict (F := F))).mapM GraphVariant.fromDict = .ok variants :=
    mapM_encode fun v _ => v.fromDict_toDict
  refine except_bind_eq_ok.mpr ⟨variants, hread, check_then_eq_ok.mpr ⟨hadmitted, require_then_eq_ok.mpr ⟨⟨rfl, rfl⟩,
    require_then_eq_ok.mpr ⟨rfl, except_bind_eq_ok.mpr ⟨variants, hs.compiled, require_then_eq_ok.mpr ⟨rfl,
    except_bind_eq_ok.mpr ⟨baseline, hs.first, require_then_eq_ok.mpr ⟨hobserved, require_then_eq_ok.mpr ⟨hconsistent,
    check_then_eq_ok.mpr ⟨hbaseline, check_then_eq_ok.mpr ⟨hselected, check_then_eq_ok.mpr ⟨himproves, rfl⟩⟩⟩⟩⟩⟩⟩⟩⟩⟩⟩⟩

theorem abstained_of_none (h : proposal.variantId = none) : proposal.abstained = true := by
  rw [proposal.agrees, h]
  rfl

theorem not_abstained_of_some {variantId : String} (h : proposal.variantId = some variantId) :
    proposal.abstained = false := by
  rw [proposal.agrees, h]
  rfl

section Observed

variable {r : GraphMVPResult F} {rest : List VariantObservation}

theorem checkBaseline_of (hb : Matches program (backend context baseline.candidate))
    (ho : r.observations = observe backend context baseline :: rest) : GraphDirectory.checkBaseline r = .ok () := by
  unfold GraphDirectory.checkBaseline
  rw [ho]
  split
  · rfl
  · exact require_of (observe_semanticallyValid hb)

theorem checkSelected_of_baseline (hb : Matches program (backend context baseline.candidate))
    (ho : r.observations = observe backend context baseline :: rest)
    (hselected : r.selectedVariant = some baseline.variantId) : GraphDirectory.checkSelected r = .ok () := by
  have hfind : r.observations.find? (fun observation => observation.variantId = baseline.variantId) =
      some (observe backend context baseline) := by
    rw [ho]
    exact List.find?_cons_of_pos (decide_eq_true rfl)
  unfold GraphDirectory.checkSelected
  rw [hselected]
  dsimp only
  rw [hfind]
  exact require_of (observe_semanticallyValid hb)

theorem checkSelected_of_proposed (hc : Matches program (backend context proposed.candidate))
    (ho : r.observations = [observe backend context baseline, observe backend context proposed])
    (hne : baseline.variantId ≠ proposed.variantId) (hselected : r.selectedVariant = some proposed.variantId) :
    GraphDirectory.checkSelected r = .ok () := by
  have hfind : r.observations.find? (fun observation => observation.variantId = proposed.variantId) =
      some (observe backend context proposed) := by
    rw [ho, List.find?_cons_of_neg]
    · exact List.find?_cons_of_pos (decide_eq_true rfl)
    · rw [decide_eq_true_eq]
      exact hne
  unfold GraphDirectory.checkSelected
  rw [hselected]
  dsimp only
  rw [hfind]
  exact require_of (observe_semanticallyValid hc)

end Observed

/-- Every result of the executor is accepted by the validator of the directory. -/
theorem settled_accepted {r : GraphMVPResult F} (hs : Slate .default program variants baseline)
    (hadmitted : MiroirsStructuralValidator.validate program .default variants proposal = .ok ())
    (h : Settled .default program variants proposal backend context baseline r) :
    GraphDirectory.validate program r = .ok .default := by
  cases h with
  | failedClosed reason hreason hb =>
    apply validate_report rfl hs hadmitted
    · exact (if_pos (.inr rfl)).symm
    · exact decide_eq_true ⟨rfl, hreason⟩
    · rfl
    · rfl
    · rfl
  | abstained hb hp =>
    have habstained := abstained_of_none hp
    apply validate_report rfl hs hadmitted
    · exact (if_pos (.inl habstained)).symm
    · simp [GraphDirectory.consistent, report, habstained, proposal.explained.1]
    · exact checkBaseline_of hb rfl
    · exact checkSelected_of_baseline hb rfl rfl
    · rfl
  | rolledBack reason hreason proposed hb hp =>
    have hnot := not_abstained_of_some hp.named
    apply validate_report rfl hs hadmitted
    · simp [GraphDirectory.expectedObservations, report, hnot, hp.named, observe, VariantObservation.fromMeasurement]
    · simp [GraphDirectory.consistent, report, hnot, hreason]
    · exact checkBaseline_of hb rfl
    · exact checkSelected_of_baseline hb rfl rfl
    · rfl
  | committed proposed x y hb hp hc hx hy hlt =>
    have hnot := not_abstained_of_some hp.named
    have himproves : GraphDirectory.improves (observe backend context baseline) (observe backend context proposed) =
        true := by
      simp [GraphDirectory.improves, observe, VariantObservation.fromMeasurement, hx, hy, hlt]
    apply validate_report rfl hs hadmitted
    · simp [GraphDirectory.expectedObservations, report, hnot, hp.named, observe, VariantObservation.fromMeasurement]
    · simp [GraphDirectory.consistent, report, hnot, hp.named]
    · exact checkBaseline_of hb rfl
    · exact checkSelected_of_proposed hc rfl (hs.ne_baseline hp) rfl
    · exact require_of himproves

/-- What a result on an admitted slate promises: its reader and the validator of the directory accept it, it selects
another variant than the baseline only on matching measurements and a lower latency, and nothing iff the baseline
failed. -/
structure FailsClosed (backend : ExecutionBackend) (context : WorkloadSpec) (program : GraphProgram)
    (variants : List GraphVariant) (baseline : GraphVariant) (r : GraphMVPResult F) : Prop where
  readBack : GraphMVPResult.fromDict (.dict r.toDict) = .ok r
  accepted : GraphDirectory.validate program r = .ok .default
  selects : ∀ id, r.selectedVariant = some id → id ≠ baseline.variantId →
    ∃ proposed ∈ variants, proposed.variantId = id ∧ Matches program (backend context baseline.candidate) ∧
      Matches program (backend context proposed.candidate) ∧
      ∃ x y, (backend context proposed.candidate).latencyNs = some x ∧
        (backend context baseline.candidate).latencyNs = some y ∧ x < y
  nothing : r.selectedVariant = none ↔ ¬ Matches program (backend context baseline.candidate)

theorem settled_failsClosed {r : GraphMVPResult F} (hs : Slate .default program variants baseline)
    (hadmitted : MiroirsStructuralValidator.validate program .default variants proposal = .ok ())
    (hlatency : ∀ candidate, ∀ latency ∈ (backend context candidate).latencyNs, 0 ≤ latency)
    (h : Settled .default program variants proposal backend context baseline r) :
    FailsClosed backend context program variants baseline r := by
  refine ⟨GraphMVPResult.fromDict_toDict (settled_readable hs hlatency h), settled_accepted hs hadmitted h, ?_, ?_⟩
  · intro id hid hne
    cases h with
    | failedClosed => cases hid
    | abstained =>
      cases hid
      exact absurd rfl hne
    | rolledBack =>
      cases hid
      exact absurd rfl hne
    | committed proposed x y hb hp hc hx hy hlt =>
      cases hid
      exact ⟨proposed, hp.mem, rfl, hb, hc, x, y, hx, hy, hlt⟩
  · cases h with
    | failedClosed reason hreason hb => exact ⟨fun _ => hb, fun _ => rfl⟩
    | abstained hb => exact iff_of_false (Option.some_ne_none _) (not_not_intro hb)
    | rolledBack reason hreason proposed hb => exact iff_of_false (Option.some_ne_none _) (not_not_intro hb)
    | committed proposed x y hb => exact iff_of_false (Option.some_ne_none _) (not_not_intro hb)

end Admitted

section Claim

variable {F : Type} [Floats F] {program : GraphProgram} {variants : List GraphVariant}
  {proposal : OptimizationProposal F} {backend : ExecutionBackend} {innerIterations : ℤ}

/-- The executor fails closed on every admitted proposal, and raises only where the proposal names the baseline. -/
theorem execute_fails_closed
    (hadmitted : MiroirsStructuralValidator.validate program .default variants proposal = .ok ())
    (hlatency : ∀ context candidate, ∀ latency ∈ (backend context candidate).latencyNs, 0 ≤ latency) :
    ∃ baseline, variants.head? = some baseline ∧
      (∀ r, execute .default program variants proposal backend innerIterations = .ok r →
        ∃ context, program.workload innerIterations = .ok context ∧
          FailsClosed backend context program variants baseline r) ∧
      ∀ context, program.workload innerIterations = .ok context →
        ((∃ e, execute .default program variants proposal backend innerIterations = .error e) ↔
          Matches program (backend context baseline.candidate) ∧ proposal.variantId = some baseline.variantId) := by
  have h := MiroirsStructuralValidator.admitted_of_validate hadmitted
  obtain ⟨baseline, hs⟩ := exists_slate h.compiled
  refine ⟨baseline, ?_, ?_, ?_⟩
  · exact head?_of_first hs.first
  · intro r hr
    obtain ⟨context, hcontext, hchoose⟩ := execute_eq_ok hr hs
    exact ⟨context, hcontext, settled_failsClosed hs hadmitted (hlatency context) (choose_settled hchoose)⟩
  · intro context hcontext
    rw [execute_eq hs hadmitted hcontext]
    exact choose_error_iff hs fun id hid => (h.ranking id).mp (proposal.ranked id hid)

end Claim

section Unit

/-- The double-precision numbers. -/
instance : Floats Float where
  isfinite x := x.isFinite
  inUnit x := decide (0 ≤ x) && decide (x ≤ 1)
  negative x := decide (x < 0)

def unitProgram : GraphProgram where
  programId := "gemm-1x1x1"
  family := .gemm
  m := 1
  n := 1
  k := 1
  nodes := [⟨"matmul", "matmul", ["a", "b"], "mm"⟩]
  schema := GRAPH_SCHEMA
  named := by decide
  isSchema := rfl
  inFamily := by decide
  dimensions := by decide
  uniqueIds := by decide
  ops := rfl
  ordered := rfl
  wiring := rfl

def unitVariants : List GraphVariant := (GraphCompiler.compile .default unitProgram).toOption.getD []

theorem unit_compiled : GraphCompiler.compile .default unitProgram = .ok unitVariants := by
  have hvalid : ExecutionContract.default.validate unitProgram = .ok () := by decide
  obtain ⟨variants, h, -⟩ := GraphCompiler.compile_total hvalid
  have hvariants : unitVariants = variants := by
    rw [unitVariants, h]
    rfl
  rw [hvariants, h]

theorem floatLimit_pos : 0 < floatLimit := by
  unfold floatLimit
  exact sub_pos.mpr (pow_lt_pow_right₀ one_lt_two (Nat.lt_of_sub_pos (by decide)))

theorem finite_zero : (Number.int 0 : Number Float).Finite := abs_zero.trans_lt floatLimit_pos

def unitProposal : OptimizationProposal Float where
  variantId := some "loop-ikj"
  predictedImprovement := .int 0
  abstained := false
  reason := "candidate cleared the advisory threshold"
  ranking := [⟨"loop-ikj", .int 0⟩, ⟨"tile32", .int 0⟩, ⟨"baseline-ijk", .int 0⟩]
  programSha256 := unitProgram.identity
  contractSha256 := ExecutionContract.default.identity
  candidateSetSha256 := variantSetIdentity unitVariants
  schema := PROPOSAL_SCHEMA
  isSchema := rfl
  finite := finite_zero
  inUnit := by decide
  explained := by decide
  distinct := by decide
  costed := by
    have hcost : (Number.int 0 : Number Float).Finite ∧ ¬ (Number.int 0 : Number Float).Negative :=
      ⟨finite_zero, by decide⟩
    simp [RankedVariant.Costed, hcost]
  agrees := rfl
  ranked := by decide

def unitBackend : ExecutionBackend := fun _ candidate =>
  ⟨some (if candidate.trustedBaseline then 2 else 1), some (expectedChecksum unitProgram),
    some (expectedChecksum unitProgram), true, ""⟩

theorem unit_admitted :
    MiroirsStructuralValidator.validate unitProgram .default unitVariants unitProposal = .ok () := by
  apply MiroirsStructuralValidator.validate_of_admitted
  refine ⟨unit_compiled, rfl, rfl, rfl, ?_⟩
  have hids : unitVariants.map GraphVariant.variantId = ["baseline-ijk", "loop-ikj", "tile32"] := by
    have h := congrArg (List.map BenchmarkCandidate.candidateId) (GraphCompiler.compile_candidates unit_compiled)
    rw [List.map_map] at h
    exact h
  intro id
  rw [hids]
  change id ∈ ["loop-ikj", "tile32", "baseline-ijk"] ↔ id ∈ ["baseline-ijk", "loop-ikj", "tile32"]
  simp only [List.mem_cons, List.not_mem_nil, or_false]
  tauto

theorem execute_fails_closed_unit :
    ∃ baseline, unitVariants.head? = some baseline ∧
      (∀ r, execute .default unitProgram unitVariants unitProposal unitBackend 1 = .ok r →
        ∃ context, unitProgram.workload 1 = .ok context ∧
          FailsClosed unitBackend context unitProgram unitVariants baseline r) ∧
      ∀ context, unitProgram.workload 1 = .ok context →
        ((∃ e, execute .default unitProgram unitVariants unitProposal unitBackend 1 = .error e) ↔
          Matches unitProgram (unitBackend context baseline.candidate) ∧
            unitProposal.variantId = some baseline.variantId) := by
  apply execute_fails_closed unit_admitted
  rintro context candidate latency hlatency
  cases hlatency
  split <;> decide

end Unit

end GraphExecutor

end Raveil.Mvp
