import Raveil.ArrayProgram.Executed

/-! The plan of the materialising compiler sees neither the words that a program writes out nor the order of its stages. -/
namespace Raveil.ArrayProgram
open Lib
open Raveil.Flow (Input)
open Fold (Node)

section Structure

variable {value value' : Program} {stage stage' : Stage} {s s' : StageSource} {item item' : Input} {items items' : List Input}

theorem InputAlike.ok (h : InputAlike item item') (hok : InputOk item) : InputOk item' := by
  cases h with
  | link name => exact hok
  | grid hread hread' hshape => exact ⟨_, hread'⟩

theorem InputAlike.words (h : InputAlike item item') : inputWords item' = inputWords item := by
  cases h with
  | link name => rfl
  | grid hread hread' hshape =>
    dsimp only [inputWords]
    rw [← length_readInput hread, ← length_readInput hread', Tiling.Grid.length_words, Tiling.Grid.length_words, hshape.1,
      hshape.2]

theorem inputs_ok (h : List.Forall₂ InputAlike items items') (hok : ∀ item ∈ items, InputOk item) :
    ∀ item ∈ items', InputOk item := by
  induction h with
  | nil => exact hok
  | cons hone _ ih =>
    rw [List.forall_mem_cons] at hok ⊢
    exact ⟨hone.ok hok.1, ih hok.2⟩

theorem inputs_words (h : List.Forall₂ InputAlike items items') : items'.map inputWords = items.map inputWords := by
  induction h with
  | nil => rfl
  | cons hone _ ih => rw [List.map_cons, List.map_cons, hone.words, ih]

theorem SourceAlike.producers (h : SourceAlike s s') : producers s' = producers s := by
  unfold ArrayProgram.producers
  have hinputs := h.inputs
  generalize s.inputs = items at hinputs
  generalize s'.inputs = items' at hinputs
  induction hinputs with
  | nil => rfl
  | cons hone _ ih => cases hone <;> simp [ih]

theorem SourceAlike.checked (h : SourceAlike s s') (hs : SourceChecked s) : SourceChecked s' := by
  obtain ⟨hcount, hpair, hbounded, hmode, hinputs, hextent, hfold, hsize, hviews, hnodes, hpost⟩ := hs
  have hlength := h.inputs.length_eq
  rw [← h.kernel] at hextent hfold hsize hviews hnodes
  exact ⟨hlength ▸ hcount, h.shape ▸ hpair, h.shape ▸ hbounded, h.boundary ▸ hmode, inputs_ok h.inputs hinputs, hextent, hfold,
    hsize, hlength ▸ hviews, hnodes, h.post ▸ hpost⟩

theorem SourceAlike.nodes (h : SourceAlike s s') : nodeCount s' = nodeCount s := by
  unfold nodeCount
  rw [h.kernel, h.post]

/-- The stages of programs that are alike, one by one. -/
theorem ProgramAlike.stages_map (h : ProgramAlike value value') (hnodup : (value.stages.map (·.name)).Nodup) :
    ∃ f : Stage → Stage, value'.stages = value.stages.map f ∧ (∀ stage, (f stage).name = stage.name) ∧
      ∀ stage ∈ value.stages, StageAlike stage (f stage) := by
  have hnames : value'.stages.map (·.name) = value.stages.map (·.name) := by
    have hall := h.stages
    generalize value.stages = stages at hall
    generalize value'.stages = stages' at hall
    induction hall with
    | nil => rfl
    | cons hone _ ih => rw [List.map_cons, List.map_cons, hone.name, ih]
  have hnodup' : (value'.stages.map (·.name)).Nodup := hnames ▸ hnodup
  let f (stage : Stage) : Stage := (value'.stages.find? fun other => other.name = stage.name).getD stage
  have hpartner : List.Forall₂ (fun stage stage' => StageAlike stage (f stage) ∧ stage' = f stage) value.stages value'.stages := by
    have hmem : ∀ stage' ∈ value'.stages, stage' ∈ value'.stages := fun _ hin => hin
    have hall := h.stages
    generalize hstages : value.stages = stages at hall
    generalize hstages' : value'.stages = stages' at hall
    rw [hstages'] at hmem
    clear hstages
    have hsub : ∀ stage' ∈ stages', stage' ∈ value'.stages := by
      rw [hstages']
      exact hmem
    clear hmem hstages'
    induction hall with
    | nil => exact .nil
    | @cons stage stage' stages stages' hone _ ih =>
      rw [List.forall_mem_cons] at hsub
      have hfind : value'.stages.find? (fun other => other.name = stage.name) = some stage' :=
        (find_name hnodup').mpr ⟨hsub.1, hone.name⟩
      have hf : f stage = stage' := by
        change (value'.stages.find? _).getD stage = stage'
        rw [hfind]
        rfl
      exact .cons ⟨hf ▸ hone, hf.symm⟩ (ih hsub.2)
  refine ⟨f, ?_, ?_, ?_⟩
  · generalize value.stages = stages at hpartner
    generalize value'.stages = stages' at hpartner
    clear hnames
    induction hpartner with
    | nil => rfl
    | cons hone _ ih => rw [List.map_cons, ← hone.2, ← ih]
  · intro stage
    change ((value'.stages.find? _).getD stage).name = stage.name
    cases hfind : value'.stages.find? fun other => other.name = stage.name with
    | none => rfl
    | some other => simpa using List.find?_some hfind
  · intro stage hstage
    obtain ⟨i, hi⟩ := List.mem_iff_getElem?.mp hstage
    obtain ⟨hlt, rfl⟩ := List.getElem?_eq_some_iff.mp hi
    exact (hpartner.get hlt (hpartner.length_eq ▸ hlt)).1

theorem stages_sum {f : Stage → Stage} {stages : List Stage} {count : Stage → ℕ} (h : ∀ stage ∈ stages, count (f stage) = count stage) :
    ((stages.map f).map count).sum = (stages.map count).sum := by
  rw [List.map_map]
  exact congrArg List.sum (List.map_congr_left h)

/-- Programs that are alike have structures that are alike. -/
theorem ProgramAlike.structure_eq {structured : Structured} (h : ProgramAlike value value')
    (hs : structureOf value = .ok structured) : ∃ f : Stage → Stage, (∀ stage ∈ structured.order, StageAlike stage (f stage)) ∧
      structureOf value' = .ok { structured with order := structured.order.map f } := by
  obtain ⟨hwell, hleast, htotal, hwords⟩ := structureOf_eq_ok.mp hs
  obtain ⟨f, hstages, hname, halike⟩ := h.stages_map hwell.nodup
  have hnames : value'.stages.map (·.name) = value.stages.map (·.name) := by
    rw [hstages, List.map_map]
    exact List.map_congr_left fun stage _ => hname stage
  have hdeps : ∀ stage ∈ value.stages, dependencies (f stage) = dependencies stage :=
    fun stage hstage => (halike stage hstage).source.producers
  have hwell' : WellFormed value' := by
    have hlength : value'.stages.length = value.stages.length := by rw [hstages, List.length_map]
    refine ⟨h.schema ▸ hwell.schema, hlength ▸ hwell.count, h.outputs ▸ hwell.outputCount, ?_, hnames ▸ hwell.nodup, ?_, ?_,
      h.outputs ▸ hwell.distinct, ?_⟩
    · rw [hstages, List.forall_mem_map]
      intro stage hstage
      have hok := hwell.stages stage hstage
      exact ⟨(hname stage).symm ▸ hok.name, (halike stage hstage).source.checked hok.source⟩
    · have htotal : totalNodes value'.stages = totalNodes value.stages := by
        rw [hstages]
        exact stages_sum fun stage hstage => (halike stage hstage).source.nodes
      exact htotal ▸ hwell.total
    · rw [h.outputs, hnames]
      exact hwell.outputs
    · rw [hnames, hstages, List.forall_mem_map]
      intro stage hstage
      rw [hdeps stage hstage]
      exact hwell.producers stage hstage
  refine ⟨f, fun stage hstage => halike stage (hleast.perm.mem_iff.mp hstage), ?_⟩
  have horder : orderOf value = some structured.order := (scheduleReady_eq_some hwell.nodup le_rfl).mpr hleast
  have horder' : orderOf value' = some (structured.order.map f) := by
    unfold orderOf
    rw [hstages, List.length_map, scheduleReady_map hname hdeps]
    change (orderOf value).map (List.map f) = _
    rw [horder]
    rfl
  rw [hwell'.structure_eq, horder', htotal, hwords]
  have hnodes : totalNodes value'.stages = totalNodes value.stages := by
    rw [hstages]
    exact stages_sum fun stage hstage => (halike stage hstage).source.nodes
  have hsum : totalWords value'.stages = totalWords value.stages := by
    rw [hstages]
    exact stages_sum fun stage hstage => congrArg List.sum (inputs_words (halike stage hstage).source.inputs)
  rw [Option.elim_some, hnodes, hsum]

end Structure

section Emission

variable {emit : Emit} {stage stage' : Stage} {results : Refs} {s s' : StageSource} {α : Type}

theorem shapeOf_alike (h : SourceAlike s s') : shapeOf s' = shapeOf s := by
  unfold shapeOf
  rw [h.shape]

/-- What an input is read from, not what it has, decides what is emitted for it. -/
theorem inputArgs_alike (h : SourceAlike s s') (i : ℕ) (next : List String → Except String α) : (do
      let item ← keyed s'.inputs[i]?
      let args ← inputArgs results item
      next args) = (do
      let item ← keyed s.inputs[i]?
      let args ← inputArgs results item
      next args) := by
  have hinputs := h.inputs
  generalize s.inputs = items at hinputs
  generalize s'.inputs = items' at hinputs
  induction hinputs generalizing i with
  | nil => rfl
  | cons hone _ ih =>
    cases i with
    | zero => cases hone <;> rfl
    | succ i => exact ih i

theorem kernelNode_alike (h : StageAlike stage stage') (k : ℕ) :
    kernelNode emit stage' results k = kernelNode emit stage results k := by
  funext s node
  unfold kernelNode
  rw [h.source.kernel, shapeOf_alike h.source, h.name]
  split
  · refine congrArg (Bind.bind _) (funext fun view => ?_)
    exact inputArgs_alike h.source view.input.toNat _
  · rfl

theorem scalarStage_alike (h : StageAlike stage stage') (e : Emission) :
    scalarStage emit stage' results e = scalarStage emit stage results e := by
  have hturn : kernelTurn emit stage' results = kernelTurn emit stage results := by
    funext s k
    unfold kernelTurn
    rw [kernelNode_alike h, h.source.kernel, shapeOf_alike h.source]
  have hpost (accumulator : String) : postNode emit stage' accumulator = postNode emit stage accumulator := by
    funext s node
    unfold postNode
    rw [shapeOf_alike h.source]
  unfold scalarStage
  rw [hturn, h.source.kernel, h.source.post]
  simp only [hpost]

theorem emitStages_alike {f : Stage → Stage} {order : List Stage} (h : ∀ stage ∈ order, StageAlike stage (f stage))
    (s : Emission × Refs) : (order.map f).foldlM emitStage s = order.foldlM emitStage s := by
  induction order generalizing s with
  | nil => rfl
  | cons stage order ih =>
    rw [List.forall_mem_cons] at h
    have hone : emitStage s (f stage) = emitStage s stage := by
      unfold emitStage
      rw [scalarStage_alike h.1, h.1.name]
    rw [List.map_cons, List.foldlM_cons, List.foldlM_cons, hone]
    exact congrArg (Bind.bind _) (funext fun t => ih h.2 t)

end Emission

section Plans

variable {value value' : Program} {plan : Plan} {s s' : Planning} {words n : ℕ} {last : String → Option ℕ} {step : Step}

theorem storeAlike_refl (store : Store) : StoreAlike store store := by
  intro name
  cases h : store name with
  | none => exact Or.inl ⟨rfl, rfl⟩
  | some grid => exact Or.inr ⟨grid, grid, rfl, rfl, rfl, rfl⟩

/-- A pass is planned alike over another program's words. -/
theorem planStep_alike (h : ProgramAlike value value') {zeroed : Store} (hplanes : s.planes = planesOf zeroed)
    (hstep : planStep value words last s (step, n) = .ok s') : planStep value' words last s (step, n) = .ok s' := by
  obtain ⟨hpeak, hstep⟩ := require_then_eq_ok.mp hstep
  obtain ⟨bound, hbind, hstep⟩ := except_bind_eq_ok.mp hstep
  obtain ⟨l, hcompile, hstep⟩ := except_bind_eq_ok.mp hstep
  dsimp only at hbind
  rw [hplanes] at hbind
  obtain ⟨inputs, hbind', hmatches⟩ := bind_alike h (storeAlike_refl zeroed) hbind
  obtain ⟨l', hcompile', -⟩ := Grid.compile_matches hcompile hmatches
  refine require_then_eq_ok.mpr ⟨hpeak, except_bind_eq_ok.mpr ⟨_, ?_, except_bind_eq_ok.mpr ⟨l', hcompile', hstep⟩⟩⟩
  dsimp only
  rw [hplanes]
  exact hbind'

theorem Materialized.compiles {structured : Structured} {e : Emission} {results : Refs} {g : ℕ → Planning}
    (h : Materialized value plan structured e results g) : compileScalar value = .ok plan := by
  have hloop : e.steps.zipIdx.foldlM (planStep value structured.literalWords (lastUses e.steps plan.outputs))
      { peak := structured.literalWords } = .ok (g e.steps.length) :=
    foldlM_zipIdx_eq_ok.mpr ⟨g, h.start, rfl, h.turns⟩
  have hplan : plan = {
      order := structured.order.map (·.name)
      sourceNodes := structured.total
      passes := (g e.steps.length).steps
      outputs := plan.outputs
      sessions := e.sessions
      workWords := e.work
      peakPlaneWords := (g e.steps.length).peak } := by
    rw [← h.order, ← h.sourceNodes, ← h.passes, ← h.sessions, ← h.work, ← h.peak]
  rw [hplan]
  exact except_bind_eq_ok.mpr ⟨structured, h.accepted, except_bind_eq_ok.mpr ⟨(e, results), h.emitted,
    except_bind_eq_ok.mpr ⟨plan.outputs, h.outputs, except_bind_eq_ok.mpr ⟨_, hloop, rfl⟩⟩⟩⟩

/-- A plan does not depend on the words of its program. -/
theorem compileScalar_alike (h : ProgramAlike value value') (hplan : compileScalar value = .ok plan) :
    compileScalar value' = .ok plan := by
  obtain ⟨structured, e, results, g, hm⟩ := compileScalar_materialized hplan
  obtain ⟨f, halike, hs'⟩ := h.structure_eq hm.accepted
  refine Materialized.compiles (show Materialized value' plan _ e results g from
    ⟨hs', ?_, ?_, hm.start, ?_, ?_, hm.sourceNodes, hm.passes, hm.peak, hm.sessions, hm.work⟩)
  · rw [emitStages_alike halike]
    exact hm.emitted
  · rw [h.outputs]
    exact hm.outputs
  · intro n step hi
    obtain ⟨zeroed, hplanes, -, -⟩ := (hm.runs (List.getElem?_eq_some_iff.mp hi).1.le).1.planes
    exact planStep_alike h hplanes (hm.turns n step hi)
  · rw [hm.order, List.map_map]
    exact List.map_congr_left fun stage hstage => (halike stage hstage).name.symm

theorem inputAlike_symm {item item' : Input} (h : InputAlike item item') : InputAlike item' item := by
  cases h with
  | link name => exact .link name
  | grid hread hread' hshape => exact .grid hread' hread ⟨hshape.1.symm, hshape.2.symm⟩

theorem programAlike_symm (h : ProgramAlike value value') : ProgramAlike value' value := by
  refine ⟨h.schema.symm, ?_, h.outputs.symm⟩
  refine List.Forall₂.flip (h.stages.imp fun stage stage' hone => ?_)
  refine ⟨hone.name.symm, ?_, hone.source.shape.symm, hone.source.boundary.symm, hone.source.kernel.symm, hone.source.post.symm⟩
  exact List.Forall₂.flip (hone.source.inputs.imp fun _ _ => inputAlike_symm)

/-- The program with its stages written in another order. -/
def Program.rearrange (value : Program) (stages : List Stage) : Program := { value with stages }

variable {stages : List Stage}

theorem structure_rearrange (h : WellFormed value) (hp : stages.Perm value.stages) :
    structureOf (value.rearrange stages) = structureOf value := by
  have hnames : (stages.map (·.name)).Perm (value.stages.map (·.name)) := hp.map _
  have hnodes : totalNodes stages = totalNodes value.stages := (hp.map _).sum_eq
  have hwords : totalWords stages = totalWords value.stages := (hp.map _).sum_eq
  have hwell : WellFormed (value.rearrange stages) := by
    refine ⟨h.schema, hp.length_eq ▸ h.count, h.outputCount, fun stage hstage => h.stages stage (hp.mem_iff.mp hstage),
      hnames.nodup_iff.mpr h.nodup, hnodes ▸ h.total, fun name hname => hnames.mem_iff.mpr (h.outputs name hname), h.distinct, ?_⟩
    exact fun stage hstage name hname => hnames.mem_iff.mpr (h.producers stage (hp.mem_iff.mp hstage) name hname)
  have horder : orderOf (value.rearrange stages) = orderOf value := by
    unfold orderOf
    change scheduleReady (·.name) dependencies stages.length stages = _
    rw [hp.length_eq]
    exact scheduleReady_perm h.nodup le_rfl hp.symm
  rw [hwell.structure_eq, h.structure_eq, horder, show totalNodes (value.rearrange stages).stages = _ from hnodes,
    show totalWords (value.rearrange stages).stages = _ from hwords]

theorem source_rearrange (h : WellFormed value) (hp : stages.Perm value.stages) :
    (value.rearrange stages).source = value.source := by
  funext name
  unfold Program.source Program.rearrange
  dsimp only
  rw [find_name_perm h.nodup hp name]

theorem bind_rearrange (h : WellFormed value) (hp : stages.Perm value.stages) : bind (value.rearrange stages) = bind value := by
  have hsource := source_rearrange h hp
  have hgather : gather (value.rearrange stages) = gather value := by
    funext recipe shape args planes
    unfold gather
    rw [hsource]
  funext step planes
  unfold bind scalarOperands
  rw [hgather]

end Plans

section Independent

variable {value : Program} {plan : Plan} {stages : List Stage}

theorem compileScalar_rearrange (h : WellFormed value) (hp : stages.Perm value.stages) :
    compileScalar (value.rearrange stages) = compileScalar value := by
  have hturn : planStep (value.rearrange stages) = planStep value := by
    funext words last s entry
    unfold planStep
    rw [bind_rearrange h hp]
  unfold compileScalar
  rw [structure_rearrange h hp, hturn]
  rfl

theorem wellFormed_of_compile (h : compileScalar value = .ok plan) : WellFormed value := by
  obtain ⟨structured, e, results, g, hm⟩ := compileScalar_materialized h
  exact hm.wellFormed

/-- The plan is the same for programs that differ in the words they write out, and for every order in which the stages
are written; its stages are in the least topological order. -/
theorem scalar_plan_independent (value : Program) :
    (∀ value', ProgramAlike value value' → ∀ plan, compileScalar value' = .ok plan ↔ compileScalar value = .ok plan) ∧
    (∀ stages, stages.Perm value.stages → ∀ plan,
      compileScalar (value.rearrange stages) = .ok plan ↔ compileScalar value = .ok plan) ∧
    (∀ stages, stages.Perm value.stages → ∀ outputs,
      reference (value.rearrange stages) = .ok outputs ↔ reference value = .ok outputs) ∧
    (∀ plan, compileScalar value = .ok plan → ∃ order, plan.order = order.map (·.name) ∧
      Least (·.name) dependencies value.stages order) ∧
    (WellFormed value → (structureOf value = .error "cyclic array stages" ↔ Cyclic (·.name) dependencies value.stages)) := by
  -- the stages of a rearranged program can be rearranged back
  have hback (stages : List Stage) : (value.rearrange stages).rearrange value.stages = value := rfl
  refine ⟨?_, ?_, ?_, ?_, ?_⟩
  · exact fun value' halike plan => ⟨compileScalar_alike (programAlike_symm halike), compileScalar_alike halike⟩
  · intro stages hp plan
    constructor
    · intro h
      have hsame := compileScalar_rearrange (wellFormed_of_compile h) hp.symm
      rw [hback] at hsame
      rw [hsame]
      exact h
    · intro h
      rw [compileScalar_rearrange (wellFormed_of_compile h) hp]
      exact h
  · intro stages hp outputs
    constructor
    · intro h
      obtain ⟨structured, hs, hrest⟩ := except_bind_eq_ok.mp h
      have hsame := structure_rearrange (wellFormed_of_structure hs) hp.symm
      rw [hback] at hsame
      exact except_bind_eq_ok.mpr ⟨structured, hsame.trans hs, hrest⟩
    · intro h
      obtain ⟨structured, hs, hrest⟩ := except_bind_eq_ok.mp h
      exact except_bind_eq_ok.mpr ⟨structured, (structure_rearrange (wellFormed_of_structure hs) hp).trans hs, hrest⟩
  · intro plan h
    obtain ⟨structured, e, results, g, hm⟩ := compileScalar_materialized h
    exact ⟨structured.order, hm.order, (structureOf_eq_ok.mp hm.accepted).2.1⟩
  · intro hwell
    rw [hwell.structure_eq]
    unfold orderOf
    cases horder : scheduleReady (·.name) dependencies value.stages.length value.stages with
    | none => exact iff_of_true rfl ((scheduleReady_eq_none hwell.nodup le_rfl).mp horder)
    | some order =>
      refine iff_of_false (fun h => by cases h) fun hcyclic => ?_
      rw [(scheduleReady_eq_none hwell.nodup le_rfl).mpr hcyclic] at horder
      cases horder

theorem scalar_plan_independent_rectified : ∃ plan, compileScalar rectifiedProgram = .ok plan ∧
    compileScalar (rectifiedProgram.rearrange rectifiedProgram.stages.reverse) = .ok plan := by
  obtain ⟨plan, h⟩ := rectified_compiles
  obtain ⟨-, hplans, -⟩ := scalar_plan_independent rectifiedProgram
  exact ⟨plan, h, (hplans _ (List.reverse_perm _) plan).mpr h⟩

end Independent

end Raveil.ArrayProgram
