import Raveil.ArrayProgram.Program

/-! What the structure of an array program checks, and its order: the least topological one. -/
namespace Raveil.ArrayProgram
open Lib
open Raveil.Flow (Input)
open Fold (Node)

variable {value : Program} {stage : Stage} {stages : List Stage} {s : StageSource} {t t' : Tally} {structured : Structured}
  {words : ℕ} {inputs : List Input}

section Checks

/-- What is checked of an input. -/
def InputOk : Input → Prop
  | .link name => Fold.nameOk name
  | .grid v => ∃ grid, Grid.readInput v = .ok grid

/-- The words that an input writes out. -/
def inputWords : Input → ℕ
  | .link _ => 0
  | .grid v => v.words.length

/-- What is checked of a stage source. -/
structure SourceChecked (s : StageSource) : Prop where
  count : 1 ≤ s.inputs.length ∧ s.inputs.length ≤ 8
  pair : s.shape.length = 2
  bounded : ∀ size ∈ s.shape, 1 ≤ size ∧ size ≤ 64
  mode : ∃ mode, Grid.boundaryOf s.boundary = .ok mode
  inputs : ∀ item ∈ s.inputs, InputOk item
  extent : 1 ≤ s.kernel.extent ∧ s.kernel.extent ≤ 64
  fold : s.kernel.fold ∈ ["sum", "max"]
  size : 1 ≤ s.kernel.views.size ∧ s.kernel.views.size ≤ 8
  views : ∀ entry ∈ s.kernel.views.entries, checkView s.inputs.length entry = .ok ()
  nodes : checkNodes s.kernel.nodes s.kernel.result s.kernel.views.keys = .ok ()
  post : ∀ post, s.post = some post → checkNodes post.nodes post.result ["reduced"] = .ok ()

/-- What is checked of one stage. -/
structure StageOk (stage : Stage) : Prop where
  name : Fold.nameOk stage.name
  source : SourceChecked stage.source

theorem length_readInput {v : Grid.GridInput} {grid : Tiling.Grid} (h : Grid.readInput v = .ok grid) :
    grid.words.length = v.words.length := by
  unfold Grid.readInput at h
  split at h
  · cases h
  · split at h
    · split at h
      · cases h
        exact List.length_map _
      · cases h
    · cases h

theorem checkInput_iff {item : Input} : checkInput item = .ok words ↔ InputOk item ∧ words = inputWords item := by
  cases item with
  | link name =>
    rw [checkInput, require_then_eq_ok, except_pure_eq_ok]
    exact ⟨fun h => ⟨h.1, h.2.symm⟩, fun h => ⟨h.1, h.2.symm⟩⟩
  | grid v =>
    rw [checkInput, except_bind_eq_ok]
    constructor
    · rintro ⟨grid, hread, h⟩
      rw [except_pure_eq_ok] at h
      exact ⟨⟨grid, hread⟩, h ▸ length_readInput hread⟩
    · rintro ⟨⟨grid, hread⟩, rfl⟩
      exact ⟨grid, hread, congrArg Except.ok (length_readInput hread)⟩

theorem checkInputs_iff {list : List ℕ} : inputs.mapM checkInput = .ok list ↔
    (∀ item ∈ inputs, InputOk item) ∧ list = inputs.map inputWords := by
  rw [mapM_eq_ok_iff]
  induction inputs generalizing list with
  | nil => simp
  | cons item inputs ih =>
    rw [List.forall₂_cons_left_iff, List.forall_mem_cons, List.map_cons]
    constructor
    · rintro ⟨w, list, hitem, hrest, rfl⟩
      obtain ⟨hok, rfl⟩ := checkInput_iff.mp hitem
      obtain ⟨hall, rfl⟩ := ih.mp hrest
      exact ⟨⟨hok, hall⟩, rfl⟩
    · rintro ⟨⟨hok, hall⟩, rfl⟩
      exact ⟨_, _, checkInput_iff.mpr ⟨hok, rfl⟩, ih.mpr ⟨hall, rfl⟩, rfl⟩

theorem checkSource_iff : checkSource s = .ok words ↔ SourceChecked s ∧ words = (s.inputs.map inputWords).sum := by
  unfold checkSource
  constructor
  · intro h
    obtain ⟨hcount, h⟩ := require_then_eq_ok.mp h
    obtain ⟨hpair, h⟩ := require_then_eq_ok.mp h
    obtain ⟨hbounded, h⟩ := check_then_eq_ok.mp h
    obtain ⟨mode, hmode, h⟩ := except_bind_eq_ok.mp h
    obtain ⟨list, hinputs, h⟩ := except_bind_eq_ok.mp h
    obtain ⟨hextent, h⟩ := check_then_eq_ok.mp h
    obtain ⟨hfold, h⟩ := require_then_eq_ok.mp h
    obtain ⟨hsize, h⟩ := require_then_eq_ok.mp h
    obtain ⟨hviews, h⟩ := check_then_eq_ok.mp h
    obtain ⟨hnodes, h⟩ := check_then_eq_ok.mp h
    obtain ⟨hpost, h⟩ := check_then_eq_ok.mp h
    obtain ⟨hok, rfl⟩ := checkInputs_iff.mp hinputs
    refine ⟨⟨hcount, hpair, ?_, ⟨mode, hmode⟩, hok, require_eq_ok.mp hextent, hfold, hsize, forM_eq_ok.mp hviews, hnodes, ?_⟩, ?_⟩
    · intro size hsize
      exact require_eq_ok.mp (forM_eq_ok.mp hbounded size hsize)
    · intro post hp
      exact forM_eq_ok.mp hpost post (by rw [hp]; exact List.mem_singleton_self post)
    · exact (except_pure_eq_ok.mp h).symm
  · rintro ⟨h, rfl⟩
    obtain ⟨mode, hmode⟩ := h.mode
    refine require_then_eq_ok.mpr ⟨h.count, require_then_eq_ok.mpr ⟨h.pair, check_then_eq_ok.mpr ⟨?_,
      except_bind_eq_ok.mpr ⟨mode, hmode, except_bind_eq_ok.mpr ⟨_, checkInputs_iff.mpr ⟨h.inputs, rfl⟩,
        check_then_eq_ok.mpr ⟨require_eq_ok.mpr h.extent, require_then_eq_ok.mpr ⟨h.fold, require_then_eq_ok.mpr ⟨h.size,
          check_then_eq_ok.mpr ⟨forM_eq_ok.mpr h.views, check_then_eq_ok.mpr ⟨h.nodes, check_then_eq_ok.mpr ⟨?_, rfl⟩⟩⟩⟩⟩⟩⟩⟩⟩⟩⟩
    · exact forM_eq_ok.mpr fun size hsize => require_eq_ok.mpr (h.bounded size hsize)
    · refine forM_eq_ok.mpr fun post hp => h.post post ?_
      exact Option.mem_toList.mp hp

theorem checkStage_iff : checkStage t stage = .ok t' ↔ StageOk stage ∧ stage.name ∉ t.names ∧
    t' = ⟨insert stage.name t.names, t.total + nodeCount stage.source,
      t.literalWords + (stage.source.inputs.map inputWords).sum⟩ := by
  unfold checkStage
  rw [require_then_eq_ok, require_then_eq_ok, except_bind_eq_ok]
  constructor
  · rintro ⟨hname, hfresh, words, hsource, h⟩
    obtain ⟨hok, rfl⟩ := checkSource_iff.mp hsource
    exact ⟨⟨hname, hok⟩, hfresh, (except_pure_eq_ok.mp h).symm⟩
  · rintro ⟨⟨hname, hok⟩, hfresh, rfl⟩
    exact ⟨hname, hfresh, _, checkSource_iff.mpr ⟨hok, rfl⟩, rfl⟩

/-- The nodes of all stages. -/
def totalNodes (stages : List Stage) : ℕ := (stages.map fun stage => nodeCount stage.source).sum

/-- The words that all stages write out. -/
def totalWords (stages : List Stage) : ℕ := (stages.map fun stage => (stage.source.inputs.map inputWords).sum).sum

theorem checkStages_iff : stages.foldlM checkStage t = .ok t' ↔
    (∀ stage ∈ stages, StageOk stage) ∧ (stages.map (·.name)).Nodup ∧ (∀ stage ∈ stages, stage.name ∉ t.names) ∧
      t' = ⟨t.names ∪ (stages.map (·.name)).toFinset, t.total + totalNodes stages, t.literalWords + totalWords stages⟩ := by
  induction stages generalizing t with
  | nil => simp [pure, Except.pure, totalNodes, totalWords, eq_comm]
  | cons stage stages ih =>
    rw [List.foldlM_cons, except_bind_eq_ok, List.forall_mem_cons, List.forall_mem_cons, List.map_cons, List.nodup_cons]
    have hunion (names : Finset String) : insert stage.name names ∪ (stages.map (·.name)).toFinset =
        names ∪ (stage.name :: stages.map (·.name)).toFinset := by
      ext name
      simp only [Finset.mem_union, Finset.mem_insert, List.toFinset_cons]
      tauto
    have hnodes (n : ℕ) : n + nodeCount stage.source + totalNodes stages = n + totalNodes (stage :: stages) := by
      unfold totalNodes
      rw [List.map_cons, List.sum_cons, Nat.add_assoc]
    have hwords (n : ℕ) : n + (stage.source.inputs.map inputWords).sum + totalWords stages =
        n + totalWords (stage :: stages) := by
      unfold totalWords
      rw [List.map_cons, List.sum_cons, Nat.add_assoc]
    constructor
    · rintro ⟨next, hstage, hrest⟩
      obtain ⟨hok, hfresh, rfl⟩ := checkStage_iff.mp hstage
      obtain ⟨hall, hnodup, hout, rfl⟩ := ih.mp hrest
      refine ⟨⟨hok, hall⟩, ⟨?_, hnodup⟩, ⟨hfresh, ?_⟩, ?_⟩
      · intro hin
        obtain ⟨other, hother, heq⟩ := List.mem_map.mp hin
        exact hout other hother (Finset.mem_insert.mpr (Or.inl heq))
      · exact fun other hother hin => hout other hother (Finset.mem_insert_of_mem hin)
      · rw [hunion, hnodes, hwords]
    · rintro ⟨⟨hok, hall⟩, ⟨hin, hnodup⟩, ⟨hfresh, hout⟩, rfl⟩
      refine ⟨_, checkStage_iff.mpr ⟨hok, hfresh, rfl⟩, ih.mpr ⟨hall, hnodup, ?_, ?_⟩⟩
      · intro other hother hmem
        rcases Finset.mem_insert.mp hmem with heq | hmem
        · exact hin (heq ▸ List.mem_map_of_mem hother)
        · exact hout other hother hmem
      · rw [hunion, hnodes, hwords]

end Checks

section Order

/-- What is checked of a program before its stages are ordered. -/
structure WellFormed (value : Program) : Prop where
  schema : value.schema ∈ [SCHEMA, SCHEMA_V2]
  count : 1 ≤ value.stages.length ∧ value.stages.length ≤ 8
  outputCount : 1 ≤ value.outputs.length ∧ value.outputs.length ≤ 8
  stages : ∀ stage ∈ value.stages, StageOk stage
  nodup : (value.stages.map (·.name)).Nodup
  total : totalNodes value.stages ≤ MAX_NODES
  outputs : ∀ name ∈ value.outputs, name ∈ value.stages.map (·.name)
  distinct : value.outputs.Nodup
  producers : ∀ stage ∈ value.stages, ∀ name ∈ dependencies stage, name ∈ value.stages.map (·.name)

/-- The order of a well-formed program. -/
def orderOf (value : Program) : Option (List Stage) :=
  scheduleReady (·.name) dependencies value.stages.length value.stages

/-- On a well-formed program the structure is its order, with the sums over its stages. -/
theorem WellFormed.structure_eq (h : WellFormed value) : structureOf value =
    (orderOf value).elim (.error "cyclic array stages") fun order =>
      .ok ⟨order, totalNodes value.stages, totalWords value.stages⟩ := by
  have hchecked : value.stages.foldlM checkStage {} =
      .ok ⟨(value.stages.map (·.name)).toFinset, totalNodes value.stages, totalWords value.stages⟩ :=
    checkStages_iff.mpr ⟨h.stages, h.nodup, by simp, by simp⟩
  have hmem (name : String) : name ∈ (value.stages.map (·.name)).toFinset ↔ name ∈ value.stages.map (·.name) :=
    List.mem_toFinset
  unfold structureOf
  rw [require_of ⟨h.schema, h.count, h.outputCount⟩, hchecked]
  dsimp only [Bind.bind, Except.bind]
  rw [require_of h.total, require_of (fun name hname => (hmem name).mpr (h.outputs name hname)), require_of h.distinct,
    require_of (fun stage hstage name hname => (hmem name).mpr (h.producers stage hstage name hname))]
  change _ = (scheduleReady (·.name) dependencies value.stages.length value.stages).elim _ _
  cases scheduleReady (·.name) dependencies value.stages.length value.stages <;> rfl

theorem wellFormed_of_structure (h : structureOf value = .ok structured) : WellFormed value := by
  obtain ⟨⟨hschema, hcount, houtputs⟩, h⟩ := require_then_eq_ok.mp h
  obtain ⟨tally, htally, h⟩ := except_bind_eq_ok.mp h
  obtain ⟨htotal, h⟩ := require_then_eq_ok.mp h
  obtain ⟨hknown, h⟩ := require_then_eq_ok.mp h
  obtain ⟨hdistinct, h⟩ := require_then_eq_ok.mp h
  obtain ⟨hproducers, -⟩ := require_then_eq_ok.mp h
  obtain ⟨hall, hnodup, -, rfl⟩ := checkStages_iff.mp htally
  simp only [Finset.empty_union, List.mem_toFinset, Nat.zero_add] at hknown hproducers htotal
  exact ⟨hschema, hcount, houtputs, hall, hnodup, htotal, hknown, hdistinct, hproducers⟩

/-- A program has a structure when it is well-formed and its links have no cycle; the order is the least one. -/
theorem structureOf_eq_ok : structureOf value = .ok structured ↔ WellFormed value ∧
    Least (·.name) dependencies value.stages structured.order ∧ structured.total = totalNodes value.stages ∧
      structured.literalWords = totalWords value.stages := by
  constructor
  · intro h
    have hwell := wellFormed_of_structure h
    rw [hwell.structure_eq] at h
    cases ho : orderOf value with
    | none =>
      rw [ho] at h
      cases h
    | some order =>
      rw [ho] at h
      cases h
      exact ⟨hwell, (scheduleReady_eq_some hwell.nodup le_rfl).mp ho, rfl, rfl⟩
  · rintro ⟨hwell, hleast, htotal, hwords⟩
    have ho : orderOf value = some structured.order := (scheduleReady_eq_some hwell.nodup le_rfl).mpr hleast
    rw [hwell.structure_eq, ho, ← htotal, ← hwords]
    rfl

end Order

end Raveil.ArrayProgram
