import Raveil.ArrayProgram.Planned
import Raveil.ArrayProgram.Stages

/-! The passes of the materialising compiler, run one after the other, publish what the reference computes. -/
namespace Raveil.ArrayProgram
open Lib
open Raveil.Flow (Input Output)
open Fold (Node)

section Reference

variable {s : StageSource} {grids : List Tiling.Grid} {mode : Tiling.Boundary} {grid : Tiling.Grid} {boundary : String} {r c : ℤ}
  {node : Node}

/-- The boundary code of the reference agrees with that of the binder. -/
theorem referenceWord_eq (h : Grid.boundaryOf boundary = .ok mode) :
    referenceWord (ofGrid grid) boundary r c = .ok (Tiling.wordAt grid mode r c) := by
  rw [← sample_eq]
  unfold Grid.boundaryOf at h
  unfold referenceWord sample
  split at h
  · rename_i hb
    cases h
    subst hb
    by_cases hin : (0 ≤ r ∧ r < ((ofGrid grid).rows : ℤ)) ∧ 0 ≤ c ∧ c < ((ofGrid grid).columns : ℤ)
    · rw [if_neg fun hout => hout.2 hin, if_neg (by decide), if_neg (by decide), if_neg fun hout => hout.2 (and_assoc.mp hin)]
    · rw [if_pos ⟨rfl, hin⟩, if_pos ⟨rfl, fun hin' => hin (and_assoc.mpr hin')⟩]
  · rename_i hz
    rw [if_neg fun hout => hz hout.1]
    split at h
    · rename_i hb
      cases h
      rw [if_pos hb]
      exact (if_neg fun hout => by cases hout.1).symm
    · rename_i hclamp
      rw [if_neg hclamp]
      split at h
      · rename_i hb
        cases h
        rw [if_pos hb]
        exact (if_neg fun hout => by cases hout.1).symm
      · cases h

/-- A view of a stage reads an input that is there. -/
theorem SourceChecked.view_input (h : SourceChecked s) {name : String} {view : Grid.ViewSource}
    (hview : s.kernel.views.get? name = some view) : view.input.toNat < s.inputs.length := by
  obtain ⟨entry, hentry, rfl⟩ := Option.map_eq_some_iff.mp hview
  have hchecked := h.views entry (List.mem_of_find?_eq_some hentry)
  obtain ⟨-, hchecked⟩ := require_then_eq_ok.mp hchecked
  obtain ⟨-, hchecked⟩ := require_then_eq_ok.mp hchecked
  obtain ⟨hinput, -⟩ := check_then_eq_ok.mp hchecked
  have := require_eq_ok.mp hinput
  omega

/-- A load of the reference finds the word of its view. -/
theorem SourceChecked.referenceLoad_eq (h : SourceChecked s) (hmode : Grid.boundaryOf s.boundary = .ok mode)
    (hlen : grids.length = s.inputs.length) (row col k : ℕ) (hnode : node ∈ s.kernel.nodes) (hop : node.op = .load) :
    referenceLoad s (grids.map ofGrid) row col k node = .ok (Grid.viewWord (admittedStage s grids mode) row col k node) := by
  have hkey := (computes_of_checkNodes h.nodes).2 node hnode hop
  obtain ⟨view, hview⟩ := Option.isSome_iff_exists.mp (Dict.get?_isSome.mpr hkey)
  have hlt : view.input.toNat < grids.length := hlen ▸ h.view_input hview
  have hviews : (admittedStage s grids mode).views.get? (node.view.getD "") = some (Grid.viewOf view) := by
    unfold admittedStage
    dsimp only
    rw [Dict.get?_mapValues, hview]
    rfl
  have hgrid : (admittedStage s grids mode).grids[(Grid.viewOf view).input]? = some grids[view.input.toNat] :=
    List.getElem?_eq_getElem hlt
  unfold referenceLoad Grid.viewWord
  rw [hview, hviews]
  dsimp only
  rw [hgrid]
  refine except_bind_eq_ok.mpr ⟨view, rfl, except_bind_eq_ok.mpr ⟨ofGrid grids[view.input.toNat], ?_, referenceWord_eq hmode⟩⟩
  refine keyed_eq_ok.mpr ?_
  change (grids.map ofGrid)[view.input.toNat]? = _
  rw [List.getElem?_map, List.getElem?_eq_getElem hlt]
  rfl

/-- The reference of a cell of a stage is its word. -/
theorem SourceChecked.referenceCell_eq (h : SourceChecked s) (hmode : Grid.boundaryOf s.boundary = .ok mode)
    (hlen : grids.length = s.inputs.length) (at_ : ℕ × ℕ) :
    referenceCell s (grids.map ofGrid) at_ = .ok (stageField s grids mode at_.1 at_.2) := by
  have hcomputes := (computes_of_checkNodes h.nodes).1
  have hacc : (List.range s.kernel.extent.toNat).foldlM (fun acc k => do
      let term ← Grid.resultWord (referenceLoad s (grids.map ofGrid) at_.1 at_.2 k) s.kernel.nodes s.kernel.result
      pure (if s.kernel.fold = "sum" then (acc + term) % 2 ^ 32 else max acc term)) 0 =
      (.ok (Grid.accWord (admittedStage s grids mode) (stageSource s [] []) at_) : Except String ℕ) := by
    refine foldlM_range_pure (m := Except String) (g := Grid.foldWords (admittedStage s grids mode).fold
      (Grid.kernelWord (admittedStage s grids mode) (stageSource s [] []) at_.1 at_.2)) fun k _ => ?_
    have hword := (Grid.resultWord_eq_ok fun n hn hop => h.referenceLoad_eq hmode hlen at_.1 at_.2 k hn hop).mpr
      (hcomputes.mapped (Grid.viewWord (admittedStage s grids mode) at_.1 at_.2 k)).1
    rw [Grid.foldWords_succ]
    refine except_bind_eq_ok.mpr ⟨_, hword, ?_⟩
    change Except.ok (if s.kernel.fold = "sum" then _ else _) = Except.ok (Grid.foldStep (if s.kernel.fold = "sum" then _ else _) _ _)
    split <;> rfl
  unfold referenceCell stageField Grid.cellWord
  refine except_bind_eq_ok.mpr ⟨_, hacc, ?_⟩
  cases hp : s.post with
  | none =>
    rw [show (stageSource s [] []).post = none from hp]
    rfl
  | some post =>
    rw [show (stageSource s [] []).post = some post from hp]
    have hpost := (computes_of_checkNodes (h.post post hp)).1
    exact (Grid.resultWord_eq_ok fun _ _ _ => rfl).mpr
      (hpost.mapped fun _ => Grid.accWord (admittedStage s grids mode) (stageSource s [] []) at_).1

end Reference

section Stages

variable {value : Program} {full : Store} {e : Emission} {results : Refs} {done rest : List Stage} {stage : Stage}

theorem emit_appends : Appends emit := by
  intro s shape args body ref e h
  obtain ⟨-, h⟩ := require_then_eq_ok.mp h
  cases h
  exact ⟨rfl, rfl⟩

/-- The stages are emitted one after the other. -/
theorem emitStages_grown {t : Emission × Refs} (hresults : Known results e)
    (h : rest.foldlM emitStage (e, results) = .ok t) : Grown emit e t.1 ∧ Known t.2 t.1 := by
  refine foldlM_related (P := fun s : Emission × Refs => Known s.2 s.1) (R := fun s t : Emission × Refs => Grown emit s.1 t.1)
    (fun s => .refl s.1) (fun s t u => Grown.trans) ?_ hresults h
  rintro ⟨e, results⟩ hresults stage - t ht
  obtain ⟨⟨result, e'⟩, hstage, ht⟩ := except_bind_eq_ok.mp ht
  cases ht
  obtain ⟨hgrown, hhas⟩ := scalarStage_grown emit_appends hresults hstage
  exact ⟨hgrown, (hgrown.known emit_appends hresults).update hhas stage.name⟩

/-- The reference of the stages so far has the grids of their results. -/
structure Referenced (full : Store) (done : List Stage) (results : Refs) : Prop where
  outputs : done.foldlM referenceStage (fun _ => none) = .ok (planesOf fun name => (results name).bind full)
  names : ∀ name, (results name).isSome ↔ name ∈ done.map (·.name)

theorem referenced_start (full : Store) : Referenced full [] fun _ => none where
  outputs := rfl
  names _ := iff_of_false Bool.false_ne_true List.not_mem_nil

theorem mapM_eq_some {α β : Type} {f : α → Option β} {l : List α} (h : ∀ a ∈ l, ∃ b, f a = some b) : ∃ r, l.mapM f = some r := by
  induction l with
  | nil => exact ⟨[], rfl⟩
  | cons a l ih =>
    rw [List.forall_mem_cons] at h
    obtain ⟨b, hb⟩ := h.1
    obtain ⟨r, hr⟩ := ih h.2
    exact ⟨b :: r, by simp [hb, hr]⟩

theorem length_mapM {α β : Type} {f : α → Option β} {l : List α} {r : List β} (h : l.mapM f = some r) : r.length = l.length := by
  induction l generalizing r with
  | nil =>
    cases h
    rfl
  | cons a l ih =>
    obtain ⟨b, -, h⟩ := Option.bind_eq_some_iff.mp ((List.mapM_cons ..).symm.trans h)
    obtain ⟨bs, hbs, h⟩ := Option.bind_eq_some_iff.mp h
    cases h
    rw [List.length_cons, List.length_cons, ih hbs]

/-- The reference gets the planes of the inputs of a stage. -/
theorem referenceInputs_eq {items : List Input} {grids : List Tiling.Grid} (hok : ∀ item ∈ items, InputOk item)
    (h : items.mapM (inputGrid full results) = some grids) :
    items.mapM (referenceInput (planesOf fun name => (results name).bind full)) = .ok (grids.map ofGrid) := by
  induction items generalizing grids with
  | nil =>
    cases h
    rfl
  | cons item items ih =>
    rw [List.forall_mem_cons] at hok
    obtain ⟨grid, hgrid, h⟩ := Option.bind_eq_some_iff.mp ((List.mapM_cons ..).symm.trans h)
    obtain ⟨rest, hrest, h⟩ := Option.bind_eq_some_iff.mp h
    cases h
    have hitem : referenceInput (planesOf fun name => (results name).bind full) item = .ok (ofGrid grid) := by
      cases item with
      | link name => exact keyed_eq_ok.mpr (planesOf_eq_some.mpr ⟨grid, hgrid, rfl⟩)
      | grid v =>
        obtain ⟨grid', hread⟩ := hok.1
        have hsame : grid' = grid := Option.some.inj ((toOption_of_ok hread).symm.trans hgrid)
        exact congrArg Except.ok ((literal_eq hread).trans (congrArg ofGrid hsame))
    rw [List.mapM_cons, hitem, ih hok.2 hrest]
    rfl

/-- The producers of a stage stand before it in a topological order. -/
theorem producers_done (htop : Topological (·.name) dependencies (done ++ stage :: rest)) {name : String}
    (hmem : name ∈ (done ++ stage :: rest).map (·.name)) (hdep : name ∈ dependencies stage) : name ∈ done.map (·.name) := by
  rw [List.map_append, List.map_cons, List.mem_append, List.mem_cons] at hmem
  rcases hmem with hmem | rfl | hmem
  · exact hmem
  · exact absurd hdep (htop.2 stage (List.mem_append_right _ List.mem_cons_self))
  · obtain ⟨b, hb, rfl⟩ := List.mem_map.mp hmem
    have hpair := (List.pairwise_cons.mp (List.pairwise_append.mp htop.1).2.1).1 b hb
    exact absurd hdep hpair

theorem mem_dependencies {name : String} : name ∈ dependencies stage ↔ Input.link name ∈ stage.source.inputs := by
  unfold dependencies producers
  rw [List.mem_filterMap]
  constructor
  · rintro ⟨item, hitem, h⟩
    cases item with
    | grid v => cases h
    | link other =>
      cases h
      exact hitem
  · exact fun h => ⟨_, h, rfl⟩

/-- A stage whose producers are settled is supplied. -/
theorem supplied_of_referenced (hwell : WellFormed value) (hstage : stage ∈ value.stages) (hresults : Known results e)
    (hsettled : ∀ step ∈ e.steps, Settled value full step) (h : Referenced full done results)
    (hproducers : ∀ name ∈ dependencies stage, name ∈ done.map (·.name)) :
    ∃ grids mode, Supplied value full results stage grids mode := by
  have hchecked := (hwell.stages stage hstage).source
  obtain ⟨mode, hmode⟩ := hchecked.mode
  have hfind : value.stages.find? (fun other => other.name = stage.name) = some stage :=
    (find_name hwell.nodup).mpr ⟨hstage, rfl⟩
  obtain ⟨grids, hgrids⟩ : ∃ grids, stage.source.inputs.mapM (inputGrid full results) = some grids := by
    refine mapM_eq_some fun item hitem => ?_
    cases item with
    | grid v =>
      obtain ⟨grid, hread⟩ := hchecked.inputs _ hitem
      exact ⟨grid, toOption_of_ok hread⟩
    | link name =>
      have hdone := hproducers name (mem_dependencies.mpr hitem)
      obtain ⟨ref, href⟩ := Option.isSome_iff_exists.mp ((h.names name).mpr hdone)
      obtain ⟨step, hstep, rfl⟩ := hresults name ref href
      obtain ⟨grid, f, hgrid, -, -⟩ := hsettled step hstep
      exact ⟨grid, Option.bind_eq_some_iff.mpr ⟨_, href, hgrid⟩⟩
  refine ⟨grids, mode, ?_, hmode, hgrids⟩
  unfold Program.source
  rw [hfind]

/-- One stage: its result has the words of its reference. -/
theorem Referenced.emitted (hwell : WellFormed value) (hstage : stage ∈ value.stages) (hresults : Known results e)
    {t : String × Emission} (hemit : scalarStage emit stage results e = .ok t)
    (hsettled : ∀ step ∈ t.2.steps, Settled value full step) (h : Referenced full done results)
    (hproducers : ∀ name ∈ dependencies stage, name ∈ done.map (·.name)) :
    Referenced full (done ++ [stage]) (Function.update results stage.name (some t.1)) := by
  have hchecked := (hwell.stages stage hstage).source
  have hbefore := (scalarStage_grown emit_appends hresults hemit).1.prefixed emit_appends
  obtain ⟨grids, mode, hs⟩ := supplied_of_referenced hwell hstage hresults
    (fun step hstep => hsettled step (hbefore.subset hstep)) h hproducers
  obtain ⟨grid, hgrid, hshows⟩ := scalarStage_shows emit_appends hs hchecked hresults hemit hsettled
  refine ⟨?_, ?_⟩
  · rw [List.foldlM_append, h.outputs]
    refine except_bind_eq_ok.mpr ⟨_, rfl, ?_⟩
    rw [List.foldlM_cons]
    have hwords : (Tiling.cells (shapeOf stage.source).1 (shapeOf stage.source).2).mapM
        (referenceCell stage.source (grids.map ofGrid)) =
        .ok ((Tiling.cells (shapeOf stage.source).1 (shapeOf stage.source).2).map fun at_ =>
          stageField stage.source grids mode at_.1 at_.2) :=
      mapM_eq_map fun at_ _ => hchecked.referenceCell_eq hs.mode (length_mapM hs.inputs) at_
    refine except_bind_eq_ok.mpr ⟨_, except_bind_eq_ok.mpr ⟨_, referenceInputs_eq hchecked.inputs hs.inputs,
      except_bind_eq_ok.mpr ⟨_, hwords, rfl⟩⟩, ?_⟩
    rw [← hshows.ofGrid_eq, ← planesOf_update]
    refine congrArg (fun store => Except.ok (planesOf store)) ?_
    funext name
    by_cases hname : name = stage.name
    · subst hname
      rw [Function.update_self, Function.update_self]
      exact hgrid.symm
    · rw [Function.update_of_ne hname, Function.update_of_ne hname]
  · intro name
    rw [List.map_append, List.mem_append, List.map_singleton, List.mem_singleton, ← h.names]
    by_cases hname : name = stage.name
    · subst hname
      simp
    · simp [hname]

/-- The results of the stages have the words of their references, once all passes are settled. -/
theorem Referenced.stages (hwell : WellFormed value) (hperm : (done ++ rest).Perm value.stages)
    (htop : Topological (·.name) dependencies (done ++ rest)) (hresults : Known results e) {t : Emission × Refs}
    (hemit : rest.foldlM emitStage (e, results) = .ok t) (hsettled : ∀ step ∈ t.1.steps, Settled value full step)
    (h : Referenced full done results) : Referenced full (done ++ rest) t.2 := by
  induction rest generalizing done e results with
  | nil =>
    cases hemit
    rw [List.append_nil]
    exact h
  | cons stage rest ih =>
    rw [List.foldlM_cons] at hemit
    obtain ⟨⟨e₁, results₁⟩, hstep, hemit⟩ := except_bind_eq_ok.mp hemit
    obtain ⟨⟨result, e'⟩, hstage, hstep⟩ := except_bind_eq_ok.mp hstep
    cases hstep
    have hmem : stage ∈ value.stages := hperm.mem_iff.mp (List.mem_append_right _ List.mem_cons_self)
    obtain ⟨hgrown, hhas⟩ := scalarStage_grown emit_appends hresults hstage
    have hresults₁ := (hgrown.known emit_appends hresults).update hhas stage.name
    have hrest := (emitStages_grown hresults₁ hemit).1.prefixed emit_appends
    have hnext := h.emitted hwell hmem hresults hstage (fun step hstep => hsettled step (hrest.subset hstep)) fun name hname =>
      producers_done htop (((hperm.map (·.name)).mem_iff).mpr (hwell.producers stage hmem name hname)) hname
    have happend : done ++ stage :: rest = done ++ [stage] ++ rest := by simp
    rw [happend] at hperm htop ⊢
    exact ih hperm htop hresults₁ hemit hnext

end Stages

section Compiled

variable {value : Program} {plan : Plan} {s s' : Planning} {steps : List Step} {outputs : List (String × String)} {n : ℕ}
  {step : Step} {words : ℕ} {full live : Store} {results : Refs}

/-- What one turn of the loop over the passes says. -/
theorem planStep_eq_ok (h : planStep value words (lastUses steps outputs) s (step, n) = .ok s') :
    PlannedStep value steps outputs s s' n step ∧ s'.peak ≤ MAX_PLANES ∧ s'.peak = max s.peak
      (words + liveWords s.sizes + packedOperands step * (step.shape.1 * step.shape.2) + step.shape.1 * step.shape.2 : ℕ) := by
  obtain ⟨hpeak, h⟩ := require_then_eq_ok.mp h
  obtain ⟨bound, hbind, h⟩ := except_bind_eq_ok.mp h
  obtain ⟨l, hcompile, h⟩ := except_bind_eq_ok.mp h
  cases h
  exact ⟨⟨bound, l, _, hbind, hcompile, rfl⟩, hpeak, rfl⟩

/-- A plan of the materialising compiler, with the emission and the states of the loop over its passes. -/
structure Materialized (value : Program) (plan : Plan) (structured : Structured) (e : Emission) (results : Refs)
    (g : ℕ → Planning) : Prop where
  accepted : structureOf value = .ok structured
  emitted : structured.order.foldlM emitStage ({}, fun _ => none) = .ok (e, results)
  outputs : value.outputs.mapM (outputOf results) = .ok plan.outputs
  start : g 0 = { peak := structured.literalWords }
  turns : ∀ (n : ℕ) step, e.steps[n]? = some step →
    planStep value structured.literalWords (lastUses e.steps plan.outputs) (g n) (step, n) = .ok (g (n + 1))
  order : plan.order = structured.order.map (·.name)
  sourceNodes : plan.sourceNodes = structured.total
  passes : plan.passes = (g e.steps.length).steps
  peak : plan.peakPlaneWords = (g e.steps.length).peak
  sessions : plan.sessions = e.sessions
  work : plan.workWords = e.work

theorem compileScalar_materialized (h : compileScalar value = .ok plan) :
    ∃ structured e results g, Materialized value plan structured e results g := by
  obtain ⟨structured, hs, h⟩ := except_bind_eq_ok.mp h
  obtain ⟨⟨e, results⟩, he, h⟩ := except_bind_eq_ok.mp h
  obtain ⟨outputs, ho, h⟩ := except_bind_eq_ok.mp h
  obtain ⟨s, hloop, h⟩ := except_bind_eq_ok.mp h
  obtain ⟨g, hstart, hend, hturns⟩ := foldlM_zipIdx_eq_ok.mp hloop
  cases h
  exact ⟨structured, e, results, g, hs, he, ho, hstart, hturns, rfl, rfl, by rw [hend], by rw [hend], rfl, rfl⟩

variable {structured : Structured} {e : Emission} {g : ℕ → Planning}

theorem Materialized.wellFormed (h : Materialized value plan structured e results g) : WellFormed value :=
  (structureOf_eq_ok.mp h.accepted).1

theorem Materialized.grown (h : Materialized value plan structured e results g) : Grown emit {} e ∧ Known results e :=
  emitStages_grown (known_none _) h.emitted

theorem Materialized.numbered (h : Materialized value plan structured e results g) : e.Numbered :=
  h.grown.1.numbered emit_appends numbered_start

/-- Before every pass of a plan the books are kept, and the passes so far have run. -/
theorem Materialized.runs (h : Materialized value plan structured e results g) (hn : n ≤ e.steps.length) :
    Books e.steps plan.outputs (g n) n ∧ ∃ full live, Runs value e.steps plan.outputs (g n) n full live := by
  refine planned_runs h.wellFormed (programAlike_refl h.wellFormed) h.numbered.straight h.start ?_ n hn
  exact fun n step hi => (planStep_eq_ok (h.turns n step hi)).1

/-- What is published of the planes is what the results are. -/
theorem published_eq {names : List String} (hnames : names.mapM (outputOf results) = .ok outputs)
    (hgrids : ∀ entry ∈ outputs, ∃ grid, full entry.2 = some grid ∧ live entry.2 = some grid) :
    ∃ r, publish outputs (planesOf live) = .ok r ∧
      names.mapM (namedOutput (planesOf fun name => (results name).bind full)) = .ok r := by
  have hall := mapM_eq_ok_iff.mp hnames
  clear hnames
  induction hall with
  | nil => exact ⟨[], rfl, rfl⟩
  | @cons name entry names outputs hone _ ih =>
    rw [List.forall_mem_cons] at hgrids
    obtain ⟨grid, hfull, hlive⟩ := hgrids.1
    obtain ⟨r, hpublish, hreference⟩ := ih hgrids.2
    obtain ⟨producer, hproducer, hone⟩ := except_bind_eq_ok.mp hone
    cases hone
    have hpublished : published (planesOf live) (name, producer) = .ok (name, ofGrid grid) :=
      except_bind_eq_ok.mpr ⟨_, keyed_eq_ok.mpr (planesOf_eq_some.mpr ⟨grid, hlive, rfl⟩), rfl⟩
    have hnamed : namedOutput (planesOf fun name => (results name).bind full) name = .ok (name, ofGrid grid) :=
      except_bind_eq_ok.mpr ⟨_, keyed_eq_ok.mpr (planesOf_eq_some.mpr
        ⟨grid, Option.bind_eq_some_iff.mpr ⟨producer, keyed_eq_ok.mp hproducer, hfull⟩, rfl⟩), rfl⟩
    refine ⟨(name, ofGrid grid) :: r, ?_, ?_⟩
    · unfold publish at hpublish ⊢
      rw [List.mapM_cons, hpublished, hpublish]
      rfl
    · rw [List.mapM_cons, hnamed, hreference]
      rfl

/-- The producer of an output is written by a pass. -/
theorem output_written (hknown : Known results e) {names : List String} (hnames : names.mapM (outputOf results) = .ok outputs)
    {entry : String × String} (hentry : entry ∈ outputs) : entry.2 ∈ e.steps.map Step.id := by
  obtain ⟨name, -, hname⟩ := exists_of_mem_mapM hnames hentry
  obtain ⟨producer, hproducer, hname⟩ := except_bind_eq_ok.mp hname
  cases hname
  obtain ⟨step, hstep, heq⟩ := hknown _ _ (keyed_eq_ok.mp hproducer)
  exact heq ▸ List.mem_map_of_mem hstep

/-- The passes of a plan of the materialising compiler, each bound to the planes so far, evaluated and committed, all
succeed, and publish what the reference of the program computes. -/
theorem scalar_plan_reference (h : compileScalar value = .ok plan) :
    ∃ outputs, execute value plan.passes plan.outputs = .ok outputs ∧ reference value = .ok outputs := by
  obtain ⟨structured, e, results, g, hm⟩ := compileScalar_materialized h
  obtain ⟨hwell, hleast, -, -⟩ := structureOf_eq_ok.mp hm.accepted
  obtain ⟨hbooks, full, live, hruns⟩ := hm.runs le_rfl
  have hsettled : ∀ step ∈ e.steps, Settled value full step := by
    intro step hstep
    obtain ⟨i, hi⟩ := List.mem_iff_getElem?.mp hstep
    exact hruns.settled i (List.getElem?_eq_some_iff.mp hi).1 step hi
  have hreferenced := @Referenced.stages value full {} (fun _ => none) [] structured.order hwell hleast.perm hleast.topological
    (known_none _) (e, results) hm.emitted hsettled (referenced_start full)
  -- the outputs are in use after the last pass
  have hgrids : ∀ entry ∈ plan.outputs, ∃ grid, full entry.2 = some grid ∧ live entry.2 = some grid := by
    intro entry hentry
    have hlive := (hruns.inUse entry.2).mpr
      (liveAt_output (List.mem_map_of_mem hentry) (output_written hm.grown.2 hm.outputs hentry))
    obtain ⟨grid, hgrid⟩ := Option.isSome_iff_exists.mp hlive
    exact ⟨grid, hruns.kept _ _ hgrid, hgrid⟩
  obtain ⟨r, hpublish, hnamed⟩ := published_eq hm.outputs hgrids
  refine ⟨r, except_bind_eq_ok.mpr ⟨_, hm.passes ▸ hruns.run, hpublish⟩, ?_⟩
  exact except_bind_eq_ok.mpr ⟨structured, hm.accepted, except_bind_eq_ok.mpr ⟨_, hreferenced.outputs, hnamed⟩⟩

/-- Two stages: the second folds the rectified first with a clamped neighbour. -/
def rectifiedProgram : Program where
  schema := SCHEMA
  stages := [
    { name := "edge"
      source := {
        inputs := [.link "clip"]
        shape := [1, 2]
        boundary := "clamp"
        kernel := {
          extent := 2
          fold := "sum"
          views := ⟨[("x", ⟨0, [0, 0], [0, 1], some [1, 0], some [0, 1]⟩)], List.nodup_singleton _⟩
          nodes := [{ id := "x", op := .load, view := some "x" }]
          result := "x" } } },
    { name := "clip"
      source := {
        inputs := [.grid ⟨Grid.INPUT, 1, 2, [0xffffffff, 4]⟩]
        shape := [1, 2]
        boundary := "zero"
        kernel := {
          extent := 1
          fold := "max"
          views := ⟨[("y", ⟨0, [0, 0], [0, 0], some [1, 0], some [0, 1]⟩)], List.nodup_singleton _⟩
          nodes := [{ id := "y", op := .load, view := some "y" }]
          result := "y" }
        post := some ⟨[{ id := "s", op := .load, view := some "reduced" }, { id := "r", op := .reluI32, args := some ["s"] }], "r"⟩ } }]
  outputs := ["edge"]

theorem rectified_compiles : ∃ plan, compileScalar rectifiedProgram = .ok plan := by
  have hplan : ((compileScalar rectifiedProgram).toOption).isSome = true := by decide +kernel
  cases h : compileScalar rectifiedProgram with
  | error e =>
    rw [h] at hplan
    cases hplan
  | ok plan =>
    exact ⟨plan, rfl⟩

theorem scalar_plan_reference_rectified : ∃ plan outputs, compileScalar rectifiedProgram = .ok plan ∧
    execute rectifiedProgram plan.passes plan.outputs = .ok outputs ∧ reference rectifiedProgram = .ok outputs := by
  obtain ⟨plan, h⟩ := rectified_compiles
  obtain ⟨outputs, hexecute, hreference⟩ := scalar_plan_reference h
  exact ⟨plan, outputs, h, hexecute, hreference⟩

end Compiled

end Raveil.ArrayProgram
