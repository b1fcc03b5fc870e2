import Raveil.ArrayProgram.Denotation

/-! Programs that differ in the words they write out: a pass is bound alike over planes of the same shapes. -/
namespace Raveil.ArrayProgram
open Lib
open Raveil.Flow (Input Output)
open Grid (GridInput Matches SameShape)

/-- Inputs that are read in one shape. -/
inductive InputAlike : Input → Input → Prop
  | link (name : String) : InputAlike (.link name) (.link name)
  | grid {v v' : GridInput} {grid grid' : Tiling.Grid} (hread : Grid.readInput v = .ok grid)
      (hread' : Grid.readInput v' = .ok grid') (hshape : SameShape grid grid') : InputAlike (.grid v) (.grid v')

structure SourceAlike (s s' : StageSource) : Prop where
  inputs : List.Forall₂ InputAlike s.inputs s'.inputs
  shape : s'.shape = s.shape
  boundary : s'.boundary = s.boundary
  kernel : s'.kernel = s.kernel
  post : s'.post = s.post

structure StageAlike (stage stage' : Stage) : Prop where
  name : stage'.name = stage.name
  source : SourceAlike stage.source stage'.source

/-- Programs that differ in the words of their inputs only. -/
structure ProgramAlike (value value' : Program) : Prop where
  schema : value'.schema = value.schema
  stages : List.Forall₂ StageAlike value.stages value'.stages
  outputs : value'.outputs = value.outputs

/-- Stores of grids of the same shapes under the same names. -/
def StoreAlike (store store' : Store) : Prop := ∀ name, (store name = none ∧ store' name = none) ∨
  ∃ grid grid', store name = some grid ∧ store' name = some grid' ∧ SameShape grid grid'

variable {value value' : Program} {store store' : Store} {step : Step} {recipe : Gather} {args : List String} {shape : ℕ × ℕ}
  {plane : Output} {s s' : StageSource} {bound : Grid.Source} {name : String} {grid grid' : Tiling.Grid} {item item' : Input}

section Stores

theorem StoreAlike.get (h : StoreAlike store store') (hgrid : store name = some grid) :
    ∃ grid', store' name = some grid' ∧ SameShape grid grid' := by
  rcases h name with ⟨hnone, -⟩ | ⟨grid₀, grid', hgrid₀, hgrid', hshape⟩
  · rw [hnone] at hgrid
    cases hgrid
  · rw [hgrid] at hgrid₀
    cases hgrid₀
    exact ⟨grid', hgrid', hshape⟩

theorem StoreAlike.update (h : StoreAlike store store') (hshape : SameShape grid grid') (name : String) :
    StoreAlike (Function.update store name (some grid)) (Function.update store' name (some grid')) := by
  intro x
  by_cases hx : x = name
  · subst hx
    right
    exact ⟨grid, grid', Function.update_self .., Function.update_self .., hshape⟩
  · rw [Function.update_of_ne hx, Function.update_of_ne hx]
    exact h x

theorem storeAlike_none : StoreAlike (fun _ => none) fun _ => none := fun _ => Or.inl ⟨rfl, rfl⟩

end Stores

section Programs

theorem sourceAlike_refl (h : SourceChecked s) : SourceAlike s s := by
  refine ⟨?_, rfl, rfl, rfl, rfl⟩
  rw [List.forall₂_same]
  intro item hitem
  cases item with
  | link name => exact .link name
  | grid v =>
    obtain ⟨grid, hread⟩ := h.inputs _ hitem
    exact .grid hread hread ⟨rfl, rfl⟩

theorem programAlike_refl (h : WellFormed value) : ProgramAlike value value := by
  refine ⟨rfl, ?_, rfl⟩
  rw [List.forall₂_same]
  exact fun stage hstage => ⟨rfl, sourceAlike_refl (h.stages stage hstage).source⟩

theorem ProgramAlike.source (h : ProgramAlike value value') (hs : value.source name = .ok s) :
    ∃ s', value'.source name = .ok s' ∧ SourceAlike s s' := by
  unfold Program.source at hs ⊢
  have hall := h.stages
  generalize value.stages = stages at hs hall
  generalize value'.stages = stages' at hall ⊢
  induction hall with
  | nil => cases hs
  | @cons stage stage' stages stages' hone _ ih =>
    rw [List.find?_cons] at hs ⊢
    rw [hone.name]
    by_cases hname : stage.name = name
    · simp only [hname, decide_true] at hs ⊢
      cases hs
      exact ⟨_, rfl, hone.source⟩
    · simp only [hname, decide_false] at hs ⊢
      exact ih hs

theorem InputAlike.of_getElem? {items items' : List Input} (h : List.Forall₂ InputAlike items items') {i : ℕ}
    (hitem : items[i]? = some item) : ∃ item', items'[i]? = some item' ∧ InputAlike item item' := by
  induction h generalizing i with
  | nil => cases hitem
  | @cons x x' items items' hone _ ih =>
    cases i with
    | zero =>
      cases hitem
      exact ⟨x', rfl, hone⟩
    | succ i => exact ih hitem

end Programs

section Binding

theorem matches_ofGrid (h : SameShape grid grid') : Matches (planeInput (ofGrid grid)) (planeInput (ofGrid grid')) := by
  intro g hg
  rw [readInput_planeInput] at hg
  cases hg
  exact ⟨grid', readInput_planeInput grid', h⟩

/-- Planes of one shape are read alike when the words of the second fit. -/
theorem matches_cells {f f' : ℕ × ℕ → ℕ} (hlt : ∀ at_, f' at_ < 2 ^ 32) :
    Matches (planeInput ⟨shape.1, shape.2, (Tiling.cells shape.1 shape.2).map f⟩)
      (planeInput ⟨shape.1, shape.2, (Tiling.cells shape.1 shape.2).map f'⟩) := by
  intro grid hread
  obtain ⟨hr, hc, hrows, hcolumns⟩ := Flow.readInput_dimensions hread
  change (1 ≤ (shape.1 : ℤ) ∧ (shape.1 : ℤ) ≤ 64) at hr
  change (1 ≤ (shape.2 : ℤ) ∧ (shape.2 : ℤ) ≤ 64) at hc
  have hlen : ((Tiling.cells shape.1 shape.2).map f').length = shape.1 * shape.2 := by
    rw [List.length_map, Tiling.cells, flatMap_rowMajor, List.length_map, List.length_range]
  have hwords : ∀ w ∈ (Tiling.cells shape.1 shape.2).map f', w < 2 ^ 32 := by
    intro w hw
    obtain ⟨at_, -, rfl⟩ := List.mem_map.mp hw
    exact hlt at_
  obtain ⟨grid', hread', hrows', hcolumns'⟩ :=
    Flow.readInput_output (show 1 ≤ shape.1 ∧ shape.1 ≤ 64 by omega) (show 1 ≤ shape.2 ∧ shape.2 ≤ 64 by omega) hlen hwords
  exact ⟨grid', hread', hrows'.trans hrows.symm, hcolumns'.trans hcolumns.symm⟩

theorem gatherOperand_alike (hstore : StoreAlike store store') (hitem : InputAlike item item')
    (h : gatherOperand args (planesOf store) item = .ok plane) :
    ∃ grid', gatherOperand args (planesOf store') item' = .ok (ofGrid grid') := by
  cases hitem with
  | link name =>
    obtain ⟨arg, harg, hplane⟩ := Option.bind_eq_some_iff.mp (keyed_eq_ok.mp h)
    obtain ⟨grid, hgrid, rfl⟩ := planesOf_eq_some.mp hplane
    obtain ⟨grid', hgrid', -⟩ := hstore.get hgrid
    exact ⟨grid', keyed_eq_ok.mpr (Option.bind_eq_some_iff.mpr ⟨arg, harg, planesOf_eq_some.mpr ⟨grid', hgrid', rfl⟩⟩)⟩
  | grid hread hread' hshape => exact ⟨_, congrArg Except.ok (literal_eq hread')⟩

theorem gather_alike (hprogram : ProgramAlike value value') (hstore : StoreAlike store store')
    (h : gather value recipe shape args (planesOf store) = .ok plane) :
    ∃ plane', gather value' recipe shape args (planesOf store') = .ok plane' ∧
      Matches (planeInput plane) (planeInput plane') := by
  obtain ⟨s, hs, h⟩ := except_bind_eq_ok.mp h
  obtain ⟨view, hview, h⟩ := except_bind_eq_ok.mp h
  obtain ⟨item, hitem, h⟩ := except_bind_eq_ok.mp h
  obtain ⟨operand, hoperand, h⟩ := except_bind_eq_ok.mp h
  obtain ⟨mode, hmode, h⟩ := except_bind_eq_ok.mp h
  obtain ⟨words, hwords, h⟩ := except_bind_eq_ok.mp h
  cases h
  obtain ⟨s', hs', hsource⟩ := hprogram.source hs
  obtain ⟨item', hitem', halike⟩ := InputAlike.of_getElem? hsource.inputs (keyed_eq_ok.mp hitem)
  obtain ⟨grid', hgrid'⟩ := gatherOperand_alike hstore halike hoperand
  rw [← hsource.kernel] at hview
  rw [← hsource.boundary] at hmode
  have hwords' := mapM_eq_map (l := Tiling.cells shape.1 shape.2) fun at_ _ =>
    @sample_eq mode ((Grid.viewOf view).rowAt at_.1 at_.2 recipe.k) ((Grid.viewOf view).columnAt at_.1 at_.2 recipe.k) grid'
  refine ⟨_, except_bind_eq_ok.mpr ⟨s', hs', except_bind_eq_ok.mpr ⟨view, hview, except_bind_eq_ok.mpr ⟨item',
    keyed_eq_ok.mpr hitem', except_bind_eq_ok.mpr ⟨_, hgrid', except_bind_eq_ok.mpr ⟨mode, hmode,
      except_bind_eq_ok.mpr ⟨_, hwords', rfl⟩⟩⟩⟩⟩⟩, ?_⟩
  obtain ⟨f, rfl⟩ : ∃ f : ℕ × ℕ → ℕ, words = (Tiling.cells shape.1 shape.2).map f := by
    choose! f hf using fun at_ (hat : at_ ∈ Tiling.cells shape.1 shape.2) => exists_of_mapM_eq_ok hwords hat
    refine ⟨f, ?_⟩
    have hmap := mapM_eq_map fun at_ hat => (hf at_ hat).2
    exact Except.ok.inj (hwords.symm.trans hmap)
  exact matches_cells fun at_ => Tiling.wordAt_lt

theorem scalarOperands_alike (hprogram : ProgramAlike value value') (hstore : StoreAlike store store')
    {recipe : Option Gather} {planes : List Output} (h : scalarOperands value step recipe (planesOf store) = .ok planes) :
    ∃ planes', scalarOperands value' step recipe (planesOf store') = .ok planes' ∧
      List.Forall₂ Matches (planes.map planeInput) (planes'.map planeInput) := by
  cases recipe with
  | some recipe =>
    obtain ⟨plane, hplane, h⟩ := except_bind_eq_ok.mp h
    cases h
    obtain ⟨plane', hplane', hmatches⟩ := gather_alike hprogram hstore hplane
    exact ⟨[plane'], except_bind_eq_ok.mpr ⟨plane', hplane', rfl⟩, .cons hmatches .nil⟩
  | none =>
    have halike := mapM_forall₂ (S := fun plane plane' => Matches (planeInput plane) (planeInput plane'))
      (g := fun name => keyed (planesOf store' name)) (List.forall₂_same.mpr fun _ _ => rfl) (fun name name' heq plane hplane => by
        subst heq
        obtain ⟨grid, hgrid, rfl⟩ := planesOf_eq_some.mp (keyed_eq_ok.mp hplane)
        obtain ⟨grid', hgrid', hshape⟩ := hstore.get hgrid
        exact ⟨_, keyed_eq_ok.mpr (planesOf_eq_some.mpr ⟨grid', hgrid', rfl⟩), matches_ofGrid hshape⟩) h
    obtain ⟨planes', hplanes', hall⟩ := halike
    refine ⟨planes', hplanes', ?_⟩
    rw [List.forall₂_map_left_iff, List.forall₂_map_right_iff]
    exact hall

/-- A pass that is bound over one store is bound alike over another of the same shapes. -/
theorem bind_alike (hprogram : ProgramAlike value value') (hstore : StoreAlike store store')
    (h : bind value step (planesOf store) = .ok bound) :
    ∃ inputs, bind value' step (planesOf store') = .ok { bound with inputs } ∧ List.Forall₂ Matches bound.inputs inputs := by
  obtain ⟨planes, hplanes, h⟩ := except_bind_eq_ok.mp h
  cases h
  obtain ⟨planes', hplanes', hall⟩ := scalarOperands_alike hprogram hstore hplanes
  refine ⟨planes'.map planeInput, except_bind_eq_ok.mpr ⟨planes', hplanes', ?_⟩, hall⟩
  have hlen := hall.length_eq
  rw [List.length_map, List.length_map] at hlen
  unfold pointwise
  rw [List.length_map, List.length_map, hlen]
  rfl

end Binding

end Raveil.ArrayProgram
