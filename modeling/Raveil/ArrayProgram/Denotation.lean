import Raveil.ArrayProgram.Bound
import Raveil.ArrayProgram.Structure
import Raveil.Tiling.Assembly

/-! What a pass means: the words that it computes from the grids of a store, and that its bound source computes them. -/
namespace Raveil.ArrayProgram
open Lib
open Raveil.Flow (Input Output)
open Fold (Node Op)
open Grid (GridInput mapped)

section Meaning

/-- The grids of the planes. -/
abbrev Store := String → Option Tiling.Grid

def planesOf (store : Store) : Planes := fun name => (store name).map ofGrid

variable (value : Program) (store : Store)

/-- The grid that a load with a recipe reads. -/
def operandGrid (args : List String) : Input → Option Tiling.Grid
  | .link _ => args.head?.bind store
  | .grid v => (Grid.readInput v).toOption

/-- The words that a recipe finds. -/
def gathered (recipe : Gather) (args : List String) : Option Field := do
  let s ← (value.source recipe.stage).toOption
  let view ← s.kernel.views.get? recipe.view
  let item ← s.inputs[view.input.toNat]?
  let operand ← operandGrid store args item
  let mode ← (Grid.boundaryOf s.boundary).toOption
  pure fun r c =>
    Tiling.wordAt operand mode ((Grid.viewOf view).rowAt r c recipe.k) ((Grid.viewOf view).columnAt r c recipe.k)

/-- The words of the operands of a pass of one operation. -/
def scalarFields (args : List String) : Option Gather → Option (List Field)
  | some recipe => do
    let f ← gathered value store recipe args
    pure [f]
  | none => args.mapM fun name => (store name).map field

/-- A stage over the grids of its inputs, as the grid lowering admits it. -/
def admittedStage (s : StageSource) (inputs : List Tiling.Grid) (mode : Tiling.Boundary) : Grid.Admitted where
  grids := inputs
  mode
  extent := s.kernel.extent.toNat
  fold := if s.kernel.fold = "sum" then .sum else .max
  views := s.kernel.views.mapValues Grid.viewOf
  rows := (shapeOf s).1
  columns := (shapeOf s).2

/-- The source of a whole stage. -/
def stageSource (s : StageSource) (inputs : List GridInput) (tile : List ℤ) : Grid.Source where
  schema := Grid.SCHEMA_V5
  inputs
  tile
  boundary := s.boundary
  kernel := s.kernel
  shape := some s.shape
  post := s.post

/-- The words of a whole stage. -/
def stageField (s : StageSource) (inputs : List Tiling.Grid) (mode : Tiling.Boundary) : Field := fun r c =>
  Grid.cellWord (admittedStage s inputs mode) (stageSource s [] []) (r, c)

/-- The words of a pass. -/
def passField (args : List String) (body : Body) : Option Field := do
  let operands ← scalarFields value store args body.gather
  pure fun r c => passWord body.op body.imm (operands.map fun f => f r c)

/-- The store has the grid that a pass means. -/
def Settled (step : Step) : Prop :=
  ∃ grid f, store step.id = some grid ∧ passField value store step.args step.body = some f ∧ Shows grid step.shape f

end Meaning

section Bound

variable {value : Program} {store : Store} {step : Step} {recipe : Gather} {args : List String} {shape : ℕ × ℕ}
  {plane : Output} {s : StageSource} {bound : Grid.Source} {l : Grid.Lowered} {f : Field} {at_ : ℕ × ℕ}

theorem toOption_of_ok {α : Type} {x : Except String α} {a : α} (h : x = .ok a) : x.toOption = some a := by
  rw [h]
  rfl

theorem planesOf_eq_some {name : String} : planesOf store name = some plane ↔ ∃ grid, store name = some grid ∧ ofGrid grid = plane :=
  Option.map_eq_some_iff

/-- The source of a name is that of a stage. -/
theorem source_mem {name : String} (h : value.source name = .ok s) : ∃ stage ∈ value.stages, stage.name = name ∧ stage.source = s := by
  unfold Program.source at h
  cases hfind : value.stages.find? fun stage => stage.name = name with
  | none =>
    rw [hfind] at h
    cases h
  | some stage =>
    rw [hfind] at h
    cases h
    exact ⟨stage, List.mem_of_find?_eq_some hfind, by simpa using List.find?_some hfind, rfl⟩

theorem WellFormed.source_checked (h : WellFormed value) {name : String} (hs : value.source name = .ok s) : SourceChecked s := by
  obtain ⟨stage, hmem, -, rfl⟩ := source_mem hs
  exact (h.stages stage hmem).source

/-- The plane that a gather reads is that of a grid. -/
theorem SourceChecked.operand (h : SourceChecked s) {item : Input} (hitem : item ∈ s.inputs)
    (hplane : gatherOperand args (planesOf store) item = .ok plane) :
    ∃ grid, operandGrid store args item = some grid ∧ ofGrid grid = plane := by
  cases item with
  | link name =>
    obtain ⟨arg, harg, hplane⟩ := Option.bind_eq_some_iff.mp (keyed_eq_ok.mp hplane)
    obtain ⟨grid, hgrid, rfl⟩ := planesOf_eq_some.mp hplane
    refine ⟨grid, ?_, rfl⟩
    unfold operandGrid
    rw [harg]
    exact hgrid
  | grid v =>
    obtain ⟨grid, hread⟩ := h.inputs _ hitem
    cases hplane
    exact ⟨grid, toOption_of_ok hread, (literal_eq hread).symm⟩

theorem gather_eq (hwell : WellFormed value) (h : gather value recipe shape args (planesOf store) = .ok plane) :
    ∃ f, gathered value store recipe args = some f ∧
      plane = ⟨shape.1, shape.2, (Tiling.cells shape.1 shape.2).map fun at_ => f at_.1 at_.2⟩ := by
  obtain ⟨s, hs, h⟩ := except_bind_eq_ok.mp h
  obtain ⟨view, hview, h⟩ := except_bind_eq_ok.mp h
  obtain ⟨item, hitem, h⟩ := except_bind_eq_ok.mp h
  obtain ⟨operand, hoperand, h⟩ := except_bind_eq_ok.mp h
  obtain ⟨mode, hmode, h⟩ := except_bind_eq_ok.mp h
  obtain ⟨words, hwords, h⟩ := except_bind_eq_ok.mp h
  cases h
  rw [keyed_eq_ok] at hview hitem
  obtain ⟨grid, hgrid, rfl⟩ := (hwell.source_checked hs).operand (List.mem_of_getElem? hitem) hoperand
  rw [mapM_eq_map fun at_ _ => sample_eq grid] at hwords
  cases hwords
  refine ⟨fun r c => Tiling.wordAt grid mode ((Grid.viewOf view).rowAt r c recipe.k)
    ((Grid.viewOf view).columnAt r c recipe.k), ?_, rfl⟩
  unfold gathered
  simp only [toOption_of_ok hs, Option.bind_eq_bind, Option.bind_some, hview, hitem, hgrid, toOption_of_ok hmode]
  rfl

/-- A plane with words of a field shows it. -/
theorem field_of_plane {grid : Tiling.Grid}
    (h : ofGrid grid = ⟨shape.1, shape.2, (Tiling.cells shape.1 shape.2).map fun at_ => f at_.1 at_.2⟩)
    (hat : at_ ∈ Tiling.cells shape.1 shape.2) : field grid at_.1 at_.2 = f at_.1 at_.2 := by
  have hshows := shows_of_words (f := fun at_ => f at_.1 at_.2) h
  obtain ⟨hr, hc⟩ := Tiling.mem_cells.mp hat
  exact hshows.words at_.1 hr at_.2 hc

theorem literal_planeInput (plane : Output) : literal (planeInput plane) = plane := by
  unfold literal planeInput
  simp [Function.comp_def]

/-- The planes that a source reads are those of grids. -/
theorem grids_of_read {planes : List Output} {grids : List Tiling.Grid}
    (h : (planes.map planeInput).mapM Grid.readInput = .ok grids) : planes = grids.map ofGrid := by
  rw [mapM_eq_ok_iff, List.forall₂_map_left_iff] at h
  induction h with
  | nil => rfl
  | cons hread _ ih => rw [List.map_cons, ← ih, ← literal_eq hread, literal_planeInput]

/-- What a pointwise source computes from operands of these words. -/
theorem pointwise_field {planes : List Output} {fields : List Field} {nodes : List Node} {result : String}
    (hfields : List.Forall₂ (fun plane f => ∀ grid, ofGrid grid = plane →
      ∀ at_ ∈ Tiling.cells shape.1 shape.2, field grid at_.1 at_.2 = f at_.1 at_.2) planes fields)
    (h : Grid.compile (pointwise (planes.map planeInput) shape nodes result) = .ok l) :
    0 < fields.length ∧ Grid.reference (pointwise (planes.map planeInput) shape nodes result) =
      .ok ((Tiling.cells shape.1 shape.2).map fun at_ => (mapped (slotWord fields at_.1 at_.2) nodes result).getD 0) ∧
      ∀ at_ ∈ Tiling.cells shape.1 shape.2, ∀ f ∈ fields, f at_.1 at_.2 < 2 ^ 32 := by
  obtain ⟨a, ha, heval, -⟩ := reference_eq h
  obtain rfl := grids_of_read heval.source.grids
  rw [List.forall₂_map_left_iff] at hfields
  have hcount := heval.source.count.1
  change 1 ≤ ((a.grids.map ofGrid).map planeInput).length at hcount
  rw [List.length_map, List.length_map] at hcount
  have hsame : ∀ at_ ∈ Tiling.cells shape.1 shape.2,
      List.Forall₂ (fun f f' : Field => f at_.1 at_.2 = f' at_.1 at_.2) (a.grids.map field) fields := by
    intro at_ hat
    rw [List.forall₂_map_left_iff]
    exact hfields.imp fun grid f hf => hf grid rfl at_ hat
  refine ⟨hfields.length_eq ▸ hcount, ?_, ?_⟩
  · have hplanes : (a.grids.map ofGrid).map planeInput = a.grids.map fun grid => planeInput (ofGrid grid) := List.map_map
    rw [hplanes] at h ⊢
    rw [pointwise_reference h]
    congr 1
    apply List.map_congr_left
    intro at_ hat
    rw [slotWord_congr (hsame at_ hat)]
  · intro at_ hat f hf
    obtain ⟨i, hi⟩ := List.mem_iff_getElem?.mp hf
    obtain ⟨hlt, rfl⟩ := List.getElem?_eq_some_iff.mp hi
    have hall := hsame at_ hat
    have hlt' : i < (a.grids.map field).length := hall.length_eq ▸ hlt
    have heq : (a.grids.map field)[i] at_.1 at_.2 = fields[i] at_.1 at_.2 := hall.get hlt' hlt
    rw [← heq, List.getElem_map]
    exact Tiling.wordAt_lt

theorem planes_eq {names : List String} {planes : List Output}
    (h : names.mapM (fun name => keyed (planesOf store name)) = .ok planes) :
    ∃ grids : List Tiling.Grid, names.mapM (fun name => (store name).map field) = some (grids.map field) ∧ planes = grids.map ofGrid := by
  have hall := mapM_eq_ok_iff.mp h
  clear h
  induction hall with
  | nil => exact ⟨[], rfl, rfl⟩
  | cons hone _ ih =>
    obtain ⟨grids, hgrids, rfl⟩ := ih
    obtain ⟨grid, hgrid, rfl⟩ := planesOf_eq_some.mp (keyed_eq_ok.mp hone)
    exact ⟨grid :: grids, by simp [hgrid, hgrids], rfl⟩

/-- The operands of a pass of one operation have the words of its fields. -/
theorem scalarOperands_eq (hwell : WellFormed value) {recipe : Option Gather} {planes : List Output}
    (h : scalarOperands value step recipe (planesOf store) = .ok planes) :
    ∃ fields, scalarFields value store step.args recipe = some fields ∧
      List.Forall₂ (fun plane f => ∀ grid, ofGrid grid = plane →
        ∀ at_ ∈ Tiling.cells step.shape.1 step.shape.2, field grid at_.1 at_.2 = f at_.1 at_.2) planes fields := by
  cases recipe with
  | some recipe =>
    obtain ⟨plane, hplane, h⟩ := except_bind_eq_ok.mp h
    cases h
    obtain ⟨f, hf, rfl⟩ := gather_eq hwell hplane
    refine ⟨[f], Option.bind_eq_some_iff.mpr ⟨f, hf, rfl⟩, .cons (fun grid hgrid at_ hat => field_of_plane hgrid hat) .nil⟩
  | none =>
    obtain ⟨grids, hfields, rfl⟩ := planes_eq h
    refine ⟨_, hfields, ?_⟩
    rw [List.forall₂_map_left_iff, List.forall₂_map_right_iff, List.forall₂_same]
    intro grid _ grid' heq at_ _
    rw [ofGrid_injective heq]

/-- Whatever a pass is bound to, the reference of its source is what the pass means. -/
theorem reference_field (hwell : WellFormed value) (hbind : bind value step (planesOf store) = .ok bound)
    (hcompile : Grid.compile bound = .ok l) :
    ∃ f, passField value store step.args step.body = some f ∧
      Grid.reference bound = .ok ((Tiling.cells step.shape.1 step.shape.2).map fun at_ => f at_.1 at_.2) := by
  obtain ⟨planes, hplanes, hbind⟩ := except_bind_eq_ok.mp hbind
  cases hbind
  obtain ⟨fields, hfields, hagree⟩ := scalarOperands_eq hwell hplanes
  obtain ⟨hpos, hreference, hlt⟩ := pointwise_field hagree hcompile
  refine ⟨_, Option.bind_eq_some_iff.mpr ⟨fields, hfields, rfl⟩, ?_⟩
  rw [hreference]
  congr 1
  apply List.map_congr_left
  intro at_ hat
  rw [hagree.length_eq]
  exact mapped_scalar step.body.op step.body.imm (hlt at_ hat) hpos

end Bound

section Extends

variable {value : Program} {store store' : Store} {recipe : Gather} {args : List String} {f : Field} {body : Body}

/-- The second store has all grids of the first. -/
def Extends (store store' : Store) : Prop := ∀ name grid, store name = some grid → store' name = some grid

theorem mapM_some_mono {α β : Type} {f g : α → Option β} {l : List α} {r : List β} (hfg : ∀ a b, f a = some b → g a = some b)
    (h : l.mapM f = some r) : l.mapM g = some r := by
  induction l generalizing r with
  | nil => exact h
  | cons a l ih =>
    obtain ⟨b, hb, h⟩ := Option.bind_eq_some_iff.mp ((List.mapM_cons ..).symm.trans h)
    obtain ⟨bs, hbs, h⟩ := Option.bind_eq_some_iff.mp h
    rw [List.mapM_cons, hfg a b hb, ih hbs]
    exact h

theorem gathered_mono (h : Extends store store') (hf : gathered value store recipe args = some f) :
    gathered value store' recipe args = some f := by
  obtain ⟨s, hs, hf⟩ := Option.bind_eq_some_iff.mp hf
  obtain ⟨view, hview, hf⟩ := Option.bind_eq_some_iff.mp hf
  obtain ⟨item, hitem, hf⟩ := Option.bind_eq_some_iff.mp hf
  obtain ⟨operand, hoperand, hf⟩ := Option.bind_eq_some_iff.mp hf
  have hoperand' : operandGrid store' args item = some operand := by
    cases item with
    | grid v => exact hoperand
    | link name =>
      obtain ⟨arg, harg, hgrid⟩ := Option.bind_eq_some_iff.mp hoperand
      exact Option.bind_eq_some_iff.mpr ⟨arg, harg, h _ _ hgrid⟩
  exact Option.bind_eq_some_iff.mpr ⟨s, hs, Option.bind_eq_some_iff.mpr ⟨view, hview,
    Option.bind_eq_some_iff.mpr ⟨item, hitem, Option.bind_eq_some_iff.mpr ⟨operand, hoperand', hf⟩⟩⟩⟩

theorem fieldAt_mono (h : Extends store store') (name : String) (f : Field) (hf : (store name).map field = some f) :
    (store' name).map field = some f := by
  obtain ⟨grid, hgrid, rfl⟩ := Option.map_eq_some_iff.mp hf
  rw [h name grid hgrid]
  rfl

/-- What a pass means stays when the store gets more grids. -/
theorem passField_mono (h : Extends store store') (hf : passField value store args body = some f) :
    passField value store' args body = some f := by
  obtain ⟨op, recipe, imm⟩ := body
  obtain ⟨fields, hfields, hf⟩ := Option.bind_eq_some_iff.mp hf
  refine Option.bind_eq_some_iff.mpr ⟨fields, ?_, hf⟩
  cases recipe with
  | none => exact mapM_some_mono (fieldAt_mono h) hfields
  | some recipe =>
    obtain ⟨word, hword, hfields⟩ := Option.bind_eq_some_iff.mp hfields
    exact Option.bind_eq_some_iff.mpr ⟨word, gathered_mono h hword, hfields⟩

theorem Settled.mono {step : Step} (h : Extends store store') (hs : Settled value store step) : Settled value store' step := by
  obtain ⟨grid, f, hgrid, hf, hshows⟩ := hs
  exact ⟨grid, f, h _ _ hgrid, passField_mono h hf, hshows⟩

end Extends

section Shapes

variable {value : Program} {planes : Planes} {step : Step} {bound : Grid.Source} {l : Grid.Lowered}

theorem bind_shape (h : bind value step planes = .ok bound) :
    ∃ sizes, bound.shape = some sizes ∧ ((sizes.getD 0 0).toNat, (sizes.getD 1 0).toNat) = step.shape := by
  obtain ⟨operands, -, h⟩ := except_bind_eq_ok.mp h
  cases h
  exact ⟨_, rfl, rfl⟩

/-- A pass whose source compiles has at most 64 rows and columns, and no fewer than one. -/
theorem bind_bounds (h : bind value step planes = .ok bound) (hc : Grid.compile bound = .ok l) :
    (1 ≤ step.shape.1 ∧ step.shape.1 ≤ 64) ∧ (1 ≤ step.shape.2 ∧ step.shape.2 ≤ 64) ∧
      l.rows = step.shape.1 ∧ l.columns = step.shape.2 := by
  obtain ⟨sizes, hsizes, hshape⟩ := bind_shape h
  obtain ⟨a, ha, hrows, hcolumns⟩ := Grid.compile_source hc
  have hsource := (Grid.source_eq_ok.mp ha).1
  have hdims : bound.dimensions a.grids = sizes := by
    unfold Grid.SourceOf.dimensions
    rw [hsizes]
    rfl
  have hr : a.rows = step.shape.1 := by
    rw [← hshape, hsource.rows, hdims]
  have hcol : a.columns = step.shape.2 := by
    rw [← hshape, hsource.columns, hdims]
  obtain ⟨hbr, hbc⟩ := hsource.bounds
  exact ⟨hr ▸ hbr, hcol ▸ hbc, hrows.trans hr, hcolumns.trans hcol⟩

end Shapes

end Raveil.ArrayProgram
