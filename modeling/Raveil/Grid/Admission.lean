import Raveil.Grid.Source
import Raveil.Tiling.Denotation

/-! What an admitted source says, and what its admission does not depend on: the tile and the input words. -/
namespace Raveil.Grid
open Lib Fold

section Source

variable {ι : Type} {value : Source} {a : Admitted} {tile : List ℤ} {rows columns : ℕ}

/-- The source with another tile. -/
def SourceOf.retile (value : SourceOf ι) (tile : List ℤ) : SourceOf ι := { value with tile }

def firstRows (grids : List Tiling.Grid) : ℕ := (grids.head?.map (·.rows)).getD 0

def firstColumns (grids : List Tiling.Grid) : ℕ := (grids.head?.map (·.columns)).getD 0

/-- The output dimensions of a source, from its grids. -/
def SourceOf.dimensions (value : SourceOf ι) (grids : List Tiling.Grid) : List ℤ :=
  value.shape.getD [(firstRows grids : ℤ), (firstColumns grids : ℤ)]

/-- What `source` checks and returns, apart from the tile. -/
structure SourceOk (value : Source) (a : Admitted) : Prop where
  schema : value.schema ∈ [SCHEMA, SCHEMA_V2, SCHEMA_V3, SCHEMA_V4, SCHEMA_V5]
  fields : (value.shape.isSome ↔ value.IsV2) ∧ (value.post.isSome ↔ value.IsV3)
  count : 1 ≤ value.inputs.length ∧ value.inputs.length ≤ 2
  grids : value.inputs.mapM readInput = .ok a.grids
  agree : value.IsV2 ∨ ∀ grid ∈ a.grids, grid.rows = firstRows a.grids ∧ grid.columns = firstColumns a.grids
  pair : (value.dimensions a.grids).length = 2
  bounded : ∀ extent ∈ value.dimensions a.grids, 1 ≤ extent ∧ extent ≤ 64
  rows : a.rows = ((value.dimensions a.grids).getD 0 0).toNat
  columns : a.columns = ((value.dimensions a.grids).getD 1 0).toNat
  mode : boundaryOf value.boundary = .ok a.mode
  extent : 1 ≤ value.kernel.extent ∧ value.kernel.extent ≤ 64
  extent_eq : a.extent = value.kernel.extent.toNat
  fold : foldOf value.kernel.fold = .ok a.fold
  size : 1 ≤ value.kernel.views.size ∧ value.kernel.views.size ≤ 8
  checked : ∀ entry ∈ value.kernel.views.entries, checkView value.IsV2 a.grids.length entry = .ok ()
  views : a.views = value.kernel.views.mapValues viewOf

theorem source_eq_ok : source value = .ok a ↔
    SourceOk value a ∧ checkTile value.tile a.rows a.columns = .ok () := by
  unfold source
  constructor
  · intro h
    obtain ⟨hschema, h⟩ := require_then_eq_ok.mp h
    obtain ⟨hfields, h⟩ := require_then_eq_ok.mp h
    obtain ⟨hcount, h⟩ := require_then_eq_ok.mp h
    obtain ⟨grids, hgrids, h⟩ := except_bind_eq_ok.mp h
    obtain ⟨hagree, h⟩ := require_then_eq_ok.mp h
    obtain ⟨hpair, h⟩ := require_then_eq_ok.mp h
    obtain ⟨hbounded, h⟩ := check_then_eq_ok.mp h
    obtain ⟨htile, h⟩ := check_then_eq_ok.mp h
    obtain ⟨mode, hmode, h⟩ := except_bind_eq_ok.mp h
    obtain ⟨hextent, h⟩ := check_then_eq_ok.mp h
    obtain ⟨fold, hfold, h⟩ := except_bind_eq_ok.mp h
    obtain ⟨hsize, h⟩ := require_then_eq_ok.mp h
    obtain ⟨hviews, h⟩ := check_then_eq_ok.mp h
    cases h
    refine ⟨⟨hschema, hfields, hcount, hgrids, hagree, hpair, ?_, rfl, rfl, hmode, require_eq_ok.mp hextent, rfl, hfold,
      hsize, forM_eq_ok.mp hviews, rfl⟩, htile⟩
    intro extent hmem
    exact require_eq_ok.mp (forM_eq_ok.mp hbounded extent hmem)
  · rintro ⟨h, htile⟩
    obtain ⟨grids, mode, extent, fold, views, rows, columns⟩ := a
    obtain ⟨hschema, hfields, hcount, hgrids, hagree, hpair, hbounded, hrows, hcolumns, hmode, hextent, hextent', hfold,
      hsize, hchecked, hviews⟩ := h
    dsimp only at hrows hcolumns hextent' hviews
    subst hrows hcolumns hextent' hviews
    refine require_then_eq_ok.mpr ⟨hschema, require_then_eq_ok.mpr ⟨hfields, require_then_eq_ok.mpr ⟨hcount,
      except_bind_eq_ok.mpr ⟨grids, hgrids, require_then_eq_ok.mpr ⟨hagree, require_then_eq_ok.mpr ⟨hpair,
        check_then_eq_ok.mpr ⟨?_, check_then_eq_ok.mpr ⟨htile, except_bind_eq_ok.mpr ⟨mode, hmode,
          check_then_eq_ok.mpr ⟨require_eq_ok.mpr hextent, except_bind_eq_ok.mpr ⟨fold, hfold, require_then_eq_ok.mpr ⟨hsize,
            check_then_eq_ok.mpr ⟨forM_eq_ok.mpr hchecked, rfl⟩⟩⟩⟩⟩⟩⟩⟩⟩⟩⟩⟩⟩
    exact forM_eq_ok.mpr fun extent hmem => require_eq_ok.mpr (hbounded extent hmem)

theorem SourceOk.retile (h : SourceOk value a) (tile : List ℤ) : SourceOk (value.retile tile) a :=
  ⟨h.schema, h.fields, h.count, h.grids, h.agree, h.pair, h.bounded, h.rows, h.columns, h.mode, h.extent, h.extent_eq,
    h.fold, h.size, h.checked, h.views⟩

theorem SourceOk.unique {a' : Admitted} (h : SourceOk value a) (h' : SourceOk value a') : a = a' := by
  obtain ⟨grids, mode, extent, fold, views, rows, columns⟩ := a
  obtain ⟨grids', mode', extent', fold', views', rows', columns'⟩ := a'
  obtain rfl : grids = grids' := Except.ok.inj (h.grids.symm.trans h'.grids)
  obtain rfl : mode = mode' := Except.ok.inj (h.mode.symm.trans h'.mode)
  obtain rfl : fold = fold' := Except.ok.inj (h.fold.symm.trans h'.fold)
  obtain rfl : extent = extent' := h.extent_eq.trans h'.extent_eq.symm
  obtain rfl : views = views' := h.views.trans h'.views.symm
  obtain rfl : rows = rows' := h.rows.trans h'.rows.symm
  obtain rfl : columns = columns' := h.columns.trans h'.columns.symm
  rfl

/-- Another tile that fits the output is admitted as well, with the same result. -/
theorem source_retile {tile' : List ℤ} (h : source (value.retile tile) = .ok a)
    (ht : checkTile tile' a.rows a.columns = .ok ()) : source (value.retile tile') = .ok a :=
  source_eq_ok.mpr ⟨(source_eq_ok.mp h).1.retile tile', ht⟩

theorem SourceOk.bounds (h : SourceOk value a) :
    (1 ≤ a.rows ∧ a.rows ≤ 64) ∧ 1 ≤ a.columns ∧ a.columns ≤ 64 := by
  obtain ⟨r, c, hshape⟩ := List.length_eq_two.mp h.pair
  have hbounded := h.bounded
  rw [h.rows, h.columns]
  rw [hshape] at hbounded ⊢
  have hr := hbounded r (by simp)
  have hc := hbounded c (by simp)
  simp only [List.getD_cons_zero, List.getD_cons_succ]
  omega

/-- The largest tile fits every output. -/
theorem checkTile_largest (hr : rows ≤ 64) (hc : columns ≤ 64) : checkTile [16, 16] rows columns = .ok () := by
  refine require_then_eq_ok.mpr ⟨rfl, check_then_eq_ok.mpr ⟨rfl, require_eq_ok.mpr ?_⟩⟩
  change (rows + 16 - 1) / 16 * ((columns + 16 - 1) / 16) ≤ 16
  calc (rows + 16 - 1) / 16 * ((columns + 16 - 1) / 16) ≤ 4 * 4 := Nat.mul_le_mul (by omega) (by omega)
    _ = 16 := rfl

end Source

section Alike

variable {value : Source} {a a' : Admitted} {v v' : GridInput} {inputs : List GridInput}

/-- The same dimensions, perhaps other words. -/
def SameShape (grid grid' : Tiling.Grid) : Prop := grid'.rows = grid.rows ∧ grid'.columns = grid.columns

/-- Whenever one input is read, so is the other, in the same dimensions. -/
def Matches (v v' : GridInput) : Prop :=
  ∀ grid, readInput v = .ok grid → ∃ grid', readInput v' = .ok grid' ∧ SameShape grid grid'

/-- Admitted sources that differ at most in the words of their grids. -/
structure Alike (a a' : Admitted) : Prop where
  grids : List.Forall₂ SameShape a.grids a'.grids
  mode : a'.mode = a.mode
  extent : a'.extent = a.extent
  fold : a'.fold = a.fold
  views : a'.views = a.views
  rows : a'.rows = a.rows
  columns : a'.columns = a.columns

theorem matches_refl (v : GridInput) : Matches v v := fun grid h => ⟨grid, h, rfl, rfl⟩

theorem first_sameShape {grids grids' : List Tiling.Grid} (h : List.Forall₂ SameShape grids grids') :
    firstRows grids' = firstRows grids ∧ firstColumns grids' = firstColumns grids := by
  cases h with
  | nil => exact ⟨rfl, rfl⟩
  | cons hsame _ => exact hsame

theorem agree_sameShape {grids grids' : List Tiling.Grid} {r c : ℕ} (h : List.Forall₂ SameShape grids grids')
    (hagree : ∀ grid ∈ grids, grid.rows = r ∧ grid.columns = c) : ∀ grid ∈ grids', grid.rows = r ∧ grid.columns = c := by
  induction h with
  | nil => simp
  | @cons grid grid' grids grids' hsame _ ih =>
    rw [List.forall_mem_cons] at hagree ⊢
    exact ⟨⟨hsame.1.trans hagree.1.1, hsame.2.trans hagree.1.2⟩, ih hagree.2⟩

/-- Admission does not look at the words of the inputs. -/
theorem source_matches {inputs' : List GridInput} (h : source value = .ok a)
    (hm : List.Forall₂ Matches value.inputs inputs') :
    ∃ a', source { value with inputs := inputs' } = .ok a' ∧ Alike a a' := by
  obtain ⟨hok, htile⟩ := source_eq_ok.mp h
  obtain ⟨grids', hread, hsame⟩ := mapM_forall₂ hm (fun _ _ h => h) hok.grids
  obtain ⟨hrows, hcolumns⟩ := first_sameShape hsame
  have hdimensions : ({ value with inputs := inputs' } : Source).dimensions grids' = value.dimensions a.grids := by
    unfold SourceOf.dimensions
    rw [hrows, hcolumns]
  have hlen : grids'.length = a.grids.length := hsame.length_eq.symm
  refine ⟨{ a with grids := grids' }, source_eq_ok.mpr ⟨?_, htile⟩, ⟨hsame, rfl, rfl, rfl, rfl, rfl, rfl⟩⟩
  constructor
  case schema => exact hok.schema
  case fields => exact hok.fields
  case count => rw [← hm.length_eq]; exact hok.count
  case grids => exact hread
  case agree =>
    rcases hok.agree with hv2 | hagree
    · exact Or.inl hv2
    · right
      dsimp only
      rw [hrows, hcolumns]
      exact agree_sameShape hsame hagree
  case pair => rw [hdimensions]; exact hok.pair
  case bounded => rw [hdimensions]; exact hok.bounded
  case rows => rw [hdimensions]; exact hok.rows
  case columns => rw [hdimensions]; exact hok.columns
  case mode => exact hok.mode
  case extent => exact hok.extent
  case extent_eq => exact hok.extent_eq
  case fold => exact hok.fold
  case size => exact hok.size
  case checked => rw [hlen]; exact hok.checked
  case views => exact hok.views

end Alike

end Raveil.Grid
