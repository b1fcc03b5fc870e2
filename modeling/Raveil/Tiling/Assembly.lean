import Mathlib.Data.List.ProdSigma
import Raveil.Tiling.Reference

/-! The cells of the tiles are those of the grid, each once, so the assembled outputs are the untiled reference. -/
namespace Raveil.Tiling
open Raveil.Lib Raveil.Graph

section Cover

variable {grid : Grid} {tile : Tile} {m n r k : ℕ}

/-- The cells of the grid that a tile writes, in its order. -/
def tileCells (tile : Tile) : List (ℕ × ℕ) :=
  (cells tile.rows tile.columns).map fun at_ => (tile.row + at_.1, tile.column + at_.2)

/-- The tile with this origin; its slot is of no matter. -/
def tileAt (grid : Grid) (origin : ℕ × ℕ) : Tile where
  slot := 0
  row := origin.1
  column := origin.2
  rows := min 16 (grid.rows - origin.1)
  columns := min 16 (grid.columns - origin.2)

theorem mem_cells : (r, k) ∈ cells m n ↔ r < m ∧ k < n := by
  rw [show cells m n = List.range m ×ˢ List.range n from rfl, List.mem_product, List.mem_range, List.mem_range]

theorem nodup_cells : (cells m n).Nodup := List.nodup_range.product List.nodup_range

theorem mem_origins : r ∈ origins n ↔ r % 16 = 0 ∧ r < n := by
  unfold origins
  rw [List.mem_map]
  constructor
  · rintro ⟨i, hi, rfl⟩
    rw [List.mem_range] at hi
    omega
  · rintro ⟨hmod, hlt⟩
    exact ⟨r / 16, List.mem_range.mpr (by omega), by omega⟩

theorem nodup_origins : (origins n).Nodup :=
  List.nodup_range.map fun i j (h : 16 * i = 16 * j) => by omega

theorem mem_tileCells : (r, k) ∈ tileCells tile ↔
    (tile.row ≤ r ∧ r < tile.row + tile.rows) ∧ tile.column ≤ k ∧ k < tile.column + tile.columns := by
  unfold tileCells
  rw [List.mem_map]
  constructor
  · rintro ⟨⟨i, j⟩, hmem, heq⟩
    rw [mem_cells] at hmem
    cases heq
    omega
  · rintro ⟨⟨hr, hr'⟩, hk, hk'⟩
    refine ⟨(r - tile.row, k - tile.column), mem_cells.mpr ⟨by omega, by omega⟩, ?_⟩
    exact Prod.ext (Nat.add_sub_cancel' hr) (Nat.add_sub_cancel' hk)

theorem nodup_tileCells : (tileCells tile).Nodup := by
  apply nodup_cells.map
  intro a b (h : (tile.row + a.1, tile.column + a.2) = (tile.row + b.1, tile.column + b.2))
  rw [Prod.mk.injEq] at h
  exact Prod.ext (by omega) (by omega)

theorem flatMap_layout : (layout grid).flatMap tileCells =
    (origins grid.rows ×ˢ origins grid.columns).flatMap fun origin => tileCells (tileAt grid origin) := by
  unfold layout
  rw [List.flatMap_map]
  change (List.zipIdx _).flatMap (fun entry => tileCells (tileAt grid entry.1)) = _
  rw [← List.flatMap_map Prod.fst fun origin => tileCells (tileAt grid origin), List.zipIdx_map_fst]
  rfl

/-- A cell of a tile tells the origin. -/
theorem origin_of_mem {origin : ℕ × ℕ} (ho : origin ∈ origins grid.rows ×ˢ origins grid.columns)
    (h : (r, k) ∈ tileCells (tileAt grid origin)) : origin = (16 * (r / 16), 16 * (k / 16)) := by
  obtain ⟨row, column⟩ := origin
  rw [List.mem_product, mem_origins, mem_origins] at ho
  obtain ⟨⟨hr, hr'⟩, hk, hk'⟩ := mem_tileCells.mp h
  dsimp only [tileAt] at hr hr' hk hk'
  exact Prod.ext (show row = _ by omega) (show column = _ by omega)

/-- The tiles cover every cell of the grid, and none twice. -/
theorem layout_perm (grid : Grid) : ((layout grid).flatMap tileCells).Perm (cells grid.rows grid.columns) := by
  rw [flatMap_layout]
  have hnodup : ((origins grid.rows ×ˢ origins grid.columns).flatMap
      fun origin => tileCells (tileAt grid origin)).Nodup := by
    rw [List.nodup_flatMap]
    refine ⟨fun _ _ => nodup_tileCells, (nodup_origins.product nodup_origins).pairwise_of_forall_ne ?_⟩
    intro a ha b hb hne
    refine List.disjoint_left.mpr ?_
    rintro ⟨r, k⟩ hra hrb
    exact hne ((origin_of_mem ha hra).trans (origin_of_mem hb hrb).symm)
  rw [List.perm_ext_iff_of_nodup hnodup nodup_cells]
  rintro ⟨r, k⟩
  rw [List.mem_flatMap, mem_cells]
  constructor
  · rintro ⟨⟨row, column⟩, ho, hmem⟩
    rw [List.mem_product, mem_origins, mem_origins] at ho
    obtain ⟨⟨-, hr⟩, -, hk⟩ := mem_tileCells.mp hmem
    dsimp only [tileAt] at hr hk
    omega
  · rintro ⟨hr, hk⟩
    refine ⟨(16 * (r / 16), 16 * (k / 16)), ?_, mem_tileCells.mpr ?_⟩
    · rw [List.mem_product, mem_origins, mem_origins]
      omega
    · dsimp only [tileAt]
      omega

theorem layout_le {tile : Tile} (h : tile ∈ layout grid) : tile.rows ≤ 16 ∧ tile.columns ≤ 16 := by
  unfold layout at h
  obtain ⟨entry, -, rfl⟩ := List.mem_map.mp h
  exact ⟨min_le_left _ _, min_le_left _ _⟩

end Cover

section Place

variable {result : List (Option ℕ)} {l : List (ℕ × ℕ)} {n : ℕ}

theorem place_eq {i : ℕ} (v : ℕ) (h : result[i]? = some none) :
    place result i (some v) = .ok (result.set i (some v)) := by
  unfold place
  rw [h]

/-- Distinct empty cells are all filled, and nothing else changes. -/
theorem place_all (hnodup : (l.map Prod.fst).Nodup) (hnone : ∀ e ∈ l, result[e.1]? = some none) :
    ∃ result', l.foldlM (fun result e => place result e.1 (some e.2)) result = .ok result' ∧
      (∀ e ∈ l, result'[e.1]? = some (some e.2)) ∧ ∀ i, i ∉ l.map Prod.fst → result'[i]? = result[i]? := by
  induction l generalizing result with
  | nil =>
    refine ⟨result, rfl, ?_, fun _ _ => rfl⟩
    intro e he
    cases he
  | cons e l ih =>
    rw [List.map_cons, List.nodup_cons] at hnodup
    obtain ⟨hfresh, hnodup⟩ := hnodup
    have hplace := place_eq e.2 (hnone e List.mem_cons_self)
    have hlt : e.1 < result.length := by
      have := hnone e List.mem_cons_self
      exact (List.getElem?_eq_some_iff.mp this).1
    have hnext : ∀ e' ∈ l, (result.set e.1 (some e.2))[e'.1]? = some none := by
      intro e' he'
      have hne : e.1 ≠ e'.1 := fun heq => hfresh (heq ▸ List.mem_map_of_mem he')
      rw [List.getElem?_set_ne hne]
      exact hnone e' (List.mem_cons_of_mem e he')
    obtain ⟨result', hrun, hwritten, hsame⟩ := ih hnodup hnext
    refine ⟨result', ?_, ?_, ?_⟩
    · rw [List.foldlM_cons, hplace]
      exact hrun
    · intro e' he'
      rcases List.mem_cons.mp he' with rfl | he'
      · rw [hsame _ hfresh, List.getElem?_set_self hlt]
      · exact hwritten e' he'
    · intro i hi
      rw [List.map_cons, List.mem_cons, not_or] at hi
      rw [hsame i hi.2, List.getElem?_set_ne fun heq => hi.1 heq.symm]

/-- Entries for all of `0 .. n`, in any order, fill an empty list. -/
theorem place_perm {f : ℕ → ℕ} (h : l.Perm ((List.range n).map fun i => (i, f i))) :
    l.foldlM (fun result e => place result e.1 (some e.2)) (List.replicate n none) =
      .ok ((List.range n).map fun i => some (f i)) := by
  have hkeys : (l.map Prod.fst).Perm (List.range n) := by
    have := h.map Prod.fst
    rwa [List.map_map, Function.comp_def, List.map_id'] at this
  obtain ⟨result, hrun, hwritten, hsame⟩ := @place_all (List.replicate n none) l
    (hkeys.nodup_iff.mpr List.nodup_range) (by
      intro e he
      have : e.1 < n := List.mem_range.mp (hkeys.mem_iff.mp (List.mem_map_of_mem he))
      rw [List.getElem?_replicate, if_pos this])
  rw [hrun]
  refine congrArg Except.ok (List.ext_getElem? fun i => ?_)
  rw [List.getElem?_map]
  by_cases hi : i < n
  · have hmem : (i, f i) ∈ l := h.mem_iff.mpr (List.mem_map.mpr ⟨i, List.mem_range.mpr hi, rfl⟩)
    rw [hwritten _ hmem, List.getElem?_range hi]
    rfl
  · have hout : i ∉ l.map Prod.fst := fun hmem => hi (List.mem_range.mp (hkeys.mem_iff.mp hmem))
    rw [hsame i hout, List.getElem?_eq_none (by simpa using hi), List.getElem?_eq_none (by simpa using hi)]
    rfl

variable {tile : Tile} {output : List ℕ} {value : ℕ × ℕ → ℕ} {rows columns : ℕ}

/-- A tile whose output holds the values of its cells places them. -/
theorem placeTile_eq
    (h : ∀ r < tile.rows, ∀ k < tile.columns, output[r * 16 + k]? = some (value (tile.row + r, tile.column + k))) :
    placeTile columns result (tile, output) = (tileCells tile).foldlM
      (fun result at_ => place result (at_.1 * columns + at_.2) (some (value at_))) result := by
  unfold placeTile tileCells cells
  rw [List.foldlM_map, foldlM_flatMap]
  apply foldlM_congr
  intro result r hr
  rw [List.foldlM_map]
  apply foldlM_congr
  intro result k hk
  dsimp only
  rw [h r (List.mem_range.mp hr) k (List.mem_range.mp hk)]
  dsimp only
  rw [Nat.add_assoc]

/-- The outputs of the tiles assemble to the values of the cells, row by row. -/
theorem assembled_eq {grid : Grid} {output : Tile → List ℕ}
    (h : ∀ tile ∈ layout grid, ∀ r < tile.rows, ∀ k < tile.columns,
      (output tile)[r * 16 + k]? = some (value (tile.row + r, tile.column + k))) :
    assembled grid.rows grid.columns (layout grid) ((layout grid).map output) =
      .ok (((cells grid.rows grid.columns).map value).map some) := by
  have hperm := (layout_perm grid).map fun at_ => (at_.1 * grid.columns + at_.2, value at_)
  have hcells : (cells grid.rows grid.columns).map (fun at_ => (at_.1 * grid.columns + at_.2, value at_)) =
      (List.range (grid.rows * grid.columns)).map fun i => (i, value (i / grid.columns, i % grid.columns)) := by
    unfold cells
    rw [flatMap_rowMajor, List.map_map]
    apply List.map_congr_left
    intro i hi
    dsimp only [Function.comp_apply]
    rw [Nat.div_add_mod']
  rw [hcells] at hperm
  have hzip : (layout grid).zip ((layout grid).map output) = (layout grid).map fun tile => (tile, output tile) := by
    have := @List.zip_map' _ _ _ id output (layout grid)
    rwa [List.map_id] at this
  refine require_then_eq_ok.mpr ⟨List.length_map _, ?_⟩
  rw [hzip, List.foldlM_map]
  have hall : (layout grid).foldlM (fun result tile => placeTile grid.columns result (tile, output tile))
      (List.replicate (grid.rows * grid.columns) none) =
      (layout grid).foldlM (fun result tile => (tileCells tile).foldlM
        (fun result at_ => place result (at_.1 * grid.columns + at_.2) (some (value at_))) result)
        (List.replicate (grid.rows * grid.columns) none) :=
    foldlM_congr (fun result tile htile => placeTile_eq (h tile htile)) _
  have hfill := place_perm hperm
  rw [List.foldlM_map] at hfill
  rw [hall, ← foldlM_flatMap, hfill]
  unfold cells
  rw [flatMap_rowMajor, List.map_map, List.map_map]
  rfl

end Place

end Raveil.Tiling
