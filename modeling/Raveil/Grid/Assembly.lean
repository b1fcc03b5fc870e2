import Mathlib.Tactic.Ring
import Raveil.Lib.WriteOnce
import Raveil.Grid.Source
import Raveil.Tiling.Assembly

/-! `assemble` succeeds exactly when the tiles partition the output, and then every word is in its place. -/
namespace Raveil.Grid
open Lib

/-- An output of a tile. -/
structure TileOutput where
  name : String
  shape : List ℤ
  words : List ℕ
  deriving DecidableEq

/-- An entry of a layout. -/
structure LayoutTile where
  name : String
  row : ℤ
  column : ℤ
  rows : ℤ
  columns : ℤ
  deriving DecidableEq

/-- `values[index] = word`, where the cell must be empty. -/
def placeWord (values : List (Option ℕ)) (index : ℤ) (word : Option ℕ) : Except String (List (Option ℕ)) :=
  if ¬ (0 ≤ index ∧ index < values.length) ∨ values.getD index.toNat none ≠ none then .error "tile overlap/bounds"
  else
    match word with
    | none => .error "IndexError"
    | some w => .ok (values.set index.toNat (some w))

/-- The checks of a tile and its output. -/
def checkOutput (rows columns : ℤ) (output : TileOutput) (tile : LayoutTile) : Except String Unit := do
  require (¬ (tile.row < 0 ∨ tile.column < 0 ∨ tile.rows < 1 ∨ tile.columns < 1 ∨
    tile.row + tile.rows > rows ∨ tile.column + tile.columns > columns)) "tile rectangle out of bounds"
  require (output.name = tile.name ∧ output.shape = [tile.rows, tile.columns]) "tile identity differs"
  require ((output.words.length : ℤ) = tile.rows * tile.columns) "tile length differs"

/-- The body of the loop over the tiles. -/
def placeOutput (rows columns : ℤ) (values : List (Option ℕ)) (entry : TileOutput × LayoutTile) :
    Except String (List (Option ℕ)) := do
  let output := entry.1
  let tile := entry.2
  checkOutput rows columns output tile
  (List.range tile.rows.toNat).foldlM (fun values (r : ℕ) =>
    (List.range tile.columns.toNat).foldlM (fun values (c : ℕ) =>
      placeWord values ((tile.row + r) * columns + tile.column + c) (output.words[r * tile.columns.toNat + c]?)) values)
      values

/-- `assemble`. -/
def assemble (outputs : List TileOutput) (layout : List LayoutTile) (rows columns : ℤ) : Except String (List ℕ) := do
  require ((1 ≤ rows ∧ rows ≤ 64) ∧ 1 ≤ columns ∧ columns ≤ 64) "invalid output dimensions"
  require (outputs.length = layout.length) "missing output tiles"
  let values ← (outputs.zip layout).foldlM (placeOutput rows columns) (List.replicate (rows * columns).toNat none)
  match values.mapM id with
  | none => .error "tile gap"
  | some words => pure words

/-- The cells of the output that a tile covers, in its order. -/
def LayoutTile.cells (tile : LayoutTile) : List (ℕ × ℕ) :=
  (Tiling.cells tile.rows.toNat tile.columns.toNat).map fun at_ => (tile.row.toNat + at_.1, tile.column.toNat + at_.2)

/-- What is checked of a tile and its output. -/
structure TileOk (rows columns : ℤ) (output : TileOutput) (tile : LayoutTile) : Prop where
  row : 0 ≤ tile.row ∧ 1 ≤ tile.rows ∧ tile.row + tile.rows ≤ rows
  column : 0 ≤ tile.column ∧ 1 ≤ tile.columns ∧ tile.column + tile.columns ≤ columns
  identity : output.name = tile.name ∧ output.shape = [tile.rows, tile.columns]
  length : (output.words.length : ℤ) = tile.rows * tile.columns

/-- What an assembled output is. -/
structure Assembles (outputs : List TileOutput) (layout : List LayoutTile) (rows columns : ℤ) (words : List ℕ) :
    Prop where
  dimensions : (1 ≤ rows ∧ rows ≤ 64) ∧ 1 ≤ columns ∧ columns ≤ 64
  tiles : List.Forall₂ (TileOk rows columns) outputs layout
  partition : (layout.flatMap LayoutTile.cells).Perm (Tiling.cells rows.toNat columns.toNat)
  length : words.length = (rows * columns).toNat
  placed : ∀ entry ∈ outputs.zip layout, ∀ r < entry.2.rows.toNat, ∀ c < entry.2.columns.toNat,
    words[(entry.2.row.toNat + r) * columns.toNat + (entry.2.column.toNat + c)]? =
      entry.1.words[r * entry.2.columns.toNat + c]?

section Writes

variable {rows columns : ℤ} {output : TileOutput} {tile : LayoutTile} {entry : TileOutput × LayoutTile}
  {values values' : List (Option ℕ)} {words : List ℕ} {outputs : List TileOutput} {layout : List LayoutTile}

theorem checkOutput_eq_ok : checkOutput rows columns output tile = .ok () ↔ TileOk rows columns output tile := by
  unfold checkOutput
  constructor
  · intro h
    obtain ⟨hbounds, h⟩ := require_then_eq_ok.mp h
    obtain ⟨hidentity, h⟩ := require_then_eq_ok.mp h
    exact ⟨by omega, by omega, hidentity, require_eq_ok.mp h⟩
  · rintro ⟨hrow, hcolumn, hidentity, hlength⟩
    exact require_then_eq_ok.mpr ⟨by omega, require_then_eq_ok.mpr ⟨hidentity, require_eq_ok.mpr hlength⟩⟩

/-- The place of a cell among the words. -/
def cellIndex (columns : ℤ) (cell : ℕ × ℕ) : ℕ := cell.1 * columns.toNat + cell.2

/-- The writes of a tile. -/
def tileWrites (columns : ℤ) (entry : TileOutput × LayoutTile) : List (ℕ × ℕ) :=
  (Tiling.cells entry.2.rows.toNat entry.2.columns.toNat).map fun at_ =>
    (entry.1.words.getD (at_.1 * entry.2.columns.toNat + at_.2) 0,
      cellIndex columns (entry.2.row.toNat + at_.1, entry.2.column.toNat + at_.2))

/-- What an option says, with an error where it is empty. -/
def orError (error : String) (o : Option (List (Option ℕ))) : Except String (List (Option ℕ)) :=
  match o with
  | none => .error error
  | some values => .ok values

theorem orError_eq_ok {error : String} {o : Option (List (Option ℕ))} : orError error o = .ok values ↔ o = some values := by
  cases o <;> simp [orError]

theorem placeWord_eq {index : ℤ} {w i : ℕ} (hindex : index = i) :
    placeWord values index (some w) = orError "tile overlap/bounds" (writeOnce values (w, i)) := by
  subst hindex
  unfold placeWord writeOnce
  rw [Int.toNat_natCast, List.getD_eq_getElem?_getD]
  rcases h : (values)[i]? with _ | _ | v
  · have := List.getElem?_eq_none_iff.mp h
    rw [if_pos (Or.inl (by omega))]
    rfl
  · have := (List.getElem?_eq_some_iff.mp h).1
    rw [if_neg (by simp [this])]
    rfl
  · rw [if_pos (Or.inr (by simp))]
    rfl

theorem foldlM_orError {error : String} (l : List (ℕ × ℕ)) :
    l.foldlM (fun values e => orError error (writeOnce values e)) values = orError error (l.foldlM writeOnce values) := by
  induction l generalizing values with
  | nil => rfl
  | cons e l ih =>
    rw [List.foldlM_cons, List.foldlM_cons]
    cases h : writeOnce values e with
    | none => rfl
    | some next => exact ih

/-- The loops over a tile make its writes. -/
theorem placeOutput_eq (hok : TileOk rows columns entry.1 entry.2) :
    placeOutput rows columns values entry = orError "tile overlap/bounds" ((tileWrites columns entry).foldlM writeOnce values) := by
  have hcheck := checkOutput_eq_ok.mpr hok
  obtain ⟨hrow, hcolumn, -, hlength⟩ := hok
  unfold placeOutput
  dsimp only
  rw [hcheck, ← foldlM_orError, tileWrites, Tiling.cells, List.foldlM_map, foldlM_flatMap]
  change List.foldlM _ _ _ = _
  apply foldlM_congr
  intro values r hr
  rw [List.foldlM_map]
  apply foldlM_congr
  intro values c hc
  rw [List.mem_range] at hr hc
  have hlt : r * entry.2.columns.toNat + c < entry.1.words.length := by
    have hwords : entry.1.words.length = entry.2.rows.toNat * entry.2.columns.toNat := by
      rw [← Int.toNat_natCast entry.1.words.length, hlength, Int.toNat_mul (by omega) (by omega)]
    rw [hwords]
    calc r * entry.2.columns.toNat + c < (r + 1) * entry.2.columns.toNat := by rw [Nat.add_mul]; omega
      _ ≤ entry.2.rows.toNat * entry.2.columns.toNat := Nat.mul_le_mul_right _ hr
  dsimp only
  rw [List.getElem?_eq_getElem hlt, placeWord_eq, List.getD_eq_getElem?_getD, List.getElem?_eq_getElem hlt]
  · rfl
  · unfold cellIndex
    obtain ⟨row, hrow'⟩ := Int.eq_ofNat_of_zero_le hrow.1
    obtain ⟨column, hcolumn'⟩ := Int.eq_ofNat_of_zero_le hcolumn.1
    obtain ⟨width, hwidth⟩ := Int.eq_ofNat_of_zero_le (show 0 ≤ columns by omega)
    rw [hrow', hcolumn', hwidth]
    simp only [Int.toNat_natCast]
    push_cast
    ring

/-- The loop over the tiles checks each and makes all the writes. -/
theorem placeOutputs_eq_ok {entries : List (TileOutput × LayoutTile)} :
    entries.foldlM (placeOutput rows columns) values = .ok values' ↔
      (∀ entry ∈ entries, TileOk rows columns entry.1 entry.2) ∧
        (entries.flatMap (tileWrites columns)).foldlM writeOnce values = some values' := by
  induction entries generalizing values with
  | nil => simp [pure, Except.pure]
  | cons entry entries ih =>
    rw [List.foldlM_cons, except_bind_eq_ok, List.forall_mem_cons, List.flatMap_cons, List.foldlM_append,
      Option.bind_eq_bind, Option.bind_eq_some_iff]
    constructor
    · rintro ⟨next, hone, hrest⟩
      have hok : TileOk rows columns entry.1 entry.2 :=
        checkOutput_eq_ok.mp (check_then_eq_ok.mp hone).1
      obtain ⟨hall, hwrites⟩ := ih.mp hrest
      rw [placeOutput_eq hok, orError_eq_ok] at hone
      exact ⟨⟨hok, hall⟩, next, hone, hwrites⟩
    · rintro ⟨⟨hok, hall⟩, next, hone, hwrites⟩
      exact ⟨next, by rw [placeOutput_eq hok, hone]; rfl, ih.mpr ⟨hall, hwrites⟩⟩

theorem mapM_id_eq_some : values.mapM id = some words ↔ values = words.map some := by
  induction values generalizing words with
  | nil => cases words <;> simp
  | cons v values ih =>
    cases words with
    | nil =>
      rw [List.mapM_cons]
      cases v <;> cases values.mapM id <;> simp
    | cons w words =>
      rw [List.mapM_cons, List.map_cons, List.cons.injEq, ← ih]
      cases v <;> cases values.mapM id <;> simp

/-- All the writes of an assembly. -/
def writesOf (outputs : List TileOutput) (layout : List LayoutTile) (columns : ℤ) : List (ℕ × ℕ) :=
  (outputs.zip layout).flatMap (tileWrites columns)

theorem assemble_writes : assemble outputs layout rows columns = .ok words ↔
    ((1 ≤ rows ∧ rows ≤ 64) ∧ 1 ≤ columns ∧ columns ≤ 64) ∧ outputs.length = layout.length ∧
      (∀ entry ∈ outputs.zip layout, TileOk rows columns entry.1 entry.2) ∧
      words.length = (rows * columns).toNat ∧ (writesOf outputs layout columns).Perm words.zipIdx := by
  unfold assemble
  rw [require_then_eq_ok, require_then_eq_ok, except_bind_eq_ok]
  constructor
  · rintro ⟨hdim, hlen, values, hrun, h⟩
    obtain ⟨hall, hwrites⟩ := placeOutputs_eq_ok.mp hrun
    cases hv : values.mapM id with
    | none =>
      rw [hv] at h
      cases h
    | some words' =>
      rw [hv] at h
      cases h
      rw [mapM_id_eq_some.mp hv] at hwrites
      exact ⟨hdim, hlen, hall, writeAll_eq_some.mp hwrites⟩
  · rintro ⟨hdim, hlen, hall, hwrites⟩
    refine ⟨hdim, hlen, words.map some, placeOutputs_eq_ok.mpr ⟨hall, writeAll_eq_some.mpr hwrites⟩, ?_⟩
    rw [mapM_id_eq_some.mpr rfl]
    rfl

end Writes

section Partition

variable {rows columns : ℤ} {entry : TileOutput × LayoutTile} {words : List ℕ} {outputs : List TileOutput}
  {layout : List LayoutTile} {tile : LayoutTile} {r c m n : ℕ}

theorem mem_layoutCells : (r, c) ∈ tile.cells ↔
    (tile.row.toNat ≤ r ∧ r < tile.row.toNat + tile.rows.toNat) ∧
      tile.column.toNat ≤ c ∧ c < tile.column.toNat + tile.columns.toNat := by
  unfold LayoutTile.cells
  rw [List.mem_map]
  constructor
  · rintro ⟨⟨i, j⟩, hmem, heq⟩
    rw [Tiling.mem_cells] at hmem
    cases heq
    omega
  · rintro ⟨⟨hr, hr'⟩, hc, hc'⟩
    refine ⟨(r - tile.row.toNat, c - tile.column.toNat), Tiling.mem_cells.mpr ⟨by omega, by omega⟩, ?_⟩
    exact Prod.ext (Nat.add_sub_cancel' hr) (Nat.add_sub_cancel' hc)

/-- The cells of the output in order are the places of the words in order. -/
theorem cells_indices (m n : ℕ) : (Tiling.cells m n).map (cellIndex n) = List.range (m * n) := by
  unfold Tiling.cells
  rw [flatMap_rowMajor, List.map_map]
  refine List.map_congr_left (g := id) (fun i _ => ?_) |>.trans (List.map_id _)
  exact Nat.div_add_mod' i n

/-- A place tells the cell. -/
theorem cellIndex_cell {columns : ℤ} {cell : ℕ × ℕ} (h : cell.2 < columns.toNat) :
    (cellIndex columns cell / columns.toNat, cellIndex columns cell % columns.toNat) = cell :=
  Prod.ext (div_row h) (mod_row h)

theorem TileOk.inside {output : TileOutput} (h : TileOk rows columns output tile) {cell : ℕ × ℕ} (hmem : cell ∈ tile.cells) :
    cell.1 < rows.toNat ∧ cell.2 < columns.toNat := by
  obtain ⟨hrow, hcolumn, -, -⟩ := h
  obtain ⟨r, c⟩ := cell
  have := mem_layoutCells.mp hmem
  dsimp only
  omega

theorem writesOf_indices (hlen : outputs.length = layout.length) :
    (writesOf outputs layout columns).map Prod.snd = (layout.flatMap LayoutTile.cells).map (cellIndex columns) := by
  have hzip : (outputs.zip layout).map Prod.snd = layout := List.map_snd_zip hlen.ge
  conv_rhs => rw [← hzip]
  unfold writesOf
  rw [List.map_flatMap, List.flatMap_map, List.map_flatMap]
  refine List.flatMap_congr fun entry _ => ?_
  unfold tileWrites LayoutTile.cells
  rw [List.map_map, List.map_map]
  rfl

theorem TileOk.word (h : TileOk rows columns entry.1 entry.2) (hr : r < entry.2.rows.toNat) (hc : c < entry.2.columns.toNat) :
    entry.1.words[r * entry.2.columns.toNat + c]? = some (entry.1.words.getD (r * entry.2.columns.toNat + c) 0) := by
  have hwords : entry.1.words.length = entry.2.rows.toNat * entry.2.columns.toNat := by
    have hr := h.row
    have hc := h.column
    rw [← Int.toNat_natCast entry.1.words.length, h.length, Int.toNat_mul (by omega) (by omega)]
  have hlt : r * entry.2.columns.toNat + c < entry.1.words.length := by
    rw [hwords]
    calc r * entry.2.columns.toNat + c < (r + 1) * entry.2.columns.toNat := by rw [Nat.add_mul]; omega
      _ ≤ entry.2.rows.toNat * entry.2.columns.toNat := Nat.mul_le_mul_right _ hr
  rw [List.getD_eq_getElem?_getD, List.getElem?_eq_getElem hlt, Option.getD_some]

theorem Assembles.of_writes (hdim : (1 ≤ rows ∧ rows ≤ 64) ∧ 1 ≤ columns ∧ columns ≤ 64)
    (hlen : outputs.length = layout.length) (hok : ∀ entry ∈ outputs.zip layout, TileOk rows columns entry.1 entry.2)
    (hlength : words.length = (rows * columns).toNat) (hperm : (writesOf outputs layout columns).Perm words.zipIdx) :
    Assembles outputs layout rows columns words := by
  have hsize : words.length = rows.toNat * columns.toNat := by
    rw [hlength, Int.toNat_mul (by omega) (by omega)]
  refine ⟨hdim, List.forall₂_iff_zip.mpr ⟨hlen, fun h => hok _ h⟩, ?_, hlength, ?_⟩
  · have hkeys := hperm.map Prod.snd
    rw [writesOf_indices hlen, List.zipIdx_map_snd, hsize, ← List.range_eq_range'] at hkeys
    have hcell := hkeys.map fun i => (i / columns.toNat, i % columns.toNat)
    have hinside : ∀ cell ∈ layout.flatMap LayoutTile.cells, cell.2 < columns.toNat := by
      intro cell hmem
      obtain ⟨tile, htile, hcell⟩ := List.mem_flatMap.mp hmem
      have hzip : (outputs.zip layout).map Prod.snd = layout := List.map_snd_zip hlen.ge
      rw [← hzip] at htile
      obtain ⟨entry, hentry, rfl⟩ := List.mem_map.mp htile
      exact ((hok entry hentry).inside hcell).2
    have hsame : (layout.flatMap LayoutTile.cells).map ((fun i => (i / columns.toNat, i % columns.toNat)) ∘
        cellIndex columns) = layout.flatMap LayoutTile.cells :=
      (List.map_congr_left fun cell hmem => cellIndex_cell (hinside cell hmem)).trans (List.map_id _)
    rw [List.map_map, hsame] at hcell
    unfold Tiling.cells
    rw [flatMap_rowMajor]
    exact hcell
  · intro entry hentry r hr c hc
    have hwrite : (entry.1.words.getD (r * entry.2.columns.toNat + c) 0,
        cellIndex columns (entry.2.row.toNat + r, entry.2.column.toNat + c)) ∈ writesOf outputs layout columns :=
      List.mem_flatMap.mpr ⟨entry, hentry, List.mem_map.mpr ⟨(r, c), Tiling.mem_cells.mpr ⟨hr, hc⟩, rfl⟩⟩
    rw [(hok entry hentry).word hr hc]
    exact List.mk_mem_zipIdx_iff_getElem?.mp (hperm.mem_iff.mp hwrite)

theorem Assembles.writes (h : Assembles outputs layout rows columns words) :
    (writesOf outputs layout columns).Perm words.zipIdx := by
  obtain ⟨hdim, htiles, hpartition, hlength, hplaced⟩ := h
  obtain ⟨hlen, hok⟩ := List.forall₂_iff_zip.mp htiles
  have hsize : words.length = rows.toNat * columns.toNat := by
    rw [hlength, Int.toNat_mul (by omega) (by omega)]
  have hwrites : writesOf outputs layout columns = (layout.flatMap LayoutTile.cells).map fun cell =>
      (words.getD (cellIndex columns cell) 0, cellIndex columns cell) := by
    have hzip : (outputs.zip layout).map Prod.snd = layout := List.map_snd_zip hlen.ge
    conv_rhs => rw [← hzip]
    unfold writesOf
    rw [List.flatMap_map, List.map_flatMap]
    refine List.flatMap_congr fun entry hentry => ?_
    unfold tileWrites LayoutTile.cells
    rw [List.map_map]
    refine List.map_congr_left fun at_ hat => ?_
    obtain ⟨hr, hc⟩ := Tiling.mem_cells.mp hat
    have hword := hplaced entry hentry at_.1 hr at_.2 hc
    rw [TileOk.word (hok hentry) hr hc] at hword
    refine Prod.ext ?_ rfl
    change _ = words.getD (cellIndex columns (entry.2.row.toNat + at_.1, entry.2.column.toNat + at_.2)) 0
    rw [List.getD_eq_getElem?_getD (l := words)]
    unfold cellIndex
    rw [hword]
    rfl
  have hall : (Tiling.cells rows.toNat columns.toNat).map (fun cell =>
      (words.getD (cellIndex columns cell) 0, cellIndex columns cell)) = words.zipIdx := by
    have hindices := cells_indices rows.toNat columns.toNat
    have hcolumns : cellIndex (columns.toNat : ℤ) = cellIndex columns := by
      unfold cellIndex
      rw [Int.toNat_natCast]
    rw [hcolumns] at hindices
    have hmap := congrArg (List.map fun i => (words.getD i 0, i)) hindices
    rw [List.map_map] at hmap
    refine hmap.trans (List.ext_getElem (by simp [hsize]) fun i hi hi' => ?_)
    have hlt : i < words.length := by simpa using hi'
    simp [List.getD_eq_getElem?_getD, List.getElem?_eq_getElem hlt]
  rw [hwrites, ← hall]
  exact hpartition.map _

theorem Assembles.assembled (h : Assembles outputs layout rows columns words) :
    assemble outputs layout rows columns = .ok words := by
  obtain ⟨hlen, hok⟩ := List.forall₂_iff_zip.mp h.tiles
  exact assemble_writes.mpr ⟨h.dimensions, hlen, fun entry hentry => hok hentry, h.length, h.writes⟩

end Partition

/-- Tiles are assembled exactly when they are whole rectangles that partition the output; every word is then at
the place of its cell. -/
theorem assemble_partitions (outputs : List TileOutput) (layout : List LayoutTile) (rows columns : ℤ) (words : List ℕ) :
    assemble outputs layout rows columns = .ok words ↔ Assembles outputs layout rows columns words := by
  constructor
  · intro h
    obtain ⟨hdim, hlen, hok, hlength, hperm⟩ := assemble_writes.mp h
    exact Assembles.of_writes hdim hlen hok hlength hperm
  · exact Assembles.assembled

end Raveil.Grid
