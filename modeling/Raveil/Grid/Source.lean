import Raveil.Dag.Plan
import Raveil.Grid.Numeric
import Raveil.Tiling.Kernel

/-! Grid sources: what the lowering admits, the sessions it makes of the tiles, and the untiled reference. -/
namespace Raveil.Grid
open Lib Fold

def SCHEMA : String := "raveil.mf01-grid/v1"
def SCHEMA_V2 : String := "raveil.mf01-grid/v2"
def SCHEMA_V3 : String := "raveil.mf01-grid/v3"
def SCHEMA_V4 : String := "raveil.mf01-grid/v4"
def SCHEMA_V5 : String := "raveil.mf01-grid/v5"

/-- The schema of an input grid. -/
def INPUT : String := "raveil.grid-input/v2"

/-- A grid object before `read_input`. -/
structure GridInput where
  schema : String
  rows : ℤ
  columns : ℤ
  words : List ℤ
  deriving DecidableEq

/-- A view object; `row` and `column` are absent in the first schema. -/
structure ViewSource where
  input : ℤ
  offset : List ℤ
  step : List ℤ
  row : Option (List ℤ) := none
  column : Option (List ℤ) := none

structure KernelSource where
  extent : ℤ
  fold : String
  views : Dict String ViewSource
  nodes : List Node
  result : String

structure Post where
  nodes : List Node
  result : String

/-- A source object; `ι` is what its inputs are, and an absent field is `none`. -/
structure SourceOf (ι : Type) where
  schema : String
  inputs : List ι
  tile : List ℤ
  boundary : String
  kernel : KernelSource
  shape : Option (List ℤ) := none
  post : Option Post := none

abbrev Source := SourceOf GridInput

section Admission

/-- `integer`. -/
def integer (value low high : ℤ) : Except String Unit := require (low ≤ value ∧ value ≤ high) "expected integer"

/-- `read_input`, on the object of the text. -/
def readInput (value : GridInput) : Except String Tiling.Grid :=
  if value.schema ≠ INPUT then .error "expected exact grid-input/v2 schema"
  else if hd : (1 ≤ value.rows ∧ value.rows ≤ 64) ∧ 1 ≤ value.columns ∧ value.columns ≤ 64 then
    if hw : (value.words.length : ℤ) = value.rows * value.columns ∧ ∀ w ∈ value.words, 0 ≤ w ∧ w < 2 ^ 32 then
      .ok {
        rows := value.rows.toNat
        columns := value.columns.toNat
        words := value.words.map Int.toNat
        rows_pos := by omega
        rows_le := show value.rows.toNat ≤ 64 by omega
        columns_pos := by omega
        columns_le := show value.columns.toNat ≤ 64 by omega
        length_words := by
          rw [List.length_map, ← Int.toNat_mul (by omega) (by omega), ← hw.1, Int.toNat_natCast]
        words_lt := by
          intro w hm
          obtain ⟨v, hv, rfl⟩ := List.mem_map.mp hm
          have := hw.2 v hv
          omega }
    else .error "grid requires rows*columns uint32 words"
  else .error "grid dimensions must be integers in 1..64"

/-- `boundary`. -/
def boundaryOf (value : String) : Except String Tiling.Boundary :=
  if value = "zero" then .ok .zero
  else if value = "clamp" then .ok .clamp
  else if value = "wrap" then .ok .wrap
  else .error "boundary must be zero, clamp or wrap"

def foldOf (value : String) : Except String FoldKind :=
  if value = "sum" then .ok .sum
  else if value = "max" then .ok .max
  else .error "invalid fold"

/-- A view with its pairs. -/
structure View where
  input : ℕ
  offset : ℤ × ℤ
  step : ℤ × ℤ
  row : ℤ × ℤ
  column : ℤ × ℤ

def pairOf (value : List ℤ) : ℤ × ℤ := (value.getD 0 0, value.getD 1 0)

/-- The check of one pair of a view. -/
def checkPair (low : ℤ) (value : List ℤ) : Except String Unit := do
  require (value.length = 2) "view needs two coordinates"
  value.forM fun item => integer item low 63

/-- The body of the loop over the views. -/
def checkView (v2 : Prop) [Decidable v2] (inputs : ℕ) (entry : String × ViewSource) : Except String Unit := do
  require (entry.1 ≠ "" ∧ (entry.2.row.isSome ↔ v2) ∧ (entry.2.column.isSome ↔ v2)) "invalid grid view"
  integer entry.2.input 0 (inputs - 1)
  checkPair (-63) entry.2.offset
  checkPair 0 entry.2.step
  entry.2.row.toList.forM (checkPair 0)
  entry.2.column.toList.forM (checkPair 0)

/-- A checked view, with the pairs that the first schema leaves out. -/
def viewOf (value : ViewSource) : View where
  input := value.input.toNat
  offset := pairOf value.offset
  step := pairOf value.step
  row := pairOf (value.row.getD [1, 0])
  column := pairOf (value.column.getD [0, 1])

/-- What `source` returns, and what it has checked besides the tile. -/
structure Admitted where
  grids : List Tiling.Grid
  mode : Tiling.Boundary
  extent : ℕ
  fold : FoldKind
  views : Dict String View
  rows : ℕ
  columns : ℕ

variable {ι : Type}

/-- `v2` of `source`. -/
def SourceOf.IsV2 (value : SourceOf ι) : Prop := value.schema ≠ SCHEMA

/-- `v3` of `source`. -/
def SourceOf.IsV3 (value : SourceOf ι) : Prop :=
  value.schema = SCHEMA_V3 ∨ (value.schema = SCHEMA_V4 ∨ value.schema = SCHEMA_V5) ∧ value.post.isSome

instance (value : SourceOf ι) : Decidable value.IsV2 := inferInstanceAs (Decidable (¬ _))

instance (value : SourceOf ι) : Decidable value.IsV3 := inferInstanceAs (Decidable (_ ∨ _))

/-- How many tiles of the size `n` an extent takes. -/
def tilesOf (extent n : ℕ) : ℕ := (extent + n - 1) / n

/-- The checks of a tile, for an output of these dimensions. -/
def checkTile (tile : List ℤ) (rows columns : ℕ) : Except String Unit := do
  require (tile.length = 2) "two tile dimensions required"
  tile.forM fun extent => integer extent 1 16
  require (tilesOf rows (tile.getD 0 0).toNat * tilesOf columns (tile.getD 1 0).toNat ≤ 16)
    "grid needs more than sixteen independent tiles"

/-- `source`. -/
def source (value : Source) : Except String Admitted := do
  require (value.schema ∈ [SCHEMA, SCHEMA_V2, SCHEMA_V3, SCHEMA_V4, SCHEMA_V5]) "invalid MF01 grid source"
  require ((value.shape.isSome ↔ value.IsV2) ∧ (value.post.isSome ↔ value.IsV3)) "invalid MF01 grid source fields"
  require (1 ≤ value.inputs.length ∧ value.inputs.length ≤ 2) "one or two grids required"
  let grids ← value.inputs.mapM readInput
  let rows : ℕ := (grids.head?.map (·.rows)).getD 0
  let columns : ℕ := (grids.head?.map (·.columns)).getD 0
  require (value.IsV2 ∨ ∀ grid ∈ grids, grid.rows = rows ∧ grid.columns = columns) "grid dimensions must agree"
  let shape := value.shape.getD [(rows : ℤ), (columns : ℤ)]
  require (shape.length = 2) "two output dimensions required"
  shape.forM fun extent => integer extent 1 64
  checkTile value.tile (shape.getD 0 0).toNat (shape.getD 1 0).toNat
  let mode ← boundaryOf value.boundary
  integer value.kernel.extent 1 64
  let fold ← foldOf value.kernel.fold
  require (1 ≤ value.kernel.views.size ∧ value.kernel.views.size ≤ 8) "one to eight named views required"
  value.kernel.views.entries.forM (checkView value.IsV2 grids.length)
  pure {
    grids
    mode
    extent := value.kernel.extent.toNat
    fold
    views := value.kernel.views.mapValues viewOf
    rows := (shape.getD 0 0).toNat
    columns := (shape.getD 1 0).toNat }

end Admission

section Lowering

/-- The nodes that a schema hands to the compiler. -/
def mapNodes (schema : String) (nodes : List Node) (result : String) : Except String (List Node) :=
  if schema = SCHEMA_V4 ∨ schema = SCHEMA_V5 then lower nodes result (schema = SCHEMA_V5) else .ok nodes

/-- `range(0, extent, n)`. -/
def strided (extent n : ℕ) : List ℕ := (List.range (tilesOf extent n)).map fun i => n * i

/-- One tile: its origin and its dimensions. -/
structure Place where
  row : ℕ
  column : ℕ
  height : ℕ
  width : ℕ

/-- The tiles, row by row. -/
def places (rows columns tr tc : ℕ) : List Place :=
  (strided rows tr).flatMap fun row => (strided columns tc).map fun col =>
    ⟨row, col, min tr (rows - row), min tc (columns - col)⟩

/-- An entry of `origins`. -/
def View.origin (view : View) (at_ : Place) : ℤ × ℤ :=
  (view.offset.1 + at_.row * view.row.1 + at_.column * view.column.1,
    view.offset.2 + at_.row * view.row.2 + at_.column * view.column.2)

/-- The last coordinates that a view reads in a tile. -/
def View.last (view : View) (at_ : Place) (extent : ℕ) : ℤ × ℤ :=
  ((view.origin at_).1 + (at_.height - 1) * view.row.1 + (at_.width - 1) * view.column.1 + (extent - 1) * view.step.1,
    (view.origin at_).2 + (at_.height - 1) * view.row.2 + (at_.width - 1) * view.column.2 + (extent - 1) * view.step.2)

structure Rectangle where
  row : ℤ
  column : ℤ
  height : ℤ
  width : ℤ

/-- The part of an input that the views of a tile span; `none` when no view reads it. -/
def rectangle (a : Admitted) (at_ : Place) (index : ℕ) : Option Rectangle :=
  match a.views.values.filter fun view => view.input = index with
  | [] => none
  | views =>
    let low1 := (views.map fun view => (view.origin at_).1).min?.getD 0
    let low2 := (views.map fun view => (view.origin at_).2).min?.getD 0
    let high1 := (views.map fun view => (view.last at_ a.extent).1).max?.getD 0
    let high2 := (views.map fun view => (view.last at_ a.extent).2).max?.getD 0
    some ⟨low1, low2, high1 - low1 + 1, high2 - low2 + 1⟩

/-- The buffer of an input for a tile. -/
def bufferOf (a : Admitted) (at_ : Place) (index : ℕ) : Except String (List ℕ) :=
  match rectangle a at_ index, a.grids[index]? with
  | none, _ => .ok []
  | some _, none => .error "IndexError"
  | some r, some grid => do
    require (r.height * r.width ≤ 324) "tile input rectangle exceeds324 words"
    (Tiling.cells r.height.toNat r.width.toNat).mapM fun cell =>
      Tiling.sample grid (r.row + cell.1) (r.column + cell.2) a.mode

/-- A view of the region of a tile. -/
def View.inTile (view : View) (a : Admitted) (at_ : Place) : List ℤ :=
  let r := (rectangle a at_ view.input).getD ⟨0, 0, 0, 0⟩
  [(view.input : ℤ), ((view.origin at_).1 - r.row) * r.width + (view.origin at_).2 - r.column,
    if 1 < at_.height then view.row.1 * r.width + view.row.2 else 0,
    if 1 < at_.width then view.column.1 * r.width + view.column.2 else 0,
    if 1 < a.extent then view.step.1 * r.width + view.step.2 else 0]

/-- The region of a tile, from the lengths of its buffers. -/
def regionOf (a : Admitted) (nodes : List Node) (result : String) (at_ : Place) (lengths : List ℤ) : Region where
  schema := "raveil.affine-fold.v1"
  shape := [at_.height, at_.width]
  extent := a.extent
  fold := a.fold
  lengths
  views := a.views.mapValues fun view => view.inTile a at_
  nodes
  result

/-- The region that maps the folded words of a tile. -/
def postRegion (nodes : List Node) (result : String) (at_ : Place) : Region where
  schema := "raveil.affine-fold.v1"
  shape := [at_.height, at_.width]
  extent := 1
  fold := .sum
  lengths := [at_.height * at_.width, 0]
  views := ⟨[("reduced", [0, 0, if 1 < at_.height then (at_.width : ℤ) else 0, if 1 < at_.width then 1 else 0, 0])],
    List.nodup_singleton _⟩
  nodes
  result

/-- An entry of `items` with its entry of `layout`. -/
structure Item where
  name : String
  place : Place
  dag : Dag.Session

/-- The name of a tile from its number. -/
def tileName (index : ℕ) : String := "tile-" ++ (if index < 10 then "0" else "") ++ toString index

/-- The jobs of a tile. -/
def jobsOf (region : Region) (buffers : List (List ℕ)) (post : Option Region) : List Dag.Job :=
  match post with
  | none => [⟨"result", region, buffers.map .literal⟩]
  | some post => [⟨"reduce", region, buffers.map .literal⟩, ⟨"result", post, [.link "reduce" none none, .literal []]⟩]

/-- The body of the loops over the tiles; `nodes` and `post` are what the compiler gets. -/
def tileItem (a : Admitted) (nodes : List Node) (result : String) (post : Option Post) (entry : Place × ℕ) :
    Except String Item := do
  let buffers ← (List.range 2).mapM (bufferOf a entry.1)
  let region := regionOf a nodes result entry.1 (buffers.map fun buffer => (buffer.length : ℤ))
  let _ ← compileRegion region
  let second := post.map fun post => postRegion post.nodes post.result entry.1
  let _ ← second.toList.mapM compileRegion
  let dag : Dag.Session := ⟨Dag.SCHEMA_V1, jobsOf region buffers second, "result"⟩
  let _ ← Dag.compilePlan dag
  pure ⟨tileName entry.2, entry.1, dag⟩

structure Lowered where
  items : List Item
  rows : ℕ
  columns : ℕ

/-- `compile`. -/
def compile (value : Source) : Except String Lowered := do
  let a ← source value
  let nodes ← mapNodes value.schema value.kernel.nodes value.kernel.result
  let post ← value.post.mapM fun post => do
    let nodes ← mapNodes value.schema post.nodes post.result
    pure (Post.mk nodes post.result)
  let items ← (places a.rows a.columns (value.tile.getD 0 0).toNat (value.tile.getD 1 0).toNat).zipIdx.mapM
    (tileItem a nodes value.kernel.result post)
  pure ⟨items, a.rows, a.columns⟩

/-- `len(compiled["layout"])`. -/
def Lowered.sessions (l : Lowered) : ℕ := l.items.length

def Lowered.jobs (l : Lowered) : ℕ := (l.items.map fun item => item.dag.jobs.length).sum

/-- The words of the first jobs. -/
def Lowered.words (l : Lowered) : ℤ :=
  (l.items.map fun item => ((item.dag.jobs.head?.map fun job => job.region.lengths.sum).getD 0)).sum

end Lowering

section Reference

/-- The word at a place of a grid that may lie outside. -/
def referenceWord (grid : Tiling.Grid) (mode : Tiling.Boundary) (r c : ℤ) : Except String ℕ :=
  let rows : ℤ := grid.rows
  let columns : ℤ := grid.columns
  if mode = .zero ∧ ¬ ((0 ≤ r ∧ r < rows) ∧ 0 ≤ c ∧ c < columns) then .ok 0
  else match mode with
    | .clamp => Graph.readWord grid.words (max 0 (min r (rows - 1)) * columns + max 0 (min c (columns - 1)))
    | .wrap => Graph.readWord grid.words (r % rows * columns + c % columns)
    | .zero => Graph.readWord grid.words (r * columns + c)

/-- The word that a load finds at `(row, col, k)`. -/
def loadAt (a : Admitted) (row col k : ℕ) (node : Node) : Except String ℕ :=
  match a.views.get? (node.view.getD "") with
  | none => .error "KeyError"
  | some view =>
    match a.grids[view.input]? with
    | none => .error "IndexError"
    | some grid => referenceWord grid a.mode
        (view.offset.1 + row * view.row.1 + col * view.column.1 + k * view.step.1)
        (view.offset.2 + row * view.row.2 + col * view.column.2 + k * view.step.2)

/-- The loaded word of a node; only loads have one. -/
def loadedWord (load : Node → Except String ℕ) (node : Node) : Except String ℕ :=
  if node.op = .load then load node else .ok 0

/-- One node of the reference. -/
def evaluateAt (load : Node → Except String ℕ) (values : String → Option ℕ) (node : Node) :
    Except String (String → Option ℕ) := do
  let w ← loadedWord load node
  match evaluateNode (fun _ => w) values node with
  | none => .error "KeyError"
  | some values => pure values

/-- The word of `result` when the nodes are evaluated with these loads. -/
def resultWord (load : Node → Except String ℕ) (nodes : List Node) (result : String) : Except String ℕ := do
  let values ← nodes.foldlM (evaluateAt load) fun _ => none
  match values result with
  | none => .error "KeyError"
  | some w => pure w

/-- The output word of a cell. -/
def referenceCell (a : Admitted) (value : Source) (at_ : ℕ × ℕ) : Except String ℕ := do
  let acc ← (List.range a.extent).foldlM (fun acc k => do
    let w ← resultWord (loadAt a at_.1 at_.2 k) value.kernel.nodes value.kernel.result
    pure (match a.fold with
      | .sum => (acc + w) % 2 ^ 32
      | .max => max acc w)) 0
  match value.post with
  | none => pure acc
  | some post => resultWord (fun _ => .ok acc) post.nodes post.result

/-- `reference`. -/
def reference (value : Source) : Except String (List ℕ) := do
  let _ ← compile value
  let a ← source value
  (Tiling.cells a.rows a.columns).mapM (referenceCell a value)

end Reference

end Raveil.Grid
