import Raveil.Graph.Request

/-! Grids of any size up to 64 by 64: the kernel of a grid, its tiles with their halos, the untiled reference, and
the assembly of the tile outputs. -/
namespace Raveil.Tiling
open Raveil.Lib Raveil.Graph

def MAX_DIMENSION : ℕ := 64

/-- What `read_input` returns. -/
structure Grid where
  rows : ℕ
  columns : ℕ
  words : List ℕ
  rows_pos : 1 ≤ rows
  rows_le : rows ≤ MAX_DIMENSION
  columns_pos : 1 ≤ columns
  columns_le : columns ≤ MAX_DIMENSION
  length_words : words.length = rows * columns
  words_lt : ∀ w ∈ words, w < 2 ^ 32

/-- The fields of a grid-kernel object besides its schema. -/
structure Kernel where
  graphId : String
  nodes : List Node

/-- The names in `BOUNDARIES`. -/
inductive Boundary where
  | zero
  | clamp
  | wrap
  deriving DecidableEq

variable (sha256 : List UInt8 → Digest)

/-- `compile_graph`. -/
def compileGraph (descriptor : Descriptor) : Except String Program := do
  let program ← compileDescriptor sha256 descriptor
  let _ ← profileFor sha256 program.affine
  pure program

/-- The descriptor of a kernel: the full shape of a tile. -/
def Kernel.descriptor (kernel : Kernel) : Descriptor where
  schema := .v5
  graphId := kernel.graphId
  affine := { rows := 16, columns := 16, inputStride := 18, outputStride := 16 }
  nodes := kernel.nodes

/-- `compile_kernel`, on the object of the file. -/
def compileKernel (kernel : Kernel) : Except String Descriptor := do
  let _ ← compileGraph sha256 kernel.descriptor
  pure kernel.descriptor

structure Tile where
  slot : ℕ
  row : ℕ
  column : ℕ
  rows : ℕ
  columns : ℕ
  deriving DecidableEq

/-- `range(0, n, 16)`. -/
def origins (n : ℕ) : List ℕ := (List.range ((n + 15) / 16)).map fun i => 16 * i

def layout (grid : Grid) : List Tile :=
  ((origins grid.rows).flatMap fun r => (origins grid.columns).map fun col => (r, col)).zipIdx.map fun entry => {
    slot := entry.2
    row := entry.1.1
    column := entry.1.2
    rows := min 16 (grid.rows - entry.1.1)
    columns := min 16 (grid.columns - entry.1.2) }

def sample (grid : Grid) (row col : ℤ) (mode : Boundary) : Except String ℕ :=
  let rows : ℤ := grid.rows
  let columns : ℤ := grid.columns
  if mode = .zero ∧ ¬ (0 ≤ row ∧ row < rows ∧ 0 ≤ col ∧ col < columns) then .ok 0
  else
    let at_ : ℤ × ℤ :=
      match mode with
      | .clamp => (min (rows - 1) (max 0 row), min (columns - 1) (max 0 col))
      | .wrap => (row % rows, col % columns)
      | .zero => (row, col)
    readWord grid.words (at_.1 * columns + at_.2)

/-- The cells of a grid, row by row. -/
def cells (rows columns : ℕ) : List (ℕ × ℕ) :=
  (List.range rows).flatMap fun row => (List.range columns).map fun col => (row, col)

/-- The 18 rows and columns around a tile. -/
def halo (grid : Grid) (tile : Tile) (mode : Boundary) : Except String (List ℕ) :=
  (cells 18 18).mapM fun at_ => sample grid (tile.row - 1 + at_.1) (tile.column - 1 + at_.2) mode

section Reference

/-- The word that the reference loads; its boundary code is its own. -/
def referenceLoad (grid : Grid) (mode : Boundary) (r k : ℤ) : Except String ℕ :=
  let rows : ℤ := grid.rows
  let columns : ℤ := grid.columns
  if mode = .zero ∧ (r < 0 ∨ r ≥ rows ∨ k < 0 ∨ k ≥ columns) then .ok 0
  else match mode with
    | .clamp => readWord grid.words (max 0 (min r (rows - 1)) * columns + max 0 (min k (columns - 1)))
    | .wrap => readWord grid.words (r % rows * columns + k % columns)
    | .zero => readWord grid.words (r * columns + k)

abbrev Memo := String → Option ℕ

/-- `nodes[identity]`: the last node of that name. -/
def nodeOf (nodes : List Node) (identity : String) : Option Node :=
  nodes.reverse.find? fun node => node.id = identity

/-- The value of a node, from the evaluation of its operands, which passes the memo along. -/
def compute (grid : Grid) (mode : Boundary) (row col : ℤ) (operand : Memo → String → Except String (ℕ × Memo))
    (memo : Memo) (node : Node) : Except String (ℤ × Memo) :=
  match node.body with
  | .load (.relative rowDelta columnDelta) => do
    let value ← referenceLoad grid mode (row + rowDelta) (col + columnDelta)
    pure (value, memo)
  | .load (.selector _) => .error "TypeError"
  | .binary op [x, y] => do
    let a ← operand memo x
    let b ← operand a.2 y
    pure (match op with
      | .add => a.1 + b.1
      | .mul => a.1 * b.1
      | .max => max a.1 b.1, b.2)
  | .binary _ _ => .error "ValueError"
  | .immediate op x immediate => do
    let a ← operand memo x
    pure (match op with
      | .add => a.1 + immediate
      | .ge => if (a.1 : ℤ) ≥ immediate then 1 else 0, a.2)
  | .store _ => .error "KeyError"

/-- `evaluate` at a cell; `fuel` bounds the depth of the recursion. -/
def evaluate (grid : Grid) (mode : Boundary) (nodes : List Node) (row col : ℤ) :
    ℕ → Memo → String → Except String (ℕ × Memo)
  | 0, _, _ => .error "RecursionError"
  | fuel + 1, memo, identity =>
    match memo identity with
    | some value => .ok (value, memo)
    | none =>
      match nodeOf nodes identity with
      | none => .error "KeyError"
      | some node => do
        let r ← compute grid mode row col (evaluate grid mode nodes row col fuel) memo node
        let value := (r.1 % 2 ^ 32).toNat
        pure (value, Function.update r.2 identity (some value))

/-- `node["input"]`. -/
def inputOf (node : Node) : Option String :=
  match node.body with
  | .store input => some input
  | .immediate _ input _ => some input
  | _ => none

/-- `reference`. -/
def reference (fuel : ℕ) (grid : Grid) (descriptor : Descriptor) (mode : Boundary) : Except String (List ℕ) := do
  let _ ← compileGraph sha256 descriptor
  match descriptor.nodes.getLast?.bind inputOf with
  | none => .error "KeyError"
  | some input => (cells grid.rows grid.columns).mapM fun at_ => do
    let r ← evaluate grid mode descriptor.nodes at_.1 at_.2 fuel (fun _ => none) input
    pure r.1

end Reference

section Assembly

/-- `result[index] = value`, where the cell must be empty. -/
def place (result : List (Option ℕ)) (index : ℕ) (value : Option ℕ) : Except String (List (Option ℕ)) :=
  match result[index]? with
  | none => .error "IndexError"
  | some (some _) => .error "tile outputs overlap"
  | some none => .ok (result.set index value)

/-- The loops of `_assembled` over one tile and its output. -/
def placeTile (columns : ℕ) (result : List (Option ℕ)) (entry : Tile × List ℕ) : Except String (List (Option ℕ)) :=
  (List.range entry.1.rows).foldlM (fun result r =>
    (List.range entry.1.columns).foldlM (fun result column =>
      match entry.2[r * 16 + column]? with
      | none => .error "IndexError"
      | some value => place result ((entry.1.row + r) * columns + entry.1.column + column) (some value)) result) result

/-- `_assembled`, from the outputs of the tiles to the words of the grid. -/
def assembled (rows columns : ℕ) (tiles : List Tile) (outputs : List (List ℕ)) : Except String (List (Option ℕ)) := do
  require (outputs.length = tiles.length) "assembly requires all complete children"
  (tiles.zip outputs).foldlM (placeTile columns) (List.replicate (rows * columns) none)

end Assembly

end Raveil.Tiling
