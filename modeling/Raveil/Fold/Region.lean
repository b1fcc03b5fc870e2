import Mathlib.Data.List.Sort
import Mathlib.Data.Finset.Insert
import Raveil.Lib.Dict
import Raveil.Fold.Validate

/-! Affine-fold regions: `compile_region` and the SSA interpreter `reference`. -/
namespace Raveil.Fold
open Raveil.Lib

/-- Operation names of map nodes, over all source schemas. -/
inductive Op
  | load | add | yield | max | mul | addImm | geImm | maxI32 | reluI32
  deriving DecidableEq, Repr

/-- A node dictionary; an absent field is `none`. -/
structure Node where
  id : String
  op : Op
  view : Option String := none
  args : Option (List String) := none
  imm : Option ℤ := none
  deriving DecidableEq, Repr

inductive FoldKind
  | sum | max
  deriving DecidableEq, Repr

structure Region where
  schema : String
  shape : List ℤ
  extent : ℤ
  fold : FoldKind
  lengths : List ℤ
  views : Dict String (List ℤ)
  nodes : List Node
  result : String
  deriving DecidableEq

/-- `OPS` of the MF01 instruction set. -/
def OPS : Op → Option ℕ
  | .load => some 1
  | .add => some 2
  | .yield => some 3
  | .max => some 4
  | .mul => some 5
  | .addImm => some 6
  | .geImm => some 7
  | .maxI32 | .reluI32 => none

def Op.hasImm (op : Op) : Prop := op = .addImm ∨ op = .geImm

instance (op : Op) : Decidable op.hasImm := inferInstanceAs (Decidable (_ ∨ _))

/-- The number of arguments `compile_region` asks for. -/
def Op.arity (op : Op) : ℕ := if op = .load then 0 else if op.hasImm then 1 else 2

/-- The node has exactly the fields of its operation. -/
def Node.fieldsOk (n : Node) : Prop :=
  (n.view.isSome ↔ n.op = .load) ∧ (n.args.isSome ↔ n.op ≠ .load) ∧ (n.imm.isSome ↔ n.op.hasImm)

instance (n : Node) : Decidable n.fieldsOk := inferInstanceAs (Decidable (_ ∧ _ ∧ _))

/-- `node.get("args", [])`. -/
def Node.arguments (n : Node) : List String := n.args.getD []

/-- The body of the admission loop over `nodes`; the state is `seen` with `uses`. -/
def checkNode (views : Dict String (List ℤ)) (s : Finset String × (String → ℤ)) (node : Node) :
    Except String (Finset String × (String → ℤ)) := do
  require (node.fieldsOk ∧ (OPS node.op).isSome ∧ node.op ≠ .yield) "invalid node"
  require (node.id ≠ "" ∧ node.id ∉ s.1) "duplicate or invalid SSA identifier"
  require (node.arguments.length = node.op.arity) "incorrect arity"
  let uses ← node.arguments.foldlM (fun (uses : String → ℤ) arg => do
    require (arg ∈ s.1) "nodes must be in dependency order"
    pure (Function.update uses arg (uses arg + 1))) s.2
  require (∀ v, node.view = some v → v ∈ views.keys) "unknown view"
  (node.imm.toList).forM fun imm => int imm 0 (2 ^ 22 - 1)
  pure (insert node.id s.1, uses)

/-- The register allocator: `live`, `free`, the uses still to come, and the emitted words. -/
structure Allocation where
  live : String → Option ℕ
  free : List ℕ
  uses : String → ℤ
  words : List ℕ

/-- `live[name]`. -/
def Allocation.register (s : Allocation) (name : String) : Except String ℕ :=
  match s.live name with
  | some r => .ok r
  | none => .error s!"KeyError: {name}"

/-- `free.append(live.pop(name))`. -/
def Allocation.drop (s : Allocation) (name : String) : Except String Allocation := do
  let r ← s.register name
  pure { s with live := Function.update s.live name none, free := s.free ++ [r] }

/-- One consumed argument: the last use frees its register. -/
def Allocation.consume (s : Allocation) (arg : String) : Except String Allocation :=
  let s := { s with uses := Function.update s.uses arg (s.uses arg - 1) }
  if s.uses arg = 0 then s.drop arg else pure s

/-- The instruction word of a node, from its destination and operand registers. -/
def encodeNode (views : Dict String (List ℤ)) (node : Node) (d : ℕ) (regs : List ℕ) : ℕ :=
  let w := (OPS node.op).getD 0 <<< 28 ||| d <<< 25
  if node.op = .load then w ||| views.keys.idxOf (node.view.getD "") <<< 22
  else
    let w := w ||| regs.getD 0 0 <<< 22
    match node.imm with
    | some imm => w ||| imm.toNat
    | none => w ||| regs.getD 1 0 <<< 19

/-- The body of the emission loop over `nodes`. -/
def allocateNode (views : Dict String (List ℤ)) (s : Allocation) (node : Node) :
    Except String Allocation := do
  let regs ← node.arguments.mapM s.register
  let s ← node.arguments.foldlM Allocation.consume s
  match s.free.insertionSort (· ≤ ·) with
  | [] => .error "map needs more than eight live registers"
  | d :: free =>
    let s := { s with
      live := Function.update s.live node.id (some d)
      free := free
      words := s.words ++ [encodeNode views node d regs] }
    if s.uses node.id = 0 then s.drop node.id else pure s

/-- `compile_region`. -/
def compileRegion (d : Region) : Except String (List ℕ) := do
  require (d.schema = "raveil.affine-fold.v1") "unsupported schema"
  require (d.shape.length = 2 ∧ d.lengths.length = 2)
    "two dimensions and two input lengths required"
  require (1 ≤ d.views.size ∧ d.views.size ≤ 8) "one to eight views required"
  require (1 ≤ d.nodes.length ∧ d.nodes.length ≤ 15) "one to fifteen map nodes required"
  let (seen, uses) ← d.nodes.foldlM (checkNode d.views) (∅, fun _ => 0)
  require (d.result ∈ seen) "unknown result"
  let uses := Function.update uses d.result (uses d.result + 1)
  let s ← d.nodes.foldlM (allocateNode d.views)
    { live := fun _ => none, free := List.range 8, uses := uses, words := [] }
  let r ← s.register d.result
  let words := s.words ++ [3 <<< 28 ||| r <<< 22]
  d.views.values.forM fun view =>
    require (view.length = 5) "view is [buffer, offset, i stride, j stride, k stride]"
  validateConfig (([MAGIC] : List ℤ) ++ d.shape ++ [d.extent, if d.fold = .sum then 0 else 1] ++
    d.lengths ++ [(d.views.size : ℤ), (words.length : ℤ)] ++ d.views.values.flatten ++
    List.replicate (40 - 5 * d.views.size) 0 ++ words.map Int.ofNat ++
    List.replicate (16 - words.length) 0)

/-- `inputs[b][base + si*i + sj*j + sk*k]` for the view a load names. -/
def loadWord (d : Region) (inputs : List (List ℕ)) (i j k : ℕ) (node : Node) : Option ℕ := do
  match ← d.views.get? (node.view.getD "") with
  | [b, base, si, sj, sk] => pyGet? (← pyGet? inputs b) (base + si * i + sj * j + sk * k)
  | _ => none

/-- The word of one node before masking, from its argument words. -/
def nodeWord (d : Region) (inputs : List (List ℕ)) (i j k : ℕ) (node : Node) (a : List ℕ) :
    Option ℤ :=
  match node.op, a, node.imm with
  | .load, _, _ => (loadWord d inputs i j k node).map Int.ofNat
  | .add, x :: y :: _, _ => some (x + y)
  | .mul, x :: y :: _, _ => some (x * y)
  | .max, x :: y :: _, _ => some (Max.max x y)
  | .addImm, x :: _, some imm => some (x + imm)
  | _, x :: _, some imm => some (if (x : ℤ) ≥ imm then 1 else 0)
  | _, _, _ => none

/-- One node of the interpreter at `(i, j, k)`; `none` is a failed lookup. -/
def evaluateNode (d : Region) (inputs : List (List ℕ)) (i j k : ℕ) (values : String → Option ℕ)
    (node : Node) : Option (String → Option ℕ) := do
  let a ← node.arguments.mapM values
  let v ← nodeWord d inputs i j k node a
  pure (Function.update values node.id (some (v % 2 ^ 32).toNat))

/-- The accumulator of cell `(i, j)`. -/
def referenceCell (d : Region) (inputs : List (List ℕ)) (i j : ℕ) : Option ℕ :=
  (List.range d.extent.toNat).foldlM (fun acc k => do
    let values ← d.nodes.foldlM (evaluateNode d inputs i j k) fun _ => none
    let v ← values d.result
    pure (match d.fold with
      | .sum => (acc + v) % 2 ^ 32
      | .max => max acc v)) 0

/-- `reference`. -/
def reference (d : Region) (inputs : List (List ℕ)) : Except String (List ℕ) := do
  let _ ← compileRegion d
  require (inputs.length = 2) "exactly two input arrays required (unused may be empty)"
  (inputs.zip d.lengths).forM fun (data, n) => do
    require ((data.length : ℤ) = n) "input length mismatch"
    data.forM fun w => int w 0 MASK
  let rows := (d.shape.getD 0 0).toNat
  let cols := (d.shape.getD 1 0).toNat
  let result := (List.range rows).foldlM (fun result i =>
    (List.range cols).foldlM (fun result j => do
      pure (result ++ [← referenceCell d inputs i j])) result) []
  match result with
  | some words => pure words
  | none => .error "KeyError"

end Raveil.Fold
