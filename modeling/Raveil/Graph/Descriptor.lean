import Mathlib.Algebra.Group.Int.Defs
import Mathlib.Algebra.Group.Nat.Defs
import Raveil.Lib.Loops
import Raveil.Lib.Schedule

/-! Graph-device descriptors: bounded DAGs of loads, arithmetic and one store, and their admission. -/
namespace Raveil.Graph
open Raveil.Lib

/-- The descriptor schemas `raveil.graph-device-dag/v1` to `/v5`. -/
inductive Schema
  | v1 | v2 | v3 | v4 | v5
  deriving DecidableEq, Repr

def Schema.name : Schema → String
  | .v1 => "raveil.graph-device-dag/v1"
  | .v2 => "raveil.graph-device-dag/v2"
  | .v3 => "raveil.graph-device-dag/v3"
  | .v4 => "raveil.graph-device-dag/v4"
  | .v5 => "raveil.graph-device-dag/v5"

/-- The keys of `SELECTORS`. -/
inductive Selector
  | center | north | south | west | east
  deriving DecidableEq, Repr

def Selector.name : Selector → String
  | .center => "center"
  | .north => "north"
  | .south => "south"
  | .west => "west"
  | .east => "east"

def SELECTORS : Selector → ℕ
  | .center => 0
  | .north => 1
  | .south => 2
  | .west => 3
  | .east => 4

/-- The address of a load: a selector name, or a dictionary of `row_delta` and `column_delta`. -/
inductive Address
  | selector (name : Selector)
  | relative (rowDelta columnDelta : ℤ)
  deriving DecidableEq, Repr

/-- `OPS`. -/
inductive Op
  | load | add | max | mul | addImm | geImm | store
  deriving DecidableEq, Repr

def Op.name : Op → String
  | .load => "LOAD_U32"
  | .add => "ADD_U32"
  | .max => "MAX_U32"
  | .mul => "MUL_U32"
  | .addImm => "ADD_IMM_U32"
  | .geImm => "GE_IMM_U32"
  | .store => "STORE_U32"

inductive Binary
  | add | max | mul
  deriving DecidableEq, Repr

def Binary.op : Binary → Op
  | .add => .add
  | .max => .max
  | .mul => .mul

inductive Immediate
  | add | ge
  deriving DecidableEq, Repr

def Immediate.op : Immediate → Op
  | .add => .addImm
  | .ge => .geImm

/-- The fields a node dictionary has besides `id`, by opcode. -/
inductive Body
  | load (address : Address)
  | binary (op : Binary) (inputs : List String)
  | immediate (op : Immediate) (input : String) (value : ℤ)
  | store (input : String)
  deriving DecidableEq, Repr

structure Node where
  id : String
  body : Body
  deriving DecidableEq, Repr

def Node.op (node : Node) : Op :=
  match node.body with
  | .load _ => .load
  | .binary op _ => op.op
  | .immediate op _ _ => op.op
  | .store _ => .store

/-- `node.get("address")`. -/
def Node.address (node : Node) : Option Address :=
  match node.body with
  | .load address => some address
  | _ => none

/-- `node.get("immediate")`. -/
def Node.immediate (node : Node) : Option ℤ :=
  match node.body with
  | .immediate _ _ value => some value
  | _ => none

structure Affine where
  rows : ℤ
  columns : ℤ
  inputStride : ℤ
  outputStride : ℤ
  deriving DecidableEq, Repr

structure Descriptor where
  schema : Schema
  graphId : String
  affine : Affine
  nodes : List Node
  deriving DecidableEq, Repr

def PROGRAM_CAPACITY : ℕ := 16
def MAX_IMMEDIATE : ℕ := 2 ^ 22 - 1

/-- `IDENTIFIER_RE.fullmatch`. -/
def identifier (name : String) : Bool :=
  match name.toList with
  | [] => false
  | first :: rest =>
    first.isAlphanum && rest.length ≤ 30 &&
      rest.all fun c => c.isAlphanum || c == '.' || c == '_' || c == '-'

/-- `_dependencies`. -/
def dependencies (node : Node) : List String :=
  match node.body with
  | .binary _ inputs => inputs
  | .immediate _ input _ => [input]
  | .store input => [input]
  | .load _ => []

/-- `_scheduled_nodes`; `pending` keeps the descriptor order, so the least position is the first. -/
def scheduledNodes (nodes : List Node) : Except String (List Node) :=
  match schedule Node.id nodes.length (nodes.map fun node => (node, dependencies node)) with
  | none => .error "Graph dependencies contain a cycle"
  | some scheduled => .ok scheduled

/-- The check of the affine shape. -/
def shapeOk (affine : Affine) : Prop :=
  1 ≤ affine.rows ∧ affine.rows ≤ 16 ∧ 1 ≤ affine.columns ∧ affine.columns ≤ 16 ∧
    affine.columns + 2 ≤ affine.inputStride ∧ affine.columns ≤ affine.outputStride ∧
    (affine.rows + 1) * affine.inputStride + affine.columns < 324 ∧
    (affine.rows - 1) * affine.outputStride + affine.columns - 1 < 256

instance (affine : Affine) : Decidable (shapeOk affine) := by
  unfold shapeOk
  infer_instance

/-- The per-opcode checks of the loop over `nodes`; `stores` counts the stores before. -/
def bodyCheck (schema : Schema) (stores : ℕ) : Body → Except String Unit
  | .load (.selector _) => require (schema = .v1) "LOAD_U32 relative address is invalid"
  | .load (.relative row column) =>
    if schema = .v1 then .error "LOAD_U32 is invalid"
    else require (-1 ≤ row ∧ row ≤ 1 ∧ -1 ≤ column ∧ column ≤ 1) "LOAD_U32 relative address is invalid"
  | .immediate op _ value =>
    let allowed := if op = .ge then [Schema.v5] else [Schema.v4, Schema.v5]
    require (schema ∈ allowed ∧ 0 ≤ value ∧ value ≤ MAX_IMMEDIATE)
      (op.op.name ++ " requires schema " ++ (if op = .ge then "v5" else "v4") ++
        " and an unsigned 22-bit immediate")
  | .binary op inputs => require (inputs.length = 2) (op.op.name ++ " operands are invalid")
  | .store _ => require (stores = 0) "STORE_U32 is invalid"

/-- The body of the first loop over `nodes`; the state is `identifiers` with `stores`. -/
def checkNode (schema : Schema) (s : Finset String × ℕ) (node : Node) :
    Except String (Finset String × ℕ) := do
  require (identifier node.id = true ∧ node.id ∉ s.1) "node identity or opcode is invalid"
  require (node.op = .geImm → schema = .v5) "node identity or opcode is invalid"
  require (node.op = .mul → schema ∈ [Schema.v3, Schema.v4, Schema.v5]) "MUL_U32 requires graph schema v3"
  bodyCheck schema s.2 node.body
  pure (insert node.id s.1, s.2 + if node.op = .store then 1 else 0)

/-- `by_id[source]["op"]`, if the operand is defined. -/
def operandOp (nodes : List Node) (source : String) : Option Op :=
  (nodes.find? fun node => node.id = source).map Node.op

/-- The body of the operand loop. -/
def checkOperands (nodes : List Node) (node : Node) : Except String Unit :=
  (dependencies node).forM fun source => do
    require ((operandOp nodes source).isSome) (node.op.name ++ " has an undefined operand")
    require (operandOp nodes source ≠ some .store) "STORE_U32 cannot be an operand"

def validateDescriptor (value : Descriptor) : Except String Unit := do
  require (identifier value.graphId = true) "graph_id must be a bounded ASCII identifier"
  require (shapeOk value.affine) "affine shape escapes the bounded windows"
  require (2 ≤ value.nodes.length ∧ value.nodes.length ≤ PROGRAM_CAPACITY)
    "node count is outside the bounded program"
  let (_, stores) ← value.nodes.foldlM (checkNode value.schema) (∅, 0)
  require (stores = 1 ∧ (value.nodes.getLast?).map Node.op = some .store)
    "exactly one final STORE_U32 is required"
  value.nodes.forM (checkOperands value.nodes)
  let _ ← scheduledNodes value.nodes
  pure ()

/-- The forms an admitted node can have. -/
inductive NodeOk (schema : Schema) : Node → Prop
  | selector (id : String) (name : Selector) (hv : schema = .v1) :
      NodeOk schema ⟨id, .load (.selector name)⟩
  | relative (id : String) (row column : ℤ) (hv : schema ≠ .v1) (hr : -1 ≤ row ∧ row ≤ 1)
      (hc : -1 ≤ column ∧ column ≤ 1) : NodeOk schema ⟨id, .load (.relative row column)⟩
  | binary (id : String) (op : Binary) (x y : String)
      (hv : op = .mul → schema ∈ [Schema.v3, Schema.v4, Schema.v5]) :
      NodeOk schema ⟨id, .binary op [x, y]⟩
  | immediate (id : String) (op : Immediate) (x : String) (value : ℤ)
      (hv : schema ∈ [Schema.v4, Schema.v5]) (hg : op = .ge → schema = .v5) (h0 : 0 ≤ value)
      (hm : value < 2 ^ 22) : NodeOk schema ⟨id, .immediate op x value⟩
  | store (id x : String) : NodeOk schema ⟨id, .store x⟩

section Admission

variable {schema : Schema} {nodes : List Node} {node : Node} {seen seen' : Finset String} {k k' : ℕ}

theorem bodyCheck_eq_ok (hge : node.op = .geImm → schema = .v5)
    (hmul : node.op = .mul → schema ∈ [Schema.v3, Schema.v4, Schema.v5])
    (h : bodyCheck schema k node.body = .ok ()) : NodeOk schema node := by
  obtain ⟨id, body⟩ := node
  cases body with
  | load address =>
    cases address with
    | selector name => exact .selector id name (require_eq_ok.mp h)
    | relative row column =>
      simp only [bodyCheck] at h
      split at h
      · cases h
      · rename_i hv
        obtain ⟨h1, h2, h3, h4⟩ := require_eq_ok.mp h
        exact .relative id row column hv ⟨h1, h2⟩ ⟨h3, h4⟩
  | binary op inputs =>
    have hlen := require_eq_ok.mp h
    obtain ⟨x, y, rfl⟩ := List.length_eq_two.mp hlen
    refine .binary id op x y fun hop => hmul ?_
    simp [Node.op, hop, Binary.op]
  | immediate op x value =>
    obtain ⟨hv, h0, hm⟩ := require_eq_ok.mp h
    have hg : op = .ge → schema = .v5 := fun hop => hge (by simp [Node.op, hop, Immediate.op])
    have hle : (MAX_IMMEDIATE : ℤ) < 2 ^ 22 := by decide
    refine .immediate id op x value ?_ hg h0 (by omega)
    cases op with
    | add => simpa using hv
    | ge => simp [hg rfl]
  | store x => exact .store id x

theorem checkNode_eq_ok (h : checkNode schema (seen, k) node = .ok (seen', k')) :
    NodeOk schema node ∧ node.id ∉ seen ∧ seen' = insert node.id seen ∧
      k' = k + if node.op = .store then 1 else 0 := by
  unfold checkNode at h
  obtain ⟨hid, h⟩ := require_then_eq_ok.mp h
  obtain ⟨hge, h⟩ := require_then_eq_ok.mp h
  obtain ⟨hmul, h⟩ := require_then_eq_ok.mp h
  obtain ⟨hbody, h⟩ := check_then_eq_ok.mp h
  obtain ⟨rfl, rfl⟩ : insert node.id seen = seen' ∧ (k + if node.op = .store then 1 else 0) = k' := by
    simpa using h
  exact ⟨bodyCheck_eq_ok hge hmul hbody, hid.2, rfl, rfl⟩

theorem checkNodes_eq_ok (h : nodes.foldlM (checkNode schema) (seen, k) = .ok (seen', k')) :
    (∀ node ∈ nodes, NodeOk schema node ∧ node.id ∉ seen) ∧ (nodes.map Node.id).Nodup ∧
      k' = k + nodes.countP fun node => node.op = .store := by
  induction nodes generalizing seen k with
  | nil =>
    obtain ⟨-, rfl⟩ : seen = seen' ∧ k = k' := by simpa using h
    simp
  | cons a nodes ih =>
    rw [List.foldlM_cons, except_bind_eq_ok] at h
    obtain ⟨⟨seen₁, k₁⟩, h1, h2⟩ := h
    obtain ⟨hok, hfresh, rfl, rfl⟩ := checkNode_eq_ok h1
    obtain ⟨hall, hnodup, rfl⟩ := ih h2
    refine ⟨?_, ?_, ?_⟩
    · intro node hnode
      rcases List.mem_cons.mp hnode with rfl | hnode
      · exact ⟨hok, hfresh⟩
      · refine ⟨(hall node hnode).1, fun hm => (hall node hnode).2 ?_⟩
        exact Finset.mem_insert_of_mem hm
    · rw [List.map_cons, List.nodup_cons]
      refine ⟨fun hm => ?_, hnodup⟩
      obtain ⟨node, hnode, hid⟩ := List.mem_map.mp hm
      exact (hall node hnode).2 (hid ▸ Finset.mem_insert_self _ _)
    · rw [List.countP_cons]
      simp only [decide_eq_true_eq]
      omega

end Admission

/-- An admitted descriptor, with its schedule: the store comes last. -/
structure Valid (value : Descriptor) (body : List Node) (id x : String) : Prop where
  shape : shapeOk value.affine
  two_le : 2 ≤ value.nodes.length
  le_capacity : value.nodes.length ≤ 16
  ok : ∀ node ∈ value.nodes, NodeOk value.schema node
  nodup : (value.nodes.map Node.id).Nodup
  scheduled : scheduledNodes value.nodes = .ok (body ++ [⟨id, .store x⟩])
  perm : (body ++ [Node.mk id (.store x)]).Perm value.nodes
  ordered : Ordered Node.id dependencies ∅ (body ++ [⟨id, .store x⟩])
  values : ∀ node ∈ body, node.op ≠ .store

theorem op_eq_store {node : Node} (h : node.op = .store) : ∃ x, node = ⟨node.id, .store x⟩ := by
  obtain ⟨id, body⟩ := node
  cases body with
  | store x => exact ⟨x, rfl⟩
  | load address => simp [Node.op] at h
  | binary op inputs => cases op <;> simp [Node.op, Binary.op] at h
  | immediate op x value => cases op <;> simp [Node.op, Immediate.op] at h

/-- Nothing depends on the store. -/
theorem checkOperands_eq_ok {nodes : List Node} {node z : Node} (hz : z ∈ nodes)
    (hnodup : (nodes.map Node.id).Nodup) (hs : z.op = .store) (h : checkOperands nodes node = .ok ()) :
    z.id ∉ dependencies node := by
  intro hm
  have hsource := forM_eq_ok.mp h z.id hm
  obtain ⟨-, hsource⟩ := require_then_eq_ok.mp hsource
  refine require_eq_ok.mp hsource ?_
  have hfind : (nodes.find? fun node => node.id = z.id) = some z := by
    obtain ⟨pre, post, rfl⟩ := List.append_of_mem hz
    rw [List.find?_append, List.find?_eq_none.mpr, Option.none_or, List.find?_cons_of_pos (by simp)]
    intro n hn hid
    rw [(List.perm_middle.map _).nodup_iff, List.map_cons, List.nodup_cons] at hnodup
    have hid' : n.id = z.id := by simpa using hid
    exact hnodup.1 (hid' ▸ List.mem_map.mpr ⟨n, List.mem_append_left _ hn, rfl⟩)
  simp [operandOp, hfind, hs]

theorem validateDescriptor_eq_ok {value : Descriptor} (h : validateDescriptor value = .ok ()) :
    ∃ body id x, Valid value body id x := by
  unfold validateDescriptor at h
  obtain ⟨-, h⟩ := require_then_eq_ok.mp h
  obtain ⟨hshape, h⟩ := require_then_eq_ok.mp h
  obtain ⟨hcount, h⟩ := require_then_eq_ok.mp h
  obtain ⟨⟨seen, stores⟩, hnodes, h⟩ := except_bind_eq_ok.mp h
  obtain ⟨⟨hone, hlast⟩, h⟩ := require_then_eq_ok.mp h
  obtain ⟨hoperands, h⟩ := check_then_eq_ok.mp h
  obtain ⟨scheduled, hsched, -⟩ := except_bind_eq_ok.mp h
  obtain ⟨hok, hnodup, hstores⟩ := checkNodes_eq_ok hnodes
  obtain ⟨z, hz, hzop⟩ := Option.map_eq_some_iff.mp hlast
  obtain ⟨init, hinit⟩ := List.getLast?_eq_some_iff.mp hz
  obtain ⟨x, hzx⟩ := op_eq_store hzop
  have hmem : z ∈ value.nodes := by simp [hinit]
  have hsome : schedule Node.id value.nodes.length
      (value.nodes.map fun node => (node, dependencies node)) = some scheduled := by
    unfold scheduledNodes at hsched
    split at hsched
    · cases hsched
    · cases hsched
      assumption
  have hwait : Waiting Node.id dependencies ∅ (value.nodes.map fun node => (node, dependencies node)) := by
    refine ⟨by simpa [Function.comp_def] using hnodup, by simp, ?_⟩
    intro e he y
    obtain ⟨node, -, rfl⟩ := List.mem_map.mp he
    simp
  obtain ⟨hord, hperm⟩ := schedule_spec hwait hsome
  rw [List.map_map, Function.comp_def, List.map_id'] at hperm
  obtain ⟨body, hbody⟩ : ∃ body, scheduled = body ++ [z] := by
    rw [hinit, List.map_append, List.map_singleton] at hsome
    refine schedule_last ?_ ?_ hsome
    · rw [hinit] at hnodup
      simpa [Function.comp_def] using hnodup
    · intro e he
      obtain ⟨node, hnode, rfl⟩ := List.mem_map.mp he
      exact checkOperands_eq_ok hmem hnodup hzop (forM_eq_ok.mp hoperands node (by simp [hinit, hnode]))
  subst hbody
  rw [hzx] at hsched hperm hord
  refine ⟨body, z.id, x, hshape, hcount.1, hcount.2, fun node hnode => (hok node hnode).1, hnodup, hsched,
    hperm, hord, fun node hnode hop => ?_⟩
  -- the only store of the descriptor is the last one
  have hcountP := hperm.countP_eq fun node => decide (node.op = .store)
  rw [List.countP_append, List.countP_singleton] at hcountP
  have hpos : 0 < body.countP fun node => decide (node.op = .store) :=
    List.countP_pos_iff.mpr ⟨node, hnode, by simpa using hop⟩
  have hself : (Node.mk z.id (.store x)).op = .store := rfl
  simp only [hself, decide_true, if_true] at hcountP
  omega

end Raveil.Graph
