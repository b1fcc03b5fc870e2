import Raveil.ArrayProgram.Program
import Raveil.Flow.Lowers

/-! What a bound pass computes: a pointwise source maps the words of its planes, cell by cell. -/
namespace Raveil.ArrayProgram
open Lib
open Raveil.Flow (Input Output zeros)
open Fold (Node Op)
open Grid (GridInput SourceOk mapped evaluate evaluateNode nodeWord cellWord)

variable {grid grid' : Tiling.Grid} {v : GridInput} {shape : ℕ × ℕ} {word word' : ℕ → ℕ → ℕ} {words : List ℕ}
  {mode : Tiling.Boundary} {r c : ℤ}

section Planes

/-- The plane of a grid. -/
def ofGrid (grid : Tiling.Grid) : Output := ⟨grid.rows, grid.columns, grid.words⟩

theorem ofGrid_injective (h : ofGrid grid = ofGrid grid') : grid = grid' := by
  obtain ⟨rows, columns, words, _, _, _, _, _, _⟩ := grid
  obtain ⟨rows', columns', words', _, _, _, _, _, _⟩ := grid'
  cases h
  rfl

/-- A plane within the bounds is that of a grid. -/
theorem exists_grid {rows columns : ℕ} (hr : 1 ≤ rows ∧ rows ≤ 64) (hc : 1 ≤ columns ∧ columns ≤ 64)
    (hlen : words.length = rows * columns) (hlt : ∀ w ∈ words, w < 2 ^ 32) :
    ∃ grid, ofGrid grid = ⟨rows, columns, words⟩ :=
  ⟨⟨rows, columns, words, hr.1, hr.2, hc.1, hc.2, hlen, hlt⟩, rfl⟩

/-- What is read of an input that is written out is its plane. -/
theorem literal_eq (h : Grid.readInput v = .ok grid) : literal v = ofGrid grid := by
  unfold Grid.readInput at h
  split at h
  · cases h
  · split at h
    · split at h
      · cases h
        rfl
      · cases h
    · cases h

theorem readInput_planeInput (grid : Tiling.Grid) : Grid.readInput (planeInput (ofGrid grid)) = .ok grid := by
  obtain ⟨grid', hread, -⟩ := Flow.readInput_output ⟨grid.rows_pos, grid.rows_le⟩ ⟨grid.columns_pos, grid.columns_le⟩
    grid.length_words grid.words_lt
  have hplane := literal_eq hread
  obtain rfl : grid = grid' := by
    apply ofGrid_injective
    rw [← hplane]
    unfold literal ofGrid
    simp [Function.comp_def]
  exact hread

theorem sample_eq (grid : Tiling.Grid) : sample (ofGrid grid) r c mode = .ok (Tiling.wordAt grid mode r c) :=
  Tiling.sample_eq

/-- The grid has this shape and these words. -/
structure Shows (grid : Tiling.Grid) (shape : ℕ × ℕ) (word : ℕ → ℕ → ℕ) : Prop where
  rows : grid.rows = shape.1
  columns : grid.columns = shape.2
  words : ∀ r < shape.1, ∀ c < shape.2, Tiling.wordAt grid .zero r c = word r c

theorem wordAt_inside {r c : ℕ} (hr : r < grid.rows) (hc : c < grid.columns) :
    Tiling.wordAt grid .zero r c = grid.words.getD (r * grid.columns + c) 0 := by
  unfold Tiling.wordAt
  dsimp only
  rw [if_pos (by omega), Int.toNat_natCast, Int.toNat_natCast]

theorem shows_of_words {f : ℕ × ℕ → ℕ} (h : ofGrid grid = ⟨shape.1, shape.2, (Tiling.cells shape.1 shape.2).map f⟩) :
    Shows grid shape fun r c => f (r, c) := by
  obtain ⟨hrows, hcolumns, hwords⟩ := Output.mk.inj h
  refine ⟨hrows, hcolumns, ?_⟩
  intro r hr c hc
  have hlt : r * shape.2 + c < shape.1 * shape.2 := by
    calc r * shape.2 + c < r * shape.2 + shape.2 := by omega
      _ = (r + 1) * shape.2 := by rw [Nat.add_mul, Nat.one_mul]
      _ ≤ shape.1 * shape.2 := Nat.mul_le_mul_right _ hr
  rw [wordAt_inside (by omega) (by omega), hwords, hcolumns, Tiling.cells, flatMap_rowMajor, List.map_map,
    List.getD_eq_getElem?_getD, List.getElem?_map, List.getElem?_range hlt, Option.map_some, Option.getD_some,
    Function.comp_apply, div_row hc, mod_row hc]

/-- The words of a grid that shows them. -/
theorem Shows.ofGrid_eq (h : Shows grid shape word) :
    ofGrid grid = ⟨shape.1, shape.2, (Tiling.cells shape.1 shape.2).map fun at_ => word at_.1 at_.2⟩ := by
  have hwords : grid.words = (Tiling.cells shape.1 shape.2).map fun at_ => word at_.1 at_.2 := by
    rw [Tiling.cells, flatMap_rowMajor, List.map_map]
    apply List.ext_getElem
    · rw [grid.length_words, h.rows, h.columns, List.length_map, List.length_range]
    · intro i hi hi'
      rw [List.length_map, List.length_range] at hi'
      have hpos : 0 < shape.2 := Nat.pos_of_ne_zero fun h0 => by simp [h0] at hi'
      have hdiv : i / shape.2 < shape.1 := Nat.div_lt_of_lt_mul (by rwa [Nat.mul_comm])
      have hmod : i % shape.2 < shape.2 := Nat.mod_lt _ hpos
      have hword := h.words (i / shape.2) hdiv (i % shape.2) hmod
      rw [wordAt_inside (by rw [h.rows]; exact hdiv) (by rw [h.columns]; exact hmod), h.columns, Nat.div_add_mod',
        List.getD_eq_getElem?_getD, List.getElem?_eq_getElem hi, Option.getD_some] at hword
      rw [hword, List.getElem_map, List.getElem_range]
      rfl
  rw [← hwords, ← h.rows, ← h.columns]
  rfl

theorem Shows.congr (h : Shows grid shape word) (hword : ∀ r < shape.1, ∀ c < shape.2, word r c = word' r c) :
    Shows grid shape word' :=
  ⟨h.rows, h.columns, fun r hr c hc => (h.words r hr c hc).trans (hword r hr c hc)⟩

theorem Shows.word_lt (h : Shows grid shape word) {r c : ℕ} (hr : r < shape.1) (hc : c < shape.2) : word r c < 2 ^ 32 := by
  rw [← h.words r hr c hc]
  exact Tiling.wordAt_lt

end Planes

section Mapped

variable {load load' : Node → ℕ} {nodes : List Node} {values : String → Option ℕ} {result : String}

end Mapped

section Pointwise

variable {grids : List Tiling.Grid} {nodes : List Node} {result : String} {a : Grid.Admitted} {l : Grid.Lowered} {n i : ℕ}

/-- The view of the input `i` at its own place. -/
def ownView (i : ℕ) : Grid.ViewSource :=
  { input := i, offset := [0, 0], step := [0, 0], row := some [1, 0], column := some [0, 1] }

theorem planeViews_get? {name : String} {view : Grid.ViewSource} (h : (planeViews n).get? name = some view) :
    ∃ i < n, name = numbered "v" i ∧ view = ownView i := by
  obtain ⟨entry, hfind, rfl⟩ := Option.map_eq_some_iff.mp h
  have hname := List.find?_some hfind
  obtain ⟨i, hi, rfl⟩ := List.mem_map.mp (List.mem_of_find?_eq_some hfind)
  exact ⟨i, List.mem_range.mp hi, (of_decide_eq_true hname).symm, rfl⟩

theorem planeViews_numbered (hi : i < n) : (planeViews n).get? (numbered "v" i) = some (ownView i) := by
  have hmem : numbered "v" i ∈ (planeViews n).keys := by
    unfold Dict.keys planeViews
    rw [List.map_map]
    exact List.mem_map.mpr ⟨i, List.mem_range.mpr hi, rfl⟩
  obtain ⟨view, hview⟩ := Option.isSome_iff_exists.mp (Dict.get?_isSome.mpr hmem)
  obtain ⟨j, -, hname, rfl⟩ := planeViews_get? hview
  rw [hview, numbered_injective "v" hname]

/-- Words by row and column. -/
abbrev Field := ℕ → ℕ → ℕ

/-- The words of a grid. -/
def field (grid : Tiling.Grid) : Field := fun r c => Tiling.wordAt grid .zero r c

/-- The word that a load finds at a cell of its operand. -/
def slotWord (fields : List Field) (r c : ℕ) (node : Node) : ℕ :=
  match (planeViews fields.length).get? (node.view.getD "") with
  | none => 0
  | some view =>
    match fields[view.input.toNat]? with
    | none => 0
    | some f => f r c

theorem slotWord_numbered {fields : List Field} {f : Field} {node : Node} (hv : node.view = some (numbered "v" i))
    (hf : fields[i]? = some f) (r c : ℕ) : slotWord fields r c node = f r c := by
  unfold slotWord
  rw [hv, Option.getD_some, planeViews_numbered (List.getElem?_eq_some_iff.mp hf).1]
  dsimp only [ownView]
  rw [Int.toNat_natCast, hf]

/-- Operands that agree at a cell are the same to a load. -/
theorem slotWord_congr {fields fields' : List Field} {r c : ℕ} (h : List.Forall₂ (fun f f' => f r c = f' r c) fields fields') :
    slotWord fields r c = slotWord fields' r c := by
  funext node
  unfold slotWord
  rw [h.length_eq]
  cases hget : (planeViews fields'.length).get? (node.view.getD "") with
  | none => rfl
  | some view =>
    obtain ⟨i, hi, -, rfl⟩ := planeViews_get? hget
    dsimp only [ownView]
    rw [Int.toNat_natCast, List.getElem?_eq_getElem hi, List.getElem?_eq_getElem (h.length_eq ▸ hi)]
    exact h.get _ _

/-- A pointwise source over the planes of grids. -/
abbrev onPlanes (grids : List Tiling.Grid) (shape : ℕ × ℕ) (nodes : List Node) (result : String) : Grid.Source :=
  pointwise (grids.map fun grid => planeInput (ofGrid grid)) shape nodes result

/-- What the admission of a pointwise source says. -/
structure Pointwise (grids : List Tiling.Grid) (shape : ℕ × ℕ) (a : Grid.Admitted) : Prop where
  inputs : a.grids = grids
  mode : a.mode = .zero
  extent : a.extent = 1
  fold : a.fold = .sum
  views : a.views = (planeViews grids.length).mapValues Grid.viewOf
  rows : a.rows = shape.1
  columns : a.columns = shape.2

theorem pointwise_of_source (h : SourceOk (onPlanes grids shape nodes result) a) : Pointwise grids shape a := by
  have hread : (grids.map fun grid => planeInput (ofGrid grid)).mapM Grid.readInput = .ok grids := by
    apply mapM_encode
    intro grid _
    exact readInput_planeInput grid
  constructor
  · exact Except.ok.inj (h.grids.symm.trans hread)
  · exact (Except.ok.inj (h.mode.symm.trans rfl))
  · exact h.extent_eq
  · exact (Except.ok.inj (h.fold.symm.trans rfl))
  · rw [h.views]
    change (planeViews (grids.map fun grid => planeInput (ofGrid grid)).length).mapValues Grid.viewOf = _
    rw [List.length_map]
  · rw [h.rows]
    exact Int.toNat_natCast _
  · rw [h.columns]
    exact Int.toNat_natCast _

theorem Pointwise.viewWord_eq (h : Pointwise grids shape a) (r c k : ℕ) (node : Node) :
    Grid.viewWord a r c k node = slotWord (grids.map field) r c node := by
  unfold Grid.viewWord slotWord
  rw [h.views, Dict.get?_mapValues, h.inputs, h.mode, List.length_map]
  cases hget : (planeViews grids.length).get? (node.view.getD "") with
  | none => rfl
  | some view =>
    obtain ⟨i, -, -, rfl⟩ := planeViews_get? hget
    have hrow : (Grid.viewOf (ownView i)).rowAt r c k = r := by
      simp [Grid.View.rowAt, Grid.viewOf, ownView, Grid.pairOf]
    have hcolumn : (Grid.viewOf (ownView i)).columnAt r c k = c := by
      simp [Grid.View.columnAt, Grid.viewOf, ownView, Grid.pairOf]
    rw [Option.map_some]
    dsimp only
    rw [hrow, hcolumn, List.getElem?_map]
    cases hg : grids[(ownView i).input.toNat]? with
    | none => simp [Grid.viewOf, hg]
    | some grid => simp [Grid.viewOf, hg, field]

/-- The reference of a source that compiles lists the words of its cells. -/
theorem reference_eq {value : Grid.Source} (h : Grid.compile value = .ok l) :
    ∃ a, Grid.source value = .ok a ∧ Grid.Evaluates value a ∧
      Grid.reference value = .ok ((Tiling.cells a.rows a.columns).map (cellWord a value)) := by
  obtain ⟨a, ha, heval⟩ := Grid.evaluates_of_compile h
  exact ⟨a, ha, heval, except_bind_eq_ok.mpr ⟨l, h, except_bind_eq_ok.mpr ⟨a, ha,
    mapM_eq_map fun at_ _ => heval.referenceCell_eq at_⟩⟩⟩

/-- A pointwise source maps the words of each cell. -/
theorem pointwise_reference (h : Grid.compile (onPlanes grids shape nodes result) = .ok l) :
    Grid.reference (onPlanes grids shape nodes result) = .ok ((Tiling.cells shape.1 shape.2).map fun at_ =>
      (mapped (slotWord (grids.map field) at_.1 at_.2) nodes result).getD 0) := by
  obtain ⟨a, ha, heval, hreference⟩ := reference_eq h
  have hp := pointwise_of_source heval.source
  rw [hreference, hp.rows, hp.columns]
  congr 1
  apply List.map_congr_left
  intro at_ _
  have hload : Grid.viewWord a at_.1 at_.2 0 = slotWord (grids.map field) at_.1 at_.2 :=
    funext fun node => hp.viewWord_eq at_.1 at_.2 0 node
  have hlt := (heval.kernel.mapped (Grid.viewWord a at_.1 at_.2 0)).2
  rw [hload] at hlt
  change Grid.accWord a (onPlanes grids shape nodes result) at_ = _
  unfold Grid.accWord
  rw [hp.extent, hp.fold, Grid.foldWords_succ]
  change (0 + Grid.kernelWord a (onPlanes grids shape nodes result) at_.1 at_.2 0) % 2 ^ 32 = _
  unfold Grid.kernelWord
  rw [hload, Nat.zero_add]
  exact Nat.mod_eq_of_lt hlt

end Pointwise

section Scalar

variable {fields : List Field} {op : Op} {imm : Option ℤ} {n r c : ℕ}

/-- The word of one operation before masking, from the words of its operands. -/
def scalarWord (op : Op) (imm : Option ℤ) (words : List ℕ) : Option ℤ :=
  nodeWord (fun _ => words.headD 0) { id := "", op, imm } words

/-- The word of a pass of one operation. -/
def passWord (op : Op) (imm : Option ℤ) (words : List ℕ) : ℕ :=
  ((scalarWord op imm words).map fun v => (v % 2 ^ 32).toNat).getD 0

theorem toNat_emod {w : ℕ} (h : w < 2 ^ 32) : ((w : ℤ) % 2 ^ 32).toNat = w := by omega

theorem passWord_load {w : ℕ} {words : List ℕ} (h : w < 2 ^ 32) (imm : Option ℤ) : passWord .load imm (w :: words) = w := by
  change ((w : ℤ) % 2 ^ 32).toNat = w
  exact toNat_emod h

/-- The load of the operand `i`. -/
abbrev operandLoad (i : ℕ) : Node := { id := numbered "a" i, op := .load, view := some (numbered "v" i) }

/-- The node of the operation, over `n` operands. -/
abbrev outNode (op : Op) (imm : Option ℤ) (n : ℕ) : Node :=
  { id := "out", op, args := some ((operandLoads n).map (·.id)), imm }

theorem operandLoads_succ (n : ℕ) : operandLoads (n + 1) = operandLoads n ++ [operandLoad n] := by
  unfold operandLoads
  rw [List.range_succ, List.map_append]
  rfl

theorem evaluateNode_of {load : Node → ℕ} {values : String → Option ℕ} {node : Node} {a : List ℕ} {v : ℤ}
    (ha : node.arguments.mapM values = some a) (hv : nodeWord load node a = some v) :
    evaluateNode load values node = some (Function.update values node.id (some (v % 2 ^ 32).toNat)) := by
  simp [evaluateNode, ha, hv]

/-- Only a load looks at what it finds. -/
theorem nodeWord_eq {load : Node → ℕ} {node : Node} (h : node.op ≠ .load) (a : List ℕ) :
    nodeWord load node a = scalarWord node.op node.imm a := by
  obtain ⟨id, op, view, args, imm⟩ := node
  cases op with
  | load => exact absurd rfl h
  | _ => rcases a with _ | ⟨x, _ | ⟨y, a⟩⟩ <;> cases imm <;> rfl

/-- A node that is no load gets the word of its operation. -/
theorem evaluateNode_pass {load : Node → ℕ} {values : String → Option ℕ} {node : Node} {a : List ℕ} {v : ℤ}
    (hop : node.op ≠ .load) (ha : node.arguments.mapM values = some a) (hv : scalarWord node.op node.imm a = some v) :
    evaluateNode load values node = some (Function.update values node.id (some (passWord node.op node.imm a))) := by
  rw [evaluateNode_of ha ((nodeWord_eq hop a).trans hv), passWord, hv]
  rfl

/-- A load gets the word that it finds. -/
theorem evaluateNode_load {load : Node → ℕ} {values : String → Option ℕ} {node : Node} (hop : node.op = .load)
    (hargs : node.arguments = []) (hlt : load node < 2 ^ 32) :
    evaluateNode load values node = some (Function.update values node.id (some (load node))) := by
  obtain ⟨id, op, view, args, imm⟩ := node
  dsimp only at hop
  subst hop
  have ha : (Node.mk id .load view args imm).arguments.mapM values = some [] := by
    rw [hargs]
    rfl
  have hv : nodeWord load (Node.mk id .load view args imm) [] = some ((load (Node.mk id .load view args imm) : ℕ) : ℤ) := rfl
  rw [evaluateNode_of ha hv, toNat_emod hlt]

/-- The loads of the operands get their words. -/
theorem evaluate_operandLoads (hlt : ∀ f ∈ fields, f r c < 2 ^ 32) (hn : n ≤ fields.length) :
    ∃ values, evaluate (slotWord fields r c) (operandLoads n) = some values ∧
      ∀ i < n, ∀ f, fields[i]? = some f → values (numbered "a" i) = some (f r c) := by
  induction n with
  | zero => exact ⟨fun _ => none, rfl, fun i hi => absurd hi (Nat.not_lt_zero i)⟩
  | succ n ih =>
    obtain ⟨values, hrun, hall⟩ := ih (by omega)
    have hf := List.getElem?_eq_getElem (show n < fields.length by omega)
    have hword : slotWord fields r c (operandLoad n) = fields[n] r c := slotWord_numbered rfl hf r c
    have hsmall : slotWord fields r c (operandLoad n) < 2 ^ 32 := by
      rw [hword]
      exact hlt _ (List.getElem_mem _)
    refine ⟨Function.update values (numbered "a" n) (some (fields[n] r c)), ?_, ?_⟩
    · have hnode : evaluateNode (slotWord fields r c) values (operandLoad n) = _ := evaluateNode_load rfl rfl hsmall
      unfold evaluate at hrun ⊢
      rw [operandLoads_succ, List.foldlM_append, hrun, Option.bind_eq_bind, Option.bind_some, List.foldlM_cons, hnode, hword]
      rfl
    · intro i hi f hif
      by_cases heq : i = n
      · subst heq
        rw [Function.update_self]
        rw [hf] at hif
        cases hif
        rfl
      · have hne : numbered "a" i ≠ numbered "a" n := fun h => heq (numbered_injective "a" h)
        rw [Function.update_of_ne hne]
        exact hall i (by omega) f hif

theorem mapM_operands {values : String → Option ℕ} {word : Field → ℕ}
    (h : ∀ i, ∀ f, fields[i]? = some f → values (numbered "a" i) = some (word f)) :
    ((operandLoads fields.length).map (·.id)).mapM values = some (fields.map word) := by
  unfold operandLoads
  rw [List.map_map]
  induction fields using List.reverseRecOn with
  | nil => rfl
  | append_singleton fields f ih =>
    have hinit : ∀ i, ∀ g, fields[i]? = some g → values (numbered "a" i) = some (word g) := by
      intro i g hg
      apply h i g
      rw [List.getElem?_append_left (List.getElem?_eq_some_iff.mp hg).1]
      exact hg
    rw [List.length_append, List.length_singleton, List.range_succ, List.map_append, List.mapM_append, ih hinit]
    have hlast := h fields.length f (by simp)
    simp [hlast]

/-- The nodes of a pass of one operation compute its word. -/
theorem mapped_scalar (op : Op) (imm : Option ℤ) (hlt : ∀ f ∈ fields, f r c < 2 ^ 32) (hpos : 0 < fields.length) :
    (mapped (slotWord fields r c) (scalarNodes op imm fields.length) (scalarResult op)).getD 0 =
      passWord op imm (fields.map fun f => f r c) := by
  obtain ⟨values, hrun, hall⟩ := evaluate_operandLoads hlt le_rfl
  have hwords : ∀ i, ∀ f, fields[i]? = some f → values (numbered "a" i) = some (f r c) :=
    fun i f hf => hall i (List.getElem?_eq_some_iff.mp hf).1 f hf
  unfold mapped scalarNodes scalarResult
  by_cases hop : op = .load
  · rw [if_pos hop, if_pos hop, hrun]
    cases fields with
    | nil => cases hpos
    | cons f fields =>
      rw [hop, Option.bind_eq_bind, Option.bind_some, hwords 0 f rfl, Option.getD_some]
      exact (passWord_load (hlt f List.mem_cons_self) imm).symm
  · rw [if_neg hop, if_neg hop]
    unfold evaluate at hrun ⊢
    rw [List.foldlM_append, hrun]
    have hargs : (outNode op imm fields.length).arguments.mapM values = some (fields.map fun f => f r c) :=
      mapM_operands hwords
    cases hv : scalarWord op imm (fields.map fun f => f r c) with
    | none =>
      have hnone : evaluateNode (slotWord fields r c) values (outNode op imm fields.length) = none := by
        simp [evaluateNode, hargs, @nodeWord_eq _ (outNode op imm fields.length) hop, hv]
      unfold passWord
      simp [hnone, hv]
    | some v =>
      have hsome : evaluateNode (slotWord fields r c) values (outNode op imm fields.length) = _ :=
        evaluateNode_pass hop hargs hv
      simp [hsome]

end Scalar

end Raveil.ArrayProgram
