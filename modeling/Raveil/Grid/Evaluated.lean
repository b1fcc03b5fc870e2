import Mathlib.Tactic.Ring
import Raveil.Grid.Reference

/-! A tile computes the words of its cells: its views find the words of the grid, its nodes those of the source. -/
namespace Raveil.Grid
open Lib Fold

section Nodes

variable {load load' : Node → ℕ} {find : Node → Except String ℕ} {nodes emitted : List Node} {result schema : String}
  {node : Node} {values values' : String → Option ℕ} {w i j k : ℕ} {a : List ℕ} {d : Region} {inputs : List (List ℕ)}
  {views : Dict String (List ℤ)} {seen : Finset String}

/-- The word of `result` when the loads find these words. -/
def mapped (load : Node → ℕ) (nodes : List Node) (result : String) : Option ℕ := do
  let values ← evaluate load nodes
  values result

/-- Only a load looks at what it finds. -/
theorem nodeWord_congr (h : node.op = .load → load node = load' node) : nodeWord load node a = nodeWord load' node a := by
  obtain ⟨id, op, view, args, imm⟩ := node
  cases op with
  | load => exact congrArg (fun w : ℕ => some (w : ℤ)) (h rfl)
  | _ => rcases a with _ | ⟨x, _ | ⟨y, a⟩⟩ <;> cases imm <;> rfl

theorem evaluateNode_congr (h : node.op = .load → load node = load' node) :
    evaluateNode load values node = evaluateNode load' values node := by
  unfold evaluateNode
  cases node.arguments.mapM values with
  | none => rfl
  | some a => rw [Option.bind_eq_bind, Option.bind_some, Option.bind_eq_bind, Option.bind_some, nodeWord_congr h]

theorem evaluateAt_eq_ok (h : node.op = .load → find node = .ok (load node)) :
    evaluateAt find values node = .ok values' ↔ evaluateNode load values node = some values' := by
  obtain ⟨w, hw, hload⟩ : ∃ w, loadedWord find node = .ok w ∧ (node.op = .load → w = load node) := by
    unfold loadedWord
    split
    · rename_i hop
      exact ⟨_, h hop, fun _ => rfl⟩
    · rename_i hop
      exact ⟨0, rfl, fun hload => absurd hload hop⟩
  rw [← @evaluateNode_congr (fun _ => w) load node values hload]
  unfold evaluateAt
  rw [hw]
  cases hv : evaluateNode (fun _ => w) values node with
  | none => simp [bind, Except.bind, hv]
  | some v => simp [bind, Except.bind, hv, pure, Except.pure]

theorem evaluateNodes_eq_ok (h : ∀ n ∈ nodes, n.op = .load → find n = .ok (load n)) :
    nodes.foldlM (evaluateAt find) values = .ok values' ↔ nodes.foldlM (evaluateNode load) values = some values' := by
  induction nodes generalizing values with
  | nil => simp [pure, Except.pure]
  | cons n ns ih =>
    rw [List.forall_mem_cons] at h
    rw [List.foldlM_cons, List.foldlM_cons, except_bind_eq_ok, Option.bind_eq_bind, Option.bind_eq_some_iff]
    constructor
    · rintro ⟨next, hn, hns⟩
      exact ⟨next, (evaluateAt_eq_ok h.1).mp hn, (ih h.2).mp hns⟩
    · rintro ⟨next, hn, hns⟩
      exact ⟨next, (evaluateAt_eq_ok h.1).mpr hn, (ih h.2).mpr hns⟩

/-- The reference of a map is its word. -/
theorem resultWord_eq_ok (h : ∀ n ∈ nodes, n.op = .load → find n = .ok (load n)) :
    resultWord find nodes result = .ok w ↔ mapped load nodes result = some w := by
  unfold resultWord mapped evaluate
  rw [except_bind_eq_ok, Option.bind_eq_bind, Option.bind_eq_some_iff]
  constructor
  · rintro ⟨values, hrun, hw⟩
    refine ⟨values, (evaluateNodes_eq_ok h).mp hrun, ?_⟩
    cases hv : values result with
    | none =>
      rw [hv] at hw
      cases hw
    | some v =>
      rw [hv] at hw
      cases hw
      rfl
  · rintro ⟨values, hrun, hw⟩
    exact ⟨values, (evaluateNodes_eq_ok h).mpr hrun, by rw [hw]; rfl⟩

/-- On an admitted node the two interpreters agree. -/
theorem foldNode_eq (hok : NodeOk views seen node)
    (hload : node.op = .load → loadWord d inputs i j k node = some (load node)) :
    Fold.evaluateNode d inputs i j k values node = evaluateNode load values node := by
  unfold Fold.evaluateNode evaluateNode
  cases node.arguments.mapM values with
  | none => rfl
  | some a =>
    have hword : Fold.nodeWord d inputs i j k node a = nodeWord load node a := by
      cases hok with
      | load hid hv =>
        unfold Fold.nodeWord nodeWord
        dsimp only
        rw [hload rfl]
        rfl
      | binary hid hop hx hy =>
        rcases hop with rfl | rfl | rfl <;> rcases a with _ | ⟨x, _ | ⟨y, a⟩⟩ <;> simp [Fold.nodeWord, nodeWord]
      | immediate hid hop hx h0 hm =>
        rcases hop with rfl | rfl <;> rcases a with _ | ⟨x, a⟩ <;> simp [Fold.nodeWord, nodeWord]
    rw [Option.bind_eq_bind, Option.bind_some, Option.bind_eq_bind, Option.bind_some, hword]

theorem foldNodes_eq (hssa : SSAOk views seen nodes)
    (hload : ∀ n ∈ nodes, n.op = .load → loadWord d inputs i j k n = some (load n)) :
    nodes.foldlM (Fold.evaluateNode d inputs i j k) values = nodes.foldlM (evaluateNode load) values := by
  induction nodes generalizing seen values with
  | nil => rfl
  | cons n ns ih =>
    rw [List.forall_mem_cons] at hload
    rw [List.foldlM_cons, List.foldlM_cons, foldNode_eq hssa.1 hload.1]
    exact bind_congr fun next => ih hssa.2 hload.2

/-- The word of a region's nodes is that of their map. -/
theorem foldNodes_mapped (hssa : SSAOk views seen nodes)
    (hload : ∀ n ∈ nodes, n.op = .load → loadWord d inputs i j k n = some (load n)) (result : String) :
    (nodes.foldlM (Fold.evaluateNode d inputs i j k) fun _ => none) >>= (fun values => values result) =
      mapped load nodes result := by
  rw [foldNodes_eq hssa hload]
  rfl

/-- The nodes that the compiler gets have the result of the source nodes. -/
theorem mapped_mapNodes (h : mapNodes schema nodes result = .ok emitted) (load : Node → ℕ) :
    mapped load emitted result = mapped load nodes result := by
  unfold mapNodes at h
  split at h
  · simp only [lower, except_bind_eq_ok, require_eq_ok, exists_const, except_pure_eq_ok] at h
    obtain ⟨-, seen, hchecked, hin, rfl⟩ := h
    have hstart : Target load seen ∅ { reserved := seen } fun _ => none :=
      { run := rfl, domain := by simp, defined := by simp, nodup := by simp, order := dependencyOrder_nil
        unsigned := by simp, sources_reserved := subset_rfl, emitted_reserved := by simp, pending := by simp
        small := by simp, sign := by simp, biased := by simp }
    have hnone : Same ∅ (fun _ => none) fun _ => none := by
      intro x hx
      cases hx
    obtain ⟨source, target, hsource, htarget, hsame⟩ := lower_same _ hchecked (mem_seen hchecked).2 hstart hnone
    obtain ⟨w, hs, ht⟩ := hsame result hin
    unfold mapped
    rw [htarget.run, evaluate, hsource]
    exact ht.trans hs.symm
  · cases h
    rfl

end Nodes

section Views

variable {value : Source} {a : Admitted} {at_ : Place} {view : View} {r : Rectangle} {index i j k : ℕ} {b : List ℕ}
  {name : String} {grid : Tiling.Grid}

/-- The row of its input that a view reads at `(row, col, k)`. -/
def View.rowAt (view : View) (row col k : ℕ) : ℤ :=
  view.offset.1 + row * view.row.1 + col * view.column.1 + k * view.step.1

def View.columnAt (view : View) (row col k : ℕ) : ℤ :=
  view.offset.2 + row * view.row.2 + col * view.column.2 + k * view.step.2

/-- The word that a load finds at `(row, col, k)`. -/
def viewWord (a : Admitted) (row col k : ℕ) (node : Node) : ℕ :=
  match a.views.get? (node.view.getD "") with
  | none => 0
  | some view =>
    match a.grids[view.input]? with
    | none => 0
    | some grid => Tiling.wordAt grid a.mode (view.rowAt row col k) (view.columnAt row col k)

/-- No view moves backwards. -/
structure View.Forward (view : View) : Prop where
  step : 0 ≤ view.step.1 ∧ 0 ≤ view.step.2
  row : 0 ≤ view.row.1 ∧ 0 ≤ view.row.2
  column : 0 ≤ view.column.1 ∧ 0 ≤ view.column.2

theorem pairOf_nonneg {pair : List ℤ} (h : checkPair 0 pair = .ok ()) : 0 ≤ (pairOf pair).1 ∧ 0 ≤ (pairOf pair).2 := by
  obtain ⟨hlen, h⟩ := require_then_eq_ok.mp h
  obtain ⟨x, y, rfl⟩ := List.length_eq_two.mp hlen
  have hx := require_eq_ok.mp (forM_eq_ok.mp h x (by simp))
  have hy := require_eq_ok.mp (forM_eq_ok.mp h y (by simp))
  exact ⟨hx.1, hy.1⟩

theorem forward_of_checked {v2 : Prop} [Decidable v2] {inputs : ℕ} {entry : String × ViewSource}
    (h : checkView v2 inputs entry = .ok ()) : (viewOf entry.2).Forward := by
  obtain ⟨-, h⟩ := require_then_eq_ok.mp h
  obtain ⟨-, h⟩ := check_then_eq_ok.mp h
  obtain ⟨-, h⟩ := check_then_eq_ok.mp h
  obtain ⟨hstep, h⟩ := check_then_eq_ok.mp h
  obtain ⟨hrow, hcolumn⟩ := check_then_eq_ok.mp h
  refine ⟨pairOf_nonneg hstep, ?_, ?_⟩
  · unfold viewOf
    dsimp only
    cases hr : entry.2.row with
    | none => exact ⟨by decide, by decide⟩
    | some pair => exact pairOf_nonneg (forM_eq_ok.mp hrow pair (by rw [hr]; exact List.mem_singleton_self pair))
  · unfold viewOf
    dsimp only
    cases hc : entry.2.column with
    | none => exact ⟨by decide, by decide⟩
    | some pair => exact pairOf_nonneg (forM_eq_ok.mp hcolumn pair (by rw [hc]; exact List.mem_singleton_self pair))

theorem SourceOk.forward (h : SourceOk value a) (hv : view ∈ a.views.values) : view.Forward := by
  rw [h.views] at hv
  obtain ⟨e, he, rfl⟩ := List.mem_map.mp hv
  obtain ⟨entry, hentry, rfl⟩ := List.mem_map.mp he
  exact forward_of_checked (h.checked entry hentry)

theorem mem_values (h : a.views.get? name = some view) : view ∈ a.views.values :=
  List.mem_of_getElem? (Dict.values_idxOf h).2

/-- The rectangle holds everything that the view reads in the tile. -/
structure Rectangle.Holds (r : Rectangle) (view : View) (at_ : Place) (extent : ℕ) : Prop where
  row : r.row ≤ (view.origin at_).1 ∧ (view.last at_ extent).1 < r.row + r.height
  column : r.column ≤ (view.origin at_).2 ∧ (view.last at_ extent).2 < r.column + r.width

theorem min_le_of_mem {l : List ℤ} {x : ℤ} (h : x ∈ l) : l.min?.getD 0 ≤ x := by
  cases hm : l.min? with
  | none =>
    rw [List.min?_eq_none_iff.mp hm] at h
    cases h
  | some m => exact (List.min?_eq_some_iff.mp hm).2 x h

theorem le_max_of_mem {l : List ℤ} {x : ℤ} (h : x ∈ l) : x ≤ l.max?.getD 0 := by
  cases hm : l.max? with
  | none =>
    rw [List.max?_eq_none_iff.mp hm] at h
    cases h
  | some m => exact (List.max?_eq_some_iff.mp hm).2 x h

theorem rectangle_holds (hv : view ∈ a.views.values) :
    ∃ r, rectangle a at_ view.input = some r ∧ r.Holds view at_ a.extent := by
  have hmem : view ∈ a.views.values.filter fun v => v.input = view.input := by simp [hv]
  unfold rectangle
  cases hviews : a.views.values.filter fun v => v.input = view.input with
  | nil =>
    rw [hviews] at hmem
    cases hmem
  | cons v vs =>
    rw [hviews] at hmem
    refine ⟨_, rfl, ?_, ?_⟩
    · have hlow := min_le_of_mem (List.mem_map_of_mem (f := fun v : View => (v.origin at_).1) hmem)
      have hhigh := le_max_of_mem (List.mem_map_of_mem (f := fun v : View => (v.last at_ a.extent).1) hmem)
      dsimp only at hlow hhigh ⊢
      omega
    · have hlow := min_le_of_mem (List.mem_map_of_mem (f := fun v : View => (v.origin at_).2) hmem)
      have hhigh := le_max_of_mem (List.mem_map_of_mem (f := fun v : View => (v.last at_ a.extent).2) hmem)
      dsimp only at hlow hhigh ⊢
      omega

/-- A cell of the rectangle, in the order of its words. -/
theorem bufferOf_word (hb : bufferOf a at_ index = .ok b) (hr : rectangle a at_ index = some r)
    (hg : a.grids[index]? = some grid) {x y : ℤ} (hx : 0 ≤ x ∧ x < r.height) (hy : 0 ≤ y ∧ y < r.width) :
    pyGet? b (x * r.width + y) = some (Tiling.wordAt grid a.mode (r.row + x) (r.column + y)) := by
  unfold bufferOf at hb
  rw [hr, hg] at hb
  obtain ⟨-, hb⟩ := require_then_eq_ok.mp hb
  rw [mapM_eq_map fun _ _ => Tiling.sample_eq, Tiling.cells, flatMap_rowMajor] at hb
  obtain ⟨m, rfl⟩ := Int.eq_ofNat_of_zero_le hx.1
  obtain ⟨n, rfl⟩ := Int.eq_ofNat_of_zero_le hy.1
  obtain ⟨height, hh⟩ := Int.eq_ofNat_of_zero_le (show 0 ≤ r.height by omega)
  obtain ⟨width, hw⟩ := Int.eq_ofNat_of_zero_le (show 0 ≤ r.width by omega)
  rw [hh] at hx
  rw [hw] at hy
  rw [hh, hw, Int.toNat_natCast, Int.toNat_natCast] at hb
  have hm : m < height := by exact_mod_cast hx.2
  have hn : n < width := by exact_mod_cast hy.2
  have hlt : m * width + n < height * width := by
    calc m * width + n < m * width + width := by omega
      _ = (m + 1) * width := by rw [Nat.add_mul, Nat.one_mul]
      _ ≤ height * width := Nat.mul_le_mul_right _ hm
  have hcast : (m : ℤ) * r.width + n = ((m * width + n : ℕ) : ℤ) := by
    rw [hw]
    push_cast
    rfl
  cases hb
  rw [hcast, pyGet?_natCast, List.map_map, List.getElem?_map, List.getElem?_range hlt, Option.map_some,
    Function.comp_apply, div_row hn, mod_row hn]

theorem View.rowAt_bounds (h : view.Forward) (hi : i < at_.height) (hj : j < at_.width) {extent : ℕ} (hk : k < extent) :
    (view.origin at_).1 ≤ view.rowAt (at_.row + i) (at_.column + j) k ∧
      view.rowAt (at_.row + i) (at_.column + j) k ≤ (view.last at_ extent).1 := by
  have hrow := mul_le_mul_of_nonneg_right (show (i : ℤ) ≤ at_.height - 1 by omega) h.row.1
  have hcolumn := mul_le_mul_of_nonneg_right (show (j : ℤ) ≤ at_.width - 1 by omega) h.column.1
  have hstep := mul_le_mul_of_nonneg_right (show (k : ℤ) ≤ extent - 1 by omega) h.step.1
  have hrow₀ := mul_nonneg (Int.natCast_nonneg i) h.row.1
  have hcolumn₀ := mul_nonneg (Int.natCast_nonneg j) h.column.1
  have hstep₀ := mul_nonneg (Int.natCast_nonneg k) h.step.1
  unfold View.rowAt View.last View.origin
  push_cast
  constructor <;> linarith

theorem View.columnAt_bounds (h : view.Forward) (hi : i < at_.height) (hj : j < at_.width) {extent : ℕ} (hk : k < extent) :
    (view.origin at_).2 ≤ view.columnAt (at_.row + i) (at_.column + j) k ∧
      view.columnAt (at_.row + i) (at_.column + j) k ≤ (view.last at_ extent).2 := by
  have hrow := mul_le_mul_of_nonneg_right (show (i : ℤ) ≤ at_.height - 1 by omega) h.row.2
  have hcolumn := mul_le_mul_of_nonneg_right (show (j : ℤ) ≤ at_.width - 1 by omega) h.column.2
  have hstep := mul_le_mul_of_nonneg_right (show (k : ℤ) ≤ extent - 1 by omega) h.step.2
  have hrow₀ := mul_nonneg (Int.natCast_nonneg i) h.row.2
  have hcolumn₀ := mul_nonneg (Int.natCast_nonneg j) h.column.2
  have hstep₀ := mul_nonneg (Int.natCast_nonneg k) h.step.2
  unfold View.columnAt View.last View.origin
  push_cast
  constructor <;> linarith

/-- A stride is of no matter along one cell. -/
theorem stride_mul {n i : ℕ} (h : i < n) (s : ℤ) : (if 1 < n then s else 0) * i = s * i := by
  split
  · rfl
  · obtain rfl : i = 0 := by omega
    simp

/-- Inside the rectangle the local index is that of the global place. -/
theorem View.inTile_index (hr : rectangle a at_ view.input = some r) (hi : i < at_.height) (hj : j < at_.width)
    (hk : k < a.extent) : ∃ base si sj sk, view.inTile a at_ = [(view.input : ℤ), base, si, sj, sk] ∧
      base + si * i + sj * j + sk * k = (view.rowAt (at_.row + i) (at_.column + j) k - r.row) * r.width +
        (view.columnAt (at_.row + i) (at_.column + j) k - r.column) := by
  unfold View.inTile
  rw [hr]
  refine ⟨_, _, _, _, rfl, ?_⟩
  rw [stride_mul hi, stride_mul hj, stride_mul hk, Option.getD_some]
  unfold View.rowAt View.columnAt View.origin
  push_cast
  ring

variable {buffers : List (List ℕ)} {nodes : List Node} {result : String} {lengths : List ℤ} {node : Node}

theorem buffers_eq (h : (List.range 2).mapM (bufferOf a at_) = .ok buffers) :
    ∃ A B, buffers = [A, B] ∧ bufferOf a at_ 0 = .ok A ∧ bufferOf a at_ 1 = .ok B := by
  obtain ⟨A, hA, h⟩ := except_bind_eq_ok.mp h
  obtain ⟨B, hB, h⟩ := except_bind_eq_ok.mp h
  cases h
  exact ⟨A, B, rfl, hA, hB⟩

/-- What a load finds in the buffers of a tile is what it finds in the grid. -/
theorem SourceOk.loadWord_region (h : SourceOk value a) (hbuffers : (List.range 2).mapM (bufferOf a at_) = .ok buffers)
    (hview : node.view.getD "" ∈ a.views.keys) (hi : i < at_.height) (hj : j < at_.width) (hk : k < a.extent) :
    loadWord (regionOf a nodes result at_ lengths) buffers i j k node =
      some (viewWord a (at_.row + i) (at_.column + j) k node) := by
  obtain ⟨view, hget⟩ := Option.isSome_iff_exists.mp (Dict.get?_isSome.mpr hview)
  have hmem := mem_values hget
  obtain ⟨r, hr, hholds⟩ := @rectangle_holds a at_ view hmem
  have hlt := h.input_lt hget
  have hgrid := List.getElem?_eq_getElem hlt
  have hcount : a.grids.length ≤ 2 := by
    rw [← (mapM_eq_ok_iff.mp h.grids).length_eq]
    exact h.count.2
  obtain ⟨b, hb, hbuffer⟩ : ∃ b, buffers[view.input]? = some b ∧ bufferOf a at_ view.input = .ok b := by
    obtain ⟨A, B, rfl, hA, hB⟩ := buffers_eq hbuffers
    obtain hinput | hinput : view.input = 0 ∨ view.input = 1 := by omega
    · exact ⟨A, by rw [hinput]; rfl, by rw [hinput]; exact hA⟩
    · exact ⟨B, by rw [hinput]; rfl, by rw [hinput]; exact hB⟩
  obtain ⟨base, si, sj, sk, htile, hindex⟩ := View.inTile_index hr hi hj hk
  have hrows := View.rowAt_bounds (h.forward hmem) hi hj hk
  have hcolumns := View.columnAt_bounds (h.forward hmem) hi hj hk
  have hword := bufferOf_word hbuffer hr hgrid (x := view.rowAt (at_.row + i) (at_.column + j) k - r.row)
    (y := view.columnAt (at_.row + i) (at_.column + j) k - r.column)
    ⟨by linarith [hholds.row.1], by linarith [hholds.row.2]⟩ ⟨by linarith [hholds.column.1], by linarith [hholds.column.2]⟩
  rw [add_sub_cancel, add_sub_cancel] at hword
  unfold loadWord viewWord regionOf
  dsimp only
  rw [Dict.get?_mapValues, hget]
  dsimp only
  rw [hgrid]
  simp only [Option.map_some, Option.bind_eq_bind, Option.bind_some, htile, pyGet?_natCast, hb, hindex, hword]

end Views

section Cells

variable {value : Source} {a : Admitted} {at_ : Place} {nodes : List Node} {result : String} {d : Region}
  {inputs buffers : List (List ℕ)} {config A B : List ℕ} {i j : ℕ} {word : ℕ → ℕ}

/-- One iteration of a fold. -/
def foldStep (fold : FoldKind) (acc w : ℕ) : ℕ :=
  match fold with
  | .sum => (acc + w) % 2 ^ 32
  | .max => max acc w

/-- The words of the iterations, folded. -/
def foldWords (fold : FoldKind) (word : ℕ → ℕ) (extent : ℕ) : ℕ :=
  (List.range extent).foldl (fun acc k => foldStep fold acc (word k)) 0

theorem foldWords_succ (fold : FoldKind) (word : ℕ → ℕ) (k : ℕ) :
    foldWords fold word (k + 1) = foldStep fold (foldWords fold word k) (word k) := by
  unfold foldWords
  rw [List.range_succ, List.foldl_append]
  rfl

theorem foldWords_lt (fold : FoldKind) {extent : ℕ} (h : ∀ k < extent, word k < 2 ^ 32) :
    foldWords fold word extent < 2 ^ 32 := by
  induction extent with
  | zero => exact Nat.two_pow_pos 32
  | succ k ih =>
    have hword := h k (Nat.lt_succ_self k)
    have hacc := ih fun j hj => h j (Nat.lt_succ_of_lt hj)
    rw [foldWords_succ]
    cases fold with
    | sum => exact Nat.mod_lt _ (Nat.two_pow_pos 32)
    | max => exact max_lt hacc hword

/-- The word of the kernel at `(row, col, k)`. -/
def kernelWord (a : Admitted) (value : Source) (row col k : ℕ) : ℕ :=
  (mapped (viewWord a row col k) value.kernel.nodes value.kernel.result).getD 0

/-- The folded word of a cell. -/
def accWord (a : Admitted) (value : Source) (at_ : ℕ × ℕ) : ℕ :=
  foldWords a.fold (kernelWord a value at_.1 at_.2) a.extent

/-- The output word of a cell. -/
def cellWord (a : Admitted) (value : Source) (at_ : ℕ × ℕ) : ℕ :=
  match value.post with
  | none => accWord a value at_
  | some post => (mapped (fun _ => accWord a value at_) post.nodes post.result).getD 0

theorem Computes.mapped (h : Computes nodes result) (load : Node → ℕ) :
    mapped load nodes result = some ((mapped load nodes result).getD 0) ∧ (Grid.mapped load nodes result).getD 0 < 2 ^ 32 := by
  obtain ⟨w, hlt, hw⟩ := h.word (fun n => .ok (load n)) fun n _ _ => ⟨_, rfl⟩
  rw [resultWord_eq_ok fun _ _ _ => rfl] at hw
  rw [hw]
  exact ⟨rfl, hlt⟩

theorem Evaluates.loadAt_eq (h : Evaluates value a) (row col k : ℕ) {n : Node} (hn : n ∈ value.kernel.nodes)
    (hop : n.op = .load) : loadAt a row col k n = .ok (viewWord a row col k n) := by
  obtain ⟨view, hview⟩ := Option.isSome_iff_exists.mp (Dict.get?_isSome.mpr (h.views n hn hop))
  have hgrid := List.getElem?_eq_getElem (h.source.input_lt hview)
  unfold loadAt viewWord
  rw [hview]
  dsimp only
  rw [hgrid]
  exact referenceWord_eq _ _ _ _

theorem Evaluates.accWord_lt (h : Evaluates value a) (at_ : ℕ × ℕ) : accWord a value at_ < 2 ^ 32 :=
  foldWords_lt a.fold fun k _ => (h.kernel.mapped (viewWord a at_.1 at_.2 k)).2

/-- The reference of a cell is its output word. -/
theorem Evaluates.referenceCell_eq (h : Evaluates value a) (at_ : ℕ × ℕ) :
    referenceCell a value at_ = .ok (cellWord a value at_) := by
  have hacc : (List.range a.extent).foldlM (fun acc k => do
      let w ← resultWord (loadAt a at_.1 at_.2 k) value.kernel.nodes value.kernel.result
      pure (match a.fold with
        | .sum => (acc + w) % 2 ^ 32
        | .max => max acc w)) 0 = (.ok (accWord a value at_) : Except String ℕ) := by
    refine foldlM_range_pure (m := Except String) (g := foldWords a.fold (kernelWord a value at_.1 at_.2)) fun k _ => ?_
    have hword := (resultWord_eq_ok fun n hn hop => h.loadAt_eq at_.1 at_.2 k hn hop).mpr
      (h.kernel.mapped (viewWord a at_.1 at_.2 k)).1
    rw [foldWords_succ]
    refine except_bind_eq_ok.mpr ⟨_, hword, ?_⟩
    cases a.fold <;> rfl
  unfold referenceCell cellWord
  refine except_bind_eq_ok.mpr ⟨_, hacc, ?_⟩
  cases hp : value.post with
  | none => rfl
  | some post =>
    exact (resultWord_eq_ok fun _ _ _ => rfl).mpr ((h.post post hp).mapped fun _ => accWord a value at_).1

/-- The cell of a region whose iterations have these words. -/
theorem referenceCell_region (h : ∀ k < d.extent.toNat,
    (d.nodes.foldlM (Fold.evaluateNode d inputs i j k) fun _ => none) >>= (fun values => values d.result) = some (word k)) :
    Fold.referenceCell d inputs i j = some (foldWords d.fold word d.extent.toNat) := by
  refine foldlM_range_pure (m := Option) (g := foldWords d.fold word) fun k hk => ?_
  obtain ⟨values, hrun, hw⟩ := Option.bind_eq_some_iff.mp (h k hk)
  rw [foldWords_succ, hrun, Option.bind_eq_bind, Option.bind_some, hw]
  cases d.fold <;> rfl

/-- The words of a region that compiles, from the words of its cells. -/
theorem reference_region (hc : compileRegion d = .ok config) (hlengths : d.lengths = [(A.length : ℤ), (B.length : ℤ)])
    (hA : ∀ w ∈ A, w < 2 ^ 32) (hB : ∀ w ∈ B, w < 2 ^ 32) {height width : ℕ}
    (hshape : d.shape = [(height : ℤ), (width : ℤ)]) {f : ℕ → ℕ → ℕ}
    (h : ∀ i < height, ∀ j < width, Fold.referenceCell d [A, B] i j = some (f i j)) :
    Fold.reference d [A, B] = .ok ((Tiling.cells height width).map fun cell => f cell.1 cell.2) := by
  have hresult : (List.range height).foldlM (fun result i => (List.range width).foldlM (fun (result : List ℕ) j => do
      pure (result ++ [← Fold.referenceCell d [A, B] i j])) result) [] =
      some ((Tiling.cells height width).map fun cell => f cell.1 cell.2) := by
    rw [foldlM_rowMajor fun (result : List ℕ) i j => (do
      pure (result ++ [← Fold.referenceCell d [A, B] i j]) : Option (List ℕ)), Tiling.cells, flatMap_rowMajor, List.map_map]
    refine foldlM_range_pure (m := Option) (g := fun n => (List.range n).map fun n => f (n / width) (n % width))
      fun n hn => ?_
    have hpos : 0 < width := Nat.pos_of_ne_zero fun h0 => by simp [h0] at hn
    rw [h _ (Nat.div_lt_of_lt_mul (by rwa [Nat.mul_comm])) _ (Nat.mod_lt _ hpos), List.range_succ, List.map_append]
    rfl
  unfold Fold.reference
  rw [hshape]
  simp only [List.getD_cons_zero, List.getD_cons_succ, Int.toNat_natCast]
  refine except_bind_eq_ok.mpr ⟨config, hc, require_then_eq_ok.mpr ⟨rfl, check_then_eq_ok.mpr ⟨?_, ?_⟩⟩⟩
  · have hwords : ∀ l : List ℕ, (∀ w ∈ l, w < 2 ^ 32) → ∀ w ∈ l, int w 0 MASK = .ok () := by
      intro l hl w hw
      have := hl w hw
      exact int_eq_ok.mpr ⟨by omega, by unfold MASK; omega⟩
    rw [hlengths, List.zip_cons_cons, List.zip_cons_cons, List.zip_nil_right]
    refine forM_eq_ok.mpr fun p hp => ?_
    rcases List.mem_cons.mp hp with rfl | hp
    · exact require_then_eq_ok.mpr ⟨rfl, forM_eq_ok.mpr (hwords A hA)⟩
    · rw [List.mem_singleton.mp hp]
      exact require_then_eq_ok.mpr ⟨rfl, forM_eq_ok.mpr (hwords B hB)⟩
  · rw [hresult]
    rfl

end Cells

end Raveil.Grid
