import Raveil.Graph.Safety
import Raveil.Lib.RowMajor
import Raveil.Tiling.Kernel

/-! The value that a graph has at a cell, which the oracle on a halo and the untiled reference both compute. -/
namespace Raveil.Tiling
open Raveil.Lib Raveil.Graph

section Boundary

variable {grid : Grid} {mode : Boundary} {r k : ℤ}

/-- The word of a grid at a place, which may lie outside. -/
def wordAt (grid : Grid) (mode : Boundary) (r k : ℤ) : ℕ :=
  let inner (r k : ℤ) : ℕ := grid.words.getD (r.toNat * grid.columns + k.toNat) 0
  match mode with
  | .zero => if 0 ≤ r ∧ r < grid.rows ∧ 0 ≤ k ∧ k < grid.columns then inner r k else 0
  | .clamp => inner (max 0 (min r (grid.rows - 1))) (max 0 (min k (grid.columns - 1)))
  | .wrap => inner (r % grid.rows) (k % grid.columns)

theorem wordAt_lt : wordAt grid mode r k < 2 ^ 32 := by
  have hinner (n : ℕ) : grid.words.getD n 0 < 2 ^ 32 := by
    rw [List.getD_eq_getElem?_getD]
    cases h : grid.words[n]? with
    | none => decide
    | some w => exact grid.words_lt w (List.mem_of_getElem? h)
  unfold wordAt
  cases mode with
  | zero =>
    dsimp only
    split
    · exact hinner _
    · decide
  | clamp => exact hinner _
  | wrap => exact hinner _

/-- A place inside the grid has a word. -/
theorem readWord_inside (hr : 0 ≤ r) (hr' : r < grid.rows) (hk : 0 ≤ k) (hk' : k < grid.columns) :
    readWord grid.words (r * grid.columns + k) = .ok (grid.words.getD (r.toNat * grid.columns + k.toNat) 0) := by
  obtain ⟨m, rfl⟩ := Int.eq_ofNat_of_zero_le hr
  obtain ⟨n, rfl⟩ := Int.eq_ofNat_of_zero_le hk
  have hlt : m * grid.columns + n < grid.words.length := by
    rw [grid.length_words]
    calc m * grid.columns + n < m * grid.columns + grid.columns := by omega
      _ = (m + 1) * grid.columns := by rw [Nat.add_mul, Nat.one_mul]
      _ ≤ grid.rows * grid.columns := Nat.mul_le_mul_right _ (by omega)
  have hcast : (m : ℤ) * grid.columns + n = ((m * grid.columns + n : ℕ) : ℤ) := by push_cast; rfl
  rw [hcast, readWord, pyGet?_natCast, List.getElem?_eq_getElem hlt, List.getD_eq_getElem?_getD, Int.toNat_natCast,
    Int.toNat_natCast, List.getElem?_eq_getElem hlt]
  rfl

theorem clamped (grid : Grid) (r k : ℤ) :
    0 ≤ max 0 (min r ((grid.rows : ℤ) - 1)) ∧ max 0 (min r ((grid.rows : ℤ) - 1)) < grid.rows ∧
    0 ≤ max 0 (min k ((grid.columns : ℤ) - 1)) ∧ max 0 (min k ((grid.columns : ℤ) - 1)) < grid.columns := by
  have := grid.rows_pos
  have := grid.columns_pos
  omega

theorem wrapped (grid : Grid) (r k : ℤ) :
    0 ≤ r % (grid.rows : ℤ) ∧ r % (grid.rows : ℤ) < grid.rows ∧
    0 ≤ k % (grid.columns : ℤ) ∧ k % (grid.columns : ℤ) < grid.columns := by
  have hrows := grid.rows_pos
  have hcolumns := grid.columns_pos
  refine ⟨Int.emod_nonneg r (by omega), Int.emod_lt_of_pos r (by omega), Int.emod_nonneg k (by omega),
    Int.emod_lt_of_pos k (by omega)⟩

theorem sample_eq : sample grid r k mode = .ok (wordAt grid mode r k) := by
  unfold sample wordAt
  cases mode with
  | zero =>
    dsimp only
    by_cases h : 0 ≤ r ∧ r < grid.rows ∧ 0 ≤ k ∧ k < grid.columns
    · rw [if_neg (by simp [h]), if_pos h]
      exact readWord_inside h.1 h.2.1 h.2.2.1 h.2.2.2
    · rw [if_pos ⟨rfl, h⟩, if_neg h]
  | clamp =>
    rw [if_neg (by simp)]
    dsimp only
    obtain ⟨h₁, h₂, h₃, h₄⟩ := clamped grid r k
    have hrow : min ((grid.rows : ℤ) - 1) (max 0 r) = max 0 (min r ((grid.rows : ℤ) - 1)) := by
      have := grid.rows_pos
      omega
    have hcolumn : min ((grid.columns : ℤ) - 1) (max 0 k) = max 0 (min k ((grid.columns : ℤ) - 1)) := by
      have := grid.columns_pos
      omega
    rw [hrow, hcolumn]
    exact readWord_inside h₁ h₂ h₃ h₄
  | wrap =>
    rw [if_neg (by simp)]
    obtain ⟨h₁, h₂, h₃, h₄⟩ := wrapped grid r k
    exact readWord_inside h₁ h₂ h₃ h₄

/-- The boundary code of the reference agrees with that of the halos. -/
theorem referenceLoad_eq : referenceLoad grid mode r k = .ok (wordAt grid mode r k) := by
  unfold referenceLoad wordAt
  cases mode with
  | zero =>
    dsimp only
    by_cases h : 0 ≤ r ∧ r < grid.rows ∧ 0 ≤ k ∧ k < grid.columns
    · rw [if_neg (by omega), if_pos h]
      exact readWord_inside h.1 h.2.1 h.2.2.1 h.2.2.2
    · rw [if_pos ⟨rfl, by omega⟩, if_neg h]
  | clamp =>
    rw [if_neg (by simp)]
    obtain ⟨h₁, h₂, h₃, h₄⟩ := clamped grid r k
    exact readWord_inside h₁ h₂ h₃ h₄
  | wrap =>
    rw [if_neg (by simp)]
    obtain ⟨h₁, h₂, h₃, h₄⟩ := wrapped grid r k
    exact readWord_inside h₁ h₂ h₃ h₄

end Boundary

section Denotes

variable {nodes : List Node} {load : ℤ → ℤ → ℕ} {identity : String} {a b : ℕ}

/-- The value of a node, where a load with deltas `r` and `c` finds `load r c`. -/
inductive Denotes (nodes : List Node) (load : ℤ → ℤ → ℕ) : String → ℕ → Prop where
  | load {id : String} {r c : ℤ} (h : ⟨id, .load (.relative r c)⟩ ∈ nodes) : Denotes nodes load id (load r c)
  | binary {id x y : String} {op : Binary} {a b : ℕ} (h : ⟨id, .binary op [x, y]⟩ ∈ nodes)
      (hx : Denotes nodes load x a) (hy : Denotes nodes load y b) : Denotes nodes load id (binaryWord op [a, b])
  | immediate {id x : String} {op : Immediate} {a : ℕ} {v : ℤ} (h : ⟨id, .immediate op x v⟩ ∈ nodes)
      (hx : Denotes nodes load x a) : Denotes nodes load id (immediateWord op a v)

theorem body_unique (hnodup : (nodes.map Node.id).Nodup) {id : String} {x y : Body} (hx : ⟨id, x⟩ ∈ nodes)
    (hy : ⟨id, y⟩ ∈ nodes) : x = y := by
  have := List.inj_on_of_nodup_map hnodup hx hy rfl
  cases this
  rfl

theorem Denotes.unique (hnodup : (nodes.map Node.id).Nodup) (ha : Denotes nodes load identity a)
    (hb : Denotes nodes load identity b) : a = b := by
  induction ha generalizing b with
  | load h =>
    cases hb with
    | load h' => cases body_unique hnodup h h'; rfl
    | binary h' => cases body_unique hnodup h h'
    | immediate h' => cases body_unique hnodup h h'
  | binary h hx hy ihx ihy =>
    cases hb with
    | load h' => cases body_unique hnodup h h'
    | binary h' hx' hy' =>
      cases body_unique hnodup h h'
      rw [ihx hx', ihy hy']
    | immediate h' => cases body_unique hnodup h h'
  | immediate h hx ihx =>
    cases hb with
    | load h' => cases body_unique hnodup h h'
    | binary h' => cases body_unique hnodup h h'
    | immediate h' hx' =>
      cases body_unique hnodup h h'
      rw [ihx hx']

theorem immediateWord_lt (op : Immediate) (a : ℕ) (v : ℤ) : immediateWord op a v < 2 ^ 32 := by
  cases op with
  | add =>
    have h₀ := Int.emod_nonneg (a + v) (show (2 ^ 32 : ℤ) ≠ 0 by decide)
    have h₁ := Int.emod_lt_of_pos (a + v) (show (0 : ℤ) < 2 ^ 32 by decide)
    change ((a + v) % 2 ^ 32).toNat < 2 ^ 32
    omega
  | ge =>
    unfold immediateWord
    dsimp only
    split <;> decide

/-- Values are 32-bit words when the loaded ones are. -/
theorem Denotes.lt (hload : ∀ r c, load r c < 2 ^ 32) (h : Denotes nodes load identity a) : a < 2 ^ 32 := by
  induction h with
  | load => exact hload _ _
  | @binary id x y op a b h hx hy ihx ihy =>
    cases op with
    | add => exact Nat.mod_lt _ (by decide)
    | mul => exact Nat.mod_lt _ (by decide)
    | max =>
      change max (max 0 a) b < 2 ^ 32
      omega
  | immediate => exact immediateWord_lt _ _ _

end Denotes

section Oracle

variable {value : Descriptor} {body ns : List Node} {id x : String} {words output : List ℕ} {row column : ℕ}
  {load : ℤ → ℤ → ℕ} {values values' : String → Option ℕ}

/-- Every known value is the one that its node denotes. -/
def Sound (nodes : List Node) (load : ℤ → ℤ → ℕ) (values : String → Option ℕ) : Prop :=
  ∀ y w, values y = some w → Denotes nodes load y w

theorem Sound.update {nodes : List Node} {identity : String} {w : ℕ} (h : Sound nodes load values)
    (hw : Denotes nodes load identity w) : Sound nodes load (Function.update values identity (some w)) := by
  intro y v hv
  by_cases hy : y = identity
  · subst hy
    rw [Function.update_self] at hv
    cases hv
    exact hw
  · rw [Function.update_of_ne hy] at hv
    exact h y v hv

/-- The loads of a cell find the words that `load` gives. -/
def Reads (value : Descriptor) (words : List ℕ) (row column : ℕ) (load : ℤ → ℤ → ℕ) : Prop :=
  ∀ r c : ℤ, -1 ≤ r ∧ r ≤ 1 → -1 ≤ c ∧ c ≤ 1 →
    readWord words (nodeAddress (.relative r c) (centerOf value.affine row column) value.affine.inputStride) =
      .ok (load r c)

theorem evaluateNode_sound {node : Node} {values' : String → Option ℕ} {output' : List ℕ}
    (hreads : Reads value words row column load) (hv1 : value.schema ≠ .v1) (hmem : node ∈ value.nodes)
    (hok : NodeOk value.schema node) (h : Sound value.nodes load values)
    (hev : evaluateNode value.affine words row column (values, output) node = .ok (values', output')) :
    Sound value.nodes load values' := by
  cases hok with
  | selector id name hv => exact absurd hv hv1
  | relative id r c hv hr hc =>
    simp only [evaluateNode, hreads r c hr hc, bind, Except.bind, pure, Except.pure, Except.ok.injEq,
      Prod.mk.injEq] at hev
    rw [← hev.1]
    exact h.update (.load hmem)
  | binary id op y z hv =>
    simp only [evaluateNode] at hev
    obtain ⟨ws, hws, hev⟩ := except_bind_eq_ok.mp hev
    obtain ⟨a, b, ha, hb, rfl⟩ := mapM_lookup_two hws
    cases hev
    exact h.update (.binary hmem (h y a ha) (h z b hb))
  | immediate id op y v hv hg h0 hm =>
    simp only [evaluateNode] at hev
    obtain ⟨a, ha, hev⟩ := except_bind_eq_ok.mp hev
    cases hev
    exact h.update (.immediate hmem (h y a (lookup_eq_ok.mp ha)))
  | store id y =>
    simp only [evaluateNode] at hev
    obtain ⟨a, -, hev⟩ := except_bind_eq_ok.mp hev
    obtain ⟨out, -, hev⟩ := except_bind_eq_ok.mp hev
    cases hev
    exact h

theorem nodes_sound {output' : List ℕ} (hreads : Reads value words row column load) (hv1 : value.schema ≠ .v1)
    (hmem : ∀ n ∈ ns, n ∈ value.nodes) (hok : ∀ n ∈ value.nodes, NodeOk value.schema n)
    (h : Sound value.nodes load values)
    (hev : ns.foldlM (evaluateNode value.affine words row column) (values, output) = .ok (values', output')) :
    Sound value.nodes load values' := by
  induction ns generalizing values output with
  | nil =>
    cases hev
    exact h
  | cons n ns ih =>
    rw [List.foldlM_cons] at hev
    obtain ⟨⟨values₁, output₁⟩, hn, hev⟩ := except_bind_eq_ok.mp hev
    have hn' := hmem n List.mem_cons_self
    exact ih (fun m hm => hmem m (List.mem_cons_of_mem n hm))
      (evaluateNode_sound hreads hv1 hn' (hok n hn') h hn) hev

/-- At a cell the oracle writes what the stored node denotes. -/
theorem oracleCell_denotes (h : Valid value body id x) (hv1 : value.schema ≠ .v1)
    (hreads : Reads value words row column load) (hrow : (row : ℤ) < value.affine.rows)
    (hcolumn : (column : ℤ) < value.affine.columns) (ho : output.length = 256) :
    ∃ w, Denotes value.nodes load x w ∧
      oracleCell value.affine words (body ++ [⟨id, .store x⟩]) output row column =
        .ok (output.set (storeIndex value.affine row column).toNat w) := by
  have hbody : ∀ n ∈ body, n ∈ value.nodes := fun n hn => h.perm.mem_iff.mp (List.mem_append_left _ hn)
  have hload : ∀ n ∈ body, ∀ address, n.body = .load address → ∃ w, readWord words
      (nodeAddress address (centerOf value.affine row column) value.affine.inputStride) = .ok w := by
    intro n hn address ha
    have hok := h.ok n (hbody n hn)
    cases hok with
    | selector id name hv => exact absurd hv hv1
    | relative id r c hv hr hc =>
      cases ha
      exact ⟨_, hreads r c hr hc⟩
    | binary | immediate | store => cases ha
  obtain ⟨values, hrun, hvalues⟩ := nodes_total (fun _ => none) output (ordered_append.mp h.ordered).1
    (fun n hn => h.ok n (hbody n hn)) h.values (by simp) hload
  obtain ⟨w, hw⟩ := hvalues x (by simpa using h.operand_mem)
  have hsound : Sound value.nodes load values :=
    nodes_sound hreads hv1 hbody h.ok (fun _ _ hnone => absurd hnone (by simp)) hrun
  obtain ⟨h0, h256⟩ := storeIndex_mem h.shape hrow hcolumn
  refine ⟨w, hsound x w hw, ?_⟩
  have hwrite : writeWord output (storeIndex value.affine row column) w =
      .ok (output.set (storeIndex value.affine row column).toNat w) := by
    generalize storeIndex value.affine row column = index at h0 h256 ⊢
    obtain ⟨n, rfl⟩ := Int.eq_ofNat_of_zero_le h0
    rw [writeWord, pySet?_natCast (by omega), Int.toNat_natCast]
  have hstore : evaluateNode value.affine words row column (values, output) ⟨id, .store x⟩ =
      .ok (values, output.set (storeIndex value.affine row column).toNat w) := by
    rw [storeIndex] at hwrite ⊢
    simp only [evaluateNode, lookup_eq_ok.mpr hw, hwrite, bind, Except.bind, pure, Except.pure]
  refine except_bind_eq_ok.mpr ⟨(values, _), ?_, rfl⟩
  rw [List.foldlM_append, hrun]
  change [Node.mk id (.store x)].foldlM (evaluateNode value.affine words row column) (values, output) = _
  rw [List.foldlM_cons, hstore]
  rfl

/-- The full shape of a tile. -/
def tileAffine : Affine := { rows := 16, columns := 16, inputStride := 18, outputStride := 16 }

/-- On a tile's halo the oracle writes at each of the 256 cells what the stored node denotes there. -/
theorem graphOracle_denotes (h : Valid value body id x) (hv : validateDescriptor value = .ok ())
    (hv1 : value.schema ≠ .v1) (haffine : value.affine = tileAffine) (hlen : words.length = 324)
    {loads : ℕ → ℕ → ℤ → ℤ → ℕ}
    (hreads : ∀ row < 16, ∀ column < 16, Reads value words row column (loads row column)) :
    ∃ val : ℕ → ℕ, graphOracle value words = .ok ((List.range 256).map val) ∧
      ∀ row < 16, ∀ column < 16, Denotes value.nodes (loads row column) x (val (row * 16 + column)) := by
  have hcell (t : ℕ) (ht : t < 256) : ∃ w, Denotes value.nodes (loads (t / 16) (t % 16)) x w ∧
      ∀ output : List ℕ, output.length = 256 →
        oracleCell value.affine words (body ++ [⟨id, .store x⟩]) output (t / 16) (t % 16) = .ok (output.set t w) := by
    have hrow : t / 16 < 16 := by omega
    have hcolumn : t % 16 < 16 := by omega
    have hindex : (storeIndex value.affine (t / 16 : ℕ) (t % 16 : ℕ)).toNat = t := by
      rw [haffine]
      unfold storeIndex tileAffine
      dsimp only
      omega
    have hrow' : ((t / 16 : ℕ) : ℤ) < value.affine.rows := by
      rw [haffine]
      change ((t / 16 : ℕ) : ℤ) < 16
      omega
    have hcolumn' : ((t % 16 : ℕ) : ℤ) < value.affine.columns := by
      rw [haffine]
      change ((t % 16 : ℕ) : ℤ) < 16
      omega
    have hr := hreads _ hrow _ hcolumn
    obtain ⟨w, hw, -⟩ := oracleCell_denotes h hv1 hr hrow' hcolumn' (List.length_replicate : (List.replicate 256 0).length = 256)
    refine ⟨w, hw, ?_⟩
    intro output ho
    obtain ⟨w', hw', hout⟩ := oracleCell_denotes h hv1 hr hrow' hcolumn' ho
    rw [hout, hindex, hw.unique h.nodup hw']
  choose! val hval using hcell
  refine ⟨val, ?_, ?_⟩
  · refine check_then_eq_ok.mpr ⟨hv, require_then_eq_ok.mpr ⟨hlen, except_bind_eq_ok.mpr ⟨_, h.scheduled, ?_⟩⟩⟩
    rw [haffine]
    change (List.range 16).foldlM (fun output row => (List.range 16).foldlM (fun output column =>
      oracleCell tileAffine words (body ++ [⟨id, .store x⟩]) output row column) output) (List.replicate 256 0) = _
    rw [foldlM_rowMajor]
    have hrun := @foldlM_range_pure _ (Except String) _ _
      (fun output t => oracleCell tileAffine words (body ++ [⟨id, .store x⟩]) output (t / 16) (t % 16))
      (fun n => (List.range n).map val ++ (List.replicate 256 0).drop n) (16 * 16) ?_
    · rw [List.drop_of_length_le (List.length_replicate.le : (List.replicate 256 0).length ≤ 16 * 16),
        List.append_nil] at hrun
      exact hrun
    · intro t ht
      have hlong : t < (List.replicate 256 0).length := by
        rw [List.length_replicate]
        exact ht
      rw [← haffine, (hval t ht).2, set_written val _ hlong]
      · rfl
      · rw [List.length_append, List.length_map, List.length_range, List.length_drop, List.length_replicate]
        omega
  · intro row hrow column hcolumn
    have := (hval (row * 16 + column) (by omega)).1
    rwa [div_row hcolumn, mod_row hcolumn] at this

end Oracle

end Raveil.Tiling
