import Raveil.Grid.Lowered

/-! On a source that compiles the untiled reference succeeds, and the tile is of no matter. -/
namespace Raveil.Grid
open Lib Fold Dag

section Nodes

variable {nodes emitted : List Node} {seen seen' : Finset String} {node : Node} {result : String}
  {load : Node → Except String ℕ} {values : String → Option ℕ} {s : Lowering} {views : Dict String (List ℤ)}

/-- Every node is admitted over the names before it. -/
def Runnable : Finset String → List Node → Prop
  | _, [] => True
  | seen, n :: ns => AdmittedNode seen n ∧ Runnable (insert n.id seen) ns

theorem runnable_of_checked (h : nodes.foldlM admitNode seen = .ok seen') :
    Runnable seen nodes ∧ ∀ x ∈ seen', x ∈ seen ∨ x ∈ nodes.map (·.id) := by
  induction nodes generalizing seen with
  | nil =>
    cases h
    exact ⟨trivial, fun x hx => Or.inl hx⟩
  | cons n ns ih =>
    rw [List.foldlM_cons, except_bind_eq_ok] at h
    obtain ⟨next, hn, h⟩ := h
    obtain ⟨hadmitted, rfl⟩ := admitNode_eq_ok hn
    obtain ⟨hrest, hmem⟩ := ih h
    refine ⟨⟨hadmitted, hrest⟩, ?_⟩
    intro x hx
    rw [List.map_cons, List.mem_cons]
    rcases hmem x hx with hx | hx
    · rw [Finset.mem_insert] at hx
      tauto
    · exact Or.inr (Or.inr hx)

/-- What the compiler admits of a node, the source admits as well. -/
theorem admittedNode_of_nodeOk (h : NodeOk views seen node) : AdmittedNode seen node := by
  cases h with
  | load hid hv => exact ⟨by simp, by simp [Node.fieldsOk, Op.hasImm], hid, rfl, by simp [Node.arguments]⟩
  | binary hid hop hx hy =>
    refine ⟨?_, ?_, hid, ?_, by simp [Node.arguments, hx, hy]⟩ <;> rcases hop with rfl | rfl | rfl <;>
      simp [Node.fieldsOk, Op.hasImm, Node.arguments, sourceArity]
  | immediate hid hop hx h0 hm =>
    refine ⟨?_, ?_, hid, ?_, by simp [Node.arguments, hx]⟩ <;> rcases hop with rfl | rfl <;>
      simp [Node.fieldsOk, Op.hasImm, Node.arguments, sourceArity]

theorem runnable_of_ssa (h : SSAOk views seen nodes) : Runnable seen nodes := by
  induction nodes generalizing seen with
  | nil => trivial
  | cons n ns ih => exact ⟨admittedNode_of_nodeOk h.1, ih h.2⟩

/-- The view of a load that the compiler admits is there. -/
theorem view_mem (h : SSAOk views seen nodes) (hn : node ∈ nodes) (hop : node.op = .load) :
    node.view.getD "" ∈ views.keys := by
  induction nodes generalizing seen with
  | nil => cases hn
  | cons n ns ih =>
    rcases List.mem_cons.mp hn with rfl | hn
    · cases h.1 with
      | load hid hv => exact hv
      | binary hid hop' => rcases hop' with rfl | rfl | rfl <;> cases hop
      | immediate hid hop' => rcases hop' with rfl | rfl <;> cases hop
    · exact ih h.2 hn

/-- Words for the names seen so far. -/
def Known (seen : Finset String) (values : String → Option ℕ) : Prop := ∀ x ∈ seen, ∃ w < 2 ^ 32, values x = some w

theorem Known.args (h : Known seen values) {args : List String} (hargs : ∀ arg ∈ args, arg ∈ seen) :
    ∃ a, args.mapM values = some a := by
  induction args with
  | nil => exact ⟨[], rfl⟩
  | cons x args ih =>
    rw [List.forall_mem_cons] at hargs
    obtain ⟨w, -, hw⟩ := h x hargs.1
    obtain ⟨a, ha⟩ := ih hargs.2
    exact ⟨w :: a, by simp [hw, ha]⟩

/-- An admitted node gets a word when its load, if it is one, finds one. -/
theorem evaluateAt_known (h : Known seen values) (hn : AdmittedNode seen node)
    (hload : node.op = .load → ∃ w, load node = .ok w) :
    ∃ values', evaluateAt load values node = .ok values' ∧ Known (insert node.id seen) values' := by
  obtain ⟨a, ha⟩ := h.args hn.args
  obtain ⟨w, hw⟩ : ∃ w, loadedWord load node = .ok w := by
    unfold loadedWord
    split
    · rename_i hop
      exact hload hop
    · exact ⟨0, rfl⟩
  obtain ⟨v, hv⟩ : ∃ v, nodeWord (fun _ => w) node a = some v := hn.word (mapM_length ha)
  have heval : evaluateNode (fun _ => w) values node =
      some (Function.update values node.id (some (v % 2 ^ 32).toNat)) := by
    simp [evaluateNode, ha, hv]
  refine ⟨Function.update values node.id (some (v % 2 ^ 32).toNat), ?_, ?_⟩
  · refine except_bind_eq_ok.mpr ⟨w, hw, ?_⟩
    rw [heval]
    rfl
  intro x hx
  by_cases heq : x = node.id
  · exact ⟨(v % 2 ^ 32).toNat, by omega, by rw [heq, Function.update_self]⟩
  · rw [Function.update_of_ne heq]
    exact h x ((Finset.mem_insert.mp hx).resolve_left heq)

theorem nodes_known (h : Known seen values) (hn : Runnable seen nodes)
    (hload : ∀ n ∈ nodes, n.op = .load → ∃ w, load n = .ok w) :
    ∃ values', nodes.foldlM (evaluateAt load) values = .ok values' ∧
      Known (seen ∪ (nodes.map (·.id)).toFinset) values' := by
  induction nodes generalizing seen values with
  | nil => exact ⟨values, rfl, by simpa using h⟩
  | cons n ns ih =>
    obtain ⟨values₁, hn₁, hknown⟩ := evaluateAt_known h hn.1 (hload n List.mem_cons_self)
    obtain ⟨values', hrun, hall⟩ := ih hknown hn.2 fun m hm => hload m (List.mem_cons_of_mem n hm)
    refine ⟨values', ?_, ?_⟩
    · rw [List.foldlM_cons, hn₁]
      exact hrun
    · intro x hx
      apply hall x
      simp only [List.map_cons, List.toFinset_cons, Finset.mem_union, Finset.mem_insert] at hx ⊢
      tauto

/-- Nodes that are admitted, with a result among them. -/
structure Computes (nodes : List Node) (result : String) : Prop where
  runs : Runnable ∅ nodes
  named : result ∈ nodes.map (·.id)

theorem Computes.word (h : Computes nodes result) (load : Node → Except String ℕ)
    (hload : ∀ n ∈ nodes, n.op = .load → ∃ w, load n = .ok w) :
    ∃ w < 2 ^ 32, resultWord load nodes result = .ok w := by
  have hstart : Known ∅ fun _ => none := by
    intro x hx
    cases hx
  obtain ⟨values, hrun, hknown⟩ := nodes_known hstart h.runs hload
  obtain ⟨w, hlt, hw⟩ := hknown result (by simpa using h.named)
  exact ⟨w, hlt, except_bind_eq_ok.mpr ⟨values, hrun, by rw [hw]; rfl⟩⟩

end Nodes

section Kept

variable {s : Lowering} {node m : Node} {nodes emitted : List Node} {result : String} {share : Bool}

/-- What has been emitted stays. -/
theorem emitted_emit (h : m ∈ s.emitted) (op : Op) (args : List String) (imm : Option ℤ) :
    m ∈ (s.emit op args imm).2.emitted := List.mem_append_left _ h

theorem emitted_translated (h : m ∈ s.emitted) (share : Bool) (sign x : String) :
    m ∈ (s.translated share sign x).2.emitted := by
  unfold Lowering.translated
  split
  · exact h
  · dsimp only
    split <;> exact emitted_emit h _ _ _

theorem emitted_withSign (h : m ∈ s.emitted) (x : String) : m ∈ (s.withSign x).2.emitted := by
  unfold Lowering.withSign
  split
  · exact h
  · exact emitted_emit (emitted_emit (emitted_emit (emitted_emit h _ _ _) _ _ _) _ _ _) _ _ _

theorem emitted_lowerNode (h : m ∈ s.emitted) (share : Bool) (node : Node) : m ∈ (lowerNode share s node).emitted := by
  unfold lowerNode
  split
  · exact List.mem_append_left _ h
  · have hsign := emitted_withSign h (node.arguments.getD 0 "")
    have hleft := emitted_translated hsign share (s.withSign (node.arguments.getD 0 "")).1 (node.arguments.getD 0 "")
    have hright := emitted_translated hleft share (s.withSign (node.arguments.getD 0 "")).1 (node.arguments.getD 1 "")
    dsimp only
    split <;> split <;> first
      | exact List.mem_append_left _ (emitted_emit hleft _ _ _)
      | exact List.mem_append_left _ (emitted_emit hright _ _ _)

theorem emitted_lowerNodes (h : m ∈ s.emitted) : m ∈ (nodes.foldl (lowerNode share) s).emitted := by
  induction nodes generalizing s with
  | nil => exact h
  | cons n ns ih => exact ih (emitted_lowerNode h share n)

/-- The loads of the source are among the emitted nodes. -/
theorem load_emitted (h : node ∈ nodes) (hop : node.op = .load) :
    node ∈ (nodes.foldl (lowerNode share) s).emitted := by
  induction nodes generalizing s with
  | nil => cases h
  | cons n ns ih =>
    rw [List.foldl_cons]
    rcases List.mem_cons.mp h with rfl | h
    · apply emitted_lowerNodes
      have hunsigned : ¬ IsSigned node.op := by
        rw [hop]
        decide
      unfold lowerNode
      rw [if_pos hunsigned]
      exact List.mem_append_right _ List.mem_cons_self
    · exact ih h

variable {schema : String} {region : Region} {config : List ℕ}

/-- Source nodes whose lowering compiles can be evaluated, and the views they load are there. -/
theorem computes_of_compiled (h : mapNodes schema nodes result = .ok emitted) (hnodes : region.nodes = emitted)
    (hresult : region.result = result) (hc : compileRegion region = .ok config) :
    Computes nodes result ∧ ∀ n ∈ nodes, n.op = .load → n.view.getD "" ∈ region.views.keys := by
  obtain ⟨t, r, hcompiled⟩ := compileRegion_eq_ok hc
  have hssa := hcompiled.nodes
  have hres := hcompiled.result
  rw [hnodes] at hssa hres
  rw [hresult] at hres
  unfold mapNodes at h
  split at h
  · simp only [lower, except_bind_eq_ok, require_eq_ok, exists_const, except_pure_eq_ok] at h
    obtain ⟨-, seen, hchecked, hin, rfl⟩ := h
    obtain ⟨hrun, hmem⟩ := runnable_of_checked hchecked
    refine ⟨⟨hrun, by simpa using hmem _ hin⟩, ?_⟩
    intro n hn hop
    exact view_mem hssa (load_emitted hn hop) hop
  · cases h
    exact ⟨⟨runnable_of_ssa hssa, hres⟩, fun n hn hop => view_mem hssa hn hop⟩

end Kept

section Cells

variable {value : Source} {a : Admitted} {l : Lowered} {tile : List ℤ}

theorem tilesOf_pos {extent n : ℕ} (he : 1 ≤ extent) (hn : 1 ≤ n) : 0 < tilesOf extent n :=
  Nat.div_pos (by omega) (by omega)

theorem checkTile_pos {rows columns : ℕ} (h : checkTile tile rows columns = .ok ()) :
    1 ≤ (tile.getD 0 0).toNat ∧ 1 ≤ (tile.getD 1 0).toNat := by
  obtain ⟨hlen, h⟩ := require_then_eq_ok.mp h
  obtain ⟨hbounds, -⟩ := check_then_eq_ok.mp h
  obtain ⟨r, c, rfl⟩ := List.length_eq_two.mp hlen
  have hr := require_eq_ok.mp (forM_eq_ok.mp hbounds r (by simp))
  have hc := require_eq_ok.mp (forM_eq_ok.mp hbounds c (by simp))
  simp only [List.getD_cons_zero, List.getD_cons_succ]
  omega

theorem places_ne_nil {rows columns tr tc : ℕ} (hr : 1 ≤ rows) (hc : 1 ≤ columns) (htr : 1 ≤ tr) (htc : 1 ≤ tc) :
    ∃ at_, at_ ∈ places rows columns tr tc := by
  have hrow : 0 ∈ strided rows tr := List.mem_map.mpr ⟨0, List.mem_range.mpr (tilesOf_pos hr htr), rfl⟩
  have hcol : 0 ∈ strided columns tc := List.mem_map.mpr ⟨0, List.mem_range.mpr (tilesOf_pos hc htc), rfl⟩
  exact ⟨_, List.mem_flatMap.mpr ⟨0, hrow, List.mem_map.mpr ⟨0, hcol, rfl⟩⟩⟩

/-- What a source that compiles says about its reference. -/
structure Evaluates (value : Source) (a : Admitted) : Prop where
  source : SourceOk value a
  kernel : Computes value.kernel.nodes value.kernel.result
  views : ∀ n ∈ value.kernel.nodes, n.op = .load → n.view.getD "" ∈ a.views.keys
  post : ∀ post, value.post = some post → Computes post.nodes post.result

theorem evaluates_of_compile (h : compile value = .ok l) : ∃ a, source value = .ok a ∧ Evaluates value a := by
  obtain ⟨a, ha, h⟩ := except_bind_eq_ok.mp h
  obtain ⟨nodes, hnodes, h⟩ := except_bind_eq_ok.mp h
  obtain ⟨post, hpost, h⟩ := except_bind_eq_ok.mp h
  obtain ⟨items, hitems, -⟩ := except_bind_eq_ok.mp h
  obtain ⟨hok, htile⟩ := source_eq_ok.mp ha
  obtain ⟨⟨hr, -⟩, hc, -⟩ := hok.bounds
  obtain ⟨htr, htc⟩ := checkTile_pos htile
  -- there is a tile, and its regions compile
  obtain ⟨at_, hat⟩ := places_ne_nil hr hc htr htc
  obtain ⟨i, hi⟩ := List.mem_iff_getElem?.mp hat
  obtain ⟨item, -, hitem⟩ := exists_of_mapM_eq_ok hitems (List.mk_mem_zipIdx_iff_getElem?.mpr hi)
  obtain ⟨buffers, -, hitem⟩ := except_bind_eq_ok.mp hitem
  obtain ⟨config, hconfig, hitem⟩ := except_bind_eq_ok.mp hitem
  obtain ⟨configs, hconfigs, -⟩ := except_bind_eq_ok.mp hitem
  obtain ⟨hkernel, hviews⟩ := computes_of_compiled hnodes rfl rfl hconfig
  refine ⟨a, ha, hok, hkernel, ?_, ?_⟩
  · intro n hn hop
    have := hviews n hn hop
    rwa [regionOf, Dict.keys_mapValues] at this
  · intro p hp
    rw [hp] at hpost
    obtain ⟨q, hq, rfl⟩ := except_map_eq_ok.mp hpost
    obtain ⟨pnodes, hpnodes, hq⟩ := except_bind_eq_ok.mp hq
    cases hq
    have hmem : postRegion pnodes p.result at_ ∈ [postRegion pnodes p.result at_] := List.mem_cons_self
    obtain ⟨c, -, hc⟩ := exists_of_mapM_eq_ok hconfigs hmem
    exact (computes_of_compiled hpnodes rfl rfl hc).1

theorem referenceWord_eq (grid : Tiling.Grid) (mode : Tiling.Boundary) (r c : ℤ) :
    referenceWord grid mode r c = .ok (Tiling.wordAt grid mode r c) := by
  rw [← Tiling.referenceLoad_eq]
  unfold referenceWord Tiling.referenceLoad
  dsimp only
  by_cases h : 0 ≤ r ∧ r < grid.rows ∧ 0 ≤ c ∧ c < grid.columns
  · cases mode <;> exact (if_neg (by omega)).trans (if_neg (by omega)).symm
  · have hout : ¬ ((0 ≤ r ∧ r < (grid.rows : ℤ)) ∧ 0 ≤ c ∧ c < (grid.columns : ℤ)) := by omega
    have hout' : r < 0 ∨ r ≥ (grid.rows : ℤ) ∨ c < 0 ∨ c ≥ (grid.columns : ℤ) := by omega
    by_cases hzero : mode = .zero
    · rw [if_pos ⟨hzero, hout⟩, if_pos ⟨hzero, hout'⟩]
    · cases mode with
      | zero => exact absurd rfl hzero
      | _ => exact (if_neg fun h => hzero h.1).trans (if_neg fun h => hzero h.1).symm

/-- The views read inputs that are there. -/
theorem SourceOk.input_lt (h : SourceOk value a) {name : String} {view : View} (hv : a.views.get? name = some view) :
    view.input < a.grids.length := by
  rw [h.views, Dict.get?_mapValues] at hv
  obtain ⟨source, hsource, rfl⟩ := Option.map_eq_some_iff.mp hv
  obtain ⟨entry, hentry, rfl⟩ := Option.map_eq_some_iff.mp hsource
  have hchecked := h.checked entry (List.mem_of_find?_eq_some hentry)
  obtain ⟨-, hchecked⟩ := require_then_eq_ok.mp hchecked
  obtain ⟨hinput, -⟩ := check_then_eq_ok.mp hchecked
  have := require_eq_ok.mp hinput
  change entry.2.input.toNat < a.grids.length
  omega

theorem Evaluates.loads (h : Evaluates value a) (row col k : ℕ) {n : Node} (hn : n ∈ value.kernel.nodes)
    (hop : n.op = .load) :
    ∃ w, loadAt a row col k n = .ok w := by
  obtain ⟨view, hview⟩ := Option.isSome_iff_exists.mp (Dict.get?_isSome.mpr (h.views n hn hop))
  have hlt := h.source.input_lt hview
  unfold Grid.loadAt
  rw [hview]
  dsimp only
  rw [List.getElem?_eq_getElem hlt]
  exact ⟨_, referenceWord_eq _ _ _ _⟩

/-- A loop that keeps a property, and code after it that returns from there. -/
theorem bind_foldlM_total {σ α β ε : Type} {f : σ → α → Except ε σ} {g : σ → Except ε β} {P : σ → Prop}
    {Q : β → Prop} {l : List α} {s : σ} (hs : P s) (hf : ∀ s, P s → ∀ a ∈ l, ∃ t, f s a = .ok t ∧ P t)
    (hg : ∀ s, P s → ∃ b, Q b ∧ g s = .ok b) : ∃ b, Q b ∧ (l.foldlM f s >>= g) = .ok b := by
  obtain ⟨t, ht, hp⟩ := foldlM_total hs hf
  obtain ⟨b, hb, hgb⟩ := hg t hp
  exact ⟨b, hb, except_bind_eq_ok.mpr ⟨t, ht, hgb⟩⟩

theorem Evaluates.cell (h : Evaluates value a) (at_ : ℕ × ℕ) : ∃ w < 2 ^ 32, referenceCell a value at_ = .ok w := by
  unfold referenceCell
  refine bind_foldlM_total (P := fun acc : ℕ => acc < 2 ^ 32) (show 0 < 2 ^ 32 by decide) ?_ ?_
  · intro acc hacc k _
    obtain ⟨w, hw, hword⟩ := h.kernel.word (loadAt a at_.1 at_.2 k) fun n hn hop => h.loads at_.1 at_.2 k hn hop
    refine ⟨_, except_bind_eq_ok.mpr ⟨w, hword, rfl⟩, ?_⟩
    cases a.fold with
    | sum => exact Nat.mod_lt _ (by decide)
    | max => exact max_lt hacc hw
  · intro acc hacc
    cases hp : value.post with
    | none => exact ⟨acc, hacc, rfl⟩
    | some post => exact (h.post post hp).word (fun _ => .ok acc) fun _ _ _ => ⟨acc, rfl⟩

/-- The reference of a source that compiles gives words for all cells. -/
theorem reference_total (h : compile value = .ok l) : ∃ words, reference value = .ok words ∧
    words.length = l.rows * l.columns ∧ ∀ w ∈ words, w < 2 ^ 32 := by
  obtain ⟨a, ha, heval⟩ := evaluates_of_compile h
  obtain ⟨a', ha', hrows, hcolumns⟩ := compile_source h
  rw [ha] at ha'
  cases ha'
  choose word hlt hword using heval.cell
  refine ⟨(Tiling.cells a.rows a.columns).map word, ?_, ?_, ?_⟩
  · exact except_bind_eq_ok.mpr ⟨l, h, except_bind_eq_ok.mpr ⟨a, ha, mapM_eq_map fun at_ _ => hword at_⟩⟩
  · rw [hrows, hcolumns, List.length_map, Tiling.cells, flatMap_rowMajor, List.length_map, List.length_range]
  · intro w hw
    obtain ⟨at_, -, rfl⟩ := List.mem_map.mp hw
    exact hlt at_

/-- The tile does not change the reference. -/
theorem reference_retile {tile' : List ℤ} {l' : Lowered} (h : compile (value.retile tile) = .ok l)
    (h' : compile (value.retile tile') = .ok l') :
    reference (value.retile tile') = reference (value.retile tile) ∧ l'.rows = l.rows ∧ l'.columns = l.columns := by
  obtain ⟨a, ha, hrows, hcolumns⟩ := compile_source h
  obtain ⟨a', ha', hrows', hcolumns'⟩ := compile_source h'
  obtain rfl := ((source_eq_ok.mp ha').1.retile tile).unique (source_eq_ok.mp ha).1
  refine ⟨?_, hrows'.trans hrows.symm, hcolumns'.trans hcolumns.symm⟩
  unfold reference
  rw [h, h', ha, ha']
  rfl

end Cells

end Raveil.Grid
