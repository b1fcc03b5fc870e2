import Raveil.Graph.Correct

/-! Where the evaluators of an admitted descriptor read and store, and the one corner that is missed. -/
namespace Raveil.Graph
open Raveil.Lib

variable {sha256 : List UInt8 → Digest} {value : Descriptor} {body : List Node} {id x : String}

/-- An index that the fallback reads for a load instruction, at some cell of the shape. -/
def FallbackReads (program : Image) (index : ℤ) : Prop :=
  ∃ row column : ℕ, (row : ℤ) < program.affine.rows ∧ (column : ℤ) < program.affine.columns ∧
    ∃ instruction ∈ program.instructions, opcodeOf instruction = LOAD_U32 ∧
      loadAddress (program.payload.getD 1 0) (centerOf program.affine row column) program.affine.inputStride
        instruction = some index

/-- A load of the south-east neighbour where the shape already ends at the last input word. -/
def MissedCorner (value : Descriptor) : Prop :=
  (value.affine.rows + 1) * value.affine.inputStride + value.affine.columns = 323 ∧
    ∃ node ∈ value.nodes, node.body = .load (.relative 1 1)

section Loads

variable {affine : Affine} {row column : ℕ}

/-- No load passes the south-east neighbour of the last cell, and only that load reaches it. -/
theorem nodeAddress_le {schema : Schema} {node : Node} {address : Address} (h : shapeOk affine)
    (hr : (row : ℤ) < affine.rows) (hc : (column : ℤ) < affine.columns) (hok : NodeOk schema node)
    (ha : node.body = .load address) :
    nodeAddress address (centerOf affine row column) affine.inputStride ≤
        (affine.rows + 1) * affine.inputStride + affine.columns ∨
      (address = .relative 1 1 ∧
        nodeAddress address (centerOf affine row column) affine.inputStride ≤
          (affine.rows + 1) * affine.inputStride + affine.columns + 1) := by
  obtain ⟨-, -, h1, -, his, -⟩ := h
  have hcells : ((row : ℤ) + 1) * affine.inputStride ≤ affine.rows * affine.inputStride :=
    Int.mul_le_mul_of_nonneg_right (by omega) (by omega)
  have hlast : (affine.rows + 1) * affine.inputStride = affine.rows * affine.inputStride + affine.inputStride := by
    rw [Int.add_mul, Int.one_mul]
  rw [centerOf, hlast]
  cases hok with
  | selector id name hv =>
    cases ha
    left
    cases name <;> simp only [nodeAddress, selectorAddress] <;> omega
  | relative id dr dc hv hdr hdc =>
    cases ha
    simp only [nodeAddress]
    obtain rfl | rfl | rfl : dr = -1 ∨ dr = 0 ∨ dr = 1 := by omega
    · left
      omega
    · left
      omega
    · obtain rfl | hdc : dc = 1 ∨ dc ≤ 0 := by omega
      · exact Or.inr ⟨rfl, by omega⟩
      · left
        omega
  | binary | immediate | store => cases ha

/-- Outside the missed corner every read of the oracle stays in the input. -/
theorem oracleReads_mem (h : Valid value body id x) (hcorner : ¬ MissedCorner value) {index : ℤ}
    (hi : OracleReads value index) : 0 ≤ index ∧ index < 324 := by
  obtain ⟨row, column, hr, hc, node, hn, address, ha, rfl⟩ := hi
  refine ⟨nodeAddress_nonneg h.shape (h.ok node hn) ha, ?_⟩
  have hfit := h.shape.2.2.2.2.2.2.1
  rcases nodeAddress_le h.shape hr hc (h.ok node hn) ha with hle | ⟨rfl, hle⟩
  · omega
  · have hne : (value.affine.rows + 1) * value.affine.inputStride + value.affine.columns ≠ 323 :=
      fun heq => hcorner ⟨heq, node, hn, ha⟩
    omega

/-- In the missed corner the oracle reads one word past the input. -/
theorem oracleReads_past (h : Valid value body id x) (hcorner : MissedCorner value) :
    OracleReads value 324 := by
  obtain ⟨heq, node, hn, ha⟩ := hcorner
  obtain ⟨h1, -, h2, -⟩ := h.shape
  obtain ⟨row, hrow⟩ := Int.eq_ofNat_of_zero_le (show 0 ≤ value.affine.rows - 1 by omega)
  obtain ⟨column, hcolumn⟩ := Int.eq_ofNat_of_zero_le (show 0 ≤ value.affine.columns - 1 by omega)
  refine ⟨row, column, by omega, by omega, node, hn, _, ha, ?_⟩
  have hrows : (row : ℤ) + 1 = value.affine.rows := by omega
  rw [Int.add_mul, Int.one_mul] at heq
  rw [nodeAddress, centerOf, hrows]
  omega

/-- The fallback reads what the oracle reads. -/
theorem FallbackReads.oracle {program : Program} {t : Allocation} {ws : List ℕ} {r : ℕ} {index : ℤ}
    (h : Valid value body id x) (hc : Compiled sha256 value body id x program t ws r)
    (hi : FallbackReads program.toImage index) : OracleReads value index := by
  obtain ⟨row, column, hr, hcol, w, hw, hop, hload⟩ := hi
  rw [hc.affine] at hr hcol hload
  rw [hc.instructions] at hw
  rcases List.mem_append.mp hw with hw | hw
  · obtain ⟨n, hn, s, d, rs, u, he, rfl⟩ := hc.emission.mem hw
    have henc := h.encodable n (by simp [hn])
    obtain ⟨address, ha⟩ := he.load_of_opcode henc hop
    obtain ⟨name, nbody⟩ := n
    cases ha
    rw [hc.version, encodeNode_load, loadAddress_encodeLoad henc he.lt, Option.some_inj] at hload
    exact ⟨row, column, hr, hcol, ⟨name, .load address⟩, h.perm.mem_iff.mp (by simp [hn]), address, rfl,
      hload.symm⟩
  · rw [List.mem_singleton.mp hw, (encodeStore_fields r hc.lt).1] at hop
    exact absurd hop (by decide)

end Loads

section Totality

variable {affine : Affine} {words output : List ℕ} {row column : ℕ} {values : String → Option ℕ}

/-- A node whose operands have values, and whose load stays in the input, gets a value. -/
theorem evaluateNode_total {schema : Schema} {n : Node} (output : List ℕ) (hok : NodeOk schema n)
    (hv : n.op ≠ .store) (hdeps : ∀ y ∈ dependencies n, ∃ w, values y = some w)
    (hload : ∀ address, n.body = .load address →
      ∃ w, readWord words (nodeAddress address (centerOf affine row column) affine.inputStride) = .ok w) :
    ∃ w, evaluateNode affine words row column (values, output) n =
      .ok (Function.update values n.id (some w), output) := by
  cases hok with
  | selector id name =>
    obtain ⟨w, hw⟩ := hload _ rfl
    exact ⟨w, by simp only [evaluateNode, hw]; rfl⟩
  | relative id dr dc =>
    obtain ⟨w, hw⟩ := hload _ rfl
    exact ⟨w, by simp only [evaluateNode, hw]; rfl⟩
  | binary id op y z =>
    obtain ⟨a, ha⟩ := hdeps y (by simp [dependencies])
    obtain ⟨b, hb⟩ := hdeps z (by simp [dependencies])
    have hargs : [y, z].mapM (lookup values) = .ok [a, b] := by
      simp [lookup_eq_ok.mpr ha, lookup_eq_ok.mpr hb, bind, Except.bind, pure, Except.pure]
    exact ⟨binaryWord op [a, b], by simp only [evaluateNode, hargs]; rfl⟩
  | immediate id op y v =>
    obtain ⟨a, ha⟩ := hdeps y (by simp [dependencies])
    exact ⟨immediateWord op a v, by simp only [evaluateNode, lookup_eq_ok.mpr ha]; rfl⟩
  | store id y => exact absurd rfl hv

theorem nodes_total (values : String → Option ℕ) {schema : Schema} {seen : Finset String} {ns : List Node}
    (output : List ℕ)
    (hord : Ordered Node.id dependencies seen ns) (hok : ∀ n ∈ ns, NodeOk schema n)
    (hv : ∀ n ∈ ns, n.op ≠ .store) (hvalues : ∀ y ∈ seen, ∃ w, values y = some w)
    (hload : ∀ n ∈ ns, ∀ address, n.body = .load address →
      ∃ w, readWord words (nodeAddress address (centerOf affine row column) affine.inputStride) = .ok w) :
    ∃ values', ns.foldlM (evaluateNode affine words row column) (values, output) = .ok (values', output) ∧
      ∀ y ∈ seen ∪ (ns.map Node.id).toFinset, ∃ w, values' y = some w := by
  induction ns generalizing seen values with
  | nil => exact ⟨values, rfl, by simpa using hvalues⟩
  | cons n ns ih =>
    obtain ⟨-, hdeps, hord⟩ := hord
    obtain ⟨w, hw⟩ := evaluateNode_total output (hok n (by simp)) (hv n (by simp))
      (fun y hy => hvalues y (hdeps y hy)) (hload n (by simp))
    have hnext : ∀ y ∈ insert n.id seen, ∃ v, Function.update values n.id (some w) y = some v := by
      intro y hy
      by_cases hyn : y = n.id
      · exact ⟨w, by simp [hyn]⟩
      · rw [Function.update_of_ne hyn]
        exact hvalues y ((Finset.mem_insert.mp hy).resolve_left hyn)
    obtain ⟨values', hrun, hall⟩ := ih _ hord (fun m hm => hok m (by simp [hm]))
      (fun m hm => hv m (by simp [hm])) hnext fun m hm => hload m (by simp [hm])
    refine ⟨values', by rw [List.foldlM_cons, hw]; exact hrun, fun y hy => hall y ?_⟩
    simp only [List.map_cons, List.toFinset_cons, Finset.mem_union, Finset.mem_insert] at hy ⊢
    tauto

/-- Outside the missed corner the oracle evaluates every cell. -/
theorem oracleCell_total (h : Valid value body id x) (hcorner : ¬ MissedCorner value)
    (hlen : words.length = 324) (hrow : (row : ℤ) < value.affine.rows)
    (hcolumn : (column : ℤ) < value.affine.columns) (ho : output.length = 256) :
    ∃ output', oracleCell value.affine words (body ++ [⟨id, .store x⟩]) output row column = .ok output' ∧
      output'.length = 256 := by
  have hload : ∀ n ∈ body, ∀ address, n.body = .load address → ∃ w, readWord words
      (nodeAddress address (centerOf value.affine row column) value.affine.inputStride) = .ok w := by
    intro n hn address ha
    have hmem := h.perm.mem_iff.mp (List.mem_append_left _ hn)
    obtain ⟨h0, hlt⟩ := oracleReads_mem h hcorner ⟨row, column, hrow, hcolumn, n, hmem, address, ha, rfl⟩
    exact readWord_ok h0 (by omega)
  have hord := (ordered_append.mp h.ordered).1
  obtain ⟨values, hrun, hvalues⟩ := nodes_total (fun _ => none) output hord
    (fun n hn => h.ok n (h.perm.mem_iff.mp (List.mem_append_left _ hn))) h.values
    (by simp) hload
  obtain ⟨w, hw⟩ := hvalues x (by simpa using h.operand_mem)
  obtain ⟨h0, h256⟩ := storeIndex_mem h.shape hrow hcolumn
  obtain ⟨output', hout, hlen'⟩ := writeWord_ok output w h0 (by omega)
  refine ⟨output', ?_, by omega⟩
  have hstore : evaluateNode value.affine words row column (values, output) ⟨id, .store x⟩ =
      .ok (values, output') := by
    rw [storeIndex] at hout
    simp only [evaluateNode, lookup_eq_ok.mpr hw, hout, bind, Except.bind, pure, Except.pure]
  refine except_bind_eq_ok.mpr ⟨(values, output'), ?_, rfl⟩
  rw [List.foldlM_append, hrun]
  change [Node.mk id (.store x)].foldlM (evaluateNode value.affine words row column) (values, output) = _
  rw [List.foldlM_cons, hstore]
  rfl

theorem graphOracle_total (h : Valid value body id x) (hv : validateDescriptor value = .ok ())
    (hcorner : ¬ MissedCorner value) (hlen : words.length = 324) :
    ∃ output, graphOracle value words = .ok output := by
  have hcolumns := fun (row : ℕ) (hrow : (row : ℤ) < value.affine.rows) (output : List ℕ)
    (ho : output.length = 256) => foldlM_total (P := fun output : List ℕ => output.length = 256)
    (f := fun output column => oracleCell value.affine words (body ++ [⟨id, .store x⟩]) output row column)
    (l := List.range value.affine.columns.toNat) ho fun output ho column hcol =>
      oracleCell_total h hcorner hlen hrow (by rw [List.mem_range] at hcol; omega) ho
  obtain ⟨output, hrun, -⟩ := foldlM_total (P := fun output : List ℕ => output.length = 256)
    (l := List.range value.affine.rows.toNat) (s := List.replicate 256 0) (List.length_replicate ..)
    fun output ho row hrow => hcolumns row (by rw [List.mem_range] at hrow; omega) output ho
  exact ⟨output, check_then_eq_ok.mpr ⟨hv, require_then_eq_ok.mpr ⟨hlen, except_bind_eq_ok.mpr
    ⟨_, h.scheduled, hrun⟩⟩⟩⟩

end Totality

/-- Distinct cells store to distinct words. -/
theorem storeIndex_injective {affine : Affine} (h : shapeOk affine) {row column row' column' : ℕ}
    (hc : (column : ℤ) < affine.columns) (hc' : (column' : ℤ) < affine.columns)
    (heq : storeIndex affine row column = storeIndex affine row' column') :
    row = row' ∧ column = column' := by
  obtain ⟨-, -, h1, -, -, hos, -⟩ := h
  obtain ⟨stride, hs⟩ := Int.eq_ofNat_of_zero_le (show 0 ≤ affine.outputStride by omega)
  unfold storeIndex at heq
  rw [hs] at heq hos
  have hnat : row * stride + column = row' * stride + column' := by exact_mod_cast heq
  have hdiv := congrArg (· / stride) hnat
  have hpos : 0 < stride := by omega
  simp only [Nat.mul_comm _ stride, Nat.mul_add_div hpos, Nat.div_eq_of_lt (show column < stride by omega),
    Nat.div_eq_of_lt (show column' < stride by omega), Nat.add_zero] at hdiv
  subst hdiv
  exact ⟨rfl, by omega⟩

/-- Both evaluators keep to the 324 input and 256 output words of a descriptor, on every input. -/
structure AddressSafe (sha256 : List UInt8 → Digest) (value : Descriptor) : Prop where
  oracleLoads : ∀ index, OracleReads value index → 0 ≤ index ∧ index < 324
  fallbackLoads : ∀ program, compileDescriptor sha256 value = .ok program →
    ∀ index, FallbackReads program.toImage index → 0 ≤ index ∧ index < 324
  stores : ∀ row column : ℕ, (row : ℤ) < value.affine.rows → (column : ℤ) < value.affine.columns →
    0 ≤ storeIndex value.affine row column ∧ storeIndex value.affine row column < 256
  distinct : ∀ row column row' column' : ℕ, (column : ℤ) < value.affine.columns →
    (column' : ℤ) < value.affine.columns →
    storeIndex value.affine row column = storeIndex value.affine row' column' → row = row' ∧ column = column'
  oracleTotal : ∀ words : List ℕ, words.length = 324 → ∃ output, graphOracle value words = .ok output
  fallbackTotal : ∀ program, compileDescriptor sha256 value = .ok program → ∀ words : List ℕ,
    words.length = 324 → ∃ output, softwareFallback sha256 program.toImage words = .ok output

/-- An admitted descriptor is address safe exactly outside the missed corner. -/
theorem addressSafe_iff (sha256 : List UInt8 → Digest) (value : Descriptor)
    (hv : validateDescriptor value = .ok ()) : AddressSafe sha256 value ↔ ¬ MissedCorner value := by
  obtain ⟨body, id, x, h⟩ := validateDescriptor_eq_ok hv
  constructor
  · intro hsafe hcorner
    have := (hsafe.oracleLoads 324 (oracleReads_past h hcorner)).2
    omega
  · intro hcorner
    refine ⟨fun index hi => oracleReads_mem h hcorner hi, fun program hp index hi => ?_,
      fun row column hr hc => storeIndex_mem h.shape hr hc,
      fun row column row' column' hc hc' heq => storeIndex_injective h.shape hc hc' heq,
      fun words hlen => graphOracle_total h hv hcorner hlen, fun program hp words hlen => ?_⟩
    · obtain ⟨t, ws, r, hc⟩ := compiled_of_eq_ok h hv hp
      exact oracleReads_mem h hcorner (hi.oracle h hc)
    · obtain ⟨t, ws, r, hc⟩ := compiled_of_eq_ok h hv hp
      obtain ⟨output, -, hout⟩ := fallback_eq_oracle h hv hc hlen
        fun index hi => (oracleReads_mem h hcorner hi).2
      exact ⟨output, hout⟩

theorem addressSafe_sumGraph : validateDescriptor sumGraph = .ok () ∧ AddressSafe Sha256.digest sumGraph := by
  have hv : validateDescriptor sumGraph = .ok () := by decide +kernel
  refine ⟨hv, (addressSafe_iff Sha256.digest sumGraph hv).mpr fun hcorner => ?_⟩
  exact absurd hcorner.1 (by decide)

/-- One cell whose south-east neighbour is word 324. -/
def cornerGraph : Descriptor where
  schema := .v2
  graphId := "corner"
  affine := ⟨1, 1, 161, 1⟩
  nodes := [⟨"far", .load (.relative 1 1)⟩, ⟨"out", .store "far"⟩]

theorem not_addressSafe_cornerGraph : validateDescriptor cornerGraph = .ok () ∧
    OracleReads cornerGraph 324 ∧ graphOracle cornerGraph (List.replicate 324 0) = .error "IndexError" ∧
    ¬ AddressSafe Sha256.digest cornerGraph := by
  have hreads : OracleReads cornerGraph 324 :=
    ⟨0, 0, by decide, by decide, ⟨"far", .load (.relative 1 1)⟩, by decide, .relative 1 1, rfl, by decide⟩
  refine ⟨by decide +kernel, hreads, by decide +kernel, fun hsafe => ?_⟩
  exact absurd (hsafe.oracleLoads 324 hreads).2 (by decide)

end Raveil.Graph
