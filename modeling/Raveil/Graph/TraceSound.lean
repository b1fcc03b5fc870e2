import Raveil.Graph.Safety

/-! What an accepted lowering trace says about the words it explains. -/
namespace Raveil.Graph
open Raveil.Lib

/-- The words compute the descriptor on every input whose addresses stay in the window. -/
def Explains (value : Descriptor) (instructions : List ℕ) : Prop :=
  ∀ words : List ℕ, words.length = 324 → (∀ w ∈ words, w < 2 ^ 32) →
    (∀ index, OracleReads value index → index < 324) →
    ∃ output, graphOracle value words = .ok output ∧
      runInstructions (programVersion value) value.affine instructions words = .ok output

/-- The node at `j` has the node at `i` for an operand. -/
def usesAt (nodes : List Node) (i j : ℕ) : Bool :=
  match nodes[i]?, nodes[j]? with
  | some node, some user => node.id ∈ dependencies user
  | _, _ => false

/-- No word writes the register of a value between the word that defines it and a node that uses it. -/
def LifetimesKept (nodes : List Node) (instructions : List ℕ) : Prop :=
  ∀ j < nodes.length, ∀ k < j, ∀ i < k, usesAt nodes i j = true →
    destinationOf (instructions.getD i 0) ≠ destinationOf (instructions.getD k 0)

instance (nodes : List Node) (instructions : List ℕ) : Decidable (LifetimesKept nodes instructions) := by
  unfold LifetimesKept
  infer_instance

section Check

variable {version count k word : ℕ} {nodes : List Node} {node : Node} {entry : TraceEntry}
  {a a' : String → Option ℕ}

theorem destinationOf_lt (word : ℕ) : destinationOf word < 8 := and_seven_lt _

/-- An accepted entry: the word is the encoding of the node from the registers of its operands. -/
theorem checkEntry_eq_ok (h : checkEntry version nodes count a (((node, word), entry), k) = .ok a') :
    ∃ sources, (dependencies node).mapM (lookup a) = .ok sources ∧
      (node.op ≠ .store → word = encodeNode node (destinationOf word) sources ∧
        a' = Function.update a node.id (some (destinationOf word))) ∧
      (node.op = .store → word = encodeNode node 0 sources ∧ a' = a) := by
  obtain ⟨-, h⟩ := require_then_eq_ok.mp h
  obtain ⟨-, h⟩ := require_then_eq_ok.mp h
  obtain ⟨sources, hsources, h⟩ := except_bind_eq_ok.mp h
  obtain ⟨hfields, h⟩ := require_then_eq_ok.mp h
  obtain ⟨-, h⟩ := require_then_eq_ok.mp h
  obtain ⟨hword, h⟩ := require_then_eq_ok.mp h
  have hregisters : entry.sourceRegisters = sources := hfields.2.2.2.2.2.2.2.2
  rw [hregisters] at hword
  refine ⟨sources, hsources, fun hv => ?_, fun hs => ?_⟩
  · simp only [if_neg hv] at hword h
    exact ⟨hword, (except_pure_eq_ok.mp h).symm⟩
  · simp only [if_pos hs] at hword h
    exact ⟨hword, (except_pure_eq_ok.mp h).symm⟩

theorem mapM_lookup_congr {l : List String} {b : String → Option ℕ} (h : ∀ y ∈ l, a y = b y) :
    l.mapM (lookup a) = l.mapM (lookup b) := by
  induction l with
  | nil => rfl
  | cons y l ih =>
    have hy : lookup a y = lookup b y := by rw [lookup, lookup, h y (by simp)]
    rw [List.mapM_cons, List.mapM_cons, hy, ih fun z hz => h z (by simp [hz])]

end Check

section Simulation

variable {value : Descriptor} {body : List Node} {id x : String} {instructions words output : List ℕ}
  {g : ℕ → String → Option ℕ} {row column k : ℕ}

/-- The states of the checking loop over a schedule and its words. -/
structure Checked (value : Descriptor) (nodes : List Node) (instructions : List ℕ)
    (g : ℕ → String → Option ℕ) : Prop where
  length : instructions.length = nodes.length
  start : g 0 = fun _ => none
  entry : ∀ k node, nodes[k]? = some node → ∃ word sources, instructions[k]? = some word ∧
    (dependencies node).mapM (lookup (g k)) = .ok sources ∧
    (node.op ≠ .store → word = encodeNode node (destinationOf word) sources ∧
      g (k + 1) = Function.update (g k) node.id (some (destinationOf word))) ∧
    (node.op = .store → word = encodeNode node 0 sources)

theorem checked_of_validate {sha256 : List UInt8 → Digest} {trace : LoweringTrace} {nodes : List Node}
    (hnodes : scheduledNodes value.nodes = .ok nodes) (hn : nodes.length = value.nodes.length)
    (hlength : instructions.length = nodes.length)
    (h : validateLoweringTrace sha256 value trace instructions = .ok ()) :
    ∃ g, Checked value nodes instructions g := by
  obtain ⟨-, h⟩ := check_then_eq_ok.mp h
  obtain ⟨-, h⟩ := require_then_eq_ok.mp h
  obtain ⟨-, h⟩ := require_then_eq_ok.mp h
  obtain ⟨hentries, h⟩ := require_then_eq_ok.mp h
  obtain ⟨nodes', hnodes', h⟩ := except_bind_eq_ok.mp h
  obtain rfl : nodes' = nodes := Except.ok.inj (hnodes'.symm.trans hnodes)
  obtain ⟨last, hfold, -⟩ := except_bind_eq_ok.mp h
  obtain ⟨g, h0, -, hg⟩ := foldlM_zipIdx_eq_ok.mp hfold
  refine ⟨g, hlength, h0, fun k node hk => ?_⟩
  have hlt := (List.getElem?_eq_some_iff.mp hk).1
  obtain ⟨word, hword⟩ : ∃ word, instructions[k]? = some word :=
    ⟨_, List.getElem?_eq_getElem (by omega)⟩
  obtain ⟨entry, hentry⟩ : ∃ entry, trace.instructions[k]? = some entry :=
    ⟨_, List.getElem?_eq_getElem (by omega)⟩
  have hzip : ((nodes'.zip instructions).zip trace.instructions)[k]? = some ((node, word), entry) := by
    rw [List.getElem?_zip_eq_some, List.getElem?_zip_eq_some]
    exact ⟨⟨hk, hword⟩, hentry⟩
  obtain ⟨sources, hsources, hvalue, hstore⟩ := checkEntry_eq_ok (hg k _ hzip)
  exact ⟨word, sources, hword, hsources, hvalue, fun hs => (hstore hs).1⟩

/-- Every register of the checking loop is the destination of an earlier word. -/
theorem Checked.allocated {nodes : List Node} (hc : Checked value nodes instructions g)
    (hvalues : ∀ i node, i < k → nodes[i]? = some node → node.op ≠ .store) (hk : k ≤ nodes.length) {y : String}
    {r : ℕ} (hy : g k y = some r) :
    ∃ i < k, ∃ node, nodes[i]? = some node ∧ node.id = y ∧ r = destinationOf (instructions.getD i 0) := by
  induction k generalizing y r with
  | zero => simp [hc.start] at hy
  | succ k ih =>
    have hnode : nodes[k]? = some nodes[k] := List.getElem?_eq_getElem (by omega)
    obtain ⟨word, sources, hword, -, hvalue, -⟩ := hc.entry k _ hnode
    obtain ⟨-, hnext⟩ := hvalue (hvalues k _ (by omega) hnode)
    rw [hnext] at hy
    by_cases hid : y = nodes[k].id
    · subst hid
      rw [Function.update_self] at hy
      refine ⟨k, by omega, _, hnode, rfl, ?_⟩
      rw [List.getD_eq_getElem?_getD, hword]
      exact (Option.some.inj hy).symm
    · rw [Function.update_of_ne hid] at hy
      obtain ⟨i, hi, node, hni, hnid, hr⟩ := ih (fun i node hi => hvalues i node (by omega)) (by omega) hy
      exact ⟨i, by omega, node, hni, hnid, hr⟩

/-- Every register that a node from `k` on reads holds the value of its name. -/
def Holds (nodes : List Node) (g : ℕ → String → Option ℕ) (k : ℕ) (values : String → Option ℕ)
    (regs : ℕ → ℕ) : Prop :=
  ∀ j user, k ≤ j → nodes[j]? = some user → ∀ y ∈ dependencies user, ∀ r, g k y = some r →
    values y = some (regs r)

/-- The checked words simulate the oracle up to the store, when no lifetime is cut short. -/
theorem Checked.simulate (h : Valid value body id x)
    (hc : Checked value (body ++ [⟨id, .store x⟩]) instructions g)
    (hkept : LifetimesKept (body ++ [⟨id, .store x⟩]) instructions) (hlen : words.length = 324)
    (hreads : ∀ index, OracleReads value index → index < 324) (hrow : (row : ℤ) < value.affine.rows)
    (hcolumn : (column : ℤ) < value.affine.columns) (output : List ℕ) (hk : k ≤ body.length) :
    ∃ values regs, (body.take k).foldlM (evaluateNode value.affine words row column) (fun _ => none, output) =
        .ok (values, output) ∧
      (instructions.take k).foldlM (executeInstruction (programVersion value) value.affine words row column)
        (fun _ => 0, output) = .ok (regs, output) ∧
      Holds (body ++ [⟨id, .store x⟩]) g k values regs := by
  induction k with
  | zero =>
    refine ⟨fun _ => none, fun _ => 0, rfl, rfl, fun j user _ _ y _ r hy => ?_⟩
    simp [hc.start] at hy
  | succ k ih =>
    obtain ⟨values, regs, hev, hex, hholds⟩ := ih (by omega)
    obtain ⟨n, hn⟩ : ∃ n, body[k]? = some n := ⟨_, List.getElem?_eq_getElem (by omega)⟩
    have hnode : (body ++ [Node.mk id (.store x)])[k]? = some n := by
      rw [List.getElem?_append_left (by omega), hn]
    have hmem : n ∈ body := List.mem_of_getElem? hn
    have hbefore : ∀ i node, i < k → (body ++ [Node.mk id (.store x)])[i]? = some node → node.op ≠ .store := by
      intro i node hi hnode
      rw [List.getElem?_append_left (by omega)] at hnode
      exact h.values node (List.mem_of_getElem? hnode)
    obtain ⟨word, sources, hword, hsources, hvalue, -⟩ := hc.entry k n hnode
    obtain ⟨hencode, hnext⟩ := hvalue (h.values n hmem)
    have hlt : ∀ r ∈ sources, r < 8 := by
      intro r hr
      obtain ⟨y, hy⟩ := mem_of_mapM_lookup hsources hr
      obtain ⟨i, -, node, -, -, rfl⟩ := hc.allocated hbefore (by simp; omega) hy
      exact destinationOf_lt _
    -- only the operands of this node have to agree
    rw [mapM_lookup_congr (b := fun y => if y ∈ dependencies n then g k y else none)
      fun y hy => by simp [hy]] at hsources
    obtain ⟨w, hstep, hrun⟩ := node_step output (h.encodable n (by simp [hmem])) (h.values n hmem)
      (destinationOf_lt word) hsources hlt (fun y r hy => by
        by_cases hdep : y ∈ dependencies n
        · exact hholds k n (Nat.le_refl k) hnode y hdep r (by simpa [hdep] using hy)
        · simp [hdep] at hy)
      (h.load_ok hlen hreads hrow hcolumn n hmem)
    rw [← hencode] at hrun
    refine ⟨Function.update values n.id (some w), Function.update regs (destinationOf word) w, ?_, ?_, ?_⟩
    · rw [List.take_add_one, hn, List.foldlM_append, hev]
      change [n].foldlM (evaluateNode value.affine words row column) (values, output) = _
      rw [List.foldlM_cons, hstep]
      rfl
    · rw [List.take_add_one, hword, List.foldlM_append, hex]
      change [word].foldlM (executeInstruction (programVersion value) value.affine words row column)
        (regs, output) = _
      rw [List.foldlM_cons, hrun]
      rfl
    · intro j user hj huser y hy r hr
      rw [hnext] at hr
      by_cases hid : y = n.id
      · subst hid
        rw [Function.update_self] at hr
        obtain rfl := Option.some.inj hr
        rw [Function.update_self, Function.update_self]
      · rw [Function.update_of_ne hid] at hr
        obtain ⟨i, hi, node, hni, rfl, hri⟩ := hc.allocated hbefore (by simp; omega) hr
        have huse : usesAt (body ++ [⟨id, .store x⟩]) i j = true := by simp [usesAt, hni, huser, hy]
        have hjlt := (List.getElem?_eq_some_iff.mp huser).1
        have hne := hkept j hjlt k (by omega) i hi huse
        have hd : instructions.getD k 0 = word := by rw [List.getD_eq_getElem?_getD, hword, Option.getD_some]
        rw [← hri, hd] at hne
        rw [Function.update_of_ne hid, Function.update_of_ne hne]
        exact hholds j user (by omega) huser node.id hy r hr

/-- An accepted trace explains its words when there is one word for each node and every register is kept
for as long as its value has uses. -/
theorem explains_of_validate (sha256 : List UInt8 → Digest) (value : Descriptor) (trace : LoweringTrace)
    (instructions : List ℕ) (nodes : List Node) (hnodes : scheduledNodes value.nodes = .ok nodes)
    (hcount : instructions.length = nodes.length) (hkept : LifetimesKept nodes instructions)
    (h : validateLoweringTrace sha256 value trace instructions = .ok ()) : Explains value instructions := by
  intro words hlen _ hreads
  have hv : validateDescriptor value = .ok () := (check_then_eq_ok.mp h).1
  obtain ⟨body, id, x, hvalid⟩ := validateDescriptor_eq_ok hv
  obtain rfl : body ++ [⟨id, .store x⟩] = nodes := Except.ok.inj (hvalid.scheduled.symm.trans hnodes)
  obtain ⟨g, hc⟩ := checked_of_validate hnodes hvalid.perm.length_eq hcount h
  refine run_of_cells hvalid hv hlen fun row column output hrow hcolumn ho => ?_
  obtain ⟨values, regs, hev, hex, hholds⟩ :=
    hc.simulate hvalid hkept hlen hreads hrow hcolumn output (Nat.le_refl _)
  have hlast : (body ++ [Node.mk id (.store x)])[body.length]? = some ⟨id, .store x⟩ := by simp
  obtain ⟨word, sources, hword, hsources, -, hstore⟩ := hc.entry _ _ hlast
  obtain ⟨r, hr, rfl⟩ := mapM_lookup_one hsources
  have hencode : word = encodeStore r := hstore rfl
  have hbefore : ∀ i node, i < body.length → (body ++ [Node.mk id (.store x)])[i]? = some node →
      node.op ≠ .store := by
    intro i node hi hnode
    rw [List.getElem?_append_left hi] at hnode
    exact hvalid.values node (List.mem_of_getElem? hnode)
  obtain ⟨i, -, node, -, -, hri⟩ := hc.allocated hbefore (by simp) hr
  have hwords : instructions = instructions.take body.length ++ [encodeStore r] := by
    have hlength := hc.length
    rw [List.length_append, List.length_singleton] at hlength
    rw [← hencode]
    conv_lhs => rw [← List.take_length (l := instructions), hlength, List.take_add_one, hword]
    rfl
  rw [hwords]
  rw [List.take_length] at hev
  exact cell_of_body hvalid (hri ▸ destinationOf_lt _)
    (hholds _ _ (Nat.le_refl _) hlast x (by simp [dependencies]) r hr) hrow hcolumn ho hev hex

end Simulation

/-- The sum of a cell and its east neighbour, for one cell. -/
def cellGraph : Descriptor := { sumGraph with affine := ⟨1, 1, 3, 1⟩ }

/-- The nodes of the sum in their schedule. -/
def cellNodes : List Node :=
  [⟨"here", .load (.selector .center)⟩, ⟨"east", .load (.selector .east)⟩, ⟨"sum", .binary .add ["here", "east"]⟩,
    ⟨"out", .store "sum"⟩]

/-- The trace of words for the sum, from the registers it looks up. -/
def cellTrace (sha256 : List UInt8 → Digest) (instructions : List ℕ) (sources : List (List ℕ))
    (destinations : List (Option ℕ)) : LoweringTrace where
  schema := traceSchema cellGraph
  graphId := cellGraph.graphId
  descriptorCanonicalSha256 := sha256 (canonical cellGraph)
  programVersion := programVersion cellGraph
  instructionCount := instructions.length
  programSha256 := programDigest sha256 instructions
  instructions := (List.range 4).map fun i =>
    entryOf (programVersion cellGraph) cellNodes instructions.length i (cellNodes.getD i ⟨"", .store ""⟩)
      (instructions.getD i 0) (sources.getD i []) (destinations.getD i none)

theorem scheduledNodes_cellGraph : scheduledNodes cellGraph.nodes = .ok cellNodes := by decide +kernel

/-- The identities of the trace are right by construction; the entries decide. -/
theorem validate_cellTrace {sha256 : List UInt8 → Digest} {instructions : List ℕ} {sources : List (List ℕ)} {destinations : List (Option ℕ)}
    {last : String → Option ℕ} (h : ((cellNodes.zip instructions).zip
      (cellTrace sha256 instructions sources destinations).instructions).zipIdx.foldlM
      (checkEntry (programVersion cellGraph) cellNodes instructions.length) (fun _ => none) = .ok last) :
    validateLoweringTrace sha256 cellGraph (cellTrace sha256 instructions sources destinations) instructions =
      .ok () :=
  check_then_eq_ok.mpr ⟨by decide +kernel, require_then_eq_ok.mpr ⟨⟨rfl, rfl, rfl, rfl, rfl⟩,
    require_then_eq_ok.mpr ⟨rfl, require_then_eq_ok.mpr ⟨by simp [cellTrace, cellGraph, sumGraph],
    except_bind_eq_ok.mpr ⟨_, scheduledNodes_cellGraph, except_bind_eq_ok.mpr ⟨last, h, rfl⟩⟩⟩⟩⟩⟩

/-- Both loads go to register one, so that the sum doubles the east neighbour. -/
def clobberedWords : List ℕ :=
  [encodeLoad 1 (.selector .center), encodeLoad 1 (.selector .east), encodeAdd 2 1 1, encodeStore 2]

theorem cellGraph_reads : ∀ index, OracleReads cellGraph index → index < 324 := by
  have hv : validateDescriptor cellGraph = .ok () := by decide +kernel
  obtain ⟨body, id, x, h⟩ := validateDescriptor_eq_ok hv
  exact fun index hi => (oracleReads_mem h (fun hcorner => absurd hcorner.1 (by decide)) hi).2

theorem not_explains_clobberedWords :
    validateLoweringTrace Sha256.digest cellGraph
      (cellTrace Sha256.digest clobberedWords [[], [], [1, 1], [2]] [some 1, some 1, some 2, none]) clobberedWords = .ok () ∧
    ¬ Explains cellGraph clobberedWords := by
  refine ⟨validate_cellTrace rfl, fun h => ?_⟩
  obtain ⟨output, h1, h2⟩ := h (List.range 324) List.length_range
    (fun w hw => (List.mem_range.mp hw).trans (by norm_num)) cellGraph_reads
  have hne : graphOracle cellGraph (List.range 324) ≠ runInstructions (programVersion cellGraph)
      cellGraph.affine clobberedWords (List.range 324) := by decide +kernel
  exact hne (h1.trans h2.symm)

/-- The sum with a register for each load. -/
def keptWords : List ℕ :=
  [encodeLoad 1 (.selector .center), encodeLoad 3 (.selector .east), encodeAdd 2 1 3, encodeStore 2]

theorem explains_of_validate_keptWords : LifetimesKept cellNodes keptWords ∧ Explains cellGraph keptWords := by
  have hkept : LifetimesKept cellNodes keptWords := by decide +kernel
  exact ⟨hkept, explains_of_validate Sha256.digest cellGraph
    (cellTrace Sha256.digest keptWords [[], [], [1, 3], [2]] [some 1, some 3, some 2, none]) keptWords cellNodes
    scheduledNodes_cellGraph (by decide) hkept (validate_cellTrace rfl)⟩

end Raveil.Graph
