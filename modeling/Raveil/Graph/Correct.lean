import Raveil.Lib.Hash
import Raveil.Graph.Lowering

/-! The compiler as a whole: what it emits, when it refuses, and that its program is the oracle. -/
namespace Raveil.Graph
open Raveil.Lib

variable {sha256 : List UInt8 → Digest} {value : Descriptor} {body : List Node} {id x : String}

section Store

variable {s t : Allocation} {ws : List ℕ} {r : ℕ}

theorem allocInv_initial (nodes : List Node) :
    AllocInv (unusedNames nodes) ∅ (Allocation.initial nodes) where
  pool := by
    rw [Finset.filter_empty]
    exact Pool.ok_initial 8
  unused := by
    intro y hy
    have hzero : useCount nodes y = 0 := by
      simp only [unusedNames, List.mem_toFinset, List.mem_filter, decide_eq_true_eq] at hy
      exact hy.2
    simp [Allocation.initial, hzero]
  recorded := by simp [Allocation.initial]
  unseen := by simp [Allocation.initial]

/-- The store is emitted last, from the register of its operand. -/
theorem allocate_store {unused seen : Finset String} (h : AllocInv unused seen t) (hx : x ∈ seen)
    (hrem : ∀ y, t.remaining y = useCount [⟨id, .store x⟩] y) :
    ∃ r u, t.registers x = some r ∧ r < 8 ∧ allocateNode t ⟨id, .store x⟩ = .ok u ∧
      u.instructions = t.instructions ++ [encodeStore r] ∧ u.allocations = t.allocations := by
  have hone : t.remaining x = 1 := by simp [hrem, useCount, dependencies]
  obtain ⟨r, hr⟩ := h.pool.exists_register (x := x) (by simp [hx, hone])
  obtain ⟨s', hs', -, -, hins, hall, -⟩ := h.consume hx (by omega)
  refine ⟨r, { s' with
    free := s'.free.insertionSort (· ≤ ·)
    instructions := s'.instructions ++ [encodeStore r] }, hr, h.pool.lt x r hr, ?_, by rw [hins], hall⟩
  have hsources : (dependencies ⟨id, .store x⟩).mapM (lookup t.registers) = .ok [r] := by
    simp [dependencies, lookup_eq_ok.mpr hr, bind, Except.bind, pure, Except.pure]
  have hfold : (dependencies ⟨id, .store x⟩).foldlM Allocation.consume t = .ok s' := by
    simp [dependencies, hs']
  have hop : (Node.mk id (.store x)).op = .store := rfl
  simp only [allocateNode, hsources, hfold, hop, if_true, bind, Except.bind, pure, Except.pure]
  rfl

end Store

/-- A compiled descriptor: the words of the body, then the store of register `r`. -/
structure Compiled (sha256 : List UInt8 → Digest) (value : Descriptor) (body : List Node) (id x : String)
    (program : Program) (t : Allocation) (ws : List ℕ) (r : ℕ) : Prop where
  emission : Emission (Allocation.initial (body ++ [⟨id, .store x⟩])) body ws t
  register : t.registers x = some r
  lt : r < 8
  affine : program.affine = value.affine
  instructions : program.instructions = ws ++ [encodeStore r]
  count : program.instructionCount = program.instructions.length
  digest : program.programSha256 = programDigest sha256 program.instructions
  payload : program.payload = payloadWords sha256 (programVersion value) program.instructions

section Compile

theorem Valid.encodable (h : Valid value body id x) :
    ∀ n ∈ body ++ [⟨id, .store x⟩], Encodable (programVersion value) n := by
  intro n hn
  have hmem := h.perm.mem_iff.mp hn
  exact encodable_of_nodeOk hmem (h.ok n hmem)

theorem Valid.operand_mem (h : Valid value body id x) : x ∈ body.map Node.id := by
  have hord := h.ordered
  rw [ordered_append] at hord
  have := hord.2.2.1 x (by simp [dependencies])
  simpa using this

theorem Valid.length (h : Valid value body id x) : body.length + 1 = value.nodes.length := by
  have := h.perm.length_eq
  simpa using this

/-- The trace of a compiled descriptor passes its own check. -/
theorem trace_ok (sha256 : List UInt8 → Digest) {t : Allocation} {ws : List ℕ} {r : ℕ} (h : Valid value body id x)
    (hv : validateDescriptor value = .ok ())
    (he : Emission (Allocation.initial (body ++ [⟨id, .store x⟩])) body ws t)
    (hrec : t.allocations x = some r) :
    ∃ trace, loweringTrace sha256 value (ws ++ [encodeStore r]) t.allocations = .ok trace ∧
      validateLoweringTrace sha256 value trace (ws ++ [encodeStore r]) = .ok () := by
  have hrs : (dependencies ⟨id, .store x⟩).mapM (lookup t.allocations) = .ok [r] := by
    simp [dependencies, lookup_eq_ok.mpr hrec, bind, Except.bind, pure, Except.pure]
  obtain ⟨entries, h1, h2, h3⟩ := trace_snoc (programVersion value) (ws ++ [encodeStore r]).length
    (body ++ [⟨id, .store x⟩]) he (fun n hn => h.encodable n (by simp [hn])) rfl hrs
  refine ⟨_, except_bind_eq_ok.mpr ⟨_, h.scheduled, except_bind_eq_ok.mpr ⟨_, h1, rfl⟩⟩, ?_⟩
  refine check_then_eq_ok.mpr ⟨hv, require_then_eq_ok.mpr ⟨⟨rfl, rfl, rfl, rfl, rfl⟩,
    require_then_eq_ok.mpr ⟨rfl, require_then_eq_ok.mpr ⟨?_, except_bind_eq_ok.mpr
    ⟨_, h.scheduled, except_bind_eq_ok.mpr ⟨_, h3, rfl⟩⟩⟩⟩⟩⟩
  rw [h2, h.length]

theorem Emits.opcode_ne {version d : ℕ} {s u : Allocation} {n : Node} {rs : List ℕ} (h : Emits s n d rs u)
    (hn : Encodable version n) : opcodeOf (encodeNode n d rs) ≠ STORE_U32 := by
  have hmem : ∀ r ∈ rs, r ∈ rs.toFinset := by simp
  have hop := (produces_encodeNode hn h.value h.lt h.sources h.sourcesLt hmem).1.opcode
  simp only [STORE_U32]
  omega

/-- Only a load is encoded as a load. -/
theorem Emits.load_of_opcode {version d : ℕ} {s u : Allocation} {n : Node} {rs : List ℕ}
    (h : Emits s n d rs u) (hn : Encodable version n) (hop : opcodeOf (encodeNode n d rs) = LOAD_U32) :
    ∃ address, n.body = .load address := by
  cases hn with
  | selector | relative => exact ⟨_, rfl⟩
  | binary id op x y =>
    obtain ⟨a, b, -, -, rfl⟩ := mapM_lookup_two h.sources
    have hcode := (encodeBinary_fields op.code h.lt (h.sourcesLt a (by simp)) (h.sourcesLt b (by simp))).1
    rw [encodeNode_binary, hcode] at hop
    cases op <;> exact absurd hop (by decide)
  | immediate id op x v hver hg h0 hm =>
    obtain ⟨a, -, rfl⟩ := mapM_lookup_one h.sources
    have hcode := (encodeImmediate_fields op.code h.lt (h.sourcesLt a (by simp))
      (show v.toNat < 2 ^ 22 by omega)).1
    rw [encodeNode_immediate, hcode] at hop
    cases op <;> exact absurd hop (by decide)
  | store id x => exact absurd rfl h.value

theorem payloadWords_length {instructions : List ℕ} (version : ℕ) (h : instructions.length ≤ 16) :
    (payloadWords sha256 version instructions).length = 32 := by
  simp [payloadWords, digestWords, PROGRAM_CAPACITY]
  omega

/-- The compiler refuses only for want of registers; otherwise it emits the words of the schedule. -/
theorem compileDescriptor_cases (sha256 : List UInt8 → Digest) (h : Valid value body id x)
    (hv : validateDescriptor value = .ok ()) :
    (compileDescriptor sha256 value = .error "Graph requires more than eight live values" ∧
      ∃ index, 8 < (liveAfter (body ++ [⟨id, .store x⟩]) index).length) ∨
    ∃ program t ws r, compileDescriptor sha256 value = .ok program ∧
      Compiled sha256 value body id x program t ws r := by
  have hall : body ++ [⟨id, .store x⟩] = [] ++ body ++ [Node.mk id (.store x)] := by simp
  have hcompile : compileDescriptor sha256 value = (do
      let s ← (body ++ [Node.mk id (.store x)]).foldlM allocateNode
        (Allocation.initial (body ++ [Node.mk id (.store x)]))
      require ((payloadWords sha256 (programVersion value) s.instructions).length = PROGRAM_WORDS)
        "AssertionError"
      let trace ← loweringTrace sha256 value s.instructions s.allocations
      validateLoweringTrace sha256 value trace s.instructions
      pure (programOf sha256 value s.instructions trace)) := by
    rw [compileDescriptor, hv, h.scheduled]
    rfl
  rcases allocate_run hall h.ordered (by simpa using h.values) (by simpa using allocInv_initial _)
    (fun y => by simp [Allocation.initial]) with ⟨herr, hbig⟩ | ⟨ws, t, hrun, hem, hinv, hrem⟩
  · left
    refine ⟨?_, hbig⟩
    rw [hcompile, List.foldlM_append, herr]
    rfl
  · right
    have hmem : x ∈ (([] ++ body).map Node.id).toFinset := by simpa using h.operand_mem
    obtain ⟨r, u, hr, hlt, hstore, hins, hallo⟩ := allocate_store hinv hmem hrem
    obtain ⟨trace, htrace, hcheck⟩ := trace_ok sha256 h hv hem (hinv.recorded x r hr)
    have hwords : u.instructions = ws ++ [encodeStore r] := by
      rw [hins, hem.instructions]
      rfl
    have hlen : u.instructions.length ≤ 16 := by
      have := h.length
      have := h.le_capacity
      rw [hwords, List.length_append, hem.length, List.length_singleton]
      omega
    refine ⟨programOf sha256 value u.instructions trace, t, ws, r, ?_, hem, hr, hlt, rfl, hwords, rfl, rfl,
      rfl⟩
    rw [hcompile, List.foldlM_append, hrun]
    refine except_bind_eq_ok.mpr ⟨u, by simpa using hstore, require_then_eq_ok.mpr
      ⟨payloadWords_length _ hlen, except_bind_eq_ok.mpr ⟨trace, ?_, check_then_eq_ok.mpr ⟨?_, rfl⟩⟩⟩⟩
    · rw [hwords, hallo]
      exact htrace
    · rw [hwords]
      exact hcheck

theorem compiled_of_eq_ok {program : Program} (h : Valid value body id x)
    (hv : validateDescriptor value = .ok ()) (hp : compileDescriptor sha256 value = .ok program) :
    ∃ t ws r, Compiled sha256 value body id x program t ws r := by
  rcases compileDescriptor_cases sha256 h hv with ⟨herr, -⟩ | ⟨program', t, ws, r, hok, hc⟩
  · simp [herr] at hp
  · obtain rfl : program' = program := by simpa [hok] using hp
    exact ⟨t, ws, r, hc⟩

end Compile

section Accepted

variable {program : Program} {t : Allocation} {ws : List ℕ} {r : ℕ}

theorem Compiled.length (h : Valid value body id x) (hc : Compiled sha256 value body id x program t ws r) :
    program.instructions.length = value.nodes.length := by
  rw [hc.instructions, List.length_append, hc.emission.length, List.length_singleton, h.length]

theorem payloadWords_eq (sha256 : List UInt8 → Digest) (version : ℕ) (instructions : List ℕ) :
    payloadWords sha256 version instructions = MAGIC :: version :: instructions.length :: 8 ::
      (digestWords (programDigest sha256 instructions) ++ (instructions ++
        (List.replicate (16 - instructions.length) 0 ++ [0, 0, 0, 0]))) := by
  simp [payloadWords, VALUE_REGISTERS, PROGRAM_CAPACITY]

theorem length_digestWords (digest : Digest) : (digestWords digest).length = 8 := by
  simp [digestWords]

theorem drop_payloadWords (version : ℕ) (instructions : List ℕ) :
    (payloadWords sha256 version instructions).drop 12 =
      instructions ++ (List.replicate (16 - instructions.length) 0 ++ [0, 0, 0, 0]) := by
  rw [payloadWords_eq]
  simp only [List.drop_succ_cons]
  exact List.drop_left' (length_digestWords _)

theorem getD_payloadWords (sha256 : List UInt8 → Digest) (version : ℕ) (instructions : List ℕ) :
    (payloadWords sha256 version instructions).getD 1 0 = version := by
  rw [payloadWords_eq]
  simp

theorem Compiled.version (hc : Compiled sha256 value body id x program t ws r) :
    program.payload.getD 1 0 = programVersion value := by
  rw [hc.payload, getD_payloadWords]

/-- The dictionary of a program with the digest that belongs to it. -/
def sealedImage (sha256 : List UInt8 → Digest) (affine : Affine) (version : ℕ) (instructions : List ℕ) : Image where
  affine := affine
  instructionCount := instructions.length
  instructions := instructions
  programSha256 := programDigest sha256 instructions
  payload := payloadWords sha256 version instructions

/-- A sealed program that follows the rules passes the standalone check of the fallback. -/
theorem fallbackOk_sealed (sha256 : List UInt8 → Digest) (affine : Affine) {version : ℕ} {instructions : List ℕ}
    (hversion : version ∈ [1, 2, 3, 4, 5, 6]) (htwo : 2 ≤ instructions.length) (hle : instructions.length ≤ 16)
    (hins : ∀ w ∈ instructions, w < 2 ^ 32) (hprogram : ProgramOk version ∅ instructions) :
    FallbackOk sha256 (sealedImage sha256 affine version instructions) := by
  have hpay : (sealedImage sha256 affine version instructions).payload = _ :=
    payloadWords_eq sha256 version instructions
  have hdrop : (sealedImage sha256 affine version instructions).payload.drop 12 = _ :=
    drop_payloadWords version instructions
  have hv : (sealedImage sha256 affine version instructions).payload.getD 1 0 = version :=
    getD_payloadWords sha256 version instructions
  have hn : (sealedImage sha256 affine version instructions).payload.getD 2 0 = instructions.length := by simp [hpay]
  refine ⟨?_, ?_, by simp [hpay], by rw [hv]; exact hversion, by simp [hpay], ?_, ?_, ?_, ?_⟩
  · simp [hpay, length_digestWords]
    omega
  · intro w hw
    simp only [hpay, List.mem_cons, List.mem_append, List.mem_replicate, List.not_mem_nil, or_false] at hw
    simp only [List.mem_cons, List.not_mem_nil, or_false] at hversion
    rcases hw with rfl | rfl | rfl | rfl | hw | hw | hw | hw
    · decide
    · omega
    · omega
    · decide
    · obtain ⟨i, -, rfl⟩ := List.mem_map.mp hw
      have := word_lt (List.ofFn (programDigest sha256 instructions)) (4 * i)
      omega
    · have := hins w hw
      omega
    · omega
    · omega
  · rw [hn]
    refine ⟨htwo, hle, rfl, ?_, ?_⟩
    · rw [hdrop]
      simp [sealedImage]
    · intro pad hpad
      rw [← List.drop_drop, hdrop, List.drop_left] at hpad
      simp only [List.mem_append, List.mem_replicate, List.mem_cons, List.not_mem_nil, or_false] at hpad
      omega
  · rw [hn]
    rfl
  · rw [hn, hpay]
    simp only [List.drop_succ_cons, List.drop_zero]
    exact List.take_left' (length_digestWords _)
  · rw [hv]
    exact hprogram

/-- The compiled program passes the standalone check of the fallback. -/
theorem Compiled.fallbackOk (h : Valid value body id x)
    (hc : Compiled sha256 value body id x program t ws r) : FallbackOk sha256 program.toImage := by
  have hlen := hc.length h
  have hle := h.le_capacity
  have htwo := h.two_le
  have hnone : ∀ y q, (Allocation.initial (body ++ [⟨id, .store x⟩])).registers y = some q →
      q ∈ (∅ : Finset ℕ) := by simp [Allocation.initial]
  obtain ⟨hprogram, hwords⟩ := programOk_emission hc.emission (fun n hn => h.encodable n (by simp [hn]))
    hnone hc.register hc.lt
  have hstore := (encodeStore_fields r hc.lt).2.2.2
  rw [← hc.instructions] at hprogram
  have hins : ∀ w ∈ program.instructions, w < 2 ^ 32 := by
    intro w hw
    rw [hc.instructions] at hw
    rcases List.mem_append.mp hw with hw | hw
    · exact hwords w hw
    · rw [List.mem_singleton.mp hw]
      exact hstore
  have himage : program.toImage =
      sealedImage sha256 program.affine (programVersion value) program.instructions := by
    rw [sealedImage, Image.mk.injEq]
    exact ⟨rfl, hc.count, rfl, hc.digest, hc.payload⟩
  rw [himage]
  exact fallbackOk_sealed sha256 program.affine (programVersion_mem value) (by omega) (by omega) hins hprogram

end Accepted

section Reads

/-- An index that the oracle reads for a load of the descriptor, at some cell of the shape. -/
def OracleReads (value : Descriptor) (index : ℤ) : Prop :=
  ∃ row column : ℕ, (row : ℤ) < value.affine.rows ∧ (column : ℤ) < value.affine.columns ∧
    ∃ node ∈ value.nodes, ∃ address, node.body = .load address ∧
      index = nodeAddress address (centerOf value.affine row column) value.affine.inputStride

/-- The index that a cell stores to. -/
def storeIndex (affine : Affine) (row column : ℕ) : ℤ := row * affine.outputStride + column

variable {affine : Affine} {row column : ℕ}

theorem storeIndex_mem (h : shapeOk affine) (hr : (row : ℤ) < affine.rows)
    (hc : (column : ℤ) < affine.columns) :
    0 ≤ storeIndex affine row column ∧ storeIndex affine row column < 256 := by
  obtain ⟨-, -, h1, -, -, hos, -, hfit⟩ := h
  have hle : (row : ℤ) * affine.outputStride ≤ (affine.rows - 1) * affine.outputStride :=
    Int.mul_le_mul_of_nonneg_right (by omega) (by omega)
  have hnonneg : 0 ≤ (row : ℤ) * affine.outputStride := Int.mul_nonneg (by omega) (by omega)
  unfold storeIndex
  omega

/-- Every load of an admitted node stays at or above the first word. -/
theorem nodeAddress_nonneg {schema : Schema} {node : Node} {address : Address} (h : shapeOk affine)
    (hok : NodeOk schema node) (ha : node.body = .load address) :
    0 ≤ nodeAddress address (centerOf affine row column) affine.inputStride := by
  obtain ⟨-, -, h1, -, his, -⟩ := h
  have hrow : 0 ≤ (row : ℤ) * affine.inputStride := Int.mul_nonneg (by omega) (by omega)
  have hcenter : centerOf affine row column =
      row * affine.inputStride + affine.inputStride + column + 1 := by
    unfold centerOf
    rw [Int.add_mul, Int.one_mul]
  rw [hcenter]
  cases hok with
  | selector id name hv =>
    cases ha
    cases name <;> simp only [nodeAddress, selectorAddress] <;> omega
  | relative id dr dc hv hr hc =>
    cases ha
    simp only [nodeAddress]
    obtain rfl | rfl | rfl : dr = -1 ∨ dr = 0 ∨ dr = 1 := by omega
    all_goals omega
  | binary | immediate | store => cases ha

theorem readWord_ok {words : List ℕ} {index : ℤ} (h0 : 0 ≤ index) (h : index < words.length) :
    ∃ w, readWord words index = .ok w := by
  obtain ⟨n, rfl⟩ := Int.eq_ofNat_of_zero_le h0
  have hn : n < words.length := by omega
  refine ⟨words[n], ?_⟩
  rw [readWord, pyGet?_natCast, List.getElem?_eq_getElem hn]

theorem writeWord_ok (output : List ℕ) {index : ℤ} (v : ℕ) (h0 : 0 ≤ index) (h : index < output.length) :
    ∃ output', writeWord output index v = .ok output' ∧ output'.length = output.length := by
  obtain ⟨n, rfl⟩ := Int.eq_ofNat_of_zero_le h0
  refine ⟨output.set n v, ?_, by simp⟩
  rw [writeWord, pySet?_natCast (by omega)]

end Reads

section Cells

variable {program : Program} {t : Allocation} {ws words output : List ℕ} {r row column : ℕ}

/-- The store of a register that holds the operand's value. -/
theorem store_step (h : Valid value body id x) {version : ℕ} {values : String → Option ℕ} {regs : ℕ → ℕ}
    (hr : r < 8) (hx : values x = some (regs r)) (hrow : (row : ℤ) < value.affine.rows)
    (hcolumn : (column : ℤ) < value.affine.columns) (ho : output.length = 256) :
    ∃ output', evaluateNode value.affine words row column (values, output) ⟨id, .store x⟩ =
        .ok (values, output') ∧
      executeInstruction version value.affine words row column (regs, output) (encodeStore r) =
        .ok (regs, output') ∧ output'.length = 256 := by
  obtain ⟨h0, h256⟩ := storeIndex_mem h.shape hrow hcolumn
  obtain ⟨output', hw, hlen'⟩ := writeWord_ok output (regs r) h0 (by omega)
  obtain ⟨hop, hdst, -⟩ := encodeStore_fields r hr
  rw [storeIndex] at hw
  refine ⟨output', ?_, ?_, by omega⟩
  · simp only [evaluateNode, lookup_eq_ok.mpr hx, hw, bind, Except.bind, pure, Except.pure]
  · simp [executeInstruction, hop, hdst, hw, LOAD_U32, ADD_U32, MAX_U32, MUL_U32, ADD_IMM_U32, GE_IMM_U32,
      STORE_U32, bind, Except.bind, pure, Except.pure]

/-- Every load of an admitted descriptor finds its word when the addresses stay in the window. -/
theorem Valid.load_ok (h : Valid value body id x) (hlen : words.length = 324)
    (hreads : ∀ index, OracleReads value index → index < 324) (hrow : (row : ℤ) < value.affine.rows)
    (hcolumn : (column : ℤ) < value.affine.columns) : ∀ n ∈ body, ∀ address, n.body = .load address →
    ∃ w, readWord words (nodeAddress address (centerOf value.affine row column) value.affine.inputStride) =
      .ok w := by
  intro n hn address ha
  have hmem := h.perm.mem_iff.mp (List.mem_append_left _ hn)
  refine readWord_ok (nodeAddress_nonneg h.shape (h.ok n hmem) ha) ?_
  rw [hlen]
  exact hreads _ ⟨row, column, hrow, hcolumn, n, hmem, address, ha, rfl⟩

/-- A cell: the nodes before the store agree with the words before its word, then both store. -/
theorem cell_of_body (h : Valid value body id x) {version : ℕ} {values : String → Option ℕ} {regs : ℕ → ℕ}
    (hr : r < 8) (hx : values x = some (regs r)) (hrow : (row : ℤ) < value.affine.rows)
    (hcolumn : (column : ℤ) < value.affine.columns) (ho : output.length = 256)
    (hev : body.foldlM (evaluateNode value.affine words row column) (fun _ => none, output) =
      .ok (values, output))
    (hex : ws.foldlM (executeInstruction version value.affine words row column) (fun _ => 0, output) =
      .ok (regs, output)) :
    ∃ output', oracleCell value.affine words (body ++ [⟨id, .store x⟩]) output row column = .ok output' ∧
      fallbackCell version value.affine words (ws ++ [encodeStore r]) output row column = .ok output' ∧
      output'.length = 256 := by
  obtain ⟨output', h1, h2, hlen⟩ := @store_step _ _ _ _ words _ _ _ _ h version _ _ hr hx hrow hcolumn ho
  refine ⟨output', ?_, ?_, hlen⟩
  · rw [oracleCell, List.foldlM_append, hev]
    change ([Node.mk id (.store x)].foldlM (evaluateNode value.affine words row column) (values, output) >>=
      fun s => pure s.2) = _
    rw [List.foldlM_cons, h1]
    rfl
  · rw [fallbackCell, List.foldlM_append, hex]
    change ([encodeStore r].foldlM (executeInstruction version value.affine words row column)
      (regs, output) >>= fun s => pure s.2) = _
    rw [List.foldlM_cons, h2]
    rfl

/-- At every cell the compiled program and the oracle store the same word at the same place. -/
theorem cell_eq (h : Valid value body id x) (hc : Compiled sha256 value body id x program t ws r)
    (hlen : words.length = 324) (hreads : ∀ index, OracleReads value index → index < 324)
    (hrow : (row : ℤ) < value.affine.rows) (hcolumn : (column : ℤ) < value.affine.columns)
    (ho : output.length = 256) :
    ∃ output', oracleCell value.affine words (body ++ [⟨id, .store x⟩]) output row column = .ok output' ∧
      fallbackCell (programVersion value) value.affine words program.instructions output row column =
        .ok output' ∧ output'.length = 256 := by
  have hnone : Agree (Allocation.initial (body ++ [⟨id, .store x⟩])) (fun _ => none) fun _ => 0 := by
    intro y q hy
    simp [Allocation.initial] at hy
  obtain ⟨values, regs, hev, hex, hagree⟩ := nodes_simulate output hc.emission
    (fun n hn => h.encodable n (by simp [hn])) (h.load_ok hlen hreads hrow hcolumn) hnone
  rw [hc.instructions]
  exact cell_of_body h hc.lt (hagree x r hc.register) hrow hcolumn ho hev hex

/-- The loops of `software_fallback` over the cells, for words that nobody has validated. -/
def runInstructions (version : ℕ) (affine : Affine) (instructions words : List ℕ) : Except String (List ℕ) :=
  (List.range affine.rows.toNat).foldlM (fun output row =>
    (List.range affine.columns.toNat).foldlM (fun output column =>
      fallbackCell version affine words instructions output row column) output) (List.replicate 256 0)

/-- The fallback runs the words of the program it has validated. -/
theorem softwareFallback_eq (sha256 : List UInt8 → Digest) (program : Image) (words : List ℕ) :
    softwareFallback sha256 program words = (do
      let instructions ← validateFallbackProgram sha256 program
      require (words.length = 324) "fallback input must contain exactly 324 words"
      runInstructions (program.payload.getD 1 0) program.affine instructions words) := rfl

/-- Words that agree with the oracle at every cell agree with it as a whole. -/
theorem run_of_cells (h : Valid value body id x) (hv : validateDescriptor value = .ok ())
    (hlen : words.length = 324) {version : ℕ} {instructions : List ℕ}
    (hcell : ∀ (row column : ℕ) (output : List ℕ), (row : ℤ) < value.affine.rows →
      (column : ℤ) < value.affine.columns → output.length = 256 →
      ∃ output', oracleCell value.affine words (body ++ [⟨id, .store x⟩]) output row column = .ok output' ∧
        fallbackCell version value.affine words instructions output row column = .ok output' ∧
        output'.length = 256) :
    ∃ output, graphOracle value words = .ok output ∧
      runInstructions version value.affine instructions words = .ok output := by
  have hcolumns := fun (row : ℕ) (hrow : (row : ℤ) < value.affine.rows) (output : List ℕ)
    (ho : output.length = 256) => foldlM_agree (P := fun output : List ℕ => output.length = 256)
    (f := fun output column => oracleCell value.affine words (body ++ [⟨id, .store x⟩]) output row column)
    (g := fun output column => fallbackCell version value.affine words instructions
      output row column) (l := List.range value.affine.columns.toNat) ho
    fun output ho column hcol => hcell row column output hrow (by rw [List.mem_range] at hcol; omega) ho
  obtain ⟨output, h1, h2, -⟩ := foldlM_agree (P := fun output : List ℕ => output.length = 256)
    (l := List.range value.affine.rows.toNat) (s := List.replicate 256 0) (List.length_replicate ..)
    fun output ho row hrow => hcolumns row (by rw [List.mem_range] at hrow; omega) output ho
  exact ⟨output, check_then_eq_ok.mpr ⟨hv, require_then_eq_ok.mpr ⟨hlen, except_bind_eq_ok.mpr
    ⟨_, h.scheduled, h1⟩⟩⟩, h2⟩

/-- On inputs whose addresses stay in the window the compiled program computes the oracle. -/
theorem fallback_eq_oracle (h : Valid value body id x) (hv : validateDescriptor value = .ok ())
    (hc : Compiled sha256 value body id x program t ws r) (hlen : words.length = 324)
    (hreads : ∀ index, OracleReads value index → index < 324) :
    ∃ output, graphOracle value words = .ok output ∧
      softwareFallback sha256 program.toImage words = .ok output := by
  obtain ⟨output, h1, h2⟩ := run_of_cells h hv hlen fun row column output hrow hcolumn ho =>
    cell_eq h hc hlen hreads hrow hcolumn ho
  refine ⟨output, h1, ?_⟩
  rw [softwareFallback_eq]
  refine except_bind_eq_ok.mpr ⟨_, validateFallbackProgram_eq_ok.mpr ⟨hc.fallbackOk h, rfl⟩,
    require_then_eq_ok.mpr ⟨hlen, ?_⟩⟩
  rw [hc.version, hc.affine]
  exact h2

end Cells

/-- What holds of an admitted descriptor with this schedule and every program compiled from it. -/
structure CompilerCorrect (sha256 : List UInt8 → Digest) (value : Descriptor) (body : List Node)
    (store : Node) : Prop where
  scheduled : scheduledNodes value.nodes = .ok (body ++ [store])
  perm : (body ++ [store]).Perm value.nodes
  last : store.op = .store
  before : ∀ node ∈ body, node.op ≠ .store
  refused : ∀ message, compileDescriptor sha256 value = .error message →
    message = "Graph requires more than eight live values" ∧
      ∃ index, 8 < (liveAfter (body ++ [store]) index).length
  traced : ∀ program, compileDescriptor sha256 value = .ok program →
    validateLoweringTrace sha256 value program.loweringTrace program.instructions = .ok ()
  accepted : ∀ program, compileDescriptor sha256 value = .ok program →
    validateFallbackProgram sha256 program.toImage = .ok program.instructions
  stored : ∀ program, compileDescriptor sha256 value = .ok program →
    ∃ words word, program.instructions = words ++ [word] ∧ words.length = body.length ∧
      opcodeOf word = STORE_U32 ∧ ∀ w ∈ words, opcodeOf w ≠ STORE_U32
  computes : ∀ program, compileDescriptor sha256 value = .ok program → ∀ words : List ℕ,
    words.length = 324 → (∀ w ∈ words, w < 2 ^ 32) → (∀ index, OracleReads value index → index < 324) →
    ∃ output, graphOracle value words = .ok output ∧
      softwareFallback sha256 program.toImage words = .ok output

/-- The graph-device compiler is correct on every admitted descriptor. -/
theorem compileDescriptor_correct (sha256 : List UInt8 → Digest) (value : Descriptor)
    (hv : validateDescriptor value = .ok ()) : ∃ body store, CompilerCorrect sha256 value body store := by
  obtain ⟨body, id, x, h⟩ := validateDescriptor_eq_ok hv
  refine ⟨body, ⟨id, .store x⟩, h.scheduled, h.perm, rfl, h.values, fun message hm => ?_, fun program hp => ?_,
    fun program hp => ?_, fun program hp => ?_, fun program hp words hlen _ hreads => ?_⟩
  · rcases compileDescriptor_cases sha256 h hv with ⟨herr, hbig⟩ | ⟨program, t, ws, r, hok, -⟩
    · obtain rfl : _ = message := by simpa [herr] using hm
      exact ⟨rfl, hbig⟩
    · simp [hok] at hm
  · obtain ⟨-, hp⟩ := check_then_eq_ok.mp hp
    obtain ⟨nodes, -, hp⟩ := except_bind_eq_ok.mp hp
    obtain ⟨s, -, hp⟩ := except_bind_eq_ok.mp hp
    obtain ⟨-, hp⟩ := require_then_eq_ok.mp hp
    obtain ⟨trace, -, hp⟩ := except_bind_eq_ok.mp hp
    obtain ⟨htrace, hp⟩ := check_then_eq_ok.mp hp
    obtain rfl := except_pure_eq_ok.mp hp
    exact htrace
  · obtain ⟨t, ws, r, hc⟩ := compiled_of_eq_ok h hv hp
    exact validateFallbackProgram_eq_ok.mpr ⟨hc.fallbackOk h, rfl⟩
  · obtain ⟨t, ws, r, hc⟩ := compiled_of_eq_ok h hv hp
    refine ⟨ws, encodeStore r, hc.instructions, hc.emission.length, (encodeStore_fields r hc.lt).1, ?_⟩
    intro w hw
    obtain ⟨n, hn, s, d, rs, u, he, rfl⟩ := hc.emission.mem hw
    exact he.opcode_ne (h.encodable n (by simp [hn]))
  · obtain ⟨t, ws, r, hc⟩ := compiled_of_eq_ok h hv hp
    exact fallback_eq_oracle h hv hc hlen hreads

/-- A graph authored out of order: the sum of a cell and its east neighbour. -/
def sumGraph : Descriptor where
  schema := .v1
  graphId := "sum"
  affine := ⟨2, 2, 4, 2⟩
  nodes := [⟨"sum", .binary .add ["here", "east"]⟩, ⟨"here", .load (.selector .center)⟩,
    ⟨"east", .load (.selector .east)⟩, ⟨"out", .store "sum"⟩]

theorem compileDescriptor_sumGraph : validateDescriptor sumGraph = .ok () ∧
    ∃ body store, CompilerCorrect Sha256.digest sumGraph body store := by
  have hv : validateDescriptor sumGraph = .ok () := by decide +kernel
  exact ⟨hv, compileDescriptor_correct Sha256.digest sumGraph hv⟩

end Raveil.Graph
