import Raveil.Graph.Emission

/-! Every emitted word is accepted by the fallback, traced as the compiler says, and computes its node. -/
namespace Raveil.Graph
open Raveil.Lib

section Fields

variable {op d a b low : ℕ}

theorem encodeImmediate_fields (op : ℕ) (hd : d < 8) (ha : a < 8) (hl : low < 2 ^ 22) :
    opcodeOf (encodeImmediate op d a low) = op ∧ destinationOf (encodeImmediate op d a low) = d ∧
      leftOf (encodeImmediate op d a low) = a ∧ encodeImmediate op d a low &&& MAX_IMMEDIATE = low := by
  have hmod : ∀ x : ℕ, x &&& MAX_IMMEDIATE = x % 2 ^ 22 := fun x => Nat.and_two_pow_sub_one_eq_mod x 22
  simp only [encodeImmediate, encoded_eq_sum hd ha hl, opcodeOf, destinationOf, leftOf, and_seven, hmod,
    Nat.shiftRight_eq_div_pow]
  omega

theorem encodeBinary_eq (op : ℕ) :
    encodeBinary op d a b = encodeImmediate op d a (b * 2 ^ 19) := by
  rw [encodeBinary, encodeImmediate, Nat.shiftLeft_eq b]

theorem encodeBinary_fields (op : ℕ) (hd : d < 8) (ha : a < 8) (hb : b < 8) :
    opcodeOf (encodeBinary op d a b) = op ∧ destinationOf (encodeBinary op d a b) = d ∧
      leftOf (encodeBinary op d a b) = a ∧ rightOf (encodeBinary op d a b) = b ∧
      encodeBinary op d a b &&& 0x7ffff = 0 := by
  have hmod : ∀ x : ℕ, x &&& 0x7ffff = x % 2 ^ 19 := fun x => Nat.and_two_pow_sub_one_eq_mod x 19
  rw [encodeBinary_eq op]
  simp only [encodeImmediate, encoded_eq_sum hd ha (show b * 2 ^ 19 < 2 ^ 22 by omega), opcodeOf,
    destinationOf, leftOf, rightOf, and_seven, hmod, Nat.shiftRight_eq_div_pow]
  omega

theorem encodeImmediate_lt (hop : op < 8) (hd : d < 8) (ha : a < 8) (hl : low < 2 ^ 22) :
    encodeImmediate op d a low < 2 ^ 32 := by
  rw [encodeImmediate, encoded_eq_sum hd ha hl]
  omega

theorem encodeStore_fields : ∀ r < 8, opcodeOf (encodeStore r) = 3 ∧ destinationOf (encodeStore r) = r ∧
    encodeStore r &&& 0x1ffffff = 0 ∧ encodeStore r < 2 ^ 32 := by
  decide

theorem encodeLoad_selector (name : Selector) : ∀ d < 8,
    opcodeOf (encodeLoad d (.selector name)) = 1 ∧ destinationOf (encodeLoad d (.selector name)) = d ∧
      leftOf (encodeLoad d (.selector name)) = SELECTORS name ∧
      encodeLoad d (.selector name) &&& 0x3fffff = 0 ∧ encodeLoad d (.selector name) < 2 ^ 32 := by
  cases name <;> decide

/-- The signed deltas survive their five bits. -/
theorem encodeLoad_relative {row column : ℤ} (hr : -1 ≤ row ∧ row ≤ 1) (hc : -1 ≤ column ∧ column ≤ 1) :
    ∀ d < 8, opcodeOf (encodeLoad d (.relative row column)) = 1 ∧
      destinationOf (encodeLoad d (.relative row column)) = d ∧
      relativeLoad (encodeLoad d (.relative row column)) = (row, column) ∧
      encodeLoad d (.relative row column) &&& 0x7fff = 0 ∧
      encodeLoad d (.relative row column) < 2 ^ 32 := by
  obtain rfl | rfl | rfl : row = -1 ∨ row = 0 ∨ row = 1 := by omega
  all_goals
    obtain rfl | rfl | rfl : column = -1 ∨ column = 0 ∨ column = 1 := by omega
    all_goals decide

end Fields

section Words

variable {version d : ℕ} {n : Node} {rs : List ℕ} {registers : String → Option ℕ} {defined : Finset ℕ}

theorem mapM_lookup_one {x : String} (h : [x].mapM (lookup registers) = .ok rs) :
    ∃ a, registers x = some a ∧ rs = [a] := by
  simp only [List.mapM_cons, List.mapM_nil, except_bind_eq_ok, except_pure_eq_ok] at h
  obtain ⟨a, ha, _, rfl, rfl⟩ := h
  exact ⟨a, lookup_eq_ok.mp ha, rfl⟩

theorem mapM_lookup_two {x y : String} (h : [x, y].mapM (lookup registers) = .ok rs) :
    ∃ a b, registers x = some a ∧ registers y = some b ∧ rs = [a, b] := by
  simp only [List.mapM_cons, List.mapM_nil, except_bind_eq_ok, except_pure_eq_ok] at h
  obtain ⟨a, ha, _, ⟨b, hb, _, rfl, rfl⟩, rfl⟩ := h
  exact ⟨a, b, lookup_eq_ok.mp ha, lookup_eq_ok.mp hb, rfl⟩

theorem mem_of_mapM_lookup {l : List String} {r : ℕ} (h : l.mapM (lookup registers) = .ok rs)
    (hr : r ∈ rs) : ∃ x, registers x = some r := by
  induction l generalizing rs with
  | nil =>
    simp only [List.mapM_nil, except_pure_eq_ok] at h
    simp [← h] at hr
  | cons x l ih =>
    simp only [List.mapM_cons, except_bind_eq_ok, except_pure_eq_ok] at h
    obtain ⟨a, ha, rs', hrs, rfl⟩ := h
    rcases List.mem_cons.mp hr with rfl | hr
    · exact ⟨x, lookup_eq_ok.mp ha⟩
    · exact ih hrs hr

def Binary.code : Binary → ℕ
  | .add => 2
  | .max => 4
  | .mul => 5

def Immediate.code : Immediate → ℕ
  | .add => 6
  | .ge => 7

theorem encodeNode_binary (id : String) (op : Binary) (x y : String) (a b : ℕ) :
    encodeNode ⟨id, .binary op [x, y]⟩ d [a, b] = encodeBinary op.code d a b := by
  cases op <;> rfl

theorem encodeNode_immediate (id : String) (op : Immediate) (x : String) (v : ℤ) (a : ℕ) :
    encodeNode ⟨id, .immediate op x v⟩ d [a] = encodeImmediate op.code d a v.toNat := by
  cases op <;> rfl

theorem encodeNode_load (id : String) (address : Address) :
    encodeNode ⟨id, .load address⟩ d rs = encodeLoad d address := rfl

/-- The word of a node that produces a value defines its destination. -/
theorem produces_encodeNode (h : Encodable version n) (hv : n.op ≠ .store) (hd : d < 8)
    (hrs : (dependencies n).mapM (lookup registers) = .ok rs) (hlt : ∀ r ∈ rs, r < 8)
    (hdef : ∀ r ∈ rs, r ∈ defined) :
    Produces version defined (encodeNode n d rs) ∧ destinationOf (encodeNode n d rs) = d ∧
      encodeNode n d rs < 2 ^ 32 := by
  cases h with
  | selector id name hver =>
    obtain ⟨h1, h2, h3, h4, h5⟩ := encodeLoad_selector name d hd
    rw [encodeNode_load]
    refine ⟨.legacyLoad h1 hver ?_ h4, h2, h5⟩
    rw [h3]
    cases name <;> decide
  | relative id row column hver hr hc =>
    obtain ⟨h1, h2, h3, h4, h5⟩ := encodeLoad_relative hr hc d hd
    obtain ⟨hrow, hcolumn⟩ := Prod.ext_iff.mp h3
    rw [encodeNode_load]
    refine ⟨.relativeLoad h1 hver (signedFive_mem.mp ?_) (signedFive_mem.mp ?_) h4, h2, h5⟩
    · rw [relativeLoad] at hrow
      simp only [List.mem_cons, List.not_mem_nil, or_false]
      omega
    · rw [relativeLoad] at hcolumn
      simp only [List.mem_cons, List.not_mem_nil, or_false]
      omega
  | binary id op x y hmax hmul =>
    obtain ⟨a, b, -, -, rfl⟩ := mapM_lookup_two hrs
    have ha := hlt a (by simp)
    have hb := hlt b (by simp)
    rw [encodeNode_binary]
    obtain ⟨h1, h2, h3, h4, h5⟩ := encodeBinary_fields op.code hd ha hb
    have hleft : leftOf (encodeBinary op.code d a b) ∈ defined := by
      rw [h3]
      exact hdef a (by simp)
    have hright : rightOf (encodeBinary op.code d a b) ∈ defined := by
      rw [h4]
      exact hdef b (by simp)
    refine ⟨.binary ?_ h5 hleft hright, h2, ?_⟩
    · rw [h1]
      cases op with
      | add => exact Or.inl rfl
      | max => exact Or.inr (Or.inl ⟨rfl, hmax rfl⟩)
      | mul => exact Or.inr (Or.inr ⟨rfl, hmul rfl⟩)
    · rw [encodeBinary_eq _]
      exact encodeImmediate_lt (by cases op <;> decide) hd ha (by omega)
  | immediate id op x v hver hg h0 hm =>
    obtain ⟨a, -, rfl⟩ := mapM_lookup_one hrs
    have ha := hlt a (by simp)
    rw [encodeNode_immediate]
    obtain ⟨h1, h2, h3, -⟩ := encodeImmediate_fields op.code hd ha (show v.toNat < 2 ^ 22 by omega)
    have hleft : leftOf (encodeImmediate op.code d a v.toNat) ∈ defined := by
      rw [h3]
      exact hdef a (by simp)
    refine ⟨.immediate ?_ hleft, h2, encodeImmediate_lt (by cases op <;> decide) hd ha (by omega)⟩
    rw [h1]
    cases op with
    | add => exact Or.inl ⟨rfl, hver⟩
    | ge => exact Or.inr ⟨rfl, hg rfl⟩
  | store id x => exact absurd rfl hv

theorem loadAddress_encodeLoad {id : String} {address : Address}
    (h : Encodable version ⟨id, .load address⟩) (hd : d < 8) (center stride : ℤ) :
    loadAddress version center stride (encodeLoad d address) = some (nodeAddress address center stride) := by
  cases h with
  | selector _ name hv =>
    obtain ⟨-, -, h3, -⟩ := encodeLoad_selector name d hd
    rw [loadAddress, if_neg (by omega), h3]
    cases name <;> simp [SELECTORS, nodeAddress, selectorAddress, Int.sub_eq_add_neg]
  | relative _ row column hv hr hc =>
    obtain ⟨-, -, h3, -⟩ := encodeLoad_relative hr hc d hd
    rw [loadAddress, if_pos hv, h3]
    rfl

variable {affine : Affine} {words : List ℕ} {row column : ℕ} {values : String → Option ℕ}
  {regs : ℕ → ℕ}

/-- One node and its word compute the same value, into the name and into the register. -/
theorem node_step (output : List ℕ) (h : Encodable version n) (hv : n.op ≠ .store) (hd : d < 8)
    (hrs : (dependencies n).mapM (lookup registers) = .ok rs) (hlt : ∀ r ∈ rs, r < 8)
    (hagree : ∀ x r, registers x = some r → values x = some (regs r))
    (hload : ∀ address, n.body = .load address →
      ∃ w, readWord words (nodeAddress address (centerOf affine row column) affine.inputStride) = .ok w) :
    ∃ w, evaluateNode affine words row column (values, output) n =
        .ok (Function.update values n.id (some w), output) ∧
      executeInstruction version affine words row column (regs, output) (encodeNode n d rs) =
        .ok (Function.update regs d w, output) := by
  have hl : ∀ id address, n = ⟨id, .load address⟩ → ∃ w,
      evaluateNode affine words row column (values, output) n =
        .ok (Function.update values n.id (some w), output) ∧
      executeInstruction version affine words row column (regs, output) (encodeNode n d rs) =
        .ok (Function.update regs d w, output) := by
    rintro id address rfl
    obtain ⟨w, hw⟩ := hload address rfl
    have hmem : ∀ r ∈ rs, r ∈ rs.toFinset := by simp
    obtain ⟨-, hdst, -⟩ := produces_encodeNode h hv hd hrs hlt hmem
    refine ⟨w, ?_, ?_⟩
    · simp only [evaluateNode, hw]
      rfl
    · have hop : opcodeOf (encodeLoad d address) = LOAD_U32 := by
        cases address with
        | selector name => exact (encodeLoad_selector name d hd).1
        | relative row column =>
          cases h with
          | relative _ _ _ _ hr hc => exact (encodeLoad_relative hr hc d hd).1
      rw [encodeNode_load] at hdst ⊢
      simp only [executeInstruction, if_pos hop, loadAddress_encodeLoad h hd, hw, hdst]
      rfl
  cases h with
  | selector id name hver => exact hl _ _ rfl
  | relative id row column hver hr hc => exact hl _ _ rfl
  | binary id op x y hmax hmul =>
    obtain ⟨a, b, ha, hb, rfl⟩ := mapM_lookup_two hrs
    obtain ⟨h1, h2, h3, h4, -⟩ := encodeBinary_fields op.code hd (hlt a (by simp)) (hlt b (by simp))
    have hargs : [x, y].mapM (lookup values) = .ok [regs a, regs b] := by
      simp [lookup_eq_ok.mpr (hagree x a ha), lookup_eq_ok.mpr (hagree y b hb), bind, Except.bind, pure,
        Except.pure]
    refine ⟨binaryWord op [regs a, regs b], ?_, ?_⟩
    · simp only [evaluateNode, hargs]
      rfl
    · rw [encodeNode_binary]
      generalize encodeBinary op.code d a b = w at *
      cases op <;> simp [executeInstruction, h1, h2, h3, h4, Binary.code, binaryWord, LOAD_U32, ADD_U32,
        MAX_U32, MUL_U32, pure, Except.pure]
  | immediate id op x v hver hg h0 hm =>
    obtain ⟨a, ha, rfl⟩ := mapM_lookup_one hrs
    obtain ⟨h1, h2, h3, h4⟩ := encodeImmediate_fields op.code hd (hlt a (by simp))
      (show v.toNat < 2 ^ 22 by omega)
    refine ⟨immediateWord op (regs a) v, ?_, ?_⟩
    · simp only [evaluateNode, lookup_eq_ok.mpr (hagree x a ha)]
      rfl
    · obtain ⟨m, rfl⟩ := Int.eq_ofNat_of_zero_le h0
      rw [encodeNode_immediate]
      rw [Int.toNat_natCast] at h1 h2 h3 h4 ⊢
      generalize encodeImmediate op.code d a m = w at *
      cases op with
      | add =>
        have hword : immediateWord .add (regs a) m = (regs a + m) % 2 ^ 32 := by
          rw [immediateWord]
          omega
        rw [hword]
        simp [executeInstruction, h1, h2, h3, h4, Immediate.code, LOAD_U32, ADD_U32, MAX_U32, MUL_U32,
          ADD_IMM_U32, pure, Except.pure]
      | ge =>
        simp [executeInstruction, h1, h2, h3, h4, Immediate.code, immediateWord, LOAD_U32, ADD_U32, MAX_U32,
          MUL_U32, ADD_IMM_U32, GE_IMM_U32, pure, Except.pure]
  | store id x => exact absurd rfl hv

end Words

section Runs

variable {version : ℕ} {s t : Allocation} {ns : List Node} {ws : List ℕ} {affine : Affine}
  {words : List ℕ} {row column : ℕ} {values : String → Option ℕ} {regs : ℕ → ℕ}

/-- Every live name's register holds the value the oracle has for it. -/
def Agree (s : Allocation) (values : String → Option ℕ) (regs : ℕ → ℕ) : Prop :=
  ∀ x r, s.registers x = some r → values x = some (regs r)

/-- The emitted words simulate the oracle over the whole node list. -/
theorem nodes_simulate (output : List ℕ) (he : Emission s ns ws t) (henc : ∀ n ∈ ns, Encodable version n)
    (hload : ∀ n ∈ ns, ∀ address, n.body = .load address →
      ∃ w, readWord words (nodeAddress address (centerOf affine row column) affine.inputStride) = .ok w)
    (hagree : Agree s values regs) :
    ∃ values' regs', ns.foldlM (evaluateNode affine words row column) (values, output) =
        .ok (values', output) ∧
      ws.foldlM (executeInstruction version affine words row column) (regs, output) =
        .ok (regs', output) ∧ Agree t values' regs' := by
  induction he generalizing values regs with
  | nil s => exact ⟨values, regs, rfl, rfl, hagree⟩
  | @cons s t u n d rs ns ws h hs ih =>
    obtain ⟨w, hev, hex⟩ := node_step output (henc n (by simp)) h.value h.lt h.sources
      h.sourcesLt hagree (hload n (by simp))
    have hagree' : Agree t (Function.update values n.id (some w)) (Function.update regs d w) := by
      intro x r hr
      rcases h.registers x r hr with ⟨rfl, rfl⟩ | ⟨hx, hrd, hr⟩
      · simp
      · rw [Function.update_of_ne hx, Function.update_of_ne hrd]
        exact hagree x r hr
    obtain ⟨values', regs', h1, h2, h3⟩ := ih (fun m hm => henc m (by simp [hm]))
      (fun m hm => hload m (by simp [hm])) hagree'
    refine ⟨values', regs', ?_, ?_, h3⟩
    · rw [List.foldlM_cons, hev]
      exact h1
    · rw [List.foldlM_cons, hex]
      exact h2

/-- The emitted words with a final store of a live register form a program. -/
theorem programOk_emission (he : Emission s ns ws t) (henc : ∀ n ∈ ns, Encodable version n)
    {defined : Finset ℕ} (hdef : ∀ x r, s.registers x = some r → r ∈ defined) {x : String} {r : ℕ}
    (hr : t.registers x = some r) (hr8 : r < 8) :
    ProgramOk version defined (ws ++ [encodeStore r]) ∧ ∀ w ∈ ws, w < 2 ^ 32 := by
  induction he generalizing defined with
  | nil s =>
    obtain ⟨h1, h2, h3, -⟩ := encodeStore_fields r hr8
    refine ⟨⟨h1, h3, ?_⟩, by simp⟩
    rw [h2]
    exact hdef x r hr
  | @cons s t u n d rs ns ws h hs ih =>
    have hrs : ∀ q ∈ rs, q ∈ defined := by
      intro q hq
      obtain ⟨y, hy⟩ := mem_of_mapM_lookup h.sources hq
      exact hdef y q hy
    obtain ⟨hp, hdst, hlt⟩ := produces_encodeNode (henc n (by simp)) h.value h.lt h.sources h.sourcesLt hrs
    have hdef' : ∀ y q, t.registers y = some q → q ∈ insert d defined := by
      intro y q hy
      rcases h.registers y q hy with ⟨-, rfl⟩ | ⟨-, -, hy⟩
      · exact Finset.mem_insert_self _ _
      · exact Finset.mem_insert_of_mem (hdef y q hy)
    obtain ⟨hok, hall⟩ := ih (fun m hm => henc m (by simp [hm])) hdef' hr
    refine ⟨?_, ?_⟩
    · obtain ⟨next, rest, hcons⟩ : ∃ next rest, ws ++ [encodeStore r] = next :: rest := by
        cases ws <;> exact ⟨_, _, rfl⟩
      rw [List.cons_append, hcons, ProgramOk, hdst, ← hcons]
      exact ⟨hp, hok⟩
    · intro w hw
      rcases List.mem_cons.mp hw with rfl | hw
      · exact hlt
      · exact hall w hw

end Runs

section Trace

variable (version count k : ℕ) (nodes : List Node) {ns : List Node} {ws rs : List ℕ} {n : Node}
  {s t : Allocation} {a A : String → Option ℕ}

theorem mapM_lookup_mono {l : List String} (h : ∀ x r, a x = some r → A x = some r)
    (hl : l.mapM (lookup a) = .ok rs) : l.mapM (lookup A) = .ok rs := by
  induction l generalizing rs with
  | nil => exact hl
  | cons x l ih =>
    simp only [List.mapM_cons, except_bind_eq_ok, except_pure_eq_ok] at hl ⊢
    obtain ⟨r, hr, rs', hrs, rfl⟩ := hl
    exact ⟨r, lookup_eq_ok.mpr (h x r (lookup_eq_ok.mp hr)), rs', ih hrs, rfl⟩

/-- The trace entry of a node that produces a value passes its own check. -/
theorem entry_value {d : ℕ} (hv : n.op ≠ .store) (hA : (dependencies n).mapM (lookup A) = .ok rs)
    (ha : (dependencies n).mapM (lookup a) = .ok rs) (hd : A n.id = some d)
    (hdst : destinationOf (encodeNode n d rs) = d) :
    ∃ e, traceEntry version nodes count A ((n, encodeNode n d rs), k) = .ok e ∧
      checkEntry version nodes count a (((n, encodeNode n d rs), e), k) =
        .ok (Function.update a n.id (some d)) := by
  refine ⟨entryOf version nodes count k n (encodeNode n d rs) rs (some d), ?_, ?_⟩
  · simp only [traceEntry, hA, if_neg hv, lookup_eq_ok.mpr hd, bind, Except.bind, Functor.map, Except.map,
      pure, Except.pure]
  · by_cases hver : version ≥ 5 <;>
      simp [checkEntry, entryOf, ha, hv, hdst, hver, require, bind, Except.bind, pure, Except.pure]

theorem entry_store (hv : n.op = .store) (hA : (dependencies n).mapM (lookup A) = .ok rs)
    (ha : (dependencies n).mapM (lookup a) = .ok rs) :
    ∃ e, traceEntry version nodes count A ((n, encodeNode n 0 rs), k) = .ok e ∧
      checkEntry version nodes count a (((n, encodeNode n 0 rs), e), k) = .ok a := by
  refine ⟨entryOf version nodes count k n (encodeNode n 0 rs) rs none, ?_, ?_⟩
  · simp only [traceEntry, hA, if_pos hv, bind, Except.bind, pure, Except.pure]
  · by_cases hver : version ≥ 5 <;>
      simp [checkEntry, entryOf, ha, hv, hver, require, bind, Except.bind, pure, Except.pure]

/-- What is allocated stays recorded. -/
theorem Emission.allocations_mono (h : Emission s ns ws t) :
    ∀ x r, s.allocations x = some r → t.allocations x = some r := by
  induction h with
  | nil => exact fun _ _ h => h
  | cons h _ ih =>
    intro x r hr
    refine ih x r ?_
    rw [h.allocations, Function.update_of_ne]
    · exact hr
    · rintro rfl
      simp [h.fresh] at hr

theorem Emits.sources_recorded {d : ℕ} (h : Emits s n d rs t) :
    (dependencies n).mapM (lookup s.allocations) = .ok rs :=
  mapM_lookup_mono h.recorded h.sources

/-- The trace of the emitted words passes its own check. -/
theorem trace_emission (he : Emission s ns ws t) (henc : ∀ n ∈ ns, Encodable version n)
    (hA : ∀ x r, t.allocations x = some r → A x = some r) :
    ∃ entries, ((ns.zip ws).zipIdx k).mapM (traceEntry version nodes count A) = .ok entries ∧
      entries.length = ns.length ∧
      (((ns.zip ws).zip entries).zipIdx k).foldlM (checkEntry version nodes count) s.allocations =
        .ok t.allocations := by
  induction he generalizing k with
  | nil => exact ⟨[], rfl, rfl, rfl⟩
  | @cons s t u n d rs ns ws h hs ih =>
    have hmono : ∀ x r, s.allocations x = some r → A x = some r := fun x r hr =>
      hA x r ((Emission.cons h hs).allocations_mono x r hr)
    have hmem : ∀ r ∈ rs, r ∈ rs.toFinset := by simp
    obtain ⟨-, hdst, -⟩ := produces_encodeNode (henc n (by simp)) h.value h.lt h.sources h.sourcesLt hmem
    have hd : A n.id = some d := by
      refine hA _ _ (hs.allocations_mono _ _ ?_)
      rw [h.allocations, Function.update_self]
    obtain ⟨e, h1, h2⟩ := entry_value version count k nodes h.value (mapM_lookup_mono hmono h.sources_recorded) h.sources_recorded hd hdst
    obtain ⟨entries, h3, h4, h5⟩ := ih (k + 1) (fun m hm => henc m (by simp [hm])) hA
    refine ⟨e :: entries, ?_, by simp [h4], ?_⟩
    · simp [List.zipIdx_cons, h1, h3, bind, Except.bind, pure, Except.pure]
    · rw [List.zip_cons_cons, List.zip_cons_cons, List.zipIdx_cons, List.foldlM_cons, h2, ← h.allocations]
      exact h5

/-- The same with the store that ends the schedule. -/
theorem trace_snoc {last : Node} (he : Emission s ns ws t) (henc : ∀ n ∈ ns, Encodable version n)
    (hlast : last.op = .store) (hrs : (dependencies last).mapM (lookup t.allocations) = .ok rs) :
    ∃ entries, ((ns ++ [last]).zip (ws ++ [encodeNode last 0 rs])).zipIdx.mapM
        (traceEntry version nodes count t.allocations) = .ok entries ∧
      entries.length = ns.length + 1 ∧
      (((ns ++ [last]).zip (ws ++ [encodeNode last 0 rs])).zip entries).zipIdx.foldlM
        (checkEntry version nodes count) s.allocations = .ok t.allocations := by
  have hlen := he.length
  obtain ⟨entries, h1, h2, h3⟩ := trace_emission version count 0 nodes he henc fun _ _ hx => hx
  obtain ⟨e, h4, h5⟩ := entry_store version count ns.length nodes hlast hrs hrs
  have hzip : (ns ++ [last]).zip (ws ++ [encodeNode last 0 rs]) =
      ns.zip ws ++ [(last, encodeNode last 0 rs)] := by
    rw [List.zip_append hlen.symm]
    rfl
  refine ⟨entries ++ [e], ?_, by simp [h2], ?_⟩
  · rw [hzip, List.zipIdx_append, List.mapM_append, h1]
    simp only [List.length_zip, hlen, Nat.min_self, Nat.zero_add, List.zipIdx_singleton, List.mapM_cons,
      List.mapM_nil, h4]
    rfl
  · rw [hzip, List.zip_append (by simp [hlen, h2]), List.zipIdx_append, List.foldlM_append, h3]
    simp only [List.length_zip, hlen, h2, Nat.min_self, Nat.zero_add, List.zip_cons_cons, List.zip_nil_right,
      List.zipIdx_singleton, List.foldlM_cons, List.foldlM_nil]
    change (checkEntry version nodes count t.allocations (((last, encodeNode last 0 rs), e), ns.length) >>=
      pure) = _
    rw [h5]
    rfl

end Trace

end Raveil.Graph
