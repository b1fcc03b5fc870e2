import Raveil.Fold.Allocation
import Raveil.Fold.Evaluate

/-! `compile_region` is correct: the emitted configuration computes what `reference` computes. -/
namespace Raveil.Fold
open Raveil.Lib

/-- The configuration holds the region's views at the positions of their names. -/
def ViewsMatch (d : Region) (c : List ℕ) : Prop :=
  ∀ name ∈ d.views.keys, d.views.keys.idxOf name < nviews c ∧
    d.views.get? name = some ((List.range 5).map fun n =>
      (view c (d.views.keys.idxOf name) n : ℤ))

/-- A request's input array holds the two declared arrays, the second from word 324 on. -/
structure Loaded (c : List ℕ) (inputs : List (List ℕ)) (words : List ℕ) : Prop where
  two : inputs.length = 2
  length : ∀ b data, inputs[b]? = some data → data.length = cfg c (5 + b)
  u32 : ∀ data ∈ inputs, ∀ w ∈ data, w < 2 ^ 32
  stored : ∀ b data, inputs[b]? = some data → ∀ n w, data[n]? = some w →
    words.getD (324 * b + n) 0 = w

variable {d : Region} {c words : List ℕ} {inputs : List (List ℕ)} {i j k : ℕ}
  {seen : Finset String} {pending : String → ℤ} {s t : Allocation}

theorem loadWord_eq (h : Admissible c) (hv : ViewsMatch d c) (hl : Loaded c inputs words)
    (hi : i < rows c) (hj : j < cols c) (hk : k < extent c) {n : Node} {v : String}
    (hn : n.view = some v) (hmem : v ∈ d.views.keys) {a : ℕ} (hav : d.views.keys.idxOf v = a) :
    loadWord d inputs i j k n = some (words.getD (324 * view c a 0 + address c a i j k) 0) ∧
      words.getD (324 * view c a 0 + address c a i j k) 0 < 2 ^ 32 := by
  obtain ⟨ha, hget⟩ := hv v hmem
  rw [hav] at ha hget
  have hb := (view_le h ha).1
  have haddr := address_lt h ha hi hj hk
  obtain ⟨data, hdata⟩ : ∃ data, inputs[view c a 0]? = some data :=
    ⟨_, List.getElem?_eq_getElem (by rw [hl.two]; omega)⟩
  have hlen := hl.length _ _ hdata
  obtain ⟨w, hw⟩ : ∃ w, data[address c a i j k]? = some w :=
    ⟨_, List.getElem?_eq_getElem (by rw [hlen]; exact haddr)⟩
  have hst := hl.stored _ _ hdata _ _ hw
  rw [hst]
  refine ⟨?_, hl.u32 data (List.mem_of_getElem? hdata) w (List.mem_of_getElem? hw)⟩
  have hcast : (view c a 1 : ℤ) + view c a 2 * i + view c a 3 * j + view c a 4 * k =
      (address c a i j k : ℕ) := by
    simp [address]
  simp only [loadWord, hn, Option.getD_some, hget, Option.bind_eq_bind, Option.bind_some]
  change ((pyGet? inputs (view c a 0)).bind fun data => pyGet? data
    ((view c a 1 : ℤ) + view c a 2 * i + view c a 3 * j + view c a 4 * k)) = some w
  rw [pyGet?_natCast, hdata, Option.bind_some, hcast, pyGet?_natCast, hw]

/-- Every live name's register holds the value the interpreter has for it. -/
def Agree (s : Allocation) (values : String → Option ℕ) (regs : ℕ → ℕ) : Prop :=
  ∀ x r, s.live x = some r → values x = some (regs r)

theorem Agree.arg {values : String → Option ℕ} {regs : ℕ → ℕ} (h : Agree s values regs)
    {x : String} {r : ℕ} (hr : s.register x = .ok r) : values x = some (regs r) := by
  unfold Allocation.register at hr
  split at hr
  · rename_i hq
    cases hr
    exact h x r hq
  · simp at hr

/-- A load's word names the view by its position. -/
theorem encodeNode_load {views : Dict String (List ℤ)} {v : String} {dest a : ℕ} (id : String)
    (rs : List ℕ) (hd : dest < 8) (ha : a < 8) (hav : views.keys.idxOf v = a) :
    let w := encodeNode views { id := id, op := .load, view := some v } dest rs
    opcode w = 1 ∧ dst w = dest ∧ srcA w = a := by
  have hf := encoded_fields 1 0 hd ha (by norm_num)
  rw [Nat.or_zero] at hf
  rw [show encodeNode views { id := id, op := .load, view := some v } dest rs =
    1 <<< 28 ||| dest <<< 25 ||| views.keys.idxOf v <<< 22 from rfl, hav]
  exact ⟨hf.1, hf.2.1, hf.2.2.1⟩

theorem encodeNode_binary (views : Dict String (List ℤ)) (id x y : String) {op : Op}
    {dest rx ry : ℕ} (code : ℕ) (hop : op = .add ∨ op = .mul ∨ op = .max) (hcode : OPS op = some code)
    (hd : dest < 8) (hx : rx < 8) (hy : ry < 8) :
    let w := encodeNode views { id := id, op := op, args := some [x, y] } dest [rx, ry]
    opcode w = code ∧ dst w = dest ∧ srcA w = rx ∧ srcB w = ry := by
  have hf := encoded_fields code (ry <<< 19) hd hx (by rw [Nat.shiftLeft_eq]; omega)
  have hw : encodeNode views { id := id, op := op, args := some [x, y] } dest [rx, ry] =
      code <<< 28 ||| dest <<< 25 ||| rx <<< 22 ||| ry <<< 19 := by
    rcases hop with rfl | rfl | rfl <;> cases hcode <;> rfl
  rw [hw]
  refine ⟨hf.1, hf.2.1, hf.2.2.1, hf.2.2.2.1.trans ?_⟩
  rw [Nat.shiftLeft_eq]
  omega

theorem encodeNode_immediate (views : Dict String (List ℤ)) (id x : String) {op : Op}
    {dest rx : ℕ} {m : ℤ} (code : ℕ) (hop : op = .addImm ∨ op = .geImm) (hcode : OPS op = some code)
    (hd : dest < 8) (hx : rx < 8) (h0 : 0 ≤ m) (hm : m < 2 ^ 22) :
    let w := encodeNode views { id := id, op := op, args := some [x], imm := some m } dest [rx]
    opcode w = code ∧ dst w = dest ∧ srcA w = rx ∧ imm22 w = m.toNat := by
  have hf := encoded_fields code m.toNat hd hx (by omega)
  have hw : encodeNode views { id := id, op := op, args := some [x], imm := some m } dest [rx] =
      code <<< 28 ||| dest <<< 25 ||| rx <<< 22 ||| m.toNat := by
    rcases hop with rfl | rfl <;> cases hcode <;> rfl
  rw [hw]
  exact ⟨hf.1, hf.2.1, hf.2.2.1, hf.2.2.2.2⟩

/-- Masking a word that already has 32 bits changes nothing. -/
theorem mask_natCast {w : ℕ} (h : w < 2 ^ 32) : ((w : ℤ) % 2 ^ 32).toNat = w := by omega

theorem evaluateNode_eq {values : String → Option ℕ} {n : Node} {a : List ℕ} {v : ℤ} {w : ℕ}
    (ha : n.arguments.mapM values = some a) (hv : nodeWord d inputs i j k n a = some v)
    (hw : (v % 2 ^ 32).toNat = w) :
    evaluateNode d inputs i j k values n = some (Function.update values n.id (some w)) := by
  simp only [evaluateNode, ha, hv, Option.bind_eq_bind, Option.bind_some, Option.pure_def, hw]

/-- One node and its instruction word compute the same word. -/
theorem node_word (h : Admissible c) (hv : ViewsMatch d c) (hl : Loaded c inputs words)
    (hi : i < rows c) (hj : j < cols c) (hk : k < extent c) {n : Node}
    (hn : NodeOk d.views seen n) {values : String → Option ℕ} {regs : ℕ → ℕ}
    (hagree : Agree s values regs) (hregs : ∀ r, regs r < 2 ^ 32) {rs : List ℕ}
    (hrs : n.arguments.mapM s.register = .ok rs) (hlt : ∀ r ∈ rs, r < 8) {dest : ℕ}
    (hd : dest < 8) :
    ∃ w, w < 2 ^ 32 ∧
      evaluateNode d inputs i j k values n = some (Function.update values n.id (some w)) ∧
      executeWord c words i j k regs (encodeNode d.views n dest rs) =
        Function.update regs dest w := by
  cases hn with
  | @load id v hfresh hmem =>
    generalize hav : d.views.keys.idxOf v = a
    obtain ⟨hload, hw⟩ := loadWord_eq h hv hl hi hj hk
      (n := { id := id, op := .load, view := some v }) rfl hmem hav
    have ha := (hv v hmem).1
    have hn8 := h.header.nviews
    obtain ⟨ho, hdst, hsa⟩ := encodeNode_load id rs hd (show a < 8 by omega) hav
    generalize encodeNode d.views { id := id, op := .load, view := some v } dest rs = w at *
    refine ⟨_, hw, evaluateNode_eq (a := []) rfl
      (by simp only [nodeWord, hload, Option.map_some, Int.ofNat_eq_natCast]) (mask_natCast hw), ?_⟩
    simp only [executeWord, ho, hdst, hsa]
  | @binary id op x y hfresh hop hx hy =>
    simp only [Node.arguments, Option.getD_some, List.mapM_cons, List.mapM_nil, except_bind_eq_ok,
      except_pure_eq_ok] at hrs
    obtain ⟨rx, hrx, _, ⟨ry, hry, _, rfl, rfl⟩, rfl⟩ := hrs
    have hargs : [x, y].mapM values = some [regs rx, regs ry] := by
      simp [hagree.arg hrx, hagree.arg hry]
    have hfields := fun code hc => encodeNode_binary d.views id x y code
      hop hc hd (hlt rx (by simp)) (hlt ry (by simp))
    generalize encodeNode d.views { id := id, op := op, args := some [x, y] } dest [rx, ry] = w at *
    have hrx32 := hregs rx
    have hry32 := hregs ry
    rcases hop with rfl | rfl | rfl
    · obtain ⟨ho, hdst, hsa, hsb⟩ := hfields 2 rfl
      refine ⟨(regs rx + regs ry) % 2 ^ 32, Nat.mod_lt _ (by norm_num),
        evaluateNode_eq hargs rfl ?_, by simp only [executeWord, ho, hdst, hsa, hsb]⟩
      omega
    · obtain ⟨ho, hdst, hsa, hsb⟩ := hfields 5 rfl
      refine ⟨regs rx * regs ry % 2 ^ 32, Nat.mod_lt _ (by norm_num),
        evaluateNode_eq hargs rfl ?_, by simp only [executeWord, ho, hdst, hsa, hsb]⟩
      rw [← Nat.cast_mul]
      generalize regs rx * regs ry = p
      omega
    · obtain ⟨ho, hdst, hsa, hsb⟩ := hfields 4 rfl
      exact ⟨max (regs rx) (regs ry), by omega,
        evaluateNode_eq hargs rfl (by omega), by simp only [executeWord, ho, hdst, hsa, hsb]⟩
  | @immediate id op x m hfresh hop hx h0 hm =>
    simp only [Node.arguments, Option.getD_some, List.mapM_cons, List.mapM_nil, except_bind_eq_ok,
      except_pure_eq_ok] at hrs
    obtain ⟨rx, hrx, _, rfl, rfl⟩ := hrs
    have hargs : [x].mapM values = some [regs rx] := by simp [hagree.arg hrx]
    have hfields := fun code hc => encodeNode_immediate d.views id x code
      hop hc hd (hlt rx (by simp)) h0 hm
    generalize encodeNode d.views { id := id, op := op, args := some [x], imm := some m } dest [rx]
      = w at *
    have hrx32 := hregs rx
    rcases hop with rfl | rfl
    · obtain ⟨ho, hdst, hsa, him⟩ := hfields 6 rfl
      exact ⟨(regs rx + m.toNat) % 2 ^ 32, Nat.mod_lt _ (by norm_num),
        evaluateNode_eq hargs rfl (by omega), by simp only [executeWord, ho, hdst, hsa, him]⟩
    · obtain ⟨ho, hdst, hsa, him⟩ := hfields 7 rfl
      refine ⟨if m.toNat ≤ regs rx then 1 else 0, by split <;> norm_num,
        evaluateNode_eq hargs rfl ?_, by simp only [executeWord, ho, hdst, hsa, him]⟩
      split <;> split <;> omega

theorem registers_lt (h : AllocInv seen pending s) {l : List String} {rs : List ℕ}
    (hrs : l.mapM s.register = .ok rs) : ∀ r ∈ rs, r < 8 := by
  induction l generalizing rs with
  | nil =>
    simp only [List.mapM_nil, except_pure_eq_ok] at hrs
    simp [← hrs]
  | cons x l ih =>
    simp only [List.mapM_cons, except_bind_eq_ok, except_pure_eq_ok] at hrs
    obtain ⟨r, hr, rs', hrs', rfl⟩ := hrs
    intro q hq
    rcases List.mem_cons.mp hq with rfl | hq
    · unfold Allocation.register at hr
      split at hr
      · rename_i hlive
        cases hr
        exact h.lt x q hlive
      · simp at hr
    · exact ih hrs' q hq

/-- The emitted words simulate the interpreter over the whole node list. -/
theorem nodes_simulate (h : Admissible c) (hv : ViewsMatch d c) (hl : Loaded c inputs words)
    (hi : i < rows c) (hj : j < cols c) (hk : k < extent c) (extra : String → ℤ)
    (hextra : ∀ x, 0 ≤ extra x) {nodes : List Node} (hok : SSAOk d.views seen nodes)
    (hinv : AllocInv seen (fun x => countUses nodes x + extra x) s)
    (hrun : nodes.foldlM (allocateNode d.views) s = .ok t) (values : String → Option ℕ)
    (regs : ℕ → ℕ) (hagree : Agree s values regs) (hregs : ∀ r, regs r < 2 ^ 32) :
    ∃ ws values', t.words = s.words ++ ws ∧
      nodes.foldlM (evaluateNode d inputs i j k) values = some values' ∧
      Agree t values' (ws.foldl (executeWord c words i j k) regs) ∧ ∀ x r, t.live x = some r → r < 8 := by
  induction nodes generalizing seen s values regs with
  | nil =>
    simp only [List.foldlM_nil, except_pure_eq_ok] at hrun
    subst hrun
    exact ⟨[], values, by simp, rfl, hagree, hinv.lt⟩
  | cons n ns ih =>
    obtain ⟨hn, hns⟩ := hok
    rw [List.foldlM_cons, except_bind_eq_ok] at hrun
    obtain ⟨s₁, h1, h2⟩ := hrun
    obtain ⟨dest, rs, hrs, hd, hw₁, hinv₁, hlive⟩ := allocateNode_spec hinv hn (by
      intro x
      have := countUses_nonneg ns x
      have := hextra x
      rw [countUses_cons]
      omega) h1
    obtain ⟨w, hw32, hev, hex⟩ := node_word h hv hl hi hj hk hn hagree hregs hrs
      (registers_lt hinv hrs) hd
    have hagree₁ : Agree s₁ (Function.update values n.id (some w)) (Function.update regs dest w) := by
      intro x r hr
      rcases hlive x r hr with ⟨rfl, rfl⟩ | ⟨hx, hrd, hr⟩
      · simp
      · rw [Function.update_of_ne hx, Function.update_of_ne hrd]
        exact hagree x r hr
    have hregs₁ : ∀ r, Function.update regs dest w r < 2 ^ 32 := by
      intro r
      by_cases hr : r = dest
      · simpa [hr] using hw32
      · simpa [Function.update_of_ne hr] using hregs r
    have hpend : (fun x => countUses (n :: ns) x + extra x - (n.arguments.count x : ℤ)) =
        fun x => countUses ns x + extra x := by
      funext x
      rw [countUses_cons]
      omega
    rw [hpend] at hinv₁
    obtain ⟨ws, values', hws, hvals, hag, hlt⟩ := ih hns hinv₁ h2 _ _ hagree₁ hregs₁
    refine ⟨encodeNode d.views n dest rs :: ws, values', ?_, ?_, ?_, hlt⟩
    · rw [hws, hw₁, List.append_assoc]
      rfl
    · rw [List.foldlM_cons, hev]
      exact hvals
    · rw [List.foldl_cons, hex]
      exact hag

/-- The allocator before the first node. -/
def Allocation.initial (d : Region) : Allocation where
  live := fun _ => none
  free := List.range 8
  uses := fun x => countUses d.nodes x + if x = d.result then 1 else 0
  words := []

/-- What an accepted region and its configuration have in common. -/
structure Compiled (d : Region) (c : List ℕ) (t : Allocation) (r : ℕ) : Prop where
  length : c.length = 65
  u32 : ∀ w ∈ c, w < 2 ^ 32
  admissible : Admissible c
  views : ViewsMatch d c
  nodes : SSAOk d.views ∅ d.nodes
  result : d.result ∈ d.nodes.map Node.id
  shape : d.shape = [(rows c : ℤ), (cols c : ℤ)]
  extent : d.extent = extent c
  lengths : d.lengths = [(cfg c 5 : ℤ), (cfg c 6 : ℤ)]
  fold : cfg c 4 = if d.fold = .sum then 0 else 1
  run : d.nodes.foldlM (allocateNode d.views) (.initial d) = .ok t
  register : t.live d.result = some r
  count : ninst c = t.words.length + 1
  emitted : ∀ pc, pc < t.words.length → t.words[pc]? = some (inst c pc)
  yields : inst c t.words.length = 3 <<< 28 ||| r <<< 22

/-- The layout of the 65 configuration words. -/
theorem configuration_layout {m s0 s1 e f l0 l1 nv ni : ℤ} (views : List (List ℤ))
    (code : List ℕ) {c : List ℕ} (hviews : ∀ v ∈ views, v.length = 5) (h8 : views.length ≤ 8)
    (hc : c = (m :: s0 :: s1 :: e :: f :: l0 :: l1 :: nv :: ni :: (views.flatten ++
      List.replicate (40 - 5 * views.length) 0 ++ code.map Int.ofNat ++
      List.replicate (16 - code.length) 0)).map Int.toNat) :
    (∀ v n, v < views.length → n < 5 →
      (view c v n : ℤ) = ((views[v]?.bind fun w => w[n]?).getD 0).toNat) ∧
    ∀ pc, pc < code.length → code[pc]? = some (inst c pc) := by
  have hlen := length_flatten_rows hviews
  have hpre : (views.flatten ++ List.replicate (40 - 5 * views.length) (0 : ℤ)).length = 40 := by
    rw [List.length_append, hlen, List.length_replicate]
    omega
  have hrest : ∀ n, cfg c (9 + n) = ((views.flatten ++ List.replicate (40 - 5 * views.length) 0 ++
      code.map Int.ofNat ++ List.replicate (16 - code.length) 0).map Int.toNat).getD n 0 := by
    intro n
    rw [hc, cfg, Nat.add_comm 9 n]
    simp only [List.map_cons, List.getD_cons_succ]
  constructor
  · intro v n hv hn
    rw [view, Nat.add_assoc, hrest, List.getD_eq_getElem?_getD, List.getElem?_map,
      List.append_assoc, List.append_assoc, List.getElem?_append_left (by omega),
      getElem?_flatten_rows hviews hn]
    obtain ⟨w, hw⟩ : ∃ w, views[v]? = some w := ⟨_, List.getElem?_eq_getElem hv⟩
    have hw5 := hviews w (List.mem_of_getElem? hw)
    obtain ⟨x, hx⟩ : ∃ x, w[n]? = some x := ⟨_, List.getElem?_eq_getElem (by omega)⟩
    simp [hw, hx]
  · intro pc hpc
    obtain ⟨w, hw⟩ : ∃ w, code[pc]? = some w := ⟨_, List.getElem?_eq_getElem hpc⟩
    rw [inst, show 49 + pc = 9 + (40 + pc) by omega, hrest, List.getD_eq_getElem?_getD,
      List.getElem?_map, List.getElem?_append_left
        (by rw [List.length_append, hpre, List.length_map]; omega),
      List.getElem?_append_right (by omega), hpre, Nat.add_sub_cancel_left, List.getElem?_map, hw]
    rfl

/-- Inversion of `compile_region`. -/
theorem compileRegion_eq_ok (h : compileRegion d = .ok c) : ∃ t r, Compiled d c t r := by
  unfold compileRegion at h
  simp only [except_bind_eq_ok, require_eq_ok, exists_const, forM_eq_ok] at h
  obtain ⟨-, ⟨hshape, hlengths⟩, ⟨-, hv8⟩, -, ⟨seen, uses⟩, hcheck, hres, t, hrun, r, hreg,
    hview, hval⟩ := h
  obtain ⟨s0, s1, hs⟩ := List.length_eq_two.mp hshape
  obtain ⟨l0, l1, hl⟩ := List.length_eq_two.mp hlengths
  obtain ⟨hssa, hseen, huses⟩ := checkNodes_eq_ok hcheck
  obtain ⟨hlen, hrange, hc, hadm⟩ := validateConfig_eq_ok.mp hval
  have hlive : t.live d.result = some r := by
    unfold Allocation.register at hreg
    split at hreg
    · rename_i hq
      cases hreg
      exact hq
    · simp at hreg
  have hinit : (Allocation.initial d) = { live := fun _ => none, free := List.range 8, uses := Function.update uses d.result (uses d.result + 1), words := [] } := by
    unfold Allocation.initial
    congr 1
    funext x
    by_cases hx : x = d.result
    · subst hx
      simp [huses]
    · simp [hx, huses]
  rw [hs, hl] at hc hrange
  have hflat : ∀ w ∈ d.views.values.flatten, 0 ≤ w := fun w hw =>
    (hrange w (by simp only [List.mem_append, hw, true_or, or_true])).1
  have hs0 := (hrange s0 (by simp)).1
  have hs1 := (hrange s1 (by simp)).1
  have he := (hrange d.extent (by simp)).1
  have hl0 := (hrange l0 (by simp)).1
  have hl1 := (hrange l1 (by simp)).1
  obtain ⟨hlayoutV, hlayoutI⟩ := configuration_layout d.views.values
    (t.words ++ [3 <<< 28 ||| r <<< 22]) hview (by rw [Dict.length_values]; exact hv8)
    (hc.trans (by rw [Dict.length_values]; simp only [List.append_assoc]; rfl))
  have hcount : ninst c = t.words.length + 1 := by
    rw [hc]
    simp [ninst, cfg]
  refine ⟨t, r, ⟨by rw [hc, List.length_map]; rw [hs, hl] at hlen; exact hlen, ?_, hadm, ?_, hssa, ?_, ?_,
    ?_, ?_, ?_, hinit ▸ hrun, hlive, hcount, ?_, ?_⟩⟩
  · intro w hw
    rw [hc] at hw
    obtain ⟨x, hx, rfl⟩ := List.mem_map.mp hw
    have := hrange x hx
    simp only [MASK] at this
    omega
  · intro name hname
    obtain ⟨v, hget⟩ := Option.isSome_iff_exists.mp (Dict.get?_isSome.mpr hname)
    obtain ⟨hidx, hval⟩ := Dict.values_idxOf hget
    have hv5 := hview v (List.mem_of_getElem? hval)
    have hnv : nviews c = d.views.size := by
      rw [hc]
      simp [nviews, cfg]
    refine ⟨hnv ▸ hidx, hget.trans (congrArg some ?_)⟩
    apply List.ext_getElem (by simp [hv5])
    intro n hn _
    rw [hv5] at hn
    have hpos : 0 ≤ v[n] := hflat _
      (List.mem_flatten.mpr ⟨v, List.mem_of_getElem? hval, List.getElem_mem _⟩)
    have := hlayoutV (d.views.keys.idxOf name) n (by rwa [Dict.length_values]) hn
    rw [List.getElem_map, List.getElem_range, this, hval]
    simp [List.getElem?_eq_getElem (show n < v.length by omega), hpos]
  · have := (hseen d.result).mp hres
    simpa using this
  · rw [hs, hc]
    simp [rows, cols, cfg, hs0, hs1]
  · rw [hc]
    simp [extent, cfg, he]
  · rw [hl, hc]
    simp [cfg, hl0, hl1]
  · rw [hc]
    simp only [cfg, List.cons_append, List.nil_append, List.map_cons, List.getD_cons_succ,
      List.getD_cons_zero]
    split <;> rfl
  · intro pc hpc
    rw [← hlayoutI pc (by simp; omega), List.getElem?_append_left hpc]
  · have := hlayoutI t.words.length (by simp)
    simpa using this.symm

theorem AllocInv.initial (d : Region) :
    AllocInv ∅ (fun x => countUses d.nodes x + if x = d.result then 1 else 0) (.initial d) := by
  constructor
  · exact fun _ => rfl
  · simp [Allocation.initial]
  · simp [Allocation.initial]
  · simp [Allocation.initial]
  · simp [Allocation.initial]
  · exact List.nodup_range
  · simp [Allocation.initial]

/-- The emitted words are the program that `regsAt` runs. -/
theorem Compiled.regsAt_eq {r : ℕ} (h : Compiled d c t r) :
    regsAt c words i j k t.words.length =
      t.words.foldl (executeWord c words i j k) fun _ => 0 := by
  have hwords : (List.range t.words.length).map (inst c) = t.words := by
    apply List.ext_getElem? fun n => ?_
    by_cases hn : n < t.words.length
    · rw [h.emitted n hn, List.getElem?_map, List.getElem?_range hn]
      rfl
    · rw [List.getElem?_eq_none (by simpa using hn), List.getElem?_eq_none (by simpa using hn)]
  conv_rhs => rw [← hwords, List.foldl_map]
  rfl

/-- One iteration of the interpreter yields the value the configuration yields. -/
theorem Compiled.iteration {r : ℕ} (h : Compiled d c t r) (hl : Loaded c inputs words)
    (hi : i < rows c) (hj : j < cols c) (hk : k < Fold.extent c) :
    ∃ values, d.nodes.foldlM (evaluateNode d inputs i j k) (fun _ => none) = some values ∧
      values d.result = some (mapValue c words i j k) := by
  obtain ⟨ws, values, hws, hvals, hagree, hlt⟩ := nodes_simulate h.admissible h.views hl hi hj hk
    (fun x => if x = d.result then 1 else 0) (by intro x; split <;> norm_num) h.nodes
    (AllocInv.initial d) h.run (fun _ => none) (fun _ => 0)
    (by intro x r hr; simp [Allocation.initial] at hr) (by norm_num)
  refine ⟨values, hvals, ?_⟩
  obtain rfl : t.words = ws := hws
  rw [hagree _ _ h.register, mapValue, h.count, Nat.add_sub_cancel, h.yields, h.regsAt_eq]
  have hf := encoded_fields 3 0 (d := 0) (by norm_num) (hlt _ _ h.register)
    (by norm_num)
  rw [Nat.zero_shiftLeft, Nat.or_zero, Nat.or_zero] at hf
  rw [hf.2.2.1]

theorem Compiled.referenceCell_eq {r : ℕ} (h : Compiled d c t r) (hl : Loaded c inputs words)
    (hi : i < rows c) (hj : j < cols c) :
    referenceCell d inputs i j = some (cellValue c words i j) := by
  rw [referenceCell, h.extent, Int.toNat_natCast]
  refine foldlM_range_pure (m := Option) (g := accAt c words i j) fun k hk => ?_
  obtain ⟨values, hvals, hres⟩ := h.iteration hl hi hj hk
  rw [hvals, accAt_succ, combine, h.fold]
  simp only [Option.bind_eq_bind, Option.bind_some, hres]
  cases d.fold <;> simp

/-- On an accepted region the interpreter succeeds with the words of the configuration. -/
theorem reference_eq (hc : compileRegion d = .ok c) (hl : Loaded c inputs words) :
    reference d inputs = .ok (outputWords c words) := by
  obtain ⟨t, r, h⟩ := compileRegion_eq_ok hc
  obtain ⟨A, B, hAB⟩ := List.length_eq_two.mp hl.two
  have hresult : (List.range (d.shape.getD 0 0).toNat).foldlM (fun result i =>
      (List.range (d.shape.getD 1 0).toNat).foldlM (fun (result : List ℕ) j => do
        pure (result ++ [← referenceCell d inputs i j])) result) [] =
      some (outputWords c words) := by
    rw [h.shape]
    simp only [List.getD_cons_zero, List.getD_cons_succ, Int.toNat_natCast]
    rw [foldlM_rowMajor fun (result : List ℕ) i j => (do
      pure (result ++ [← referenceCell d inputs i j]) : Option (List ℕ))]
    refine foldlM_range_pure (m := Option) (g := fun n => (List.range n).map fun n =>
      cellValue c words (n / cols c) (n % cols c)) fun n hn => ?_
    rw [h.referenceCell_eq hl (div_cols_lt hn) (mod_cols_lt h.admissible n), List.range_succ,
      List.map_append]
    rfl
  unfold reference
  simp only [except_bind_eq_ok, require_eq_ok, exists_const, forM_eq_ok, int_eq_ok, MASK]
  refine ⟨c, hc, hl.two, ?_, by rw [hresult]; rfl⟩
  have hA := hl.length 0 A (by simp [hAB])
  have hB := hl.length 1 B (by simp [hAB])
  have hu := hl.u32
  rw [hAB, h.lengths]
  intro p hp
  simp only [List.zip_cons_cons, List.zip_nil_right, List.mem_cons, List.not_mem_nil,
    or_false] at hp
  rcases hp with rfl | rfl
  · refine ⟨by simp [hA], fun w hw => ?_⟩
    have := hu A (by simp [hAB]) w hw
    omega
  · refine ⟨by simp [hB], fun w hw => ?_⟩
    have := hu B (by simp [hAB]) w hw
    omega

/-- Two arrays of the declared lengths, stored from words 0 and 324 on. -/
theorem loaded_of_stored {A B words : List ℕ} (hlenA : A.length = cfg c 5) (hlenB : B.length = cfg c 6)
    (hA : ∀ w ∈ A, w < 2 ^ 32) (hB : ∀ w ∈ B, w < 2 ^ 32)
    (hstoreA : ∀ n, n < A.length → words[n]? = A[n]?)
    (hstoreB : ∀ n, n < B.length → words[324 + n]? = B[n]?) : Loaded c [A, B] words := by
  constructor
  · rfl
  · intro b data hb
    match b, hb with
    | 0, hb => cases hb; exact hlenA
    | 1, hb => cases hb; exact hlenB
    | b + 2, hb => simp at hb
  · intro data hdata w hw
    simp only [List.mem_cons, List.not_mem_nil, or_false] at hdata
    rcases hdata with rfl | rfl
    · exact hA w hw
    · exact hB w hw
  · intro b data hb n w hw
    have hn := (List.getElem?_eq_some_iff.mp hw).1
    match b, hb with
    | 0, hb =>
      cases hb
      rw [Nat.mul_zero, Nat.zero_add, List.getD_eq_getElem?_getD, hstoreA n hn, hw,
        Option.getD_some]
    | 1, hb =>
      cases hb
      rw [Nat.mul_one, List.getD_eq_getElem?_getD, hstoreB n hn, hw, Option.getD_some]
    | b + 2, hb => simp at hb

/-- Compiler correctness: on every accepted region and every pair of 32-bit arrays of the declared
lengths, the C evaluator run on the emitted configuration succeeds and writes the reference. -/
theorem compileRegion_correct {A B : List ℕ} {r : Request} {output : List ℕ}
    (hc : compileRegion d = .ok r.config)
    (hlen : d.lengths = [(A.length : ℤ), (B.length : ℤ)])
    (hA : ∀ w ∈ A, w < 2 ^ 32) (hB : ∀ w ∈ B, w < 2 ^ 32)
    (hstoreA : ∀ n, n < A.length → r.inputs[n]? = A[n]?)
    (hstoreB : ∀ n, n < B.length → r.inputs[324 + n]? = B[n]?) (ho : output.length = 256) :
    ∃ words, reference d [A, B] = .ok words ∧
      words.length = cfg r.config 1 * cfg r.config 2 ∧
      raveilFoldEvaluate r output = some (words ++ output.drop words.length) := by
  obtain ⟨t, q, h⟩ := compileRegion_eq_ok hc
  have hcfg := h.lengths.symm.trans hlen
  simp only [List.cons.injEq, Nat.cast_inj, and_true] at hcfg
  have hl : Loaded r.config [A, B] r.inputs :=
    loaded_of_stored hcfg.1.symm hcfg.2.symm hA hB hstoreA hstoreB
  refine ⟨_, reference_eq hc hl, outputWords_length _ _, ?_⟩
  rw [raveilFoldEvaluate_eq h.admissible ho, outputWords_length]

/-- A dead node, a repeated argument and a value used twice. -/
def squareRegion : Region where
  schema := "raveil.affine-fold.v1"
  shape := [2, 2]
  extent := 2
  fold := .sum
  lengths := [8, 0]
  views := ⟨[("v", [0, 0, 4, 2, 1])], by decide⟩
  nodes := [{ id := "x", op := .load, view := some "v" },
    { id := "dead", op := .geImm, args := some ["x"], imm := some 3 },
    { id := "y", op := .add, args := some ["x", "x"] },
    { id := "z", op := .mul, args := some ["x", "y"] }]
  result := "z"

def squareConfig : List ℕ :=
  [MAGIC, 2, 2, 2, 0, 8, 0, 1, 5, 0, 0, 4, 2, 1] ++ List.replicate 35 0 ++
    [0x10000000, 0x72000003, 0x22000000, 0x50080000, 0x30000000] ++ List.replicate 11 0

theorem compileRegion_correct_square :
    ∃ words, reference squareRegion [[1, 2, 3, 4, 5, 6, 7, 8], []] = .ok words ∧
      words.length = 4 ∧
      raveilFoldEvaluate
        { requestId := 1, config := squareConfig, inputs := [1, 2, 3, 4, 5, 6, 7, 8] }
        (List.replicate 256 0) = some (words ++ (List.replicate 256 0).drop words.length) :=
  have hc : compileRegion squareRegion = .ok squareConfig := by decide
  compileRegion_correct (r := ⟨1, squareConfig, [1, 2, 3, 4, 5, 6, 7, 8]⟩)
    (A := [1, 2, 3, 4, 5, 6, 7, 8]) (B := []) hc rfl (by decide) (by decide) (fun _ _ => rfl)
    (by simp) List.length_replicate

end Raveil.Fold
