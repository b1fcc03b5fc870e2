import Mathlib.Data.List.Count
import Raveil.Graph.Compile

/-! Register allocation of the compiler: what every emitted word is, and when there is no register. -/
namespace Raveil.Graph
open Raveil.Lib

/-- The forms of a node that a program version can encode. -/
inductive Encodable (version : ℕ) : Node → Prop
  | selector (id : String) (name : Selector) (hv : version < 3) :
      Encodable version ⟨id, .load (.selector name)⟩
  | relative (id : String) (row column : ℤ) (hv : 3 ≤ version) (hr : -1 ≤ row ∧ row ≤ 1)
      (hc : -1 ≤ column ∧ column ≤ 1) : Encodable version ⟨id, .load (.relative row column)⟩
  | binary (id : String) (op : Binary) (x y : String) (hmax : op = .max → 2 ≤ version)
      (hmul : op = .mul → 4 ≤ version) : Encodable version ⟨id, .binary op [x, y]⟩
  | immediate (id : String) (op : Immediate) (x : String) (value : ℤ) (hv : 5 ≤ version)
      (hg : op = .ge → 6 ≤ version) (h0 : 0 ≤ value) (hm : value < 2 ^ 22) :
      Encodable version ⟨id, .immediate op x value⟩
  | store (id x : String) : Encodable version ⟨id, .store x⟩

theorem programVersion_mem (value : Descriptor) : programVersion value ∈ [1, 2, 3, 4, 5, 6] := by
  unfold programVersion
  split <;> try split
  all_goals simp

/-- The version of a program encodes every node of an admitted descriptor. -/
theorem encodable_of_nodeOk {value : Descriptor} {node : Node} (hmem : node ∈ value.nodes)
    (h : NodeOk value.schema node) : Encodable (programVersion value) node := by
  cases h with
  | selector id name hv =>
    refine .selector id name ?_
    simp only [programVersion, hv]
    split <;> omega
  | relative id row column hv hr hc =>
    refine .relative id row column ?_ hr hc
    cases hs : value.schema <;> simp_all [programVersion]
  | binary id op x y hv =>
    refine .binary id op x y (fun hop => ?_) (fun hop => ?_)
    · subst hop
      have hany : (value.nodes.any fun node => decide (node.op = .max)) = true :=
        List.any_eq_true.mpr ⟨_, hmem, by simp [Node.op, Binary.op]⟩
      cases hs : value.schema <;> simp [programVersion, hs, hany]
    · have := hv hop
      cases hs : value.schema <;> simp_all [programVersion]
  | immediate id op x v hv hg h0 hm =>
    refine .immediate id op x v ?_ (fun hop => ?_) h0 hm
    · cases hs : value.schema <;> simp_all [programVersion]
    · simp [programVersion, hg hop]
  | store id x => exact .store id x

section Allocator

/-- The allocator after the nodes named `seen`: a name is live while uses remain, and a name that
nobody uses stays live. -/
structure AllocInv (unused : Finset String) (seen : Finset String) (s : Allocation) : Prop where
  pool : s.toPool.Ok 8 (seen.filter fun x => 0 < s.remaining x ∨ x ∈ unused)
  unused : ∀ x ∈ unused, s.remaining x = 0
  recorded : ∀ x r, s.registers x = some r → s.allocations x = some r
  unseen : ∀ x, x ∉ seen → s.allocations x = none

variable {unused seen : Finset String} {s t : Allocation} {x : String} {n : Node}

theorem lookup_eq_ok {d : String → Option ℕ} {r : ℕ} : lookup d x = .ok r ↔ d x = some r := by
  unfold lookup
  split <;> simp_all

/-- A consumed name keeps its register while uses remain and gives it back at the last one. -/
theorem AllocInv.consume (h : AllocInv unused seen s) (hx : x ∈ seen) (hp : 0 < s.remaining x) :
    ∃ s', s.consume x = .ok s' ∧ AllocInv unused seen s' ∧
      s'.remaining = Function.update s.remaining x (s.remaining x - 1) ∧
      s'.instructions = s.instructions ∧ s'.allocations = s.allocations ∧
      ∀ y r, s'.registers y = some r → s.registers y = some r := by
  have hused : x ∉ unused := by
    intro hu
    have := h.unused x hu
    omega
  have hunused : ∀ y ∈ unused, Function.update s.remaining x (s.remaining x - 1) y = 0 := by
    intro y hy
    have hne : y ≠ x := by
      rintro rfl
      exact hused hy
    rw [Function.update_of_ne hne]
    exact h.unused y hy
  have hothers : ∀ y, y ≠ x →
      (0 < Function.update s.remaining x (s.remaining x - 1) y ∨ y ∈ unused ↔
        0 < s.remaining y ∨ y ∈ unused) := by
    intro y hy
    rw [Function.update_of_ne hy]
  by_cases hz : s.remaining x - 1 = 0
  · obtain ⟨r, hr⟩ := h.pool.exists_register (x := x) (by simp [hx, hp])
    refine ⟨{ s with
      toPool := s.toPool.release x r
      remaining := Function.update s.remaining x (s.remaining x - 1) }, ?_, ?_, rfl, rfl, rfl, ?_⟩
    · simp [Allocation.consume, hz, lookup, hr, bind, Except.bind, pure, Except.pure]
    · refine ⟨?_, hunused, ?_, h.unseen⟩
      · have hlive : seen.filter (fun y => 0 < Function.update s.remaining x (s.remaining x - 1) y ∨
            y ∈ unused) = (seen.filter fun y => 0 < s.remaining y ∨ y ∈ unused).erase x := by
          ext y
          by_cases hy : y = x
          · subst hy
            simp [hz, hused]
          · simp [hy]
        exact hlive ▸ h.pool.release hr
      · intro y q hq
        have hne : y ≠ x := by
          rintro rfl
          simp [Pool.release] at hq
        exact h.recorded y q (by simpa [Pool.release, Function.update_of_ne hne] using hq)
    · intro y q hq
      have hne : y ≠ x := by
        rintro rfl
        simp [Pool.release] at hq
      simpa [Pool.release, Function.update_of_ne hne] using hq
  · refine ⟨{ s with remaining := Function.update s.remaining x (s.remaining x - 1) }, ?_, ?_, rfl, rfl,
      rfl, fun _ _ hq => hq⟩
    · simp [Allocation.consume, hz, pure, Except.pure]
    · refine ⟨?_, hunused, h.recorded, h.unseen⟩
      have hlive : seen.filter (fun y => 0 < Function.update s.remaining x (s.remaining x - 1) y ∨
          y ∈ unused) = seen.filter fun y => 0 < s.remaining y ∨ y ∈ unused := by
        ext y
        by_cases hy : y = x
        · subst hy
          simp only [Finset.mem_filter, Function.update_self]
          constructor <;> rintro ⟨h1, -⟩ <;> exact ⟨h1, Or.inl (by omega)⟩
        · simp only [Finset.mem_filter, hothers y hy]
      exact hlive ▸ h.pool

theorem AllocInv.consumeAll {l : List String} (h : AllocInv unused seen s) (hl : ∀ x ∈ l, x ∈ seen)
    (hp : ∀ x, (l.count x : ℤ) ≤ s.remaining x) :
    ∃ s', l.foldlM Allocation.consume s = .ok s' ∧ AllocInv unused seen s' ∧
      (∀ x, s'.remaining x = s.remaining x - l.count x) ∧
      s'.instructions = s.instructions ∧ s'.allocations = s.allocations ∧
      ∀ y r, s'.registers y = some r → s.registers y = some r := by
  induction l generalizing s with
  | nil => exact ⟨s, rfl, h, by simp, rfl, rfl, fun _ _ hq => hq⟩
  | cons a l ih =>
    have ha := hp a
    rw [List.count_cons_self] at ha
    obtain ⟨s₁, h1, hi1, hr1, hw1, ha1, hs1⟩ := h.consume (hl a (by simp)) (by push_cast at ha; omega)
    have hcount : ∀ x, s₁.remaining x = s.remaining x - if x = a then 1 else 0 := by
      intro x
      rw [hr1]
      by_cases hx : x = a
      · simp [hx]
      · simp [hx]
    obtain ⟨s₂, h2, hi2, hr2, hw2, ha2, hs2⟩ := ih hi1 (fun y hy => hl y (by simp [hy])) (by
      intro x
      have := hp x
      rw [hcount, List.count_cons] at *
      by_cases hx : x = a
      · subst hx
        simp at this ⊢
        omega
      · simp [hx, Ne.symm hx] at this ⊢
        omega)
    refine ⟨s₂, by simp [h1, h2, bind, Except.bind], hi2, fun x => ?_, hw2.trans hw1, ha2.trans ha1,
      fun y r hq => hs1 y r (hs2 y r hq)⟩
    rw [hr2, hcount, List.count_cons]
    by_cases hx : x = a
    · subst hx
      simp
      omega
    · simp [hx, Ne.symm hx]

/-- The registers of consumed names. -/
theorem AllocInv.sources {l : List String} (h : AllocInv unused seen s) (hl : ∀ x ∈ l, x ∈ seen)
    (hp : ∀ x ∈ l, 0 < s.remaining x) :
    ∃ rs, l.mapM (lookup s.registers) = .ok rs ∧ ∀ r ∈ rs, r < 8 := by
  induction l with
  | nil => exact ⟨[], rfl, by simp⟩
  | cons a l ih =>
    obtain ⟨rs, hrs, hlt⟩ := ih (fun x hx => hl x (by simp [hx])) fun x hx => hp x (by simp [hx])
    obtain ⟨r, hr⟩ := h.pool.exists_register (x := a) (by simp [hl a (by simp), hp a (by simp)])
    refine ⟨r :: rs, ?_, ?_⟩
    · simp [hrs, lookup_eq_ok.mpr hr, bind, Except.bind, pure, Except.pure]
    · intro q hq
      rcases List.mem_cons.mp hq with rfl | hq
      · exact h.pool.lt a q hr
      · exact hlt q hq

/-- The step that emits the word of one node that produces a value. -/
structure Emits (s : Allocation) (n : Node) (d : ℕ) (rs : List ℕ) (t : Allocation) : Prop where
  value : n.op ≠ .store
  sources : (dependencies n).mapM (lookup s.registers) = .ok rs
  sourcesLt : ∀ r ∈ rs, r < 8
  lt : d < 8
  instructions : t.instructions = s.instructions ++ [encodeNode n d rs]
  allocations : t.allocations = Function.update s.allocations n.id (some d)
  recorded : ∀ x r, s.registers x = some r → s.allocations x = some r
  fresh : s.allocations n.id = none
  registers : ∀ x r, t.registers x = some r →
    (x = n.id ∧ r = d) ∨ (x ≠ n.id ∧ r ≠ d ∧ s.registers x = some r)

/-- A node that produces a value gets a register, or eight names stay live beside it. -/
theorem AllocInv.allocate (h : AllocInv unused seen s) (hv : n.op ≠ .store) (hn : n.id ∉ seen)
    (hd : ∀ x ∈ dependencies n, x ∈ seen)
    (hp : ∀ x, ((dependencies n).count x : ℤ) ≤ s.remaining x)
    (hlive : 0 < s.remaining n.id ∨ n.id ∈ unused) :
    (allocateNode s n = .error "Graph requires more than eight live values" ∧
      (seen.filter fun x => 0 < s.remaining x - (dependencies n).count x ∨ x ∈ unused).card = 8) ∨
    ∃ d rs t, allocateNode s n = .ok t ∧ Emits s n d rs t ∧ AllocInv unused (insert n.id seen) t ∧
      ∀ x, t.remaining x = s.remaining x - (dependencies n).count x := by
  obtain ⟨rs, hrs, hrlt⟩ := h.sources hd fun x hx => by
    have := hp x
    have := List.count_pos_iff.mpr hx
    omega
  obtain ⟨s₁, hs₁, hi₁, hrem, hins, hall, hsub⟩ := h.consumeAll hd hp
  have hcount : (dependencies n).count n.id = 0 := List.count_eq_zero.mpr fun hm => hn (hd _ hm)
  have hset : (seen.filter fun x => 0 < s₁.remaining x ∨ x ∈ unused) =
      seen.filter fun x => 0 < s.remaining x - (dependencies n).count x ∨ x ∈ unused := by
    simp only [hrem]
  have hfresh : n.id ∉ seen.filter fun x => 0 < s₁.remaining x ∨ x ∈ unused := by
    simp [hn]
  cases hfree : s₁.free.insertionSort (· ≤ ·) with
  | nil =>
    left
    constructor
    · simp [allocateNode, hrs, hs₁, hv, hfree, bind, Except.bind]
    · have hnil : s₁.free = [] := by
        have := (List.perm_insertionSort (· ≤ ·) s₁.free).length_eq
        rw [hfree] at this
        exact List.length_eq_zero_iff.mp this.symm
      have hc := hi₁.pool.count
      rw [hnil, hset] at hc
      simpa using hc
  | cons d free =>
    right
    have hperm : (d :: free).Perm s₁.free := hfree ▸ List.perm_insertionSort _ _
    refine ⟨d, rs, { s₁ with
      toPool := s₁.toPool.take n.id d free
      allocations := Function.update s₁.allocations n.id (some d)
      instructions := s₁.instructions ++ [encodeNode n d rs] }, ?_, ?_, ?_, hrem⟩
    · simp [allocateNode, hrs, hs₁, hv, hfree, bind, Except.bind, pure, Except.pure]
    · refine ⟨hv, hrs, hrlt, hi₁.pool.freeLt d (hperm.mem_iff.mp (by simp)), by rw [hins], by rw [hall],
        h.recorded, h.unseen _ hn, fun x r hr => ?_⟩
      by_cases hx : x = n.id
      · subst hx
        have hdr : d = r := by simpa [Pool.take] using hr
        exact Or.inl ⟨rfl, hdr.symm⟩
      · obtain ⟨hne, hreg⟩ := hi₁.pool.take_ne hperm hx hr
        exact Or.inr ⟨hx, hne, hsub x r hreg⟩
    · refine ⟨?_, hi₁.unused, fun x r hr => ?_, fun x hx => ?_⟩
      · have hins : (insert n.id seen).filter (fun x => 0 < s₁.remaining x ∨ x ∈ unused) =
            insert n.id (seen.filter fun x => 0 < s₁.remaining x ∨ x ∈ unused) := by
          rw [Finset.filter_insert, if_pos]
          rw [hrem, hcount]
          simpa using hlive
        exact hins ▸ hi₁.pool.take hfresh hperm
      · by_cases hx : x = n.id
        · subst hx
          simpa [Pool.take] using hr
        · simp only [Function.update_of_ne hx]
          exact hi₁.recorded x r (hi₁.pool.take_ne hperm hx hr).2
      · rw [Finset.mem_insert, not_or] at hx
        simp only [Function.update_of_ne hx.1]
        exact hi₁.unseen x hx.2

/-- The words emitted for a list of nodes. -/
inductive Emission : Allocation → List Node → List ℕ → Allocation → Prop
  | nil (s : Allocation) : Emission s [] [] s
  | cons {s t u : Allocation} {n : Node} {d : ℕ} {rs : List ℕ} {ns : List Node} {ws : List ℕ}
      (h : Emits s n d rs t) (hs : Emission t ns ws u) :
      Emission s (n :: ns) (encodeNode n d rs :: ws) u

theorem Emission.instructions {ns : List Node} {ws : List ℕ} (h : Emission s ns ws t) :
    t.instructions = s.instructions ++ ws := by
  induction h with
  | nil => simp
  | cons h _ ih => rw [ih, h.instructions, List.append_assoc, List.singleton_append]

theorem Emission.length {ns : List Node} {ws : List ℕ} (h : Emission s ns ws t) :
    ws.length = ns.length := by
  induction h with
  | nil => rfl
  | cons _ _ ih => simp [ih]

/-- Every emitted word is the word of a node. -/
theorem Emission.mem {ns : List Node} {ws : List ℕ} {w : ℕ} (h : Emission s ns ws t) (hw : w ∈ ws) :
    ∃ n ∈ ns, ∃ s' d rs t', Emits s' n d rs t' ∧ w = encodeNode n d rs := by
  induction h with
  | nil => cases hw
  | cons h _ ih =>
    rcases List.mem_cons.mp hw with rfl | hw
    · exact ⟨_, by simp, _, _, _, _, h, rfl⟩
    · obtain ⟨n, hn, hrest⟩ := ih hw
      exact ⟨n, by simp [hn], hrest⟩

theorem useCount_cons (n : Node) (ns : List Node) (x : String) :
    useCount (n :: ns) x = (dependencies n).count x + useCount ns x := by
  simp [useCount, List.count_append]

theorem useCount_append (ns ms : List Node) (x : String) :
    useCount (ns ++ ms) x = useCount ns x + useCount ms x := by
  simp [useCount, List.count_append]

/-- Nobody before a name is defined uses it. -/
theorem useCount_eq_zero {ns : List Node} (h : Ordered Node.id dependencies seen ns) :
    ∀ x, x ∉ seen → x ∉ ns.map Node.id → useCount ns x = 0 := by
  induction ns generalizing seen with
  | nil => simp [useCount]
  | cons n ns ih =>
    intro x hx hns
    obtain ⟨-, hdeps, hord⟩ := h
    rw [List.map_cons, List.mem_cons, not_or] at hns
    rw [useCount_cons, ih hord x (by simp [hx, hns.1]) hns.2, List.count_eq_zero.mpr]
    exact fun hm => hx (hdeps x hm)

/-- The values live after the node at `index` of the schedule: defined by then, and used later or by
nobody at all. -/
def liveAfter (nodes : List Node) (index : ℕ) : List String :=
  (((nodes.take (index + 1)).filter fun node => node.op ≠ .store).map Node.id).filter fun name =>
    0 < useCount (nodes.drop (index + 1)) name ∨ useCount nodes name = 0

/-- The nodes of a schedule that nobody uses. -/
def unusedNames (nodes : List Node) : Finset String :=
  ((nodes.map Node.id).filter fun name => useCount nodes name = 0).toFinset

end Allocator

section Run

variable {pre ns : List Node} {last : Node} {s : Allocation}

/-- Eight live names beside a new one are more than eight live values. -/
theorem live_of_full {all : List Node} {n : Node} (hsplit : all = pre ++ n :: (ns ++ [last]))
    (hpre : Ordered Node.id dependencies ∅ pre) (hvalues : ∀ m ∈ pre ++ n :: ns, m.op ≠ .store)
    (hrem : ∀ x, s.remaining x = useCount (n :: ns ++ [last]) x)
    (hcard : ((pre.map Node.id).toFinset.filter fun x =>
      0 < s.remaining x - (dependencies n).count x ∨ x ∈ unusedNames all).card = 8)
    (huse : useCount all n.id = useCount (n :: ns ++ [last]) n.id)
    (hself : (dependencies n).count n.id = 0) : 8 < (liveAfter all pre.length).length := by
  have htake : all.take (pre.length + 1) = pre ++ [n] := by
    rw [hsplit, List.take_append]
    simp
  have hdrop : all.drop (pre.length + 1) = ns ++ [last] := by
    rw [hsplit, List.drop_append]
    simp
  have hfilter : ((pre ++ [n]).filter fun node => node.op ≠ .store) = pre ++ [n] := by
    refine List.filter_eq_self.mpr fun m hm => ?_
    have := hvalues m (by
      rcases List.mem_append.mp hm with h | h
      · simp [h]
      · simp [List.mem_singleton.mp h])
    simpa using this
  have hset : ((pre.map Node.id).filter fun name =>
      0 < useCount (ns ++ [last]) name ∨ useCount all name = 0).toFinset =
      (pre.map Node.id).toFinset.filter fun x =>
        0 < s.remaining x - (dependencies n).count x ∨ x ∈ unusedNames all := by
    ext x
    rw [List.mem_toFinset, List.mem_filter, Finset.mem_filter, List.mem_toFinset]
    refine and_congr_right fun hx => ?_
    have hmem : x ∈ all.map Node.id := by
      rw [hsplit, List.map_append]
      exact List.mem_append_left _ hx
    have hr : s.remaining x - (dependencies n).count x = useCount (ns ++ [last]) x := by
      rw [hrem, List.cons_append, useCount_cons]
      push_cast
      omega
    rw [hr]
    simp [unusedNames, hmem]
  have hnodup := ((ordered_nodup hpre).1).filter fun name =>
    decide (0 < useCount (ns ++ [last]) name ∨ useCount all name = 0)
  have hlen := List.toFinset_card_of_nodup hnodup
  rw [hset, hcard] at hlen
  have hnew : 0 < useCount (ns ++ [last]) n.id ∨ useCount all n.id = 0 := by
    rw [huse, List.cons_append, useCount_cons, hself]
    omega
  rw [liveAfter, htake, hdrop, hfilter, List.map_append, List.filter_append, List.length_append, ← hlen]
  simp [hnew]

/-- The allocator over the nodes that produce values: it emits a word for each, or stops with more
than eight live values. -/
theorem allocate_run {all : List Node} (hall : all = pre ++ ns ++ [last])
    (hord : Ordered Node.id dependencies ∅ all) (hvalues : ∀ n ∈ pre ++ ns, n.op ≠ .store)
    (hinv : AllocInv (unusedNames all) (pre.map Node.id).toFinset s)
    (hrem : ∀ x, s.remaining x = useCount (ns ++ [last]) x) :
    (ns.foldlM allocateNode s = .error "Graph requires more than eight live values" ∧
      ∃ index, 8 < (liveAfter all index).length) ∨
    ∃ ws t, ns.foldlM allocateNode s = .ok t ∧ Emission s ns ws t ∧
      AllocInv (unusedNames all) ((pre ++ ns).map Node.id).toFinset t ∧
      ∀ x, t.remaining x = useCount [last] x := by
  induction ns generalizing pre s with
  | nil => exact Or.inr ⟨[], s, rfl, .nil s, by simpa using hinv, by simpa using hrem⟩
  | cons n ns ih =>
    have hsplit : all = pre ++ n :: (ns ++ [last]) := by simp [hall]
    have hparts := hord
    rw [hsplit, ordered_append] at hparts
    obtain ⟨hpre, hfresh, hdeps, -⟩ := hparts
    simp only [Finset.empty_union] at hfresh hdeps
    have hcons : ∀ x, (useCount (n :: ns ++ [last]) x : ℤ) =
        (dependencies n).count x + useCount (ns ++ [last]) x := by
      intro x
      rw [List.cons_append, useCount_cons]
      push_cast
      rfl
    have hzero : useCount pre n.id = 0 := useCount_eq_zero hpre n.id (by simp) (by simpa using hfresh)
    have huse : useCount all n.id = useCount (n :: ns ++ [last]) n.id := by
      rw [hsplit, useCount_append, hzero, Nat.zero_add]
      rfl
    have hlive : 0 < s.remaining n.id ∨ n.id ∈ unusedNames all := by
      rw [hrem]
      by_cases hz : useCount all n.id = 0
      · exact Or.inr (by simp [unusedNames, hsplit ▸ hz, hsplit])
      · exact Or.inl (by omega)
    rw [List.foldlM_cons]
    rcases hinv.allocate (hvalues n (by simp)) hfresh hdeps (fun x => by rw [hrem, hcons]; omega) hlive with
      ⟨herr, hcard⟩ | ⟨d, rs, t, hok, hemit, hinv', hrem'⟩
    · refine Or.inl ⟨by rw [herr]; rfl, pre.length, ?_⟩
      exact live_of_full hsplit hpre hvalues hrem hcard huse
        (List.count_eq_zero.mpr fun hm => hfresh (hdeps _ hm))
    · have hnext : ∀ x, t.remaining x = useCount (ns ++ [last]) x := by
        intro x
        rw [hrem', hrem, hcons]
        omega
      have hseen : insert n.id (pre.map Node.id).toFinset = ((pre ++ [n]).map Node.id).toFinset := by
        ext x
        simp
      rw [hseen] at hinv'
      rcases ih (by simp [hall]) (by simpa using hvalues) hinv' hnext with
        ⟨herr, hbig⟩ | ⟨ws, u, hrun, hem, hfin, hlast⟩
      · exact Or.inl ⟨by rw [hok]; exact herr, hbig⟩
      · refine Or.inr ⟨encodeNode n d rs :: ws, u, by rw [hok]; exact hrun, .cons hemit hem, ?_, hlast⟩
        simpa using hfin

end Run

end Raveil.Graph
