import Mathlib.Data.List.Count
import Raveil.Fold.Region

/-! Register allocation: live SSA names keep disjoint registers through the whole node list. -/
namespace Raveil.Fold
open Raveil.Lib

theorem encoded_fields (op low : ℕ) {d a : ℕ} (hd : d < 8) (ha : a < 8) (hl : low < 2 ^ 22) :
    let w := op <<< 28 ||| d <<< 25 ||| a <<< 22 ||| low
    opcode w = op ∧ dst w = d ∧ srcA w = a ∧ srcB w = low / 2 ^ 19 ∧ imm22 w = low := by
  have hmod : ∀ x : ℕ, x &&& 0x3fffff = x % 2 ^ 22 := fun x =>
    Nat.and_two_pow_sub_one_eq_mod x 22
  simp only [encoded_eq_sum hd ha hl, opcode, dst, srcA, srcB, imm22, and_seven, hmod,
    Nat.shiftRight_eq_div_pow]
  omega

/-- The three forms an admitted node can have. -/
inductive NodeOk (views : Dict String (List ℤ)) (seen : Finset String) : Node → Prop
  | load {id v} : id ∉ seen → v ∈ views.keys →
      NodeOk views seen { id := id, op := .load, view := some v }
  | binary {id op x y} : id ∉ seen → op = .add ∨ op = .mul ∨ op = .max → x ∈ seen → y ∈ seen →
      NodeOk views seen { id := id, op := op, args := some [x, y] }
  | immediate {id op x m} : id ∉ seen → op = .addImm ∨ op = .geImm → x ∈ seen → 0 ≤ m →
      m < 2 ^ 22 → NodeOk views seen { id := id, op := op, args := some [x], imm := some m }

theorem NodeOk.fresh {views : Dict String (List ℤ)} {seen : Finset String} {n : Node}
    (h : NodeOk views seen n) : n.id ∉ seen := by
  cases h <;> assumption

theorem NodeOk.arguments_mem {views : Dict String (List ℤ)} {seen : Finset String} {n : Node}
    (h : NodeOk views seen n) : ∀ x ∈ n.arguments, x ∈ seen := by
  cases h <;> simp_all [Node.arguments]

/-- Every node of the list is admitted over the names before it. -/
def SSAOk (views : Dict String (List ℤ)) : Finset String → List Node → Prop
  | _, [] => True
  | seen, n :: ns => NodeOk views seen n ∧ SSAOk views (insert n.id seen) ns

/-- How often the nodes use a name as an argument. -/
def countUses (nodes : List Node) (x : String) : ℤ := (nodes.flatMap Node.arguments).count x

theorem countUses_cons (n : Node) (ns : List Node) (x : String) :
    countUses (n :: ns) x = n.arguments.count x + countUses ns x := by
  simp [countUses, List.count_append]

theorem countUses_nonneg (ns : List Node) (x : String) : 0 ≤ countUses ns x := by
  simp [countUses]

theorem countArguments_eq_ok {seen : Finset String} {l : List String} {uses uses' : String → ℤ}
    (h : l.foldlM (fun (uses : String → ℤ) arg => do
      require (arg ∈ seen) "nodes must be in dependency order"
      pure (Function.update uses arg (uses arg + 1))) uses = Except.ok uses') :
    (∀ x ∈ l, x ∈ seen) ∧ uses' = fun x => uses x + l.count x := by
  induction l generalizing uses with
  | nil =>
    simp only [List.foldlM_nil, except_pure_eq_ok] at h
    simp [h]
  | cons a l ih =>
    simp only [List.foldlM_cons, bind_assoc, pure_bind, require_then_eq_ok] at h
    obtain ⟨hm, rfl⟩ := ih h.2
    refine ⟨by simpa using ⟨h.1, hm⟩, ?_⟩
    funext x
    by_cases hx : x = a
    · subst hx
      simp
      omega
    · simp [Function.update_of_ne hx, List.count_cons_of_ne (Ne.symm hx)]

theorem checkNode_eq_ok {views : Dict String (List ℤ)} {seen seen' : Finset String}
    {uses uses' : String → ℤ} {n : Node}
    (h : checkNode views (seen, uses) n = .ok (seen', uses')) :
    NodeOk views seen n ∧ seen' = insert n.id seen ∧
      uses' = fun x => uses x + n.arguments.count x := by
  unfold checkNode at h
  simp only [except_bind_eq_ok, require_eq_ok, forM_eq_ok, int_eq_ok,
    exists_const, except_pure_eq_ok, Prod.mk.injEq] at h
  obtain ⟨⟨hf, hop, hy⟩, ⟨-, hid⟩, har, u, hu, hv, him, rfl, rfl⟩ := h
  obtain ⟨hargs, rfl⟩ := countArguments_eq_ok hu
  refine ⟨?_, rfl, rfl⟩
  obtain ⟨id, op, view, args, imm⟩ := n
  obtain ⟨hfv, hfa, hfi⟩ := hf
  have hbinary : op = .add ∨ op = .mul ∨ op = .max →
      NodeOk views seen { id := id, op := op, view := view, args := args, imm := imm } := by
    intro ho
    have hi : ¬ op.hasImm := by rcases ho with rfl | rfl | rfl <;> simp [Op.hasImm]
    have hl : op ≠ .load := by rcases ho with rfl | rfl | rfl <;> simp
    obtain rfl : view = none := by simpa [hl] using hfv
    obtain rfl : imm = none := by simpa [hi] using hfi
    obtain ⟨l, rfl⟩ := Option.isSome_iff_exists.mp (hfa.mpr hl)
    obtain ⟨x, y, rfl⟩ := List.length_eq_two.mp (by simpa [Node.arguments, Op.arity, hl, hi] using har)
    exact .binary hid ho (hargs x (by simp [Node.arguments])) (hargs y (by simp [Node.arguments]))
  have himmediate : op = .addImm ∨ op = .geImm →
      NodeOk views seen { id := id, op := op, view := view, args := args, imm := imm } := by
    intro ho
    have hi : op.hasImm := ho
    have hl : op ≠ .load := by rcases ho with rfl | rfl <;> simp
    obtain rfl : view = none := by simpa [hl] using hfv
    obtain ⟨m, rfl⟩ := Option.isSome_iff_exists.mp (hfi.mpr hi)
    obtain ⟨l, rfl⟩ := Option.isSome_iff_exists.mp (hfa.mpr hl)
    obtain ⟨x, rfl⟩ := List.length_eq_one_iff.mp
      (by simpa [Node.arguments, Op.arity, hl, hi] using har)
    have hm := him m (by simp)
    norm_num at hm
    exact .immediate hid ho (hargs x (by simp [Node.arguments])) hm.1 (by omega)
  cases op with
  | load =>
    obtain ⟨v, rfl⟩ := Option.isSome_iff_exists.mp (hfv.mpr rfl)
    obtain rfl : args = none := by simpa using hfa
    obtain rfl : imm = none := by simpa [Op.hasImm] using hfi
    exact .load hid (hv v rfl)
  | add => exact hbinary (by simp)
  | mul => exact hbinary (by simp)
  | max => exact hbinary (by simp)
  | addImm => exact himmediate (by simp)
  | geImm => exact himmediate (by simp)
  | yield => exact absurd rfl hy
  | maxI32 => simp [OPS] at hop
  | reluI32 => simp [OPS] at hop

/-- What the admission loop establishes about the whole node list. -/
theorem checkNodes_eq_ok {views : Dict String (List ℤ)} {nodes : List Node}
    {seen seen' : Finset String} {uses uses' : String → ℤ}
    (h : nodes.foldlM (checkNode views) (seen, uses) = .ok (seen', uses')) :
    SSAOk views seen nodes ∧ (∀ x, x ∈ seen' ↔ x ∈ seen ∨ x ∈ nodes.map Node.id) ∧
      ∀ x, uses' x = uses x + countUses nodes x := by
  induction nodes generalizing seen uses with
  | nil =>
    simp only [List.foldlM_nil, except_pure_eq_ok, Prod.mk.injEq] at h
    simp [SSAOk, h.1, h.2, countUses]
  | cons n ns ih =>
    rw [List.foldlM_cons, except_bind_eq_ok] at h
    obtain ⟨⟨seen₁, uses₁⟩, h1, h2⟩ := h
    obtain ⟨hn, rfl, rfl⟩ := checkNode_eq_ok h1
    obtain ⟨hs, hmem, hu⟩ := ih h2
    refine ⟨⟨hn, hs⟩, fun x => ?_, fun x => ?_⟩
    · rw [hmem, Finset.mem_insert, List.map_cons, List.mem_cons]
      tauto
    · rw [hu, countUses_cons]
      omega

/-- The allocator invariant: exactly the seen names with pending uses hold a register, registers
are disjoint, and no free register is held. -/
structure AllocInv (seen : Finset String) (pending : String → ℤ) (s : Allocation) : Prop where
  uses : ∀ x, s.uses x = pending x
  live : ∀ x, (s.live x).isSome ↔ x ∈ seen ∧ 0 < pending x
  lt : ∀ x r, s.live x = some r → r < 8
  inj : ∀ x y r, s.live x = some r → s.live y = some r → x = y
  freeLt : ∀ r ∈ s.free, r < 8
  freeNodup : s.free.Nodup
  disjoint : ∀ x r, s.live x = some r → r ∉ s.free

variable {views : Dict String (List ℤ)} {seen : Finset String} {pending : String → ℤ}
  {s t : Allocation} {x : String}

theorem drop_eq (hx : (s.live x).isSome) : ∃ r, s.live x = some r ∧
    s.drop x = .ok { s with live := Function.update s.live x none, free := s.free ++ [r] } := by
  obtain ⟨r, hr⟩ := Option.isSome_iff_exists.mp hx
  exact ⟨r, hr, by simp [Allocation.drop, Allocation.register, hr, bind, Except.bind, pure,
    Except.pure]⟩

/-- Giving back the register of a name whose last use has passed. -/
theorem AllocInv.drop {r : ℕ} (h : AllocInv seen pending s) (hr : s.live x = some r)
    {pending' : String → ℤ} (hx : pending' x = 0) (hy : ∀ y, y ≠ x → pending' y = pending y)
    {uses : String → ℤ} (hu : ∀ y, uses y = pending' y) {words : List ℕ} :
    AllocInv seen pending' { live := Function.update s.live x none, free := s.free ++ [r]
                             uses := uses, words := words } := by
  have hlive : ∀ y q, Function.update s.live x none y = some q → y ≠ x ∧ s.live y = some q := by
    intro y q hq
    by_cases hyx : y = x
    · simp [hyx] at hq
    · exact ⟨hyx, by simpa [Function.update_of_ne hyx] using hq⟩
  constructor
  · exact hu
  · intro y
    by_cases hyx : y = x
    · simp [hyx, hx]
    · simpa [Function.update_of_ne hyx, hy y hyx] using h.live y
  · exact fun y q hq => h.lt y q (hlive y q hq).2
  · exact fun y z q hq hq' => h.inj y z q (hlive y q hq).2 (hlive z q hq').2
  · intro q hq
    rcases List.mem_append.mp hq with hq | hq
    · exact h.freeLt q hq
    · obtain rfl : q = r := by simpa using hq
      exact h.lt x q hr
  · exact List.nodup_append.mpr ⟨h.freeNodup, by simp, by
      intro a ha b hb
      obtain rfl : b = r := by simpa using hb
      intro hab
      exact h.disjoint x b hr (hab ▸ ha)⟩
  · intro y q hq hmem
    obtain ⟨hyx, hyq⟩ := hlive y q hq
    rcases List.mem_append.mp hmem with hm | hm
    · exact h.disjoint y q hyq hm
    · obtain rfl : q = r := by simpa using hm
      exact hyx (h.inj y x q hyq hr)

/-- A consumed name keeps its register while uses remain and gives it back at the last one. -/
theorem AllocInv.consume (h : AllocInv seen pending s) (hx : x ∈ seen) (hp : 0 < pending x) :
    ∃ s', s.consume x = .ok s' ∧ s'.words = s.words ∧
      (∀ y r, s'.live y = some r → s.live y = some r) ∧
      AllocInv seen (Function.update pending x (pending x - 1)) s' := by
  have hu := h.uses x
  have huses : ∀ y, Function.update s.uses x (s.uses x - 1) y =
      Function.update pending x (pending x - 1) y := by
    intro y
    rw [hu, show s.uses = pending from funext h.uses]
  by_cases hz : s.uses x - 1 = 0
  · obtain ⟨r, hr, hdrop⟩ := drop_eq
      (s := { s with uses := Function.update s.uses x (s.uses x - 1) }) ((h.live x).mpr ⟨hx, hp⟩)
    have heq : s.consume x = _ := (if_pos (by simpa using hz)).trans hdrop
    refine ⟨_, heq, rfl, ?_, ?_⟩
    · intro y q hq
      by_cases hyx : y = x
      · simp [hyx] at hq
      · simpa [Function.update_of_ne hyx] using hq
    · exact h.drop hr (by rw [Function.update_self]; omega)
        (fun y hy => Function.update_of_ne hy _ _) huses
  · have heq : s.consume x = pure { s with uses := Function.update s.uses x (s.uses x - 1) } :=
      if_neg (by simpa using hz)
    refine ⟨_, heq, rfl, fun _ _ hq => hq, ?_⟩
    refine ⟨huses, fun y => ?_, h.lt, h.inj, h.freeLt, h.freeNodup, h.disjoint⟩
    rw [h.live y]
    by_cases hyx : y = x
    · subst hyx
      rw [Function.update_self]
      constructor <;> rintro ⟨h1, h2⟩ <;> exact ⟨h1, by omega⟩
    · rw [Function.update_of_ne hyx]

theorem AllocInv.consumeAll {l : List String} (h : AllocInv seen pending s)
    (hl : ∀ x ∈ l, x ∈ seen) (hp : ∀ x, (l.count x : ℤ) ≤ pending x) :
    ∃ s', l.foldlM Allocation.consume s = .ok s' ∧ s'.words = s.words ∧
      (∀ y r, s'.live y = some r → s.live y = some r) ∧
      AllocInv seen (fun x => pending x - l.count x) s' := by
  induction l generalizing s pending with
  | nil => exact ⟨s, rfl, rfl, fun _ _ h => h, by simpa using h⟩
  | cons a l ih =>
    have ha := hp a
    rw [List.count_cons_self] at ha
    obtain ⟨s₁, h1, hw1, hl1, hi1⟩ := h.consume (hl a (by simp)) (by push_cast at ha; omega)
    obtain ⟨s₂, h2, hw2, hl2, hi2⟩ := ih hi1 (fun y hy => hl y (by simp [hy])) (by
      intro y
      by_cases hya : y = a
      · subst hya
        simp only [Function.update_self]
        push_cast at ha
        omega
      · simpa [Function.update_of_ne hya, List.count_cons_of_ne (Ne.symm hya)] using hp y)
    refine ⟨s₂, by simp [h1, h2, bind, Except.bind], hw2.trans hw1,
      fun y r hr => hl1 y r (hl2 y r hr), ?_⟩
    convert hi2 using 1
    funext y
    by_cases hya : y = a
    · subst hya
      simp
      omega
    · simp [Function.update_of_ne hya, List.count_cons_of_ne (Ne.symm hya)]

/-- Taking the smallest free register for a new name. -/
theorem AllocInv.take {d : ℕ} {free words : List ℕ} {n : Node} (h : AllocInv seen pending s)
    (hp : 0 < pending n.id) (hperm : (d :: free).Perm s.free) :
    AllocInv (insert n.id seen) pending
      { live := Function.update s.live n.id (some d), free := free, uses := s.uses
        words := words } := by
  have hdisj : ∀ y r, s.live y = some r → r ≠ d ∧ r ∉ free := by
    intro y r hr
    have := h.disjoint y r hr
    rw [← hperm.mem_iff, List.mem_cons, not_or] at this
    exact this
  have hlive : ∀ y r, Function.update s.live n.id (some d) y = some r →
      (y = n.id ∧ r = d) ∨ (y ≠ n.id ∧ s.live y = some r) := by
    intro y r hr
    by_cases hy : y = n.id
    · subst hy
      simp at hr
      exact .inl ⟨rfl, hr.symm⟩
    · rw [Function.update_of_ne hy] at hr
      exact .inr ⟨hy, hr⟩
  have hnodup := hperm.nodup_iff.mpr h.freeNodup
  have hlt : ∀ r ∈ d :: free, r < 8 := fun r hr => h.freeLt r (hperm.mem_iff.mp hr)
  constructor
  · exact h.uses
  · intro y
    by_cases hy : y = n.id
    · subst hy
      simp [hp]
    · simpa [Function.update_of_ne hy, hy] using h.live y
  · intro y r hr
    rcases hlive y r hr with ⟨-, rfl⟩ | ⟨-, hr⟩
    · exact hlt r (by simp)
    · exact h.lt y r hr
  · intro y z r hy hz
    rcases hlive y r hy with ⟨rfl, rfl⟩ | ⟨-, hy⟩ <;> rcases hlive z _ hz with ⟨rfl, hr⟩ | ⟨-, hz⟩
    · rfl
    · exact absurd rfl (hdisj z _ hz).1
    · exact absurd hr (hdisj y _ hy).1
    · exact h.inj y z r hy hz
  · exact fun r hr => hlt r (by simp [hr])
  · exact (List.nodup_cons.mp hnodup).2
  · intro y r hr
    rcases hlive y r hr with ⟨-, rfl⟩ | ⟨-, hr⟩
    · exact (List.nodup_cons.mp hnodup).1
    · exact (hdisj y r hr).2

/-- One emitted instruction: the destination is new to every name that stays live. -/
theorem allocateNode_spec {n : Node} (h : AllocInv seen pending s) (hn : NodeOk views seen n)
    (hp : ∀ x, (n.arguments.count x : ℤ) ≤ pending x) (hok : allocateNode views s n = .ok t) :
    ∃ d regs, n.arguments.mapM s.register = .ok regs ∧ d < 8 ∧
      t.words = s.words ++ [encodeNode views n d regs] ∧
      AllocInv (insert n.id seen) (fun x => pending x - n.arguments.count x) t ∧
      ∀ x r, t.live x = some r → (x = n.id ∧ r = d) ∨ (x ≠ n.id ∧ r ≠ d ∧ s.live x = some r) := by
  unfold allocateNode at hok
  simp only [except_bind_eq_ok] at hok
  obtain ⟨regs, hregs, s₁, hs₁, hok⟩ := hok
  obtain ⟨s₂, hs₂, hw, hsub, hinv⟩ := h.consumeAll hn.arguments_mem hp
  obtain rfl : s₂ = s₁ := by simpa [hs₂] using hs₁
  have hcount : n.arguments.count n.id = 0 :=
    List.count_eq_zero.mpr fun hm => hn.fresh (hn.arguments_mem _ hm)
  have hpid : 0 ≤ pending n.id := by simpa [hcount] using hp n.id
  cases hfree : s₂.free.insertionSort (· ≤ ·) with
  | nil => simp [hfree] at hok
  | cons d free =>
    have hperm : (d :: free).Perm s₂.free := hfree ▸ List.perm_insertionSort _ _
    have hd : d < 8 := hinv.freeLt d (hperm.mem_iff.mp (by simp))
    have hdisj : ∀ y r, s₂.live y = some r → r ≠ d := by
      intro y r hr hrd
      exact hinv.disjoint y r hr (hperm.mem_iff.mp (by simp [hrd]))
    have hfresh : s₂.live n.id = none := by
      have := (hinv.live n.id).not.mpr fun hm => hn.fresh hm.1
      simpa using this
    simp only [hfree] at hok
    refine ⟨d, regs, hregs, hd, ?_⟩
    by_cases hz : s₂.uses n.id = 0
    · -- a node nobody uses frees its register at once
      rw [if_pos hz] at hok
      simp only [Allocation.drop, Allocation.register, Function.update_self, except_bind_eq_ok,
        except_pure_eq_ok, Except.ok.injEq, exists_eq_left'] at hok
      subst hok
      refine ⟨by rw [hw], ?_, ?_⟩
      · have hpz : pending n.id - n.arguments.count n.id = 0 := by rw [← hinv.uses]; exact hz
        constructor
        · exact hinv.uses
        · intro y
          by_cases hy : y = n.id
          · subst hy
            simp only [Function.update_self, Option.isSome_none, Bool.false_eq_true, false_iff]
            omega
          · simpa [Function.update_of_ne hy, hy] using hinv.live y
        · intro y r hr
          by_cases hy : y = n.id
          · simp [hy] at hr
          · exact hinv.lt y r (by simpa [Function.update_of_ne hy] using hr)
        · intro y z r hy hz
          by_cases hy' : y = n.id
          · simp [hy'] at hy
          by_cases hz' : z = n.id
          · simp [hz'] at hz
          exact hinv.inj y z r (by simpa [Function.update_of_ne hy'] using hy)
            (by simpa [Function.update_of_ne hz'] using hz)
        · intro r hr
          exact hinv.freeLt r (hperm.mem_iff.mp (by simpa [or_comm] using hr))
        · exact (List.perm_append_singleton d free).nodup_iff.mpr (hperm.nodup_iff.mpr hinv.freeNodup)
        · intro y r hr hm
          by_cases hy : y = n.id
          · simp [hy] at hr
          · exact hinv.disjoint y r (by simpa [Function.update_of_ne hy] using hr)
              (hperm.mem_iff.mp (by simpa [or_comm] using hm))
      · intro y r hr
        by_cases hy : y = n.id
        · simp [hy] at hr
        · have hr' : s₂.live y = some r := by simpa [Function.update_of_ne hy] using hr
          exact .inr ⟨hy, hdisj y r hr', hsub y r hr'⟩
    · rw [if_neg hz, except_pure_eq_ok] at hok
      subst hok
      refine ⟨by rw [hw], hinv.take ?_ hperm, ?_⟩
      · have := hinv.uses n.id
        rw [hcount] at this ⊢
        simp at this ⊢
        omega
      · intro y r hr
        by_cases hy : y = n.id
        · subst hy
          simp at hr
          exact .inl ⟨rfl, hr.symm⟩
        · have hr' : s₂.live y = some r := by simpa [Function.update_of_ne hy] using hr
          exact .inr ⟨hy, hdisj y r hr', hsub y r hr'⟩

end Raveil.Fold
