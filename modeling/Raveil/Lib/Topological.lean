import Mathlib.Data.Fintype.Order
import Mathlib.Data.List.Sort
import Mathlib.Data.List.Lex
import Mathlib.Data.Set.Finite.List
import Mathlib.Logic.Relation

/-! The least topological order of named elements, and the loop that takes the first ready one. -/
namespace Raveil.Lib

variable {α κ : Type} (name : α → κ) (deps : α → List κ)

/-- None of the dependencies is pending. -/
def Ready (pending : List α) (a : α) : Prop := ∀ x ∈ deps a, x ∉ pending.map name

/-- Nothing depends on itself or on what follows. -/
def Topological (order : List α) : Prop :=
  order.Pairwise (fun a b => name b ∉ deps a) ∧ ∀ a ∈ order, name a ∉ deps a

/-- `a` depends on `b`, and both are pending. -/
def DependsOn (pending : List α) (a b : α) : Prop := a ∈ pending ∧ b ∈ pending ∧ name b ∈ deps a

/-- Something depends on itself, directly or not. -/
def Cyclic (pending : List α) : Prop := ∃ a, Relation.TransGen (DependsOn name deps pending) a a

section Names

variable {name deps} {pending pending' order rest : List α} {a : α}

theorem ready_head (h : Topological name deps (a :: rest)) : Ready name deps (a :: rest) a := by
  intro x hx hmem
  obtain ⟨b, hb, rfl⟩ := List.mem_map.mp hmem
  rcases List.mem_cons.mp hb with rfl | hb
  · exact h.2 b List.mem_cons_self hx
  · exact (List.pairwise_cons.mp h.1).1 b hb hx

theorem Topological.sublist (h : Topological name deps order) (hs : rest.Sublist order) : Topological name deps rest :=
  ⟨h.1.sublist hs, fun a ha => h.2 a (hs.subset ha)⟩

theorem Topological.cons (hready : Ready name deps pending a) (hmem : a ∈ pending) (hsub : rest ⊆ pending)
    (h : Topological name deps rest) : Topological name deps (a :: rest) := by
  refine ⟨List.pairwise_cons.mpr ⟨?_, h.1⟩, ?_⟩
  · intro b hb hx
    exact hready (name b) hx (List.mem_map_of_mem (hsub hb))
  · intro b hb
    rcases List.mem_cons.mp hb with rfl | hb
    · intro hx
      exact hready (name b) hx (List.mem_map_of_mem hmem)
    · exact h.2 b hb

theorem eq_of_nodup_name (hnodup : (pending.map name).Nodup) {x y : α} (hx : x ∈ pending) (hy : y ∈ pending)
    (h : name x = name y) : x = y := List.inj_on_of_nodup_map hnodup hx hy h

/-- The element of a name is found by it. -/
theorem find_name [DecidableEq κ] (hnodup : (pending.map name).Nodup) {k : κ} :
    pending.find? (fun b => name b = k) = some a ↔ a ∈ pending ∧ name a = k := by
  constructor
  · intro h
    exact ⟨List.mem_of_find?_eq_some h, by simpa using List.find?_some h⟩
  · rintro ⟨hin, rfl⟩
    cases h : pending.find? fun b => name b = name a with
    | none =>
      have := List.find?_eq_none.mp h a hin
      simp at this
    | some b =>
      have hname : name b = name a := by simpa using List.find?_some h
      rw [eq_of_nodup_name hnodup (List.mem_of_find?_eq_some h) hin hname]

theorem find_name_perm [DecidableEq κ] (hnodup : (pending.map name).Nodup) (hp : pending'.Perm pending) (k : κ) :
    pending'.find? (fun b => name b = k) = pending.find? fun b => name b = k := by
  refine Option.ext fun a => ?_
  rw [find_name ((hp.map name).nodup_iff.mpr hnodup), find_name hnodup, hp.mem_iff]

theorem nodup_filter (hnodup : (pending.map name).Nodup) (p : α → Bool) : ((pending.filter p).map name).Nodup :=
  hnodup.sublist (List.filter_sublist.map name)

theorem Cyclic.mono (h : Cyclic name deps pending) (hs : pending ⊆ pending') : Cyclic name deps pending' := by
  obtain ⟨a, ha⟩ := h
  have hstep : DependsOn name deps pending ≤ DependsOn name deps pending' := fun x y hxy => ⟨hs hxy.1, hs hxy.2.1, hxy.2.2⟩
  exact ⟨a, Relation.TransGen.mono hstep a a ha⟩

/-- Without a cycle something is ready. -/
theorem exists_ready (hne : pending ≠ []) (h : ¬ Cyclic name deps pending) : ∃ a ∈ pending, Ready name deps pending a := by
  let later (x y : {a // a ∈ pending}) : Prop := Relation.TransGen (DependsOn name deps pending) y.1 x.1
  have hfinite : Finite {a // a ∈ pending} := (List.finite_toSet pending).to_subtype
  have htrans : IsTrans {a // a ∈ pending} later := ⟨fun _ _ _ hxy hyz => hyz.trans hxy⟩
  have hirrefl : Std.Irrefl later := ⟨fun x hx => h ⟨x.1, hx⟩⟩
  have hwf : WellFounded later := Finite.wellFounded_of_trans_of_irrefl later
  obtain ⟨first, hfirst⟩ := List.exists_mem_of_ne_nil pending hne
  obtain ⟨⟨a, ha⟩, -, hmin⟩ := hwf.has_min Set.univ ⟨⟨first, hfirst⟩, trivial⟩
  refine ⟨a, ha, fun x hx hin => ?_⟩
  obtain ⟨b, hb, rfl⟩ := List.mem_map.mp hin
  exact hmin ⟨b, hb⟩ trivial (Relation.TransGen.single ⟨ha, hb, hx⟩)

variable {β : Type} {name' : β → κ} {deps' : β → List κ} {f : α → β}

theorem ready_map (hname : ∀ a, name' (f a) = name a) {a : α} (hdeps : deps' (f a) = deps a) :
    Ready name' deps' (pending.map f) (f a) ↔ Ready name deps pending a := by
  have hnames : (pending.map f).map name' = pending.map name := by
    rw [List.map_map]
    exact List.map_congr_left fun a _ => hname a
  unfold Ready
  rw [hdeps, hnames]

end Names

variable [LinearOrder κ]

instance (pending : List α) (a : α) : Decidable (Ready name deps pending a) :=
  inferInstanceAs (Decidable (∀ x ∈ deps a, x ∉ pending.map name))

/-- The least topological order, by the names. -/
structure Least (pending order : List α) : Prop where
  perm : order.Perm pending
  topological : Topological name deps order
  least : ∀ other, other.Perm pending → Topological name deps other → order.map name ≤ other.map name

/-- The first of the ready elements by name. -/
def firstReady (pending : List α) : Option α :=
  ((pending.filter fun a => Ready name deps pending a).insertionSort fun a b => name a ≤ name b).head?

/-- Takes the first ready element as long as there is one; `none` when nothing is ready. -/
def scheduleReady : ℕ → List α → Option (List α)
  | _, [] => some []
  | 0, _ :: _ => none
  | n + 1, a :: pending => do
    let next ← firstReady name deps (a :: pending)
    let order ← scheduleReady n ((a :: pending).filter fun b => name b ≠ name next)
    pure (next :: order)

variable {name deps} {pending pending' order rest other : List α} {a next : α} {n : ℕ}

section Order

/-- Taking out the element of one name takes out that element only. -/
theorem perm_filter (hnodup : (pending.map name).Nodup) (hmem : next ∈ pending) :
    pending.Perm (next :: pending.filter fun b => name b ≠ name next) := by
  have hdistinct := List.Nodup.of_map _ hnodup
  have hout : next ∉ pending.filter fun b => name b ≠ name next := by simp
  rw [List.perm_ext_iff_of_nodup hdistinct (List.nodup_cons.mpr ⟨hout, hdistinct.filter _⟩)]
  intro b
  rw [List.mem_cons, List.mem_filter]
  constructor
  · intro hb
    by_cases heq : name b = name next
    · exact Or.inl (eq_of_nodup_name hnodup hb hmem heq)
    · exact Or.inr ⟨hb, by simpa using heq⟩
  · rintro (rfl | ⟨hb, -⟩)
    · exact hmem
    · exact hb

/-- The first ready element, then the least order of the others, is the least order. -/
theorem Least.cons (hnodup : (pending.map name).Nodup) (hmem : next ∈ pending) (hready : Ready name deps pending next)
    (hfirst : ∀ b ∈ pending, Ready name deps pending b → name next ≤ name b)
    (h : Least name deps (pending.filter fun b => name b ≠ name next) rest) : Least name deps pending (next :: rest) := by
  have hperm := perm_filter hnodup hmem
  refine ⟨(h.perm.cons next).trans hperm.symm, ?_, ?_⟩
  · exact h.topological.cons hready hmem fun b hb => (List.mem_filter.mp (h.perm.mem_iff.mp hb)).1
  · intro other hother htopological
    cases other with
    | nil =>
      rw [List.nil_perm.mp hother] at hmem
      cases hmem
    | cons c rest' =>
      have hc : c ∈ pending := hother.mem_iff.mp List.mem_cons_self
      have hcready : Ready name deps pending c := by
        intro x hx hin
        exact ready_head htopological x hx ((hother.map name).mem_iff.mpr hin)
      rw [List.map_cons, List.map_cons]
      rcases (hfirst c hc hcready).lt_or_eq with hlt | heq
      · exact le_of_lt (List.cons_lt_cons_iff.mpr (Or.inl hlt))
      · have hsame := eq_of_nodup_name hnodup hmem hc heq
        subst hsame
        have hrest := h.least rest' (hother.trans hperm).cons_inv (htopological.sublist (List.sublist_cons_self _ _))
        exact List.cons_le_cons _ hrest

theorem Least.unique (hnodup : (pending.map name).Nodup) (h : Least name deps pending order)
    (h' : Least name deps pending other) : order = other := by
  have hnames := le_antisymm (h.least other h'.perm h'.topological) (h'.least order h.perm h.topological)
  refine List.ext_getElem (h.perm.length_eq.trans h'.perm.length_eq.symm) fun i hi hi' => ?_
  apply eq_of_nodup_name hnodup (h.perm.mem_iff.mp (List.getElem_mem hi)) (h'.perm.mem_iff.mp (List.getElem_mem hi'))
  have := congrArg (fun l => l[i]?) hnames
  simpa [List.getElem?_eq_getElem hi, List.getElem?_eq_getElem hi'] using this

theorem Least.of_perm (h : Least name deps pending order) (hp : pending.Perm pending') : Least name deps pending' order :=
  ⟨h.perm.trans hp, h.topological, fun other hother => h.least other (hother.trans hp.symm)⟩

end Order

section Cycles

/-- Where an order has a name, what it depends on stands before. -/
theorem dependsOn_before (hnodup : (pending.map name).Nodup) (hperm : order.Perm pending)
    (htopological : Topological name deps order) {a b : α} (h : DependsOn name deps pending a b) :
    (order.map name).idxOf (name b) < (order.map name).idxOf (name a) := by
  obtain ⟨ha, hb, hdep⟩ := h
  obtain ⟨i, hi, hia⟩ := List.mem_iff_getElem.mp (hperm.mem_iff.mpr ha)
  obtain ⟨j, hj, hjb⟩ := List.mem_iff_getElem.mp (hperm.mem_iff.mpr hb)
  have hnames : (order.map name).Nodup := (hperm.map name).nodup_iff.mpr hnodup
  have hidx (k : ℕ) (hk : k < order.length) : (order.map name).idxOf (name order[k]) = k := by
    have := hnames.idxOf_getElem k (by simpa using hk)
    simpa using this
  rw [← hia, ← hjb, hidx i hi, hidx j hj]
  by_contra hle
  rcases Nat.lt_or_eq_of_le (Nat.le_of_not_lt hle) with hlt | heq
  · have := List.pairwise_iff_getElem.mp htopological.1 i j hi hj hlt
    rw [hia, hjb] at this
    exact this hdep
  · subst heq
    have := htopological.2 order[i] (List.getElem_mem hi)
    rw [hia] at this hjb
    rw [hjb] at this
    exact this (hjb ▸ hdep)

theorem not_cyclic_of_topological (hnodup : (pending.map name).Nodup) (hperm : order.Perm pending)
    (htopological : Topological name deps order) : ¬ Cyclic name deps pending := by
  rintro ⟨a, h⟩
  have hbefore : ∀ b, Relation.TransGen (DependsOn name deps pending) a b →
      (order.map name).idxOf (name b) < (order.map name).idxOf (name a) := by
    intro b hb
    induction hb with
    | single hone => exact dependsOn_before hnodup hperm htopological hone
    | tail _ hone ih => exact (dependsOn_before hnodup hperm htopological hone).trans ih
  exact lt_irrefl _ (hbefore a h)

end Cycles

section Schedule

theorem firstReady_eq_some (h : firstReady name deps pending = some next) :
    next ∈ pending ∧ Ready name deps pending next ∧ ∀ b ∈ pending, Ready name deps pending b → name next ≤ name b := by
  unfold firstReady at h
  have hsorted := List.pairwise_insertionSort (fun a b => name a ≤ name b)
    (pending.filter fun a => Ready name deps pending a)
  have hmem : ∀ b, b ∈ (pending.filter fun a => Ready name deps pending a).insertionSort (fun a b => name a ≤ name b) ↔
      b ∈ pending ∧ Ready name deps pending b := by
    intro b
    rw [List.mem_insertionSort, List.mem_filter, decide_eq_true_iff]
  cases hl : (pending.filter fun a => Ready name deps pending a).insertionSort fun a b => name a ≤ name b with
  | nil =>
    rw [hl] at h
    cases h
  | cons c l =>
    rw [hl] at h hsorted hmem
    cases h
    obtain ⟨hc, hready⟩ := (hmem next).mp List.mem_cons_self
    refine ⟨hc, hready, fun b hb hbready => ?_⟩
    rcases List.mem_cons.mp ((hmem b).mpr ⟨hb, hbready⟩) with rfl | hin
    · exact le_rfl
    · exact (List.pairwise_cons.mp hsorted).1 b hin

theorem firstReady_isSome (ha : a ∈ pending) (h : Ready name deps pending a) :
    ∃ next, firstReady name deps pending = some next := by
  unfold firstReady
  cases hl : (pending.filter fun a => Ready name deps pending a).insertionSort fun a b => name a ≤ name b with
  | nil =>
    have hmem : a ∈ (pending.filter fun a => Ready name deps pending a).insertionSort fun a b => name a ≤ name b := by
      rw [List.mem_insertionSort, List.mem_filter, decide_eq_true_iff]
      exact ⟨ha, h⟩
    rw [hl] at hmem
    cases hmem
  | cons next l => exact ⟨next, rfl⟩

theorem length_filter_lt (hmem : next ∈ pending) : (pending.filter fun b => name b ≠ name next).length < pending.length := by
  rw [List.length_filter_lt_length_iff_exists]
  exact ⟨next, hmem, by simp⟩

/-- Whatever the loop returns is the least topological order. -/
theorem scheduleReady_least (hnodup : (pending.map name).Nodup) (h : scheduleReady name deps n pending = some order) :
    Least name deps pending order := by
  induction n generalizing pending order with
  | zero =>
    cases pending with
    | nil =>
      cases h
      exact ⟨.nil, ⟨.nil, by simp⟩, fun other hother _ => by rw [List.perm_nil.mp hother]⟩
    | cons a pending => cases h
  | succ n ih =>
    cases pending with
    | nil =>
      cases h
      exact ⟨.nil, ⟨.nil, by simp⟩, fun other hother _ => by rw [List.perm_nil.mp hother]⟩
    | cons a pending =>
      obtain ⟨next, hnext, h⟩ := Option.bind_eq_some_iff.mp h
      obtain ⟨rest, hrest, h⟩ := Option.bind_eq_some_iff.mp h
      cases h
      obtain ⟨hmem, hready, hfirst⟩ := firstReady_eq_some hnext
      exact Least.cons hnodup hmem hready hfirst (ih (nodup_filter hnodup _) hrest)

/-- Without a cycle the loop returns an order. -/
theorem scheduleReady_total (hlen : pending.length ≤ n) (h : ¬ Cyclic name deps pending) :
    ∃ order, scheduleReady name deps n pending = some order := by
  induction n generalizing pending with
  | zero =>
    rw [List.eq_nil_of_length_eq_zero (Nat.le_zero.mp hlen)]
    exact ⟨[], rfl⟩
  | succ n ih =>
    cases pending with
    | nil => exact ⟨[], rfl⟩
    | cons a pending =>
      obtain ⟨b, hb, hready⟩ := exists_ready (List.cons_ne_nil a pending) h
      obtain ⟨next, hnext⟩ := firstReady_isSome hb hready
      have hmem := (firstReady_eq_some hnext).1
      have hshorter : ((a :: pending).filter fun b => name b ≠ name next).length < (a :: pending).length :=
        length_filter_lt hmem
      have hacyclic : ¬ Cyclic name deps ((a :: pending).filter fun b => name b ≠ name next) := fun hcyclic =>
        h (hcyclic.mono List.filter_sublist.subset)
      obtain ⟨rest, hrest⟩ := ih (by omega) hacyclic
      exact ⟨next :: rest, Option.bind_eq_some_iff.mpr ⟨next, hnext, Option.bind_eq_some_iff.mpr ⟨rest, hrest, rfl⟩⟩⟩

theorem scheduleReady_eq_some (hnodup : (pending.map name).Nodup) (hlen : pending.length ≤ n) :
    scheduleReady name deps n pending = some order ↔ Least name deps pending order := by
  constructor
  · exact scheduleReady_least hnodup
  · intro h
    obtain ⟨other, hother⟩ := scheduleReady_total hlen (not_cyclic_of_topological hnodup h.perm h.topological)
    rw [hother, (scheduleReady_least hnodup hother).unique hnodup h]

/-- The loop gets stuck exactly on a cycle. -/
theorem scheduleReady_eq_none (hnodup : (pending.map name).Nodup) (hlen : pending.length ≤ n) :
    scheduleReady name deps n pending = none ↔ Cyclic name deps pending := by
  constructor
  · intro h
    by_contra hacyclic
    obtain ⟨order, horder⟩ := scheduleReady_total hlen hacyclic
    rw [h] at horder
    cases horder
  · intro hcyclic
    cases h : scheduleReady name deps n pending with
    | none => rfl
    | some order =>
      have hleast := scheduleReady_least hnodup h
      exact absurd hcyclic (not_cyclic_of_topological hnodup hleast.perm hleast.topological)

/-- The order in which the elements are given is of no matter. -/
theorem scheduleReady_perm (hnodup : (pending.map name).Nodup) (hlen : pending.length ≤ n) (hp : pending.Perm pending') :
    scheduleReady name deps n pending' = scheduleReady name deps n pending := by
  have hnodup' := (hp.map name).nodup_iff.mp hnodup
  have hlen' : pending'.length ≤ n := hp.length_eq ▸ hlen
  cases h : scheduleReady name deps n pending with
  | none =>
    rw [scheduleReady_eq_none hnodup hlen] at h
    rw [scheduleReady_eq_none hnodup' hlen']
    exact h.mono hp.subset
  | some order =>
    rw [scheduleReady_eq_some hnodup hlen] at h
    rw [scheduleReady_eq_some hnodup' hlen']
    exact h.of_perm hp

end Schedule

section Rename

variable {β : Type} {name' : β → κ} {deps' : β → List κ} {f : α → β}

theorem firstReady_map (hname : ∀ a, name' (f a) = name a) (hdeps : ∀ a ∈ pending, deps' (f a) = deps a) :
    firstReady name' deps' (pending.map f) = (firstReady name deps pending).map f := by
  have hfilter : (pending.map f).filter (fun b => Ready name' deps' (pending.map f) b) =
      (pending.filter fun a => Ready name deps pending a).map f := by
    rw [List.filter_map]
    refine congrArg (List.map f) (List.filter_congr fun a ha => ?_)
    exact decide_eq_decide.mpr (ready_map hname (hdeps a ha))
  unfold firstReady
  rw [hfilter, ← List.map_insertionSort (r := fun a b => name a ≤ name b), List.head?_map]
  intro a _ b _
  rw [hname, hname]

/-- The schedule looks at the names and at what depends on what only. -/
theorem scheduleReady_map (hname : ∀ a, name' (f a) = name a) (hdeps : ∀ a ∈ pending, deps' (f a) = deps a) :
    scheduleReady name' deps' n (pending.map f) = (scheduleReady name deps n pending).map (List.map f) := by
  induction n generalizing pending with
  | zero => cases pending <;> rfl
  | succ n ih =>
    cases pending with
    | nil => rfl
    | cons a pending =>
      have hfirst : firstReady name' deps' ((a :: pending).map f) = (firstReady name deps (a :: pending)).map f :=
        firstReady_map hname hdeps
      rw [List.map_cons] at hfirst ⊢
      rw [scheduleReady, scheduleReady, hfirst]
      cases firstReady name deps (a :: pending) with
      | none => rfl
      | some next =>
        have hrest : (f a :: pending.map f).filter (fun b => name' b ≠ name' (f next)) =
            ((a :: pending).filter fun b => name b ≠ name next).map f := by
          rw [← List.map_cons, List.filter_map]
          refine congrArg (List.map f) (List.filter_congr fun b _ => ?_)
          change decide (name' (f b) ≠ name' (f next)) = decide (name b ≠ name next)
          rw [hname, hname]
        change (do
          let order ← scheduleReady name' deps' n ((f a :: pending.map f).filter fun b => name' b ≠ name' (f next))
          pure (f next :: order)) = Option.map (List.map f) (do
          let order ← scheduleReady name deps n ((a :: pending).filter fun b => name b ≠ name next)
          pure (next :: order))
        rw [hrest, ih fun b hb => hdeps b (List.mem_of_mem_filter hb)]
        cases scheduleReady name deps n ((a :: pending).filter fun b => name b ≠ name next) <;> rfl

end Rename

end Raveil.Lib
