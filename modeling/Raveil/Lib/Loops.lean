import Mathlib.Data.List.Basic
import Mathlib.Data.List.Forall2
import Mathlib.Data.List.Range
import Mathlib.Data.Nat.Notation
import Mathlib.Tactic.Common

/-! Loops over ranges and fallible checks, as rules that introduce and eliminate one iteration; counted loops of C code
that may fault. -/
namespace Raveil.Lib

variable {α β σ ε : Type}

/-- A guard that raises its message when the condition fails. -/
def require (p : Prop) [Decidable p] (message : ε) : Except ε Unit :=
  if p then .ok () else .error message

@[simp] theorem require_eq_ok {p : Prop} [Decidable p] {message : ε} {u : Unit} :
    require p message = .ok u ↔ p := by
  unfold require
  split <;> simp_all

theorem require_of {p : Prop} [Decidable p] {message : ε} (h : p) :
    require p message = .ok () := by
  simp [require, h]

@[simp] theorem except_bind_eq_ok {x : Except ε α} {f : α → Except ε β} {b : β} :
    (x >>= f) = .ok b ↔ ∃ a, x = .ok a ∧ f a = .ok b := by
  cases x <;> simp [bind, Except.bind]

@[simp] theorem except_pure_eq_ok {a b : α} :
    (pure a : Except ε α) = .ok b ↔ a = b := by
  simp [pure, Except.pure]

/-- A check followed by more code succeeds iff both do. -/
theorem check_then_eq_ok {x : Except ε Unit} {f : Unit → Except ε α} {b : α} :
    (x >>= f) = .ok b ↔ x = .ok () ∧ f () = .ok b := by
  rw [except_bind_eq_ok]
  exact ⟨fun ⟨_, hx, hf⟩ => ⟨hx, hf⟩, fun ⟨hx, hf⟩ => ⟨(), hx, hf⟩⟩

theorem require_then_eq_ok {p : Prop} [Decidable p] {message : ε} {f : Unit → Except ε α} {b : α} :
    (require p message >>= f) = .ok b ↔ p ∧ f () = .ok b := by
  rw [check_then_eq_ok, require_eq_ok]

theorem except_map_eq_ok {x : Except ε α} {f : α → β} {b : β} :
    (f <$> x) = .ok b ↔ ∃ a, x = .ok a ∧ f a = b := by
  cases x <;> simp [Functor.map, Except.map]

theorem forM_eq_ok {f : α → Except ε Unit} {l : List α} {u : Unit} :
    l.forM f = .ok u ↔ ∀ x ∈ l, f x = .ok u := by
  induction l with
  | nil => simp
  | cons a l ih =>
    rw [show (a :: l).forM f = f a >>= fun _ => l.forM f from rfl, except_bind_eq_ok]
    constructor
    · rintro ⟨_, ha, hl⟩ x hx
      rcases List.mem_cons.mp hx with rfl | hx
      · exact ha
      · exact ih.mp hl x hx
    · intro h
      exact ⟨u, h a (by simp), ih.mpr fun x hx => h x (by simp [hx])⟩

/-- A loop that collects one result for each element. -/
theorem mapM_eq_ok {f : α → Except ε β} {g : ℕ → β} {l : List α}
    (h : ∀ i a, l[i]? = some a → f a = .ok (g i)) : l.mapM f = .ok ((List.range l.length).map g) := by
  induction l generalizing g with
  | nil => rfl
  | cons a l ih =>
    have hrest := ih (g := fun i => g (i + 1)) fun i b hb => h (i + 1) b (by simpa using hb)
    rw [List.mapM_cons, h 0 a rfl, hrest, List.length_cons, List.range_succ_eq_map, List.map_cons, List.map_map]
    rfl

theorem mapM_eq_ok_iff {f : α → Except ε β} {l : List α} {r : List β} :
    l.mapM f = .ok r ↔ List.Forall₂ (fun a b => f a = .ok b) l r := by
  induction l generalizing r with
  | nil => rw [List.mapM_nil, except_pure_eq_ok, List.forall₂_nil_left_iff, eq_comm]
  | cons a l ih =>
    rw [List.mapM_cons]
    simp only [except_bind_eq_ok, except_pure_eq_ok, ih, List.forall₂_cons_left_iff]
    constructor
    · rintro ⟨b, hb, bs, hbs, rfl⟩
      exact ⟨b, bs, hb, hbs, rfl⟩
    · rintro ⟨b, bs, hb, hbs, rfl⟩
      exact ⟨b, hb, bs, hbs, rfl⟩

theorem mapM_eq_map {f : α → Except ε β} {g : α → β} {l : List α} (h : ∀ a ∈ l, f a = .ok (g a)) :
    l.mapM f = .ok (l.map g) := by
  rw [mapM_eq_ok_iff, List.forall₂_map_right_iff, List.forall₂_same]
  exact h

/-- Reading back what was written. -/
theorem mapM_encode {encode : α → β} {read : β → Except ε α} {l : List α} (h : ∀ a ∈ l, read (encode a) = .ok a) :
    (l.map encode).mapM read = .ok l := by
  rw [mapM_eq_ok_iff, List.forall₂_map_left_iff, List.forall₂_same]
  exact h

/-- A loop whose step always returns collects one related result for each element. -/
theorem mapM_total {R : α → β → Prop} {f : α → Except ε β} {l : List α} (h : ∀ a ∈ l, ∃ b, f a = .ok b ∧ R a b) :
    ∃ r, l.mapM f = .ok r ∧ List.Forall₂ R l r := by
  induction l with
  | nil => exact ⟨[], rfl, .nil⟩
  | cons a l ih =>
    obtain ⟨b, hb, hr⟩ := h a List.mem_cons_self
    obtain ⟨r, hl, hall⟩ := ih fun a' ha' => h a' (List.mem_cons_of_mem a ha')
    refine ⟨b :: r, ?_, .cons hr hall⟩
    rw [List.mapM_cons, hb, hl]
    rfl

/-- Related lists give related results. -/
theorem mapM_forall₂ {α' β' : Type} {R : α → α' → Prop} {S : β → β' → Prop} {f : α → Except ε β} {g : α' → Except ε β'}
    {l : List α} {l' : List α'} {r : List β} (hl : List.Forall₂ R l l')
    (h : ∀ a a', R a a' → ∀ b, f a = .ok b → ∃ b', g a' = .ok b' ∧ S b b') (hr : l.mapM f = .ok r) :
    ∃ r', l'.mapM g = .ok r' ∧ List.Forall₂ S r r' := by
  rw [mapM_eq_ok_iff] at hr
  induction hl generalizing r with
  | nil =>
    cases hr
    exact ⟨[], rfl, .nil⟩
  | cons ha _ ih =>
    cases hr with
    | cons hb hr =>
      obtain ⟨b', hb', hs⟩ := h _ _ ha _ hb
      obtain ⟨r', hr', hall⟩ := ih hr
      rw [mapM_eq_ok_iff] at hr'
      exact ⟨b' :: r', mapM_eq_ok_iff.mpr (.cons hb' hr'), .cons hs hall⟩

/-- A loop that collects results has one for every element. -/
theorem exists_of_mapM_eq_ok {f : α → Except ε β} {l : List α} {r : List β} (h : l.mapM f = .ok r) {a : α}
    (ha : a ∈ l) : ∃ b ∈ r, f a = .ok b := by
  rw [mapM_eq_ok_iff] at h
  induction h with
  | nil => cases ha
  | cons hab _ ih =>
    rcases List.mem_cons.mp ha with rfl | ha
    · exact ⟨_, by simp, hab⟩
    · obtain ⟨b, hb, hfb⟩ := ih ha
      exact ⟨b, by simp [hb], hfb⟩

theorem exists_of_mem_mapM {f : α → Except ε β} {l : List α} {r : List β} (h : l.mapM f = .ok r) {b : β}
    (hb : b ∈ r) : ∃ a ∈ l, f a = .ok b := by
  rw [mapM_eq_ok_iff] at h
  induction h with
  | nil => cases hb
  | cons hab _ ih =>
    rcases List.mem_cons.mp hb with rfl | hb
    · exact ⟨_, by simp, hab⟩
    · obtain ⟨a, ha, hfa⟩ := ih hb
      exact ⟨a, by simp [ha], hfa⟩

/-- A table filled up to `k` is filled up to `k + 1` by one assignment. -/
theorem update_below {α : Type} (f : ℕ → α) (z : α) (k : ℕ) :
    Function.update (fun i => if i < k then f i else z) k (f k) = fun i => if i < k + 1 then f i else z := by
  funext i
  by_cases hi : i = k
  · subst hi
    simp
  · rw [Function.update_of_ne hi]
    by_cases hlt : i < k
    · rw [if_pos hlt, if_pos (by omega)]
    · rw [if_neg hlt, if_neg (by omega)]

/-- A loop that never fails runs through the states it is told to. -/
theorem foldlM_range_pure {m : Type → Type} [Monad m] [LawfulMonad m]
    {f : σ → ℕ → m σ} {g : ℕ → σ} {n : ℕ}
    (h : ∀ k, k < n → f (g k) k = pure (g (k + 1))) :
    (List.range n).foldlM f (g 0) = pure (g n) := by
  induction n with
  | zero => simp
  | succ n ih =>
    rw [List.range_succ, List.foldlM_append, ih (fun k hk => h k (by omega)), pure_bind]
    simp [h n (by omega)]

theorem foldlM_range_eq_some {f : σ → ℕ → Option σ} {s t : σ} {n : ℕ} :
    (List.range n).foldlM f s = some t ↔
      ∃ g : ℕ → σ, g 0 = s ∧ g n = t ∧ ∀ k, k < n → f (g k) k = some (g (k + 1)) := by
  constructor
  · intro h
    induction n generalizing t with
    | zero => exact ⟨fun _ => s, rfl, by simpa using h, by simp⟩
    | succ n ih =>
      rw [List.range_succ, List.foldlM_append] at h
      obtain ⟨u, hu, ht⟩ := Option.bind_eq_some_iff.mp h
      obtain ⟨g, h0, hn, hg⟩ := ih hu
      refine ⟨fun k => if k ≤ n then g k else t, by simp [h0], by simp, ?_⟩
      intro k hk
      by_cases hkn : k < n
      · simp [hg k hkn, hkn.le, Nat.succ_le_of_lt hkn]
      · obtain rfl : k = n := by omega
        simpa [hn, show ¬ k + 1 ≤ k by omega] using ht
  · rintro ⟨g, rfl, rfl, hg⟩
    exact foldlM_range_pure hg

theorem foldlM_range_eq_ok {f : σ → ℕ → Except ε σ} {s t : σ} {n : ℕ} :
    (List.range n).foldlM f s = .ok t ↔
      ∃ g : ℕ → σ, g 0 = s ∧ g n = t ∧ ∀ k, k < n → f (g k) k = .ok (g (k + 1)) := by
  constructor
  · intro h
    induction n generalizing t with
    | zero => exact ⟨fun _ => s, rfl, by simpa using h, by simp⟩
    | succ n ih =>
      rw [List.range_succ, List.foldlM_append] at h
      obtain ⟨u, hu, ht⟩ := except_bind_eq_ok.mp h
      obtain ⟨g, h0, hn, hg⟩ := ih hu
      refine ⟨fun k => if k ≤ n then g k else t, by simp [h0], by simp, ?_⟩
      intro k hk
      by_cases hkn : k < n
      · simp [hg k hkn, hkn.le, Nat.succ_le_of_lt hkn]
      · obtain rfl : k = n := by omega
        simpa [hn, show ¬ k + 1 ≤ k by omega] using ht
  · rintro ⟨g, rfl, rfl, hg⟩
    exact foldlM_range_pure hg

/-- A loop over an enumerated list, as the sequence of its states. -/
theorem foldlM_zipIdx_eq_ok {f : σ → α × ℕ → Except ε σ} {s t : σ} {l : List α} :
    l.zipIdx.foldlM f s = .ok t ↔
      ∃ g : ℕ → σ, g 0 = s ∧ g l.length = t ∧ ∀ k a, l[k]? = some a → f (g k) (a, k) = .ok (g (k + 1)) := by
  have hindex : ∀ m, (l.take m).zipIdx.foldlM f s =
      (List.range m).foldlM (fun s k => (l[k]?).elim (.ok s) fun a => f s (a, k)) s := by
    intro m
    induction m with
    | zero => rfl
    | succ m ih =>
      rw [List.range_succ, List.foldlM_append, ← ih, List.take_add_one, List.zipIdx_append, List.foldlM_append]
      congr 1
      funext u
      by_cases hm : m < l.length
      · simp [List.getElem?_eq_getElem hm, Nat.min_eq_left hm.le]
      · have hnone : l[m]? = none := List.getElem?_eq_none (by omega)
        simp [hnone]
  have hall := hindex l.length
  rw [List.take_length] at hall
  rw [hall, foldlM_range_eq_ok]
  refine exists_congr fun g => and_congr_right fun _ => and_congr_right fun _ => ?_
  constructor
  · intro h k a hk
    have := h k (List.getElem?_eq_some_iff.mp hk).1
    rwa [hk] at this
  · intro h k hk
    rw [List.getElem?_eq_getElem hk]
    exact h k _ (List.getElem?_eq_getElem hk)

/-- Two loops whose bodies agree on the states they reach end in the same state. -/
theorem foldlM_agree {f g : σ → α → Except ε σ} {P : σ → Prop} {l : List α} {s : σ} (hs : P s)
    (h : ∀ s, P s → ∀ a ∈ l, ∃ t, f s a = .ok t ∧ g s a = .ok t ∧ P t) :
    ∃ t, l.foldlM f s = .ok t ∧ l.foldlM g s = .ok t ∧ P t := by
  induction l generalizing s with
  | nil => exact ⟨s, rfl, rfl, hs⟩
  | cons a l ih =>
    obtain ⟨t, hf, hg, ht⟩ := h s hs a (by simp)
    obtain ⟨u, h1, h2, hu⟩ := ih ht fun s hs b hb => h s hs b (by simp [hb])
    refine ⟨u, ?_, ?_, hu⟩
    · rw [List.foldlM_cons, hf]
      exact h1
    · rw [List.foldlM_cons, hg]
      exact h2

theorem foldlM_total {f : σ → α → Except ε σ} {P : σ → Prop} {l : List α} {s : σ} (hs : P s)
    (h : ∀ s, P s → ∀ a ∈ l, ∃ t, f s a = .ok t ∧ P t) : ∃ t, l.foldlM f s = .ok t ∧ P t := by
  obtain ⟨t, hf, -, ht⟩ := foldlM_agree hs fun s hs a ha => by
    obtain ⟨t, hf, ht⟩ := h s hs a ha
    exact ⟨t, hf, hf, ht⟩
  exact ⟨t, hf, ht⟩

/-- A checking loop succeeds iff each check along its only possible states does. -/
theorem foldlM_range_ok_iff {f : σ → ℕ → Except ε σ} {g : ℕ → σ} {P : ℕ → Prop} {n : ℕ}
    (h : ∀ k, k < n → ∀ t, f (g k) k = .ok t ↔ P k ∧ t = g (k + 1)) {t : σ} :
    (List.range n).foldlM f (g 0) = .ok t ↔ (∀ k, k < n → P k) ∧ t = g n := by
  rw [foldlM_range_eq_ok]
  constructor
  · rintro ⟨g', h0, hn, hg⟩
    have hgg : ∀ k, k ≤ n → g' k = g k := by
      intro k hk
      induction k with
      | zero => exact h0
      | succ k ih =>
        have hs := hg k hk
        rw [ih (by omega)] at hs
        exact ((h k hk _).mp hs).2
    refine ⟨fun k hk => ?_, by rw [← hn, hgg n le_rfl]⟩
    have hs := hg k hk
    rw [hgg k hk.le] at hs
    exact ((h k hk _).mp hs).1
  · rintro ⟨hP, rfl⟩
    exact ⟨g, rfl, rfl, fun k hk => (h k hk _).mpr ⟨hP k hk, rfl⟩⟩

theorem foldlM_range_some_iff {f : σ → ℕ → Option σ} {g : ℕ → σ} {P : ℕ → Prop} {n : ℕ}
    (h : ∀ k, k < n → ∀ t, f (g k) k = some t ↔ P k ∧ t = g (k + 1)) {t : σ} :
    (List.range n).foldlM f (g 0) = some t ↔ (∀ k, k < n → P k) ∧ t = g n := by
  rw [foldlM_range_eq_some]
  constructor
  · rintro ⟨g', h0, hn, hg⟩
    have hgg : ∀ k, k ≤ n → g' k = g k := by
      intro k hk
      induction k with
      | zero => exact h0
      | succ k ih =>
        have hs := hg k hk
        rw [ih (by omega)] at hs
        exact ((h k hk _).mp hs).2
    refine ⟨fun k hk => ?_, by rw [← hn, hgg n le_rfl]⟩
    have hs := hg k hk
    rw [hgg k hk.le] at hs
    exact ((h k hk _).mp hs).1
  · rintro ⟨hP, rfl⟩
    exact ⟨g, rfl, rfl, fun k hk => (h k hk _).mpr ⟨hP k hk, rfl⟩⟩

section Counted

variable {σ : Type}

/-- `for(x=lo;x<hi;x+=step)`, for at most `fuel` turns; `none` is a fault. -/
def countedFrom (step hi : ℕ) (body : ℕ → σ → Option σ) : ℕ → ℕ → σ → Option σ
  | 0, _, _ => none
  | fuel + 1, x, s =>
    if x < hi then
      match body x s with
      | some s => countedFrom step hi body fuel (x + step) s
      | none => none
    else some s

/-- `for(x=lo;x<hi;x+=step)`; a loop that ends takes at most as many turns as its counter has values. -/
def counted (lo hi step : ℕ) (body : ℕ → σ → Option σ) (s : σ) : Option σ :=
  countedFrom step hi body (hi + 1) lo s

variable {lo hi step : ℕ} {body : ℕ → σ → Option σ} {s : σ}

/-- What holds at the first value and is carried from each value to the next, up to the bound, holds at the
bound. -/
theorem counted_spec (I : ℕ → σ → Prop) {Q : σ → Prop} (hstep : 0 < step) (hlo : lo ≤ hi) (hstart : I lo s)
    (hbody : ∀ x s, lo ≤ x → x < hi → I x s → ∃ t, body x s = some t ∧ I (min (x + step) hi) t)
    (hend : ∀ t, I hi t → Q t) : ∃ t, counted lo hi step body s = some t ∧ Q t := by
  have hfrom : ∀ fuel x s, lo ≤ x → hi - x < fuel → I (min x hi) s →
      ∃ t, countedFrom step hi body fuel x s = some t ∧ Q t := by
    intro fuel
    induction fuel with
    | zero =>
      intro x s hx hfuel
      omega
    | succ fuel ih =>
      intro x s hx hfuel hs
      rw [countedFrom]
      by_cases hlt : x < hi
      · rw [Nat.min_eq_left (by omega)] at hs
        obtain ⟨t, ht, hI⟩ := hbody x s hx hlt hs
        rw [if_pos hlt, ht]
        exact ih (x + step) t (by omega) (by omega) hI
      · rw [Nat.min_eq_right (by omega)] at hs
        exact ⟨s, if_neg hlt, hend s hs⟩
  exact hfrom (hi + 1) lo s (Nat.le_refl lo) (by omega) (by rwa [Nat.min_eq_left hlo])

/-- The rule for a loop that counts by one. -/
theorem counted_one_spec (I : ℕ → σ → Prop) {Q : σ → Prop} (hlo : lo ≤ hi) (hstart : I lo s)
    (hbody : ∀ x s, lo ≤ x → x < hi → I x s → ∃ t, body x s = some t ∧ I (x + 1) t)
    (hend : ∀ t, I hi t → Q t) : ∃ t, counted lo hi 1 body s = some t ∧ Q t := by
  refine counted_spec I Nat.one_pos hlo hstart (fun x s hx hlt hI => ?_) hend
  obtain ⟨t, ht, hIt⟩ := hbody x s hx hlt hI
  exact ⟨t, ht, by rwa [Nat.min_eq_left (by omega)]⟩

end Counted

end Raveil.Lib
