import Mathlib.Data.List.Infix
import Mathlib.Data.List.GetD

/-! An on-line filter that holds back the last symbol of a pattern, with one counter for its state. -/
namespace Raveil.Lib.Matcher

variable {α : Type}

theorem append_singleton_suffix {l t : List α} {a x : α} : l ++ [a] <:+ t ++ [x] ↔ l <:+ t ∧ a = x := by
  rw [List.suffix_concat_iff]
  constructor
  · rintro (he | ⟨l', he, hl'⟩)
    · simp at he
    · obtain ⟨rfl, hx⟩ := List.append_inj' he rfl
      exact ⟨hl', List.singleton_inj.mp hx⟩
  · rintro ⟨hl, rfl⟩
    exact Or.inr ⟨l, rfl, hl⟩

variable [Inhabited α]

/-- The counter after one symbol, and whether the symbol passes. -/
def step [DecidableEq α] (w : List α) (matched : ℕ) (x : α) : ℕ × Bool :=
  if x = w.getD matched default then
    if matched + 1 = w.length then (0, false) else (matched + 1, true)
  else (if x = w.getD 0 default then 1 else 0, true)

/-- The counter and the symbols passed on so far. -/
def feed [DecidableEq α] (w : List α) (s : ℕ × List α) (x : α) : ℕ × List α :=
  let r := step w s.1 x
  (r.1, if r.2 then s.2 ++ [x] else s.2)

def run [DecidableEq α] (w : List α) (xs : List α) : ℕ × List α := xs.foldl (feed w) (0, [])

/-- The pattern has at least two symbols, and its first occurs nowhere else in it. -/
structure HeadOnce (w : List α) : Prop where
  two : 2 ≤ w.length
  once : ∀ k, k < w.length → w.getD k default = w.getD 0 default → k = 0

/-- The longest proper beginning of the pattern that ends the text. -/
structure Longest (w t : List α) (m : ℕ) : Prop where
  lt : m < w.length
  suffix : w.take m <:+ t
  max : ∀ k, k < w.length → w.take k <:+ t → k ≤ m

section Longest

variable {w t : List α} {m k : ℕ} {x : α}

theorem take_succ_suffix (hk : k < w.length) :
    w.take (k + 1) <:+ t ++ [x] ↔ w.take k <:+ t ∧ w.getD k default = x := by
  rw [List.take_add_one, List.getElem?_eq_getElem hk, Option.toList_some, List.getD_eq_getElem _ _ hk]
  exact append_singleton_suffix

theorem Longest.next (hl : Longest w t m) (hx : x = w.getD m default) (hm : m + 1 < w.length) :
    Longest w (t ++ [x]) (m + 1) := by
  refine ⟨hm, (take_succ_suffix hl.lt).mpr ⟨hl.suffix, hx.symm⟩, fun k hk hs => ?_⟩
  cases k with
  | zero => omega
  | succ k =>
    have := hl.max k (by omega) ((take_succ_suffix (by omega)).mp hs).1
    omega

variable (h : HeadOnce w)

include h

/-- Two beginnings of the pattern cannot end the same text. -/
theorem take_suffix_unique (hk : 0 < k) (hkm : k < m) (hm : m ≤ w.length) (hsk : w.take k <:+ t)
    (hsm : w.take m <:+ t) : False := by
  obtain ⟨l, hl⟩ := List.suffix_of_suffix_length_le hsk hsm (by rw [List.length_take, List.length_take]; omega)
  have hlen := congrArg List.length hl
  rw [List.length_append, List.length_take, List.length_take] at hlen
  have hget : (w.take m)[m - k]? = w[0]? := by
    rw [← hl, List.getElem?_append_right (by omega), show m - k - l.length = 0 by omega,
      List.getElem?_take_of_lt hk]
  rw [List.getElem?_take_of_lt (by omega)] at hget
  have hzero := h.once (m - k) (by omega) (by
    rw [List.getD_eq_getElem?_getD, List.getD_eq_getElem?_getD, hget])
  omega

/-- The whole pattern ends the text exactly when its last symbol comes next. -/
theorem Longest.full_iff (hl : Longest w t m) : w <:+ t ++ [x] ↔ m + 1 = w.length ∧ x = w.getD m default := by
  have htwo := h.two
  have hlast := take_succ_suffix (w := w) (t := t) (k := w.length - 1) (x := x) (by omega)
  rw [show w.length - 1 + 1 = w.length by omega, List.take_length] at hlast
  rw [hlast]
  constructor
  · rintro ⟨hs, hx⟩
    have := hl.max _ (by omega) hs
    have hm : m = w.length - 1 := by
      have := hl.lt
      omega
    rw [hm]
    exact ⟨by omega, hx.symm⟩
  · rintro ⟨hm, hx⟩
    rw [show w.length - 1 = m by omega]
    exact ⟨hl.suffix, hx.symm⟩

/-- Right after the whole pattern nothing of it is matched. -/
theorem longest_zero (hs : w <:+ t) : Longest w t 0 := by
  refine ⟨by have := h.two; omega, by simp, fun k hk hsk => ?_⟩
  by_contra hpos
  refine take_suffix_unique h (by omega) hk le_rfl hsk ?_
  rwa [List.take_length]

theorem Longest.mismatch [DecidableEq α] (hl : Longest w t m) (hx : x ≠ w.getD m default) :
    Longest w (t ++ [x]) (if x = w.getD 0 default then 1 else 0) := by
  have htwo := h.two
  refine ⟨by split <;> omega, ?_, fun k hk hs => ?_⟩
  · split
    · rename_i hx0
      exact (take_succ_suffix (by omega)).mpr ⟨by simp, hx0.symm⟩
    · simp
  · cases k with
    | zero => omega
    | succ k =>
      obtain ⟨hsk, hk0⟩ := (take_succ_suffix (by omega)).mp hs
      have hle := hl.max k (by omega) hsk
      have hne : k ≠ m := by
        rintro rfl
        exact hx hk0.symm
      have hzero : k = 0 := by
        by_contra hpos
        exact take_suffix_unique h (by omega) (by omega) hl.lt.le hsk hl.suffix
      subst hzero
      rw [if_pos hk0.symm]

end Longest

section Run

/-- The filter after `xs` passed `es` on: it tracks what it passed on, except right after it held
back the last symbol of the pattern. -/
structure Tracks (w xs : List α) (s : ℕ × List α) : Prop where
  read : Longest w xs s.1
  passed : ¬ w <:+ xs → Longest w s.2 s.1
  held : w <:+ xs → s.1 = 0 ∧ Longest w s.2 (w.length - 1)
  found : w <:+: s.2 ↔ w ++ [w.getD (w.length - 1) default] <:+: xs

variable {w xs : List α} {s : ℕ × List α}

theorem tracks_nil (h : HeadOnce w) : Tracks w [] (0, []) := by
  have htwo := h.two
  have hnil : ¬ w <:+: [] := by
    intro hc
    have := hc.length_le
    rw [List.length_nil] at this
    omega
  have hlong : Longest w [] 0 := by
    refine ⟨by omega, by simp, fun k hk hs => ?_⟩
    have := hs.length_le
    rw [List.length_take, List.length_nil] at this
    omega
  refine ⟨hlong, fun _ => hlong, fun hc => absurd hc.isInfix hnil, ?_⟩
  exact ⟨fun hc => absurd hc hnil, fun hc => absurd ((List.prefix_append _ _).isInfix.trans hc) hnil⟩

variable [DecidableEq α]

/-- A symbol that passes while the filter tracks what it passed on. -/
theorem Tracks.pass (h : HeadOnce w) (ht : Tracks w xs s) (hn : ¬ w <:+ xs) {x : α} {m : ℕ}
    (hstep : step w s.1 x = (m, true)) (hread : Longest w (xs ++ [x]) m) (hpassed : Longest w (s.2 ++ [x]) m)
    (hx : ¬ (s.1 + 1 = w.length ∧ x = w.getD s.1 default)) : Tracks w (xs ++ [x]) (feed w s x) := by
  have hfeed : feed w s x = (m, s.2 ++ [x]) := by simp [feed, hstep]
  have hfull : ¬ w <:+ xs ++ [x] := fun hc => hx ((ht.read.full_iff h).mp hc)
  rw [hfeed]
  refine ⟨hread, fun _ => hpassed, fun hc => absurd hc hfull, ?_⟩
  dsimp only
  rw [List.infix_concat_iff, List.infix_concat_iff, append_singleton_suffix, ht.found]
  have hes : ¬ w <:+ s.2 ++ [x] := fun hc => hx (((ht.passed hn).full_iff h).mp hc)
  simp [hes, hn]

theorem Tracks.feed (h : HeadOnce w) (ht : Tracks w xs s) (x : α) :
    Tracks w (xs ++ [x]) (Matcher.feed w s x) := by
  have htwo := h.two
  by_cases hheld : w <:+ xs
  · obtain ⟨hzero, hlong⟩ := ht.held hheld
    have hread := ht.read
    have hfull : ¬ w <:+ xs ++ [x] := by
      rw [hread.full_iff h, hzero]
      omega
    have hstep : step w s.1 x = (if x = w.getD 0 default then 1 else 0, true) := by
      rw [hzero, step]
      split
      · rw [if_neg (by omega)]
      · rfl
    have hfeed : Matcher.feed w s x = (if x = w.getD 0 default then 1 else 0, s.2 ++ [x]) := by
      simp [Matcher.feed, hstep]
    have hnext : Longest w (xs ++ [x]) (if x = w.getD 0 default then 1 else 0) := by
      rw [hzero] at hread
      by_cases hx : x = w.getD 0 default
      · rw [if_pos hx]
        exact hread.next hx (by omega)
      · exact hread.mismatch h hx
    rw [hfeed]
    refine ⟨hnext, fun _ => ?_, fun hc => absurd hc hfull, ?_⟩
    · by_cases hlast : x = w.getD (w.length - 1) default
      · have hx0 : x ≠ w.getD 0 default := by
          intro hx0
          have := h.once (w.length - 1) (by omega) (hlast.symm.trans hx0)
          omega
        dsimp only
        rw [if_neg hx0]
        exact longest_zero h ((hlong.full_iff h).mpr ⟨by omega, hlast⟩)
      · exact hlong.mismatch h hlast
    · dsimp only
      rw [List.infix_concat_iff, List.infix_concat_iff, append_singleton_suffix, ht.found, hlong.full_iff h]
      have : w.length - 1 + 1 = w.length := by omega
      simp only [this, true_and, hheld]
      rw [eq_comm (a := x)]
  · have hpassed := ht.passed hheld
    by_cases hx : x = w.getD s.1 default
    · by_cases hm : s.1 + 1 = w.length
      · have hfeed : Matcher.feed w s x = (0, s.2) := by
          simp [Matcher.feed, step, hx, hm]
        have hfull : w <:+ xs ++ [x] := (ht.read.full_iff h).mpr ⟨hm, hx⟩
        rw [hfeed]
        refine ⟨longest_zero h hfull, fun hc => absurd hfull hc, fun _ => ⟨rfl, ?_⟩, ?_⟩
        · rw [show w.length - 1 = s.1 by omega]
          exact hpassed
        · rw [List.infix_concat_iff, append_singleton_suffix, ht.found]
          simp [hheld]
      · have hlt : s.1 + 1 < w.length := by
          have := ht.read.lt
          omega
        refine ht.pass h hheld (m := s.1 + 1) ?_ (ht.read.next hx hlt) (hpassed.next hx hlt) (by omega)
        rw [step, if_pos hx, if_neg hm]
    · refine ht.pass h hheld ?_ (ht.read.mismatch h hx) (hpassed.mismatch h hx) (fun hc => hx hc.2)
      rw [step, if_neg hx]

theorem tracks_run (h : HeadOnce w) (xs : List α) : Tracks w xs (run w xs) := by
  induction xs using List.reverseRecOn with
  | nil => exact tracks_nil h
  | append_singleton xs x ih =>
    rw [run, List.foldl_append, List.foldl_cons, List.foldl_nil]
    exact ih.feed h x

/-- The filter lets the pattern through exactly when the symbol it held back is offered again. -/
theorem infix_run_iff (h : HeadOnce w) (xs : List α) :
    w <:+: (run w xs).2 ↔ w ++ [w.getD (w.length - 1) default] <:+: xs :=
  (tracks_run h xs).found

end Run

end Raveil.Lib.Matcher
