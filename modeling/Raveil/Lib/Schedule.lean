import Mathlib.Data.Finset.Lattice.Basic
import Mathlib.Data.Finset.Insert
import Mathlib.Data.Finset.Dedup
import Mathlib.Data.List.Nodup
import Mathlib.Data.List.Perm.Basic

/-! Stable topological scheduling of entries that name their dependencies by key. -/
namespace Raveil.Lib

variable {α ι : Type} [DecidableEq ι] (key : α → ι)

/-- The pending entries once `a` is scheduled. -/
def discard (a : α) (pending : List (α × List ι)) : List (α × List ι) :=
  (pending.filter fun e => key e.1 ≠ key a).map fun e => (e.1, e.2.filter (· ≠ key a))

/-- The first entry without open dependencies goes next; `none` is a cycle. -/
def schedule : ℕ → List (α × List ι) → Option (List α)
  | _, [] => some []
  | 0, _ :: _ => none
  | n + 1, e :: pending =>
    match (e :: pending).find? fun e => e.2.isEmpty with
    | none => none
    | some e' => (schedule n (discard key e'.1 (e :: pending))).map (e'.1 :: ·)

/-- Every entry is new and stands after its dependencies. -/
def Ordered (deps : α → List ι) : Finset ι → List α → Prop
  | _, [] => True
  | seen, a :: l => key a ∉ seen ∧ (∀ x ∈ deps a, x ∈ seen) ∧ Ordered deps (insert (key a) seen) l

variable {key} {deps : α → List ι} {seen : Finset ι} {pending : List (α × List ι)} {l : List α} {n : ℕ}

theorem ordered_append {l l' : List α} : Ordered key deps seen (l ++ l') ↔
    Ordered key deps seen l ∧ Ordered key deps (seen ∪ (l.map key).toFinset) l' := by
  induction l generalizing seen with
  | nil =>
    have hset : seen ∪ (([] : List α).map key).toFinset = seen := by
      ext x
      simp
    rw [hset]
    simp [Ordered]
  | cons a l ih =>
    have hset : insert (key a) seen ∪ (l.map key).toFinset = seen ∪ ((a :: l).map key).toFinset := by
      ext x
      simp only [List.map_cons, List.toFinset_cons, Finset.mem_union, Finset.mem_insert]
      tauto
    simp only [List.cons_append, Ordered, ih, hset, and_assoc]

theorem ordered_nodup (h : Ordered key deps seen l) :
    (l.map key).Nodup ∧ ∀ a ∈ l, key a ∉ seen := by
  induction l generalizing seen with
  | nil => simp
  | cons a l ih =>
    obtain ⟨hfresh, -, hord⟩ := h
    obtain ⟨hnodup, hnew⟩ := ih hord
    constructor
    · rw [List.map_cons, List.nodup_cons]
      refine ⟨fun hm => ?_, hnodup⟩
      obtain ⟨b, hb, hkey⟩ := List.mem_map.mp hm
      exact hnew b hb (by simp [hkey])
    · intro b hb
      rcases List.mem_cons.mp hb with rfl | hb
      · exact hfresh
      · exact fun hm => hnew b hb (by simp [hm])

/-- What the pending entries still wait for, once `seen` is scheduled. -/
structure Waiting (key : α → ι) (deps : α → List ι) (seen : Finset ι) (pending : List (α × List ι)) :
    Prop where
  nodup : (pending.map fun e => key e.1).Nodup
  fresh : ∀ e ∈ pending, key e.1 ∉ seen
  waits : ∀ e ∈ pending, ∀ x, x ∈ e.2 ↔ x ∈ deps e.1 ∧ x ∉ seen

theorem discard_eq {a : α} {l : List (α × List ι)} (h : ∀ e ∈ l, key e.1 ≠ key a) :
    discard key a l = l.map fun e => (e.1, e.2.filter (· ≠ key a)) := by
  rw [discard, List.filter_eq_self.mpr fun e he => by simpa using h e he]

theorem discard_append (a : α) (l l' : List (α × List ι)) :
    discard key a (l ++ l') = discard key a l ++ discard key a l' := by
  simp [discard]

theorem discard_self (a : α × List ι) : discard key a.1 [a] = [] := by
  simp [discard]

/-- Scheduling one entry takes it out and leaves the others in place. -/
theorem discard_middle {pre post : List (α × List ι)} {e : α × List ι}
    (h : ((pre ++ e :: post).map fun e => key e.1).Nodup) :
    discard key e.1 (pre ++ e :: post) =
      (pre ++ post).map fun e' => (e'.1, e'.2.filter (· ≠ key e.1)) := by
  have hne : ∀ e' ∈ pre ++ post, key e'.1 ≠ key e.1 := by
    intro e' he' heq
    rw [(List.perm_middle.map _).nodup_iff, List.map_cons, List.nodup_cons] at h
    exact h.1 (heq ▸ List.mem_map.mpr ⟨e', he', rfl⟩)
  rw [discard_append, show e :: post = [e] ++ post from rfl, discard_append, discard_self,
    List.nil_append, ← discard_append, discard_eq hne]

theorem Waiting.discard {e : α × List ι} (h : Waiting key deps seen pending) (he : e ∈ pending) :
    Waiting key deps (insert (key e.1) seen) (discard key e.1 pending) ∧
      (pending.map Prod.fst).Perm (e.1 :: (Lib.discard key e.1 pending).map Prod.fst) := by
  obtain ⟨pre, post, rfl⟩ := List.append_of_mem he
  have hmid := discard_middle h.nodup
  have hperm := (@List.perm_middle _ e pre post).map (fun e => key e.1)
  have hnodup := hperm.nodup_iff.mp h.nodup
  rw [List.map_cons, List.nodup_cons] at hnodup
  have hmem : ∀ e' ∈ pre ++ post, e' ∈ pre ++ e :: post := by
    intro e' he'
    rcases List.mem_append.mp he' with h1 | h1 <;> simp [h1]
  constructor
  · rw [hmid]
    refine ⟨?_, ?_, ?_⟩
    · rw [List.map_map]
      exact hnodup.2
    · intro e' he'
      obtain ⟨e'', hin, rfl⟩ := List.mem_map.mp he'
      rw [Finset.mem_insert, not_or]
      refine ⟨fun heq => hnodup.1 ?_, h.fresh e'' (hmem e'' hin)⟩
      exact List.mem_map.mpr ⟨e'', hin, heq⟩
    · intro e' he' x
      obtain ⟨e'', hin, rfl⟩ := List.mem_map.mp he'
      have := h.waits e'' (hmem e'' hin) x
      simp only [List.mem_filter, this, decide_eq_true_eq, Finset.mem_insert, not_or]
      tauto
  · rw [hmid, List.map_map]
    exact (List.perm_middle.map Prod.fst).trans (by simp [Function.comp_def])

/-- A schedule lists the pending entries in an order that respects the dependencies. -/
theorem schedule_spec (h : Waiting key deps seen pending) (hs : schedule key n pending = some l) :
    Ordered key deps seen l ∧ l.Perm (pending.map Prod.fst) := by
  induction n generalizing seen pending l with
  | zero =>
    cases pending with
    | nil =>
      obtain rfl : [] = l := by simpa [schedule] using hs
      exact ⟨trivial, List.Perm.nil⟩
    | cons e pending => simp [schedule] at hs
  | succ n ih =>
    cases pending with
    | nil =>
      obtain rfl : [] = l := by simpa [schedule] using hs
      exact ⟨trivial, List.Perm.nil⟩
    | cons e pending =>
      rw [schedule] at hs
      cases hfind : (e :: pending).find? fun e => e.2.isEmpty with
      | none => simp [hfind] at hs
      | some e' =>
        simp only [hfind, Option.map_eq_some_iff] at hs
        obtain ⟨l, hl, rfl⟩ := hs
        have hmem := List.mem_of_find?_eq_some hfind
        have hempty : e'.2 = [] := by simpa using List.find?_some hfind
        obtain ⟨hwait, hperm⟩ := h.discard hmem
        obtain ⟨hord, hp⟩ := ih hwait hl
        refine ⟨⟨h.fresh e' hmem, fun x hx => ?_, hord⟩, (hp.cons _).trans hperm.symm⟩
        by_contra hns
        have := (h.waits e' hmem x).mpr ⟨hx, hns⟩
        simp [hempty] at this

theorem schedule_stuck (hne : pending ≠ []) (h : pending.find? (fun e => e.2.isEmpty) = none) :
    schedule key n pending = none := by
  cases pending with
  | nil => exact absurd rfl hne
  | cons e pending =>
    cases n with
    | zero => rfl
    | succ n => simp only [schedule, h]

/-- An entry that stands last and that nothing waits for is scheduled last. -/
theorem schedule_last {init : List (α × List ι)} {z : α × List ι}
    (hnodup : ((init ++ [z]).map fun e => key e.1).Nodup) (hz : ∀ e ∈ init, key z.1 ∉ e.2)
    (hs : schedule key n (init ++ [z]) = some l) : ∃ body, l = body ++ [z.1] := by
  induction n generalizing init z l with
  | zero =>
    cases init <;> simp [schedule] at hs
  | succ n ih =>
    obtain ⟨e, pending, he⟩ : ∃ e pending, init ++ [z] = e :: pending := by
      cases init <;> exact ⟨_, _, rfl⟩
    rw [he, schedule, ← he] at hs
    have hout : discard key z.1 (init ++ [z]) =
        (init ++ []).map fun e' : α × List ι => (e'.1, e'.2.filter (· ≠ key z.1)) :=
      discard_middle hnodup
    rw [List.find?_append] at hs
    cases hfind : init.find? fun e => e.2.isEmpty with
    | some e' =>
      -- something before it is ready: it stays last
      simp only [hfind, Option.some_or, Option.map_eq_some_iff] at hs
      obtain ⟨l, hl, rfl⟩ := hs
      obtain ⟨pre, post, rfl⟩ := List.append_of_mem (List.mem_of_find?_eq_some hfind)
      rw [List.append_assoc, List.cons_append] at hnodup hl
      rw [discard_middle hnodup, ← List.append_assoc, List.map_append, List.map_singleton] at hl
      rw [(List.perm_middle.map _).nodup_iff, List.map_cons, List.nodup_cons] at hnodup
      obtain ⟨body, rfl⟩ := ih (by simpa [Function.comp_def] using hnodup.2) (by
        intro e'' he''
        obtain ⟨e₀, hin, rfl⟩ := List.mem_map.mp he''
        have := hz e₀ (by rcases List.mem_append.mp hin with h1 | h1 <;> simp [h1])
        simp [this]) hl
      exact ⟨e'.1 :: body, rfl⟩
    | none =>
      -- nothing before it is ready, so scheduling it first would leave the others stuck
      simp only [hfind, Option.none_or, List.find?_singleton] at hs
      cases hready : z.2.isEmpty with
      | false => simp [hready] at hs
      | true =>
        simp only [hready, if_true, Option.map_eq_some_iff] at hs
        obtain ⟨l, hl, rfl⟩ := hs
        rw [hout, List.append_nil] at hl
        by_cases hinit : init = []
        · subst hinit
          obtain rfl : [] = l := by simpa [schedule] using hl
          exact ⟨[], rfl⟩
        · have hsame : (init.map fun e' => (e'.1, e'.2.filter (· ≠ key z.1))) = init := by
            refine (List.map_congr_left fun e' he' => ?_).trans (List.map_id _)
            rw [List.filter_eq_self.mpr fun x hx => ?_]
            · rfl
            · have := hz e' he'
              simpa using fun hxz : x = key z.1 => this (hxz ▸ hx)
          rw [hsame, schedule_stuck hinit hfind] at hl
          cases hl

end Raveil.Lib
