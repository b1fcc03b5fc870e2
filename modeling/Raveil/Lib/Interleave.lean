import Mathlib.Data.List.Pairwise
import Mathlib.Data.List.Perm.Basic
import Mathlib.Data.Nat.Notation

/-! Two orders of the same steps, and programs that share a state: neither matters when the actions commute. -/
namespace Raveil.Lib

/-- A program that asks for one action after the other and goes on with each answer. -/
inductive Prog (O A R : Type) where
  | done (r : R)
  | act (o : O) (next : A → Prog O A R)

namespace Prog

variable {O A R R' σ : Type}

def bind : Prog O A R → (R → Prog O A R') → Prog O A R'
  | done r, f => f r
  | act o next, f => act o fun a => (next a).bind f

/-- All actions in a row. -/
def run (perform : O → σ → A × σ) : Prog O A R → σ → R × σ
  | done r, s => (r, s)
  | act o next, s => (next (perform o s).1).run perform (perform o s).2

/-- Every action the program can ask for satisfies `P`. -/
def Within (P : O → Prop) : Prog O A R → Prop
  | done _ => True
  | act o next => P o ∧ ∀ a, (next a).Within P

/-- Every result the program can end with satisfies `P`. -/
def Returns (P : R → Prop) : Prog O A R → Prop
  | done r => P r
  | act _ next => ∀ a, (next a).Returns P

/-- One action of the program. -/
def tick (perform : O → σ → A × σ) (s : σ) : Prog O A R → Prog O A R × σ
  | done r => (done r, s)
  | act o next => (next (perform o s).1, (perform o s).2)

variable {perform : O → σ → A × σ} {P Q : O → Prop} {p : Prog O A R} {s : σ}

theorem Within.bind {f : R → Prog O A R'} (h : p.Within P) (hf : ∀ r, (f r).Within P) :
    (p.bind f).Within P := by
  induction p with
  | done r => exact hf r
  | act o next ih => exact ⟨h.1, fun a => ih a (h.2 a)⟩

theorem Returns.bind {P : R → Prop} {P' : R' → Prop} {f : R → Prog O A R'} (h : p.Returns P)
    (hf : ∀ r, P r → (f r).Returns P') : (p.bind f).Returns P' := by
  induction p with
  | done r => exact hf r h
  | act o next ih => exact fun a => ih a (h a)

theorem Returns.run {P : R → Prop} (h : p.Returns P) (s : σ) : P (p.run perform s).1 := by
  induction p generalizing s with
  | done r => exact h
  | act o next ih => exact ih _ (h _) _

theorem Returns.tick {P : R → Prop} (h : p.Returns P) (s : σ) : (p.tick perform s).1.Returns P := by
  cases p with
  | done r => exact h
  | act o next => exact h _

theorem returns_true : p.Returns fun _ => True := by
  induction p with
  | done r => trivial
  | act o next ih => exact ih

theorem Within.mono (h : p.Within P) (hPQ : ∀ o, P o → Q o) : p.Within Q := by
  induction p with
  | done r => trivial
  | act o next ih => exact ⟨hPQ o h.1, fun a => ih a (h.2 a)⟩

theorem run_tick (s : σ) : (p.tick perform s).1.run perform (p.tick perform s).2 = p.run perform s := by
  cases p <;> rfl

theorem Within.tick (h : p.Within P) (s : σ) : (p.tick perform s).1.Within P := by
  cases p with
  | done r => trivial
  | act o next => exact h.2 _

/-- Two actions with the same answers and the same state in either order. -/
def Commute (perform : O → σ → A × σ) (o o' : O) : Prop :=
  ∀ s, (perform o (perform o' s).2).1 = (perform o s).1 ∧
    (perform o' (perform o s).2).1 = (perform o' s).1 ∧
    (perform o (perform o' s).2).2 = (perform o' (perform o s).2).2

theorem Commute.symm {o o' : O} (h : Commute perform o o') : Commute perform o' o :=
  fun s => ⟨(h s).2.1, (h s).1, (h s).2.2.symm⟩

/-- An action that commutes with all of a program's actions commutes with its run. -/
theorem run_perform {o : O} (h : p.Within (Commute perform o)) (s : σ) :
    p.run perform (perform o s).2 = ((p.run perform s).1, (perform o (p.run perform s).2).2) ∧
      (perform o (p.run perform s).2).1 = (perform o s).1 := by
  induction p generalizing s with
  | done r => exact ⟨rfl, rfl⟩
  | act o' next ih =>
    obtain ⟨hans, hans', hstate⟩ := h.1 s
    have hnext := ih (perform o' s).1 (h.2 _) (perform o' s).2
    constructor
    · simp only [run, hans', ← hstate]
      exact hnext.1
    · exact hnext.2.trans hans

/-- Programs whose actions commute pairwise can run in either order. -/
theorem run_comm {q : Prog O A R'} (h : p.Within fun o => q.Within (Commute perform o)) (s : σ) :
    (p.run perform (q.run perform s).2).1 = (p.run perform s).1 ∧
      (q.run perform (p.run perform s).2).1 = (q.run perform s).1 ∧
      (p.run perform (q.run perform s).2).2 = (q.run perform (p.run perform s).2).2 := by
  induction p generalizing s with
  | done r => exact ⟨rfl, rfl, rfl⟩
  | act o next ih =>
    obtain ⟨hq, hans⟩ := run_perform h.1 s
    have hnext := ih (perform o s).1 (h.2 _) (perform o s).2
    simp only [hq] at hnext
    simp only [run, hans]
    exact hnext

end Prog

open Prog

variable {O A R σ : Type} (perform : O → σ → A × σ)

/-- One program after the other. -/
def sequential : List (Prog O A R) → σ → List R × σ
  | [], s => ([], s)
  | p :: ps, s =>
    let first := p.run perform s
    let rest := sequential ps first.2
    (first.1 :: rest.1, rest.2)

/-- One action of the program at `i`. -/
def tickAt : ℕ → List (Prog O A R) → σ → List (Prog O A R) × σ
  | _, [], s => ([], s)
  | 0, p :: ps, s => ((p.tick perform s).1 :: ps, (p.tick perform s).2)
  | i + 1, p :: ps, s => (p :: (tickAt i ps s).1, (tickAt i ps s).2)

/-- The programs act in the order of `choices`; what is left then runs one after the other. -/
def interleave : List ℕ → List (Prog O A R) → σ → List R × σ
  | [], ps, s => sequential perform ps s
  | i :: choices, ps, s => interleave choices (tickAt perform i ps s).1 (tickAt perform i ps s).2

variable {perform} {ps : List (Prog O A R)}

/-- No action of one program interferes with an action of another. -/
def Independent (perform : O → σ → A × σ) (ps : List (Prog O A R)) : Prop :=
  ps.Pairwise fun p q => p.Within fun o => q.Within (Commute perform o)

theorem Prog.within_true {p : Prog O A R} : p.Within fun _ => True := by
  induction p with
  | done r => trivial
  | act o next ih => exact ⟨trivial, ih⟩

theorem Prog.Within.swap {p q : Prog O A R} (h : p.Within fun o => q.Within (Commute perform o)) :
    q.Within fun o => p.Within (Commute perform o) := by
  induction p with
  | done r => exact within_true.mono fun _ _ => trivial
  | act o next ih =>
    have hq := h.1
    have hnext := fun a => ih a (h.2 a)
    clear h ih
    induction q with
    | done r => trivial
    | act o' next' ih' =>
      exact ⟨⟨hq.1.symm, fun a => (hnext a).1⟩, fun a => ih' a (hq.2 a) fun b => (hnext b).2 a⟩

@[simp] theorem tickAt_nil (i : ℕ) (s : σ) : tickAt perform i ([] : List (Prog O A R)) s = ([], s) := by
  cases i <;> rfl

theorem mem_tickAt {p : Prog O A R} {i : ℕ} {s : σ} (h : p ∈ (tickAt perform i ps s).1) :
    ∃ q ∈ ps, ∀ P, q.Within P → p.Within P := by
  induction ps generalizing i with
  | nil => simp at h
  | cons q ps ih =>
    cases i with
    | zero =>
      rcases List.mem_cons.mp h with rfl | h
      · exact ⟨q, by simp, fun P hq => hq.tick s⟩
      · exact ⟨p, by simp [h], fun P hp => hp⟩
    | succ i =>
      rcases List.mem_cons.mp h with rfl | h
      · exact ⟨p, by simp, fun P hp => hp⟩
      · obtain ⟨q', hq', hw⟩ := ih h
        exact ⟨q', by simp [hq'], hw⟩

/-- However the programs interleave, each ends with one of its own results. -/
theorem interleave_returns {P : R → Prop} (h : ∀ p ∈ ps, p.Returns P) (choices : List ℕ) (s : σ) :
    ∀ r ∈ (interleave perform choices ps s).1, P r := by
  have htick : ∀ (i : ℕ) (ps : List (Prog O A R)) (s : σ), (∀ p ∈ ps, p.Returns P) →
      ∀ p ∈ (tickAt perform i ps s).1, p.Returns P := by
    intro i ps s h
    induction ps generalizing i with
    | nil => simp
    | cons q ps ih =>
      rw [List.forall_mem_cons] at h
      cases i with
      | zero => exact List.forall_mem_cons.mpr ⟨h.1.tick s, h.2⟩
      | succ i => exact List.forall_mem_cons.mpr ⟨h.1, ih i h.2⟩
  induction choices generalizing ps s with
  | nil =>
    induction ps generalizing s with
    | nil => simp [interleave, sequential]
    | cons p ps ih =>
      rw [List.forall_mem_cons] at h
      exact List.forall_mem_cons.mpr ⟨h.1.run s, ih h.2 _⟩
  | cons i choices ih => exact ih (htick i ps s h) _

theorem Independent.tickAt (h : Independent perform ps) (i : ℕ) (s : σ) :
    Independent perform (tickAt perform i ps s).1 := by
  induction ps generalizing i with
  | nil => simpa using h
  | cons p ps ih =>
    rw [Independent, List.pairwise_cons] at h
    cases i with
    | zero => exact List.pairwise_cons.mpr ⟨fun q hq => (h.1 q hq).tick s, h.2⟩
    | succ i =>
      refine List.pairwise_cons.mpr ⟨fun q hq => ?_, ih h.2 i⟩
      obtain ⟨q', hq', hw⟩ := mem_tickAt hq
      exact (h.1 q' hq').mono fun o ho => hw _ ho

/-- A program does not notice an action of the others done before it. -/
theorem run_tickAt {p : Prog O A R} (h : ∀ q ∈ ps, p.Within fun o => q.Within (Commute perform o))
    (i : ℕ) (s : σ) :
    p.run perform (tickAt perform i ps s).2 =
        ((p.run perform s).1, (tickAt perform i ps (p.run perform s).2).2) ∧
      (tickAt perform i ps (p.run perform s).2).1 = (tickAt perform i ps s).1 := by
  induction ps generalizing i with
  | nil => simp
  | cons q ps ih =>
    rw [List.forall_mem_cons] at h
    cases i with
    | zero =>
      cases q with
      | done r => exact ⟨rfl, rfl⟩
      | act o next =>
        obtain ⟨hrun, hans⟩ := run_perform h.1.swap.1 s
        exact ⟨hrun, by simp only [tickAt, Prog.tick, hans]⟩
    | succ i =>
      obtain ⟨hrun, hprogs⟩ := ih h.2 i
      exact ⟨hrun, by simp only [tickAt, hprogs]⟩

/-- Completing the programs in order does not notice an action done early. -/
theorem sequential_tickAt (h : Independent perform ps) (i : ℕ) (s : σ) :
    sequential perform (tickAt perform i ps s).1 (tickAt perform i ps s).2 = sequential perform ps s := by
  induction ps generalizing i s with
  | nil => simp
  | cons p ps ih =>
    rw [Independent, List.pairwise_cons] at h
    cases i with
    | zero => simp only [tickAt, sequential, run_tick]
    | succ i =>
      obtain ⟨hrun, hprogs⟩ := run_tickAt h.1 i s
      have hrest := ih h.2 i (p.run perform s).2
      simp only [tickAt, sequential, hrun, ← hprogs, hrest]

/-- Independent programs end as if they had run one after the other. -/
theorem interleave_eq_sequential (choices : List ℕ) (h : Independent perform ps) (s : σ) :
    interleave perform choices ps s = sequential perform ps s := by
  induction choices generalizing ps s with
  | nil => rfl
  | cons i choices ih => exact (ih (h.tickAt i s) _).trans (sequential_tickAt h i s)

section Orders

variable {σ α : Type} {step : σ → α → Option σ} {R : α → α → Prop} {l l' pre post : List α} {a b : α}
  {s : σ}

/-- Two steps that succeed or fail alike in either order. -/
def StepsCommute (step : σ → α → Option σ) (a b : α) : Prop :=
  ∀ s, (step s a).bind (step · b) = (step s b).bind (step · a)

/-- No step stands after one that `R` puts behind it. -/
def Respects (R : α → α → Prop) (l : List α) : Prop := l.Pairwise fun a b => ¬ R b a

/-- A step that commutes with all before it may go first. -/
theorem foldlM_middle (h : ∀ b ∈ pre, StepsCommute step a b) (s : σ) :
    (pre ++ a :: post).foldlM step s = (a :: (pre ++ post)).foldlM step s := by
  induction pre generalizing s with
  | nil => rfl
  | cons b pre ih =>
    rw [List.forall_mem_cons] at h
    have hswap : ((step s b).bind fun s => (a :: (pre ++ post)).foldlM step s) =
        (step s a).bind fun s => (b :: (pre ++ post)).foldlM step s := by
      simp only [List.foldlM_cons, Option.bind_eq_bind, ← Option.bind_assoc]
      rw [h.1 s]
    rw [List.cons_append, List.foldlM_cons, List.cons_append, List.foldlM_cons]
    simp only [Option.bind_eq_bind]
    rw [← hswap]
    exact congrArg _ (funext fun s => ih h.2 s)

/-- Two orders that both respect `R` agree when steps unrelated by `R` commute. -/
theorem foldlM_perm (hperm : l.Perm l') (hl : Respects R l) (hl' : Respects R l')
    (hcomm : ∀ a ∈ l, ∀ b ∈ l, ¬ R a b → ¬ R b a → StepsCommute step a b) (s : σ) :
    l.foldlM step s = l'.foldlM step s := by
  induction l generalizing l' s with
  | nil => rw [hperm.nil_eq]
  | cons a rest ih =>
    obtain ⟨pre, post, rfl⟩ := List.append_of_mem (hperm.subset List.mem_cons_self)
    have hrest : rest.Perm (pre ++ post) := List.perm_cons a |>.mp (hperm.trans List.perm_middle)
    rw [Respects, List.pairwise_cons] at hl
    rw [Respects, List.pairwise_append, List.pairwise_cons] at hl'
    have hmove : ∀ b ∈ pre, StepsCommute step a b := by
      intro b hb
      have hmem : b ∈ rest := hrest.symm.subset (by simp [hb])
      apply hcomm a (by simp) b (by simp [hmem])
      · exact hl'.2.2 b hb a (by simp)
      · exact hl.1 b hmem
    have hkeep : Respects R (pre ++ post) := by
      apply List.pairwise_append.mpr
      exact ⟨hl'.1, hl'.2.1.2, fun b hb c hc => hl'.2.2 b hb c (by simp [hc])⟩
    rw [foldlM_middle hmove, List.foldlM_cons, List.foldlM_cons]
    refine congrArg _ (funext fun s => ?_)
    exact ih hrest hl.2 hkeep (fun b hb c hc => hcomm b (by simp [hb]) c (by simp [hc])) s

end Orders

end Raveil.Lib
