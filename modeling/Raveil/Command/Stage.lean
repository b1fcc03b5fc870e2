import Raveil.Lib.Interleave
import Mathlib.Data.Finset.Basic
import Mathlib.Logic.Function.Basic

/-! The staged copy of a workspace, changed one path at a time. -/
namespace Raveil.Command

open Lib

inductive Entry where
  | directory
  | file (data : List UInt8)
  deriving DecidableEq

/-- The tree below a stage; its root is a directory and no part of the map. -/
structure Stage where
  lookup : List String → Option Entry
  paths : Finset (List String)
  mem_paths : ∀ p, p ∈ paths ↔ lookup p ≠ none

/-- What a run asks of the file system. -/
inductive FileOp where
  | look (path : List String)
  | makeDirectory (path : List String)
  | write (path : List String) (data : List UInt8)
  deriving DecidableEq

namespace FileOp

def path : FileOp → List String
  | look p | makeDirectory p | write p _ => p

/-- What stands at the path afterwards: directories are not made twice and never overwritten. -/
def change : FileOp → Option Entry → Option Entry
  | look _, e => e
  | makeDirectory _, none => some .directory
  | makeDirectory _, some e => some e
  | write _ _, some .directory => some .directory
  | write _ data, _ => some (.file data)

end FileOp

namespace Stage

theorem ext_lookup {s t : Stage} (h : s.lookup = t.lookup) : s = t := by
  obtain ⟨lookup, paths, hs⟩ := s
  obtain ⟨lookup', paths', ht⟩ := t
  obtain rfl : lookup = lookup' := h
  obtain rfl : paths = paths' := Finset.ext fun p => (hs p).trans (ht p).symm
  rfl

def entry (s : Stage) (p : List String) : Option Entry := if p = [] then some .directory else s.lookup p

def set (s : Stage) (p : List String) (e : Option Entry) : Stage :=
  if p = [] then s
  else
    { lookup := Function.update s.lookup p e
      paths := if e = none then s.paths.erase p else insert p s.paths
      mem_paths := by
        intro q
        by_cases hq : q = p
        · subst hq
          cases e <;> simp
        · cases e <;> simp [hq, s.mem_paths] }

/-- One request; the answer is what stands at its path then. -/
def perform (o : FileOp) (s : Stage) : Option Entry × Stage :=
  (o.change (s.entry o.path), s.set o.path (o.change (s.entry o.path)))

variable {s : Stage} {p q : List String} {e e' : Option Entry} {o o' : FileOp}

theorem entry_set_of_ne (h : q ≠ p) : (s.set p e).entry q = s.entry q := by
  unfold set entry
  by_cases hp : p = []
  · simp [hp]
  · simp [hp, Function.update_of_ne h]

theorem entry_set_self (h : p ≠ []) : (s.set p e).entry p = e := by
  simp [set, entry, h]

theorem set_comm (h : p ≠ q) : (s.set p e).set q e' = (s.set q e').set p e := by
  unfold set
  by_cases hp : p = [] <;> by_cases hq : q = [] <;> simp only [hp, hq, if_true, if_false]
  exact ext_lookup (Function.update_comm h _ _ _)

theorem set_set : (s.set p e).set p e' = s.set p e' := by
  by_cases hp : p = []
  · simp [set, hp]
  · simp only [set, hp, if_false]
    exact ext_lookup (Function.update_idem _ _ _)

/-- The root stays a directory. -/
theorem change_root (o : FileOp) : o.change (s.entry []) = some .directory := by
  cases o <;> rfl

theorem commute_of_ne (h : o.path ≠ o'.path) : Prog.Commute perform o o' := by
  intro s
  have hleft : (perform o' s).2.entry o.path = s.entry o.path := entry_set_of_ne h
  have hright : (perform o s).2.entry o'.path = s.entry o'.path := entry_set_of_ne (Ne.symm h)
  refine ⟨?_, ?_, ?_⟩
  · exact congrArg o.change hleft
  · exact congrArg o'.change hright
  · change (perform o' s).2.set o.path (o.change ((perform o' s).2.entry o.path)) =
      (perform o s).2.set o'.path (o'.change ((perform o s).2.entry o'.path))
    rw [hleft, hright]
    exact set_comm (Ne.symm h)

/-- Looking does not disturb looking, and a directory can be made by several. -/
theorem commute_of_eq (hpath : o.path = o'.path)
    (h : ∀ x, o.change (o'.change x) = o.change x ∧ o'.change (o.change x) = o'.change x ∧ o.change x = o'.change x) :
    Prog.Commute perform o o' := by
  intro s
  by_cases hroot : o'.path = []
  · simp [perform, hpath, hroot, set, change_root]
  · have hentry : ∀ e, (s.set o'.path e).entry o'.path = e := fun e => entry_set_self hroot
    obtain ⟨h1, h2, h3⟩ := h (s.entry o'.path)
    simp only [perform, hpath, hentry, set_set, h1, h2]
    exact ⟨trivial, trivial, congrArg _ h3⟩

/-- Requests that do not get in each other's way. -/
def Apart (o o' : FileOp) : Prop :=
  o.path ≠ o'.path ∨ (∃ p q, o = .look p ∧ o' = .look q) ∨ ∃ p q, o = .makeDirectory p ∧ o' = .makeDirectory q

theorem commute_of_apart (h : Apart o o') : Prog.Commute perform o o' := by
  by_cases hpath : o.path = o'.path
  · apply commute_of_eq hpath
    rcases h with h | ⟨p, q, rfl, rfl⟩ | ⟨p, q, rfl, rfl⟩
    · exact absurd hpath h
    · exact fun x => ⟨rfl, rfl, rfl⟩
    · intro x
      cases x <;> exact ⟨rfl, rfl, rfl⟩
  · exact commute_of_ne hpath

end Stage

end Raveil.Command
