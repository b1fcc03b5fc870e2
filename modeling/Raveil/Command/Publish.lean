import Raveil.Command.Paths
import Raveil.Lib.Dict
import Mathlib.Data.Finset.Basic
import Mathlib.Logic.Function.Basic

/-! The publication of several outputs into a workspace, call by call, and its rollback. -/
namespace Raveil.Command

open Lib

inductive Inode where
  | directory
  | file (data : List UInt8)
  | symlink
  | special
  deriving DecidableEq

/-- The file tree of a workspace. -/
structure Tree where
  lookup : List String → Option Inode
  paths : Finset (List String)
  mem_paths : ∀ p, p ∈ paths ↔ lookup p ≠ none
  root : lookup [] = some .directory
  parent : ∀ p name, lookup (p ++ [name]) ≠ none → lookup p = some .directory

namespace Tree

/-- What may stand at a path: it needs a directory above it, and only a directory holds others. -/
def Fits (t : Tree) (p : List String) (e : Option Inode) : Prop :=
  p ≠ [] ∧ (e ≠ none → t.lookup p.dropLast = some .directory) ∧
    (e ≠ some .directory → ∀ q ∈ t.paths, q = [] ∨ q.dropLast ≠ p)

instance (t : Tree) (p : List String) (e : Option Inode) : Decidable (t.Fits p e) :=
  inferInstanceAs (Decidable (_ ∧ _ ∧ _))

def put (t : Tree) (p : List String) (e : Option Inode) (h : t.Fits p e) : Tree where
  lookup := Function.update t.lookup p e
  paths := if e = none then t.paths.erase p else insert p t.paths
  mem_paths := by
    intro q
    by_cases hq : q = p
    · subst hq
      cases e <;> simp
    · cases e <;> simp [hq, t.mem_paths]
  root := by rw [Function.update_of_ne (Ne.symm h.1), t.root]
  parent := by
    intro q name hname
    by_cases hp : q ++ [name] = p
    · subst hp
      rw [Function.update_self] at hname
      have hne : q ≠ q ++ [name] := by simp
      rw [Function.update_of_ne hne]
      simpa using h.2.1 hname
    · rw [Function.update_of_ne hp] at hname
      by_cases hq : q = p
      · subst hq
        rw [Function.update_self]
        by_contra he
        rcases h.2.2 he (q ++ [name]) ((t.mem_paths _).mpr hname) with hnil | hdrop
        · simp at hnil
        · simp at hdrop
      · rw [Function.update_of_ne hq]
        exact t.parent q name hname

def lstat (t : Tree) (p : List String) : Lstat :=
  match t.lookup p with
  | none => .missing
  | some .directory => .directory
  | some (.file _) => .regular
  | some .symlink => .symlink
  | some .special => .special

/-- The call that makes an entry where there was none. -/
def create (t : Tree) (p : List String) (e : Inode) : Except String Tree :=
  if t.lookup p ≠ none then .error "File exists"
  else if h : t.Fits p (some e) then .ok (t.put p (some e) h)
  else .error "No such file or directory"

/-- Bytes written to the end of an open file. -/
def append (t : Tree) (p : List String) (chunk : List UInt8) : Tree :=
  match t.lookup p with
  | some (.file data) => if h : t.Fits p (some (.file (data ++ chunk))) then t.put p _ h else t
  | _ => t

/-- `target.rmdir() if target.is_dir() else target.unlink()`; a directory that is not empty stays. -/
def remove (t : Tree) (p : List String) : Tree :=
  if h : t.Fits p none then t.put p none h else t

end Tree

/-- A system call of the publication. -/
inductive Call where
  | mkdir (path : List String)
  | open (path : List String)
  | write (path : List String) (offset : ℕ)
  deriving DecidableEq

namespace Call

def path : Call → List String
  | mkdir p | .open p | write p _ => p

def isWrite : Call → Bool
  | write _ _ => true
  | _ => false

end Call

/-- What goes wrong: a call raises, or a write returns without progress. -/
inductive Fault where
  | raises (call : Call) (strerror : String)
  | stalls (path : List String) (offset : ℕ)
  deriving DecidableEq

namespace Fault

def call : Fault → Call
  | raises c _ => c
  | stalls p offset => .write p offset

def message : Fault → String
  | raises _ strerror => "publication failed: " ++ strerror
  | stalls _ _ => "publication made no progress"

end Fault

/-- How the kernel behaves: what goes wrong, and how many bytes each write takes, beyond a first one. -/
structure Kernel where
  fault : Option Fault
  progress : List String → ℕ → ℕ

/-- The message with which a call of the publication fails, if it does. -/
def Kernel.failing (k : Kernel) (c : Call) : Option String :=
  match k.fault with
  | some f => if c = f.call then some f.message else none
  | none => none

/-- The tree, and the calls made so far. -/
structure Disk where
  tree : Tree
  log : List Call

namespace Disk

/-- A call that makes an entry. -/
def create (k : Kernel) (d : Disk) (c : Call) (e : Inode) : Except String Unit × Disk :=
  let d := { d with log := d.log ++ [c] }
  match k.failing c with
  | some message => (.error message, d)
  | none =>
    match d.tree.create c.path e with
    | .error strerror => (.error ("publication failed: " ++ strerror), d)
    | .ok tree => (.ok (), { d with tree })

/-- The loop over the view of the data. -/
def writeLoop (k : Kernel) (p : List String) : ℕ → ℕ → List UInt8 → Disk → Except String Unit × Disk
  | 0, _, _, d => (.ok (), d)
  | fuel + 1, offset, view, d =>
    if view = [] then (.ok (), d)
    else
      let d := { d with log := d.log ++ [.write p offset] }
      match k.failing (.write p offset) with
      | some message => (.error message, d)
      | none =>
        let written := min (k.progress p offset + 1) view.length
        writeLoop k p fuel (offset + written) (view.drop written)
          { d with tree := d.tree.append p (view.take written) }

/-- One turn of the loop over the prepared entries. -/
def publishEntry (k : Kernel) (d : Disk) (p : List String) : Option (List UInt8) → Except String Unit × Disk
  | none => d.create k (.mkdir p) .directory
  | some data =>
    match d.create k (.open p) (.file []) with
    | (.error message, d) => (.error message, d)
    | (.ok (), d) => d.writeLoop k p data.length 0 data

/-- The loop over the prepared entries, and what it has created when it ends. -/
def publishLoop (k : Kernel) : List (List String × Option (List UInt8)) → List (List String) → Disk →
    Except String Unit × List (List String) × Disk
  | [], created, d => (.ok (), created, d)
  | (p, data) :: prepared, created, d =>
    match d.publishEntry k p data with
    | (.error message, d) => (.error message, created, d)
    | (.ok (), d) => publishLoop k prepared (created ++ [p]) d

end Disk

/-- `existing_prefix`: the names above a target up to what is not planned. -/
def existingPrefix (planned : List (List String)) : ℕ → List String → List String
  | 0, p => p
  | fuel + 1, p => if p ∈ planned then existingPrefix planned fuel p.dropLast else p

namespace NativeWorkspace

variable (w : NativeWorkspace)

/-- The checks of one target. -/
def prepare (planned : List (List String)) (maximum : ℕ) (entry : String × Option (List UInt8)) :
    Except String (List String × Option (List UInt8)) := do
  require (∀ data ∈ entry.2, data.length ≤ maximum) "publication exceeds byte bound"
  let parts ← w.parts entry.1
  require (parts ≠ []) "workspace root cannot be created or replaced"
  let parent ← w.walkExisting (existingPrefix planned parts.length parts.dropLast)
  require (w.lstat parent = .directory) "publication parent is not a directory"
  require (w.lstat parts = .missing) ("path already exists: " ++ virtual parts)
  return (parts, entry.2)

/-- The order of the targets. -/
def targetBefore (a b : ℕ × String × Option (List UInt8)) : Prop :=
  a.1 < b.1 ∨ a.1 = b.1 ∧ a.2.1 ≤ b.2.1

instance : DecidableRel targetBefore := fun _ _ => inferInstanceAs (Decidable (_ ∨ _))

/-- Everything before the first mutation. -/
def preflight (entries : Dict String (Option (List UInt8))) (maximum : ℕ) :
    Except String (List (List String × Option (List UInt8))) := do
  let planned ← (entries.entries.filter (·.2 = none)).mapM fun entry => w.parts entry.1
  let keyed ← entries.entries.mapM fun entry => do
    let parts ← w.parts entry.1
    return (parts.length, entry)
  (keyed.insertionSort targetBefore).mapM fun entry => w.prepare planned maximum entry.2

end NativeWorkspace

/-- The workspace whose tree this is. -/
def Tree.mounted (t : Tree) (w : NativeWorkspace) : NativeWorkspace := { w with lstat := t.lstat }

/-- `NativeWorkspace.publish_many`: how it ends, and the disk then. -/
def publishMany (w : NativeWorkspace) (k : Kernel) (tree : Tree) (entries : Dict String (Option (List UInt8)))
    (maximum : ℕ) : Except String Unit × Disk :=
  match (tree.mounted w).preflight entries maximum with
  | .error message => (.error message, ⟨tree, []⟩)
  | .ok prepared =>
    match Disk.publishLoop k prepared [] ⟨tree, []⟩ with
    | (.ok (), _, d) => (.ok (), d)
    | (.error message, created, d) => (.error message, { d with tree := created.reverse.foldl Tree.remove d.tree })

namespace Tree

variable {t u : Tree} {p q : List String} {e : Inode} {chunk data : List UInt8}

theorem ext_lookup (h : t.lookup = u.lookup) : t = u := by
  obtain ⟨lookup, paths, ht, hr, hp⟩ := t
  obtain ⟨lookup', paths', hu, hr', hp'⟩ := u
  obtain rfl : lookup = lookup' := h
  obtain rfl : paths = paths' := Finset.ext fun p => (ht p).trans (hu p).symm
  rfl

/-- Only a directory has entries. -/
theorem directory_of_child (hq : t.lookup q ≠ none) (hne : q ≠ []) : t.lookup q.dropLast = some .directory := by
  rw [← List.dropLast_append_getLast hne] at hq
  exact t.parent _ _ hq

theorem create_eq_ok (h : t.create p e = .ok u) :
    t.lookup p = none ∧ p ≠ [] ∧ t.lookup p.dropLast = some .directory ∧
      u.lookup = Function.update t.lookup p (some e) := by
  unfold create at h
  split_ifs at h with hnone hfits
  cases h
  exact ⟨not_not.mp hnone, hfits.1, hfits.2.1 (by simp), rfl⟩

/-- An entry can be made wherever nothing stands below a directory. -/
theorem create_ok (hp : p ≠ []) (hnone : t.lookup p = none) (hdir : t.lookup p.dropLast = some .directory) :
    ∃ u, t.create p e = .ok u := by
  have hfits : t.Fits p (some e) := by
    refine ⟨hp, fun _ => hdir, fun _ q hq => ?_⟩
    by_cases hne : q = []
    · exact Or.inl hne
    · refine Or.inr fun hdrop => ?_
      have hup := directory_of_child ((t.mem_paths q).mp hq) hne
      rw [hdrop, hnone] at hup
      cases hup
  exact ⟨_, by rw [create, if_neg (not_not.mpr hnone), dif_pos hfits]⟩

theorem append_lookup (h : t.lookup p = some (.file data)) :
    (t.append p chunk).lookup = Function.update t.lookup p (some (.file (data ++ chunk))) := by
  have hne : p ≠ [] := by
    rintro rfl
    rw [t.root] at h
    cases h
  have hfits : t.Fits p (some (.file (data ++ chunk))) := by
    refine ⟨hne, fun _ => directory_of_child (by simp [h]) hne, fun _ q hq => ?_⟩
    by_cases hnil : q = []
    · exact Or.inl hnil
    · refine Or.inr fun hdrop => ?_
      have hup := directory_of_child ((t.mem_paths q).mp hq) hnil
      rw [hdrop, h] at hup
      cases hup
  rw [append, h]
  dsimp only
  rw [dif_pos hfits]
  rfl

theorem remove_lookup_of_ne (h : q ≠ p) : (t.remove p).lookup q = t.lookup q := by
  unfold remove
  split
  · exact Function.update_of_ne h _ _
  · rfl

/-- The last entry that was made can be removed again. -/
theorem remove_made (hp : p ≠ []) (hnone : t.lookup p = none)
    (hu : u.lookup = Function.update t.lookup p (some e)) : u.remove p = t := by
  have hfits : u.Fits p none := by
    refine ⟨hp, fun h => absurd rfl h, fun _ q hq => ?_⟩
    by_cases hnil : q = []
    · exact Or.inl hnil
    · refine Or.inr fun hdrop => ?_
      have hqp : q ≠ p := by
        rintro rfl
        have hlen := congrArg List.length hdrop
        rw [List.length_dropLast] at hlen
        have := List.length_pos_of_ne_nil hnil
        omega
      have hlookup := (u.mem_paths q).mp hq
      rw [hu, Function.update_of_ne hqp] at hlookup
      have hup := directory_of_child hlookup hnil
      rw [hdrop, hnone] at hup
      cases hup
  apply ext_lookup
  rw [remove, dif_pos hfits]
  change Function.update u.lookup p none = t.lookup
  rw [hu, Function.update_idem, ← hnone, Function.update_eq_self]

end Tree

/-- A tree that comes from another by making these entries, one after the other. -/
inductive Made (base : Tree) : List (List String) → Tree → Prop
  | nothing : Made base [] base
  | entry {created : List (List String)} {t u : Tree} {p : List String} {e : Inode} (h : Made base created t)
      (hp : p ≠ []) (hnone : t.lookup p = none) (hu : u.lookup = Function.update t.lookup p (some e)) :
      Made base (created ++ [p]) u

namespace Made

variable {base t : Tree} {created : List (List String)} {p : List String}

/-- The rollback gives the tree back. -/
theorem rollback (h : Made base created t) : created.reverse.foldl Tree.remove t = base := by
  induction h with
  | nothing => rfl
  | entry h hp hnone hu ih =>
    rw [List.reverse_append, List.reverse_singleton, List.singleton_append, List.foldl_cons,
      Tree.remove_made hp hnone hu, ih]

theorem other (h : Made base created t) (hp : p ∉ created) : t.lookup p = base.lookup p := by
  induction h with
  | nothing => rfl
  | entry h _ _ hu ih =>
    rw [List.mem_append, List.mem_singleton, not_or] at hp
    rw [hu, Function.update_of_ne hp.2, ih hp.1]

theorem present (h : Made base created t) (hp : p ∈ created) : t.lookup p ≠ none := by
  induction h with
  | nothing => cases hp
  | @entry created t u q e h _ _ hu ih =>
    rw [hu]
    by_cases heq : p = q
    · rw [heq, Function.update_self]
      simp
    · rw [Function.update_of_ne heq]
      rcases List.mem_append.mp hp with hp | hp
      · exact ih hp
      · exact absurd (List.mem_singleton.mp hp) heq

theorem fresh (h : Made base created t) (hp : p ∈ created) : base.lookup p = none := by
  induction h with
  | nothing => cases hp
  | @entry created t u q e h _ hnone _ ih =>
    by_cases hin : p ∈ created
    · exact ih hin
    · rcases List.mem_append.mp hp with hp | hp
      · exact ih hp
      · rw [List.mem_singleton] at hp
        rw [← h.other hin, hp, hnone]

end Made

/-- What an entry of the publication looks like on the disk. -/
def inodeOf : Option (List UInt8) → Inode
  | none => .directory
  | some data => .file data

namespace Disk

variable {k : Kernel} {d d' : Disk} {c : Call} {e : Inode} {p : List String} {message : String}
  {data : Option (List UInt8)}

/-- A disk whose log only has new calls that did not fail. -/
def Passed (k : Kernel) (d d' : Disk) : Prop :=
  ∀ c ∈ d'.log, c ∈ d.log ∨ k.failing c = none

theorem Passed.trans {d'' : Disk} (h : Passed k d d') (h' : Passed k d' d'') : Passed k d d'' := by
  intro c hc
  rcases h' c hc with hc | hc
  · exact h c hc
  · exact Or.inr hc

theorem create_eq_ok (h : d.create k c e = (.ok (), d')) :
    Passed k d d' ∧ d.tree.lookup c.path = none ∧ c.path ≠ [] ∧
      d'.tree.lookup = Function.update d.tree.lookup c.path (some e) := by
  unfold create at h
  dsimp only at h
  split at h
  · cases h
  rename_i hfail
  split at h
  · cases h
  rename_i tree hcreate
  cases h
  obtain ⟨hnone, hne, -, hlookup⟩ := Tree.create_eq_ok hcreate
  refine ⟨fun x hx => ?_, hnone, hne, hlookup⟩
  rcases List.mem_append.mp hx with hx | hx
  · exact Or.inl hx
  · exact Or.inr (List.mem_singleton.mp hx ▸ hfail)

/-- A call that makes no entry changes nothing. -/
theorem create_eq_error (h : d.create k c e = (.error message, d')) :
    d'.tree = d.tree ∧ d'.log = d.log ++ [c] := by
  unfold create at h
  dsimp only at h
  split at h
  · cases h
    exact ⟨rfl, rfl⟩
  · split at h <;> cases h
    exact ⟨rfl, rfl⟩

/-- Where the publication stops: at a call that made nothing, or at a write. -/
inductive Stops (k : Kernel) (d d' : Disk) (p : List String) : Prop
  | clean (htree : d'.tree = d.tree) (hlog : ∀ c ∈ d'.log, c ∈ d.log ∨ k.failing c = none ∨ c.isWrite = false)
  | torn (f : Fault) (offset : ℕ) (written : List UInt8) (hf : k.fault = some f)
      (hcall : f.call = .write p offset) (hnone : d.tree.lookup p = none)
      (htree : d'.tree.lookup = Function.update d.tree.lookup p (some (.file written)))

/-- The writes of one file: they append the data, or one of them fails. -/
theorem writeLoop_cases {fuel offset : ℕ} {view written : List UInt8} (hfuel : view.length ≤ fuel)
    (hfile : d.tree.lookup p = some (.file written)) {r : Except String Unit}
    (h : d.writeLoop k p fuel offset view = (r, d')) :
    (r = .ok () ∧ Passed k d d' ∧
      d'.tree.lookup = Function.update d.tree.lookup p (some (.file (written ++ view)))) ∨
    ∃ message f at' part, r = .error message ∧ k.fault = some f ∧ f.call = .write p at' ∧
      d'.tree.lookup = Function.update d.tree.lookup p (some (.file part)) := by
  have hdone : view = [] → d' = d → r = .ok () → (r = .ok () ∧ Passed k d d' ∧
      d'.tree.lookup = Function.update d.tree.lookup p (some (.file (written ++ view)))) := by
    rintro rfl rfl hr
    refine ⟨hr, fun c hc => Or.inl hc, ?_⟩
    rw [List.append_nil, ← hfile, Function.update_eq_self]
  induction fuel generalizing offset view written d with
  | zero =>
    cases h
    exact Or.inl (hdone (List.length_eq_zero_iff.mp (by omega)) rfl rfl)
  | succ fuel ih =>
    rw [writeLoop] at h
    split_ifs at h with hview
    · cases h
      exact Or.inl (hdone hview rfl rfl)
    dsimp only at h
    split at h
    · rename_i message hfail
      cases h
      unfold Kernel.failing at hfail
      split at hfail
      · rename_i f hf
        split_ifs at hfail with hcall
        refine Or.inr ⟨message, f, offset, written, rfl, hf, hcall.symm, ?_⟩
        rw [← hfile, Function.update_eq_self]
      · cases hfail
    · rename_i hfail
      have hlen : 0 < view.length := List.length_pos_of_ne_nil hview
      set n := min (k.progress p offset + 1) view.length with hn
      have happend : (d.tree.append p (view.take n)).lookup = _ := Tree.append_lookup hfile
      have hfile' : (d.tree.append p (view.take n)).lookup p = some (.file (written ++ view.take n)) := by
        rw [happend, Function.update_self]
      have hfuel' : (view.drop n).length ≤ fuel := by
        rw [List.length_drop]
        omega
      have hrest := ih hfuel' hfile' h (by
        rintro hnil rfl hr
        refine ⟨hr, fun c hc => Or.inl hc, ?_⟩
        rw [hnil, List.append_nil, ← hfile', Function.update_eq_self])
      rw [happend] at hrest
      simp only [Function.update_idem, List.append_assoc, List.take_append_drop] at hrest
      rcases hrest with ⟨hr, hpassed, htree⟩ | hfault
      · refine Or.inl ⟨hr, fun c hc => ?_, htree⟩
        rcases hpassed c hc with hc | hc
        · rcases List.mem_append.mp hc with hc | hc
          · exact Or.inl hc
          · exact Or.inr (List.mem_singleton.mp hc ▸ hfail)
        · exact Or.inr hc
      · exact Or.inr hfault

theorem publishEntry_eq_ok (h : d.publishEntry k p data = (.ok (), d')) :
    Passed k d d' ∧ d.tree.lookup p = none ∧ p ≠ [] ∧
      d'.tree.lookup = Function.update d.tree.lookup p (some (inodeOf data)) := by
  cases data with
  | none => exact create_eq_ok h
  | some data =>
    unfold publishEntry at h
    dsimp only at h
    split at h
    · cases h
    rename_i d₁ hopen
    obtain ⟨hpassed, hnone, hne, htree⟩ := create_eq_ok hopen
    have hfile : d₁.tree.lookup p = some (.file []) := by
      rw [htree]
      exact Function.update_self ..
    rcases writeLoop_cases le_rfl hfile h with ⟨-, hpassed', htree'⟩ | ⟨m, f, o, part, hr, -⟩
    · refine ⟨hpassed.trans hpassed', hnone, hne, ?_⟩
      rw [htree', htree]
      exact Function.update_idem ..
    · cases hr

theorem publishEntry_eq_error (h : d.publishEntry k p data = (.error message, d')) : Stops k d d' p := by
  have hmade : ∀ {c e d₁}, c.isWrite = false → d.create k c e = (.error message, d₁) → Stops k d d₁ p := by
    intro c e d₁ hc hcreate
    obtain ⟨htree, hlog⟩ := create_eq_error hcreate
    refine .clean htree fun x hx => ?_
    rw [hlog] at hx
    rcases List.mem_append.mp hx with hx | hx
    · exact Or.inl hx
    · exact Or.inr (Or.inr (List.mem_singleton.mp hx ▸ hc))
  cases data with
  | none => exact hmade rfl h
  | some data =>
    unfold publishEntry at h
    dsimp only at h
    split at h
    · rename_i hopen
      cases h
      exact hmade rfl hopen
    rename_i d₁ hopen
    obtain ⟨-, hnone, -, htree⟩ := create_eq_ok hopen
    have hfile : d₁.tree.lookup p = some (.file []) := by
      rw [htree]
      exact Function.update_self ..
    rcases writeLoop_cases le_rfl hfile h with ⟨hr, -⟩ | ⟨m, f, o, part, -, hf, hcall, htree'⟩
    · cases hr
    · refine .torn f o part hf hcall hnone ?_
      rw [htree', htree]
      exact Function.update_idem ..

variable {prepared : List (List String × Option (List UInt8))} {created created' : List (List String)} {base : Tree}
  {r : Except String Unit}

/-- The loop over the entries: it makes all of them, or stops at one. -/
theorem publishLoop_cases (hm : Made base created d.tree) (h : publishLoop k prepared created d = (r, created', d')) :
    (r = .ok () ∧ Passed k d d' ∧ Made base created' d'.tree ∧ created' = created ++ prepared.map Prod.fst ∧
      (∀ p, d.tree.lookup p ≠ none → d'.tree.lookup p = d.tree.lookup p) ∧
      ∀ entry ∈ prepared, d'.tree.lookup entry.1 = some (inodeOf entry.2)) ∨
    ∃ message d₁ p, r = .error message ∧ Made base created' d₁.tree ∧ Passed k d d₁ ∧ Stops k d₁ d' p := by
  induction prepared generalizing d created with
  | nil =>
    cases h
    exact Or.inl ⟨rfl, fun c hc => Or.inl hc, hm, by simp, fun _ _ => rfl, by simp⟩
  | cons entry prepared ih =>
    obtain ⟨p, data⟩ := entry
    rw [publishLoop] at h
    split at h
    · rename_i message d₁ hentry
      cases h
      exact Or.inr ⟨message, d, p, rfl, hm, fun c hc => Or.inl hc, publishEntry_eq_error hentry⟩
    · rename_i d₁ hentry
      obtain ⟨hpassed, hnone, hne, htree⟩ := publishEntry_eq_ok hentry
      rcases ih (hm.entry hne hnone htree) h with ⟨hr, hrest, hm', hcreated, hkept, hall⟩ | ⟨m, d₂, q, hr, hm', hrest, hstop⟩
      · refine Or.inl ⟨hr, hpassed.trans hrest, hm', by simp [hcreated], fun q hq => ?_, ?_⟩
        · have hqp : q ≠ p := by
            rintro rfl
            exact hq hnone
          have hsame : d₁.tree.lookup q = d.tree.lookup q := by
            rw [htree]
            exact Function.update_of_ne hqp ..
          rw [hkept q (hsame ▸ hq), hsame]
        · refine List.forall_mem_cons.mpr ⟨?_, hall⟩
          have hp : d₁.tree.lookup p = some (inodeOf data) := by
            rw [htree]
            exact Function.update_self ..
          rw [hkept p (by simp [hp]), hp]
      · exact Or.inr ⟨m, d₂, q, hr, hm', hpassed.trans hrest, hstop⟩

end Disk

/-- Publication of all entries or of none, when `r` is how it ended. -/
structure AllOrNone (w : NativeWorkspace) (k : Kernel) (tree : Tree) (entries : Dict String (Option (List UInt8)))
    (maximum : ℕ) (r : Except String Unit × Disk) : Prop where
  /-- Nothing that was there is overwritten. -/
  kept : ∀ p, tree.lookup p ≠ none → r.2.tree.lookup p = tree.lookup p
  /-- A failure leaves the tree as it was. -/
  none : ∀ message, r.1 = .error message → r.2.tree = tree
  /-- A call that fails makes the publication fail. -/
  failed : ∀ f, k.fault = some f → ∃ message, r.1 = .error message
  /-- An accepted publication of distinct targets succeeds when no call fails. -/
  succeeds : k.fault = Option.none → ∀ prepared, (tree.mounted w).preflight entries maximum = .ok prepared →
    (prepared.map Prod.fst).Nodup → r.1 = .ok ()
  /-- Then the entries are there, and nothing else is new. -/
  made : r.1 = .ok () → ∀ p, r.2.tree.lookup p ≠ tree.lookup p → ∃ entry ∈ entries.entries, w.parts entry.1 = .ok p
  all : r.1 = .ok () → ∀ entry ∈ entries.entries,
    ∃ p, w.parts entry.1 = .ok p ∧ r.2.tree.lookup p = some (inodeOf entry.2)

section Preflight

variable {w : NativeWorkspace} {k : Kernel} {tree : Tree} {entries : Dict String (Option (List UInt8))}
  {maximum : ℕ} {prepared : List (List String × Option (List UInt8))}

theorem NativeWorkspace.prepare_eq_ok {planned : List (List String)} {entry : String × Option (List UInt8)}
    {target : List String × Option (List UInt8)} (h : w.prepare planned maximum entry = .ok target) :
    w.parts entry.1 = .ok target.1 ∧ target.2 = entry.2 ∧ target.1 ≠ [] ∧ w.lstat target.1 = .missing ∧
      ∃ parent, w.walkExisting (existingPrefix planned target.1.length target.1.dropLast) = .ok parent ∧
        w.lstat parent = .directory := by
  simp only [NativeWorkspace.prepare, except_bind_eq_ok, require_eq_ok, exists_const, except_pure_eq_ok] at h
  obtain ⟨-, parts, hparts, hne, parent, hparent, hdir, hmissing, rfl⟩ := h
  exact ⟨hparts, rfl, hne, hmissing, parent, hparent, hdir⟩

/-- The targets are the entries, each with what its path is read as. -/
theorem NativeWorkspace.mem_preflight (h : w.preflight entries maximum = .ok prepared) :
    (∀ entry ∈ entries.entries, ∃ p, w.parts entry.1 = .ok p ∧ (p, entry.2) ∈ prepared) ∧
      ∀ target ∈ prepared, ∃ entry ∈ entries.entries, w.parts entry.1 = .ok target.1 ∧ entry.2 = target.2 := by
  simp only [NativeWorkspace.preflight, except_bind_eq_ok] at h
  obtain ⟨planned, -, keyed, hkeyed, h⟩ := h
  constructor
  · intro entry hentry
    obtain ⟨key, hkey, hpair⟩ := exists_of_mapM_eq_ok hkeyed hentry
    simp only [except_bind_eq_ok, except_pure_eq_ok] at hpair
    obtain ⟨parts, -, rfl⟩ := hpair
    obtain ⟨target, htarget, hprep⟩ := exists_of_mapM_eq_ok h ((List.mem_insertionSort _).mpr hkey)
    obtain ⟨hparts, hdata, -⟩ := prepare_eq_ok hprep
    exact ⟨target.1, hparts, hdata ▸ htarget⟩
  · intro target htarget
    obtain ⟨key, hkey, hprep⟩ := exists_of_mem_mapM h htarget
    obtain ⟨hparts, hdata, -⟩ := prepare_eq_ok hprep
    obtain ⟨entry, hentry, hpair⟩ := exists_of_mem_mapM hkeyed ((List.mem_insertionSort _).mp hkey)
    simp only [except_bind_eq_ok, except_pure_eq_ok] at hpair
    obtain ⟨parts, -, rfl⟩ := hpair
    exact ⟨entry, hentry, hparts, hdata.symm⟩

theorem Kernel.failing_call {f : Fault} (hf : k.fault = some f) : k.failing f.call = some f.message := by
  rw [Kernel.failing, hf]
  exact if_pos rfl

theorem foldl_remove_lookup {created : List (List String)} {p : List String} (hp : p ∉ created) (t : Tree) :
    (created.foldl Tree.remove t).lookup p = t.lookup p := by
  induction created generalizing t with
  | nil => rfl
  | cons q created ih =>
    rw [List.mem_cons, not_or] at hp
    rw [List.foldl_cons, ih hp.2, Tree.remove_lookup_of_ne hp.1]

/-- How a publication ends: before its first call, complete, rolled back, or torn at a write. -/
inductive Ends (w : NativeWorkspace) (k : Kernel) (tree : Tree) (entries : Dict String (Option (List UInt8))) :
    Except String Unit × Disk → Prop
  | rejected (message : String) : Ends w k tree entries (.error message, ⟨tree, []⟩)
  | complete {d : Disk} {created : List (List String)} (hm : Made tree created d.tree)
      (hlog : ∀ c ∈ d.log, k.failing c = none)
      (hall : ∀ entry ∈ entries.entries, ∃ p, w.parts entry.1 = .ok p ∧ d.tree.lookup p = some (inodeOf entry.2))
      (hmade : ∀ p ∈ created, ∃ entry ∈ entries.entries, w.parts entry.1 = .ok p) : Ends w k tree entries (.ok (), d)
  | rolledBack (message : String) {log : List Call}
      (hlog : ∀ c ∈ log, k.failing c = none ∨ c.isWrite = false) : Ends w k tree entries (.error message, ⟨tree, log⟩)
  | torn (message : String) {d : Disk} (f : Fault) (p : List String) (offset : ℕ) (hf : k.fault = some f)
      (hcall : f.call = .write p offset) (hnone : tree.lookup p = none) (hleft : d.tree.lookup p ≠ none)
      (hkept : ∀ q, tree.lookup q ≠ none → d.tree.lookup q = tree.lookup q) : Ends w k tree entries (.error message, d)

theorem publishMany_ends (w : NativeWorkspace) (k : Kernel) (tree : Tree) (entries : Dict String (Option (List UInt8)))
    (maximum : ℕ) : Ends w k tree entries (publishMany w k tree entries maximum) := by
  unfold publishMany
  split
  · exact .rejected _
  rename_i prepared hpre
  obtain ⟨hfrom, hto⟩ := NativeWorkspace.mem_preflight (w := tree.mounted w) hpre
  rcases hloop : Disk.publishLoop k prepared [] ⟨tree, []⟩ with ⟨r, created, d⟩
  have hstart : Made tree [] tree := .nothing
  have hcases := Disk.publishLoop_cases hstart hloop
  rcases hcases with ⟨rfl, hpassed, hm, hcreated, -, hall⟩ | ⟨message, d₁, p, rfl, hm, hpassed, hstop⟩
  · refine .complete hm (fun c hc => (hpassed c hc).resolve_left (by simp)) (fun entry hentry => ?_) fun p hp => ?_
    · obtain ⟨p, hparts, hmem⟩ := hfrom entry hentry
      exact ⟨p, hparts, hall _ hmem⟩
    · rw [hcreated, List.nil_append, List.mem_map] at hp
      obtain ⟨target, htarget, rfl⟩ := hp
      obtain ⟨entry, hentry, hparts, -⟩ := hto target htarget
      exact ⟨entry, hentry, hparts⟩
  · have hbefore : ∀ c ∈ d₁.log, k.failing c = none := fun c hc => (hpassed c hc).resolve_left (by simp)
    cases hstop with
    | clean htree hlog =>
      dsimp only
      rw [htree, hm.rollback]
      refine .rolledBack message fun c hc => ?_
      rcases hlog c hc with hc | hc
      · exact Or.inl (hbefore c hc)
      · exact hc
    | torn f offset written hf hcall hnone htree =>
      have hp : p ∉ created := fun hp => hm.present hp hnone
      have hlookup : ∀ q, q ∉ created → (created.reverse.foldl Tree.remove d.tree).lookup q = d.tree.lookup q :=
        fun q hq => foldl_remove_lookup (by simpa using hq) d.tree
      refine .torn message f p offset hf hcall ((hm.other hp).symm.trans hnone) ?_ fun q hq => ?_
      · change (created.reverse.foldl Tree.remove d.tree).lookup p ≠ none
        rw [hlookup p hp, htree, Function.update_self]
        simp
      · have hqc : q ∉ created := fun hqc => hq (hm.fresh hqc)
        have hqp : q ≠ p := by
          rintro rfl
          exact hq ((hm.other hp).symm.trans hnone)
        change (created.reverse.foldl Tree.remove d.tree).lookup q = tree.lookup q
        rw [hlookup q hqc, htree, Function.update_of_ne hqp, hm.other hqc]

end Preflight

section Adequate

variable {w : NativeWorkspace} {k : Kernel} {tree : Tree} {entries : Dict String (Option (List UInt8))}
  {maximum : ℕ} {prepared : List (List String × Option (List UInt8))} {planned : List (List String)}
  {p q seen rest : List String}

theorem existingPrefix_spec {fuel : ℕ} (hfuel : p.length ≤ fuel) :
    existingPrefix planned fuel p <+: p ∧
      ∀ q, q <+: p → ¬ q <+: existingPrefix planned fuel p → q ∈ planned := by
  induction fuel generalizing p with
  | zero => exact ⟨List.prefix_rfl, fun q hq hnot => absurd hq hnot⟩
  | succ fuel ih =>
    rw [existingPrefix]
    split_ifs with hp
    · obtain ⟨hup, hall⟩ := ih (p := p.dropLast) (by rw [List.length_dropLast]; omega)
      refine ⟨hup.trans (List.dropLast_prefix p), fun q hq hnot => ?_⟩
      by_cases heq : q = p
      · exact heq ▸ hp
      · refine hall q ?_ hnot
        rw [List.dropLast_eq_take]
        refine List.prefix_take_iff.mpr ⟨hq, ?_⟩
        have hlen := hq.length_le
        have hne : q.length ≠ p.length := fun hlen => heq (hq.eq_of_length hlen)
        omega
    · exact ⟨List.prefix_rfl, fun q hq hnot => absurd hq hnot⟩

/-- A walk that gets to a directory went through directories only. -/
theorem NativeWorkspace.walk_directories (h : w.walk seen rest = .ok ()) (hend : w.lstat (seen ++ rest) = .directory)
    (hroot : w.lstat seen = .directory) (hq : q <+: rest) : w.lstat (seen ++ q) = .directory := by
  induction rest generalizing seen q with
  | nil =>
    rw [List.prefix_nil.mp hq, List.append_nil]
    exact hroot
  | cons name rest ih =>
    cases q with
    | nil => simpa using hroot
    | cons name' q =>
      obtain ⟨rfl, htail⟩ := List.cons_prefix_cons.mp hq
      have hsplit : ∀ x : List String, seen ++ name' :: x = seen ++ [name'] ++ x := by simp
      rw [NativeWorkspace.walk] at h
      split at h
      · cases h
      · cases h
      · cases h
      · split_ifs at h with hlast
        rw [hsplit] at hend ⊢
        refine ih h hend ?_ htail
        by_cases hrest : rest = []
        · simpa [hrest] using hend
        · by_contra hdir
          exact hlast ⟨hrest, hdir⟩

theorem Tree.lookup_of_lstat_directory (h : tree.lstat p = .directory) : tree.lookup p = some .directory := by
  unfold Tree.lstat at h
  split at h <;> cases h
  assumption

theorem Tree.lookup_of_lstat_missing (h : tree.lstat p = .missing) : tree.lookup p = none := by
  unfold Tree.lstat at h
  split at h <;> cases h
  assumption

/-- What a checked target has above it: directories, and below them directories that are planned. -/
theorem prepare_above {entry : String × Option (List UInt8)} {target : List String × Option (List UInt8)}
    (h : (tree.mounted w).prepare planned maximum entry = .ok target) (hq : q <+: target.1.dropLast) :
    tree.lookup q = some .directory ∨ q ∈ planned := by
  obtain ⟨-, -, -, -, parent, hwalk, hdir⟩ := NativeWorkspace.prepare_eq_ok h
  simp only [NativeWorkspace.walkExisting, except_bind_eq_ok, except_pure_eq_ok] at hwalk
  obtain ⟨-, -, ⟨⟩, hwalk, rfl⟩ := hwalk
  have hfuel : target.1.dropLast.length ≤ target.1.length := by
    rw [List.length_dropLast]
    omega
  obtain ⟨-, hall⟩ : _ ∧ ∀ q, q <+: target.1.dropLast → _ → q ∈ planned := existingPrefix_spec hfuel
  by_cases hin : q <+: existingPrefix planned target.1.length target.1.dropLast
  · have hroot : (tree.mounted w).lstat [] = .directory := by
      change tree.lstat [] = .directory
      rw [Tree.lstat, tree.root]
    have := NativeWorkspace.walk_directories hwalk hdir hroot hin
    exact Or.inl (Tree.lookup_of_lstat_directory this)
  · exact Or.inr (hall q hq hin)

/-- What the targets of an accepted publication look like. -/
structure Accepted (tree : Tree) (prepared : List (List String × Option (List UInt8))) : Prop where
  missing : ∀ target ∈ prepared, target.1 ≠ [] ∧ tree.lookup target.1 = none
  above : ∀ target ∈ prepared, ∀ q, q <+: target.1.dropLast →
    tree.lookup q = some .directory ∨ (q, none) ∈ prepared
  sorted : prepared.Pairwise fun a b => a.1.length ≤ b.1.length

theorem targetBefore_total (a b : ℕ × String × Option (List UInt8)) :
    NativeWorkspace.targetBefore a b ∨ NativeWorkspace.targetBefore b a := by
  unfold NativeWorkspace.targetBefore
  rcases lt_trichotomy a.1 b.1 with h | h | h
  · exact Or.inl (Or.inl h)
  · rcases le_total a.2.1 b.2.1 with hs | hs
    · exact Or.inl (Or.inr ⟨h, hs⟩)
    · exact Or.inr (Or.inr ⟨h.symm, hs⟩)
  · exact Or.inr (Or.inl h)

theorem targetBefore_trans {a b c : ℕ × String × Option (List UInt8)} (hab : NativeWorkspace.targetBefore a b)
    (hbc : NativeWorkspace.targetBefore b c) : NativeWorkspace.targetBefore a c := by
  unfold NativeWorkspace.targetBefore at *
  rcases hab with hab | ⟨hab, hs⟩ <;> rcases hbc with hbc | ⟨hbc, hs'⟩
  · exact Or.inl (by omega)
  · exact Or.inl (by omega)
  · exact Or.inl (by omega)
  · exact Or.inr ⟨by omega, hs.trans hs'⟩

theorem preflight_accepted (h : (tree.mounted w).preflight entries maximum = .ok prepared) :
    Accepted tree prepared := by
  obtain ⟨hfrom, -⟩ := NativeWorkspace.mem_preflight h
  simp only [NativeWorkspace.preflight, except_bind_eq_ok] at h
  obtain ⟨planned, hplanned, keyed, hkeyed, h⟩ := h
  refine ⟨fun target htarget => ?_, fun target htarget q hq => ?_, ?_⟩
  · obtain ⟨key, -, hprep⟩ := exists_of_mem_mapM h htarget
    obtain ⟨-, -, hne, hmissing, -⟩ := NativeWorkspace.prepare_eq_ok hprep
    exact ⟨hne, Tree.lookup_of_lstat_missing hmissing⟩
  · obtain ⟨key, -, hprep⟩ := exists_of_mem_mapM h htarget
    refine (prepare_above hprep hq).imp_right fun hin => ?_
    obtain ⟨entry, hentry, hparts⟩ := exists_of_mem_mapM hplanned hin
    rw [List.mem_filter, decide_eq_true_eq] at hentry
    obtain ⟨p, hp, hmem⟩ := hfrom entry hentry.1
    rw [hparts] at hp
    cases hp
    exact hentry.2 ▸ hmem
  · have hkeys : prepared.map (·.1.length) = (keyed.insertionSort NativeWorkspace.targetBefore).map Prod.fst := by
      rw [mapM_eq_ok_iff] at h
      have hlen : ∀ key ∈ keyed.insertionSort NativeWorkspace.targetBefore,
          ∃ entry ∈ entries.entries, ∃ parts, w.parts entry.1 = .ok parts ∧ key = (parts.length, entry) := by
        intro key hkey
        obtain ⟨entry, hentry, hpair⟩ := exists_of_mem_mapM hkeyed ((List.mem_insertionSort _).mp hkey)
        simp only [except_bind_eq_ok, except_pure_eq_ok] at hpair
        obtain ⟨parts, hparts, rfl⟩ := hpair
        exact ⟨entry, hentry, parts, hparts, rfl⟩
      clear hfrom
      generalize keyed.insertionSort NativeWorkspace.targetBefore = keys at h hlen ⊢
      induction h with
      | nil => rfl
      | cons hprep _ ih =>
        rw [List.forall_mem_cons] at hlen
        obtain ⟨⟨entry, -, parts, hparts, rfl⟩, hlen⟩ := hlen
        obtain ⟨htarget, -⟩ := NativeWorkspace.prepare_eq_ok hprep
        have heq := Except.ok.inj (hparts.symm.trans htarget)
        rw [List.map_cons, List.map_cons, ih hlen, heq]
    have hpair : ((keyed.insertionSort NativeWorkspace.targetBefore).map Prod.fst).Pairwise (· ≤ ·) := by
      have : Std.Total NativeWorkspace.targetBefore := ⟨targetBefore_total⟩
      have : IsTrans _ NativeWorkspace.targetBefore := ⟨fun _ _ _ => targetBefore_trans⟩
      refine List.Pairwise.map _ (fun a b hab => ?_) (List.pairwise_insertionSort NativeWorkspace.targetBefore keyed)
      rcases hab with hab | ⟨hab, -⟩ <;> omega
    rw [← hkeys, List.pairwise_map] at hpair
    exact hpair

theorem mem_logged {log : List Call} {c c₀ : Call} (hc : c ∈ log ++ [c₀]) : c ∈ log ∨ c₀.path = c.path := by
  rcases List.mem_append.mp hc with hc | hc
  · exact Or.inl hc
  · rw [List.mem_singleton.mp hc]
    exact Or.inr rfl

/-- Every call goes to a target that was checked. -/
theorem Disk.publishLoop_log {created created' : List (List String)} {d d' : Disk} {r : Except String Unit}
    (h : Disk.publishLoop k prepared created d = (r, created', d')) {c : Call} (hc : c ∈ d'.log) :
    c ∈ d.log ∨ ∃ target ∈ prepared, target.1 = c.path := by
  have hcreate : ∀ {d d' : Disk} {c₀ : Call} {e r}, d.create k c₀ e = (r, d') → d'.log = d.log ++ [c₀] := by
    intro d d' c₀ e r h
    unfold Disk.create at h
    dsimp only at h
    split at h
    · cases h
      rfl
    · split at h <;> cases h <;> rfl
  have hwrite : ∀ {p : List String} {fuel offset : ℕ} {view : List UInt8} {d d' : Disk} {r},
      d.writeLoop k p fuel offset view = (r, d') → ∀ c ∈ d'.log, c ∈ d.log ∨ p = c.path := by
    intro p fuel
    induction fuel with
    | zero =>
      intro offset view d d' r h c hc
      cases h
      exact Or.inl hc
    | succ fuel ih =>
      intro offset view d d' r h c hc
      rw [Disk.writeLoop] at h
      split_ifs at h
      · cases h
        exact Or.inl hc
      dsimp only at h
      split at h
      · cases h
        exact mem_logged hc
      · exact (ih h c hc).elim mem_logged Or.inr
  induction prepared generalizing created d with
  | nil =>
    cases h
    exact Or.inl hc
  | cons target prepared ih =>
    obtain ⟨p, data⟩ := target
    have hentry : ∀ {d₁ r}, d.publishEntry k p data = (r, d₁) → ∀ c ∈ d₁.log, c ∈ d.log ∨ p = c.path := by
      intro d₁ r h c hc
      cases data with
      | none =>
        rw [hcreate h] at hc
        exact mem_logged hc
      | some data =>
        unfold Disk.publishEntry at h
        dsimp only at h
        split at h
        · rename_i hopen
          cases h
          rw [hcreate hopen] at hc
          exact mem_logged hc
        · rename_i d₂ hopen
          rcases hwrite h c hc with hc | hc
          · rw [hcreate hopen] at hc
            exact mem_logged hc
          · exact Or.inr hc
    rw [Disk.publishLoop] at h
    split at h
    · rename_i m d₁ hfirst
      cases h
      exact (hentry hfirst c hc).imp_right fun hp => ⟨(p, data), by simp, hp⟩
    · rename_i d₁ hfirst
      rcases ih h with hc | ⟨target, htarget, hp⟩
      · exact (hentry hfirst c hc).imp_right fun hp => ⟨(p, data), by simp, hp⟩
      · exact Or.inr ⟨target, by simp [htarget], hp⟩

/-- No call goes through a symbolic link. -/
theorem publishMany_inside (w : NativeWorkspace) (k : Kernel) (tree : Tree)
    (entries : Dict String (Option (List UInt8))) (maximum : ℕ) {c : Call}
    (hc : c ∈ (publishMany w k tree entries maximum).2.log) (hq : q <+: c.path.dropLast) :
    tree.lookup q ≠ some .symlink := by
  unfold publishMany at hc
  split at hc
  · cases hc
  rename_i prepared hpre
  have hacc := preflight_accepted hpre
  rcases hloop : Disk.publishLoop k prepared [] ⟨tree, []⟩ with ⟨r, created, d⟩
  rw [hloop] at hc
  have hlog : c ∈ d.log := by
    cases r <;> exact hc
  rcases Disk.publishLoop_log hloop hlog with hlog | ⟨target, htarget, hp⟩
  · cases hlog
  · rcases hacc.above target htarget q (hp ▸ hq) with hdir | hin
    · simp [hdir]
    · simp [(hacc.missing _ hin).2]

theorem Disk.create_succeeds (hfault : k.fault = none) {d : Disk} {c : Call} {e : Inode} (hp : c.path ≠ [])
    (hnone : d.tree.lookup c.path = none) (hdir : d.tree.lookup c.path.dropLast = some .directory) :
    ∃ d', d.create k c e = (.ok (), d') := by
  obtain ⟨u, hu⟩ := Tree.create_ok (e := e) hp hnone hdir
  refine ⟨⟨u, d.log ++ [c]⟩, ?_⟩
  simp only [Disk.create, Kernel.failing, hfault, hu]

theorem Disk.publishLoop_succeeds (hfault : k.fault = none) {created : List (List String)} {d : Disk}
    (hdistinct : (prepared.map Prod.fst).Nodup) (hsorted : prepared.Pairwise fun a b => a.1.length ≤ b.1.length)
    (hmissing : ∀ target ∈ prepared, target.1 ≠ [] ∧ d.tree.lookup target.1 = none)
    (habove : ∀ target ∈ prepared,
      d.tree.lookup target.1.dropLast = some .directory ∨ (target.1.dropLast, none) ∈ prepared) :
    (Disk.publishLoop k prepared created d).1 = .ok () := by
  induction prepared generalizing created d with
  | nil => rfl
  | cons target prepared ih =>
    obtain ⟨p, data⟩ := target
    rw [List.map_cons, List.nodup_cons] at hdistinct
    rw [List.pairwise_cons] at hsorted
    obtain ⟨hp, hnone⟩ := hmissing (p, data) (by simp)
    dsimp only at hp hnone
    have hlen : p.dropLast.length < p.length := by
      have := List.length_pos_of_ne_nil hp
      rw [List.length_dropLast]
      omega
    have hdir : d.tree.lookup p.dropLast = some .directory := by
      refine (habove (p, data) (by simp)).resolve_right fun hin => ?_
      rcases List.mem_cons.mp hin with hin | hin
      · rw [Prod.mk.injEq] at hin
        rw [hin.1] at hlen
        omega
      · have := hsorted.1 _ hin
        dsimp only at this
        omega
    obtain ⟨d', hentry⟩ : ∃ d', d.publishEntry k p data = (.ok (), d') := by
      cases data with
      | none => exact Disk.create_succeeds (c := .mkdir p) hfault hp hnone hdir
      | some data =>
        obtain ⟨d₁, hopen⟩ := Disk.create_succeeds (c := .open p) (e := .file []) hfault hp hnone hdir
        obtain ⟨-, -, -, htree⟩ := Disk.create_eq_ok hopen
        have hfile : d₁.tree.lookup p = some (.file []) := by
          rw [htree]
          exact Function.update_self ..
        rcases hwrite : d₁.writeLoop k p data.length 0 data with ⟨r, d₂⟩
        refine ⟨d₂, ?_⟩
        simp only [Disk.publishEntry, hopen, hwrite]
        rcases Disk.writeLoop_cases le_rfl hfile hwrite with ⟨rfl, -⟩ | ⟨m, f, o, part, -, hf, -⟩
        · rfl
        · rw [hfault] at hf
          cases hf
    obtain ⟨-, -, -, htree⟩ := Disk.publishEntry_eq_ok hentry
    rw [Disk.publishLoop, hentry]
    refine ih hdistinct.2 hsorted.2 (fun target htarget => ?_) fun target htarget => ?_
    · obtain ⟨hne, hmiss⟩ := hmissing target (by simp [htarget])
      refine ⟨hne, ?_⟩
      have hneq : target.1 ≠ p := fun heq => hdistinct.1 (List.mem_map.mpr ⟨target, htarget, heq⟩)
      rw [htree, Function.update_of_ne hneq, hmiss]
    · by_cases heq : target.1.dropLast = p
      · rcases habove target (by simp [htarget]) with hup | hin
        · rw [heq, hnone] at hup
          cases hup
        · rcases List.mem_cons.mp hin with hin | hin
          · rw [Prod.mk.injEq] at hin
            left
            rw [htree, heq, Function.update_self, ← hin.2]
            rfl
          · exact Or.inr hin
      · rw [htree, Function.update_of_ne heq]
        rcases habove target (by simp [htarget]) with hup | hin
        · exact Or.inl hup
        · rcases List.mem_cons.mp hin with hin | hin
          · rw [Prod.mk.injEq] at hin
            exact absurd hin.1 heq
          · exact Or.inr hin

/-- An accepted publication of distinct targets is complete unless a call goes wrong. -/
theorem publishMany_succeeds (hfault : k.fault = none)
    (hpre : (tree.mounted w).preflight entries maximum = .ok prepared)
    (hdistinct : (prepared.map Prod.fst).Nodup) : (publishMany w k tree entries maximum).1 = .ok () := by
  have hacc := preflight_accepted hpre
  have hloop : (Disk.publishLoop k prepared [] ⟨tree, []⟩).1 = .ok () :=
    Disk.publishLoop_succeeds hfault hdistinct hacc.sorted hacc.missing
      fun target htarget => hacc.above target htarget _ List.prefix_rfl
  unfold publishMany
  rw [hpre]
  dsimp only
  rcases hrun : Disk.publishLoop k prepared [] ⟨tree, []⟩ with ⟨r, created, d⟩
  rw [hrun] at hloop
  dsimp only at hloop
  subst hloop
  rfl

end Adequate

/-- A publication is all or none just when the call that goes wrong, if any, is no write. -/
theorem publish_all_or_none (w : NativeWorkspace) (k : Kernel) (tree : Tree)
    (entries : Dict String (Option (List UInt8))) (maximum : ℕ)
    (hmade : ∀ f, k.fault = some f → f.call ∈ (publishMany w k tree entries maximum).2.log) :
    AllOrNone w k tree entries maximum (publishMany w k tree entries maximum) ↔
      ∀ f, k.fault = some f → f.call.isWrite = false := by
  have hends := publishMany_ends w k tree entries maximum
  have hsucceeds := @publishMany_succeeds w k tree entries maximum
  generalize publishMany w k tree entries maximum = r at hends hmade hsucceeds ⊢
  cases hends with
  | rejected message =>
    have hnofault : ∀ f, k.fault = some f → False := fun f hf => by simpa using hmade f hf
    refine ⟨fun _ f hf => absurd (hnofault f hf) id, fun _ => ?_⟩
    exact ⟨fun _ _ => rfl, fun _ _ => rfl, fun f hf => absurd (hnofault f hf) id,
      fun hno prepared hpre hd => hsucceeds hno hpre hd, nofun, nofun⟩
  | @complete d created hm hlog hall hentries =>
    have hnofault : ∀ f, k.fault = some f → False := by
      intro f hf
      have hfail := hlog _ (hmade f hf)
      rw [Kernel.failing_call hf] at hfail
      cases hfail
    refine ⟨fun _ f hf => absurd (hnofault f hf) id, fun _ => ?_⟩
    refine ⟨fun p hp => ?_, nofun, fun f hf => absurd (hnofault f hf) id, fun _ _ _ _ => rfl, fun _ p hp => ?_,
      fun _ => hall⟩
    · exact hm.other fun hc => hp (hm.fresh hc)
    · exact hentries p (by_contra fun hc => hp (hm.other hc))
  | rolledBack message hlog =>
    refine ⟨fun _ f hf => ?_, fun _ => ⟨fun _ _ => rfl, fun _ _ => rfl, fun _ _ => ⟨message, rfl⟩,
      fun hno prepared hpre hd => hsucceeds hno hpre hd, nofun, nofun⟩⟩
    refine (hlog _ (hmade f hf)).resolve_left fun hfail => ?_
    rw [Kernel.failing_call hf] at hfail
    cases hfail
  | @torn message d f p offset hf hcall hnone hleft hkept =>
    constructor
    · intro h
      rw [h.none message rfl] at hleft
      exact absurd hnone hleft
    · intro h
      have hwrite := h f hf
      rw [hcall] at hwrite
      cases hwrite

section Sample

def emptyTree : Tree where
  lookup p := if p = [] then some .directory else none
  paths := {[]}
  mem_paths p := by by_cases hp : p = [] <;> simp [hp]
  root := rfl
  parent p name h := by simp at h

def emptyWorkspace : NativeWorkspace where
  cwdParts := []
  cwd_component := components_nil
  rootKept := true
  lstat _ := .missing

/-- One file of one byte. -/
def oneEntry : Dict String (Option (List UInt8)) := ⟨[("/a", some [7])], by simp⟩

/-- A disk that is full. -/
def fullDisk : Kernel := ⟨some (.raises (.write ["a"] 0) "No space left on device"), fun _ _ => 0⟩

/-- A directory, a file in it and a file beside it. -/
def threeEntries : Dict String (Option (List UInt8)) := ⟨[("/d/a", some [7, 8]), ("/d", none), ("/b", some [9])], by simp⟩

/-- A tree with one file. -/
def oneFileTree : Tree := emptyTree.put ["x"] (some (.file [1])) (by decide)

/-- A disk on which the file in the directory cannot be made. -/
def sealedDisk : Kernel := ⟨some (.raises (.open ["d", "a"]) "Permission denied"), fun _ _ => 0⟩

/-- The directory and the file beside it are made before the call that fails. -/
theorem publish_all_or_none_sealed :
    AllOrNone emptyWorkspace sealedDisk oneFileTree threeEntries 8
        (publishMany emptyWorkspace sealedDisk oneFileTree threeEntries 8) ↔
      ∀ f, sealedDisk.fault = some f → f.call.isWrite = false := by
  have hlog : (publishMany emptyWorkspace sealedDisk oneFileTree threeEntries 8).2.log =
      [.open ["b"], .write ["b"] 0, .mkdir ["d"], .open ["d", "a"]] := by decide +kernel
  exact publish_all_or_none emptyWorkspace sealedDisk oneFileTree threeEntries 8 fun f hf => by
    cases hf
    rw [hlog]
    decide

/-- On a full disk the publication fails, and leaves an empty file behind. -/
theorem publish_torn : ¬ ∀ (w : NativeWorkspace) (k : Kernel) (tree : Tree)
    (entries : Dict String (Option (List UInt8))) (maximum : ℕ),
    (∀ f, k.fault = some f → f.call ∈ (publishMany w k tree entries maximum).2.log) →
    AllOrNone w k tree entries maximum (publishMany w k tree entries maximum) := by
  intro h
  have hlog : (publishMany emptyWorkspace fullDisk emptyTree oneEntry 8).2.log = [.open ["a"], .write ["a"] 0] := by
    decide +kernel
  have hall := h emptyWorkspace fullDisk emptyTree oneEntry 8 fun f hf => by
    cases hf
    rw [hlog]
    exact List.mem_cons_of_mem _ (List.mem_singleton_self _)
  obtain ⟨message, herror⟩ := hall.failed _ rfl
  have hleft : (publishMany emptyWorkspace fullDisk emptyTree oneEntry 8).2.tree.lookup ["a"] = some (.file []) := by
    decide +kernel
  rw [hall.none message herror] at hleft
  cases hleft

end Sample

end Raveil.Command
