import Raveil.Command.Json

/-! Virtual paths: how a workspace reads them and what exists below its root. -/
namespace Raveil.Command

def MAX_PATH_BYTES : ℕ := 4096

/-- The names of a `PurePosixPath`, without its root. -/
def pureNames (path : String) : List String :=
  ((path.toList.splitOn '/').map String.ofList).filter fun name => name ≠ "" ∧ name ≠ "."

def isAbsolute (path : String) : Bool := path.toList.head? = some '/'

/-- What a virtual path is made of. -/
structure IsComponent (name : String) : Prop where
  nonempty : name ≠ ""
  notHere : name ≠ "."
  notParent : name ≠ ".."
  noSlash : '/' ∉ name.toList
  noNul : '\x00' ∉ name.toList

/-- What `lstat` says. -/
inductive Lstat where
  | missing
  | unavailable (strerror : String)
  | symlink
  | directory
  | regular
  | special
  deriving DecidableEq

theorem components_nil : ∀ name ∈ ([] : List String), IsComponent name := List.forall_mem_nil _

/-- A workspace and the tree below its root. -/
structure NativeWorkspace where
  cwdParts : List String
  cwd_component : ∀ name ∈ cwdParts, IsComponent name
  /-- The root has the device and inode it had at first. -/
  rootKept : Bool
  lstat : List String → Lstat

namespace NativeWorkspace

def checkTextPath (path : String) : Except String Unit :=
  if path = "" then .error "path must not be empty"
  else if '\x00' ∈ path.toList then .error "path contains NUL"
  else if encodedLength path > MAX_PATH_BYTES then .error "path exceeds 4096 bytes"
  else .ok ()

/-- The loop over the components. -/
def appendParts : List String → List String → Except String (List String)
  | parts, [] => .ok parts
  | parts, component :: rest =>
    if component = "" ∨ component = "." then appendParts parts rest
    else if component = ".." then .error "parent traversal '..' is not allowed"
    else if '/' ∈ component.toList then .error "invalid path component"
    else appendParts (parts ++ [component]) rest

def parts (w : NativeWorkspace) (path : String) : Except String (List String) := do
  checkTextPath path
  appendParts (if isAbsolute path then [] else w.cwdParts) (pureNames path)

end NativeWorkspace

/-- `NativeWorkspace._virtual`. -/
def virtual (parts : List String) : String :=
  if parts = [] then "/" else "/" ++ "/".intercalate parts

namespace NativeWorkspace

def normalize (w : NativeWorkspace) (path : String) : Except String String := do
  let parts ← w.parts path
  return virtual parts

def checkRoot (w : NativeWorkspace) : Except String Unit :=
  match w.lstat [] with
  | .missing | .unavailable _ => .error "workspace root is no longer available"
  | .directory => if w.rootKept then .ok () else .error "workspace root was replaced"
  | _ => .error "workspace root was replaced"

/-- The walk along `rest`, below the names already seen. -/
def walk (w : NativeWorkspace) (seen : List String) : List String → Except String Unit
  | [] => .ok ()
  | component :: rest =>
    match w.lstat (seen ++ [component]) with
    | .missing => .error ("path does not exist: " ++ virtual (seen ++ component :: rest))
    | .unavailable strerror => .error ("path is unavailable: " ++ strerror)
    | .symlink => .error "symlinks are not allowed in workspace paths"
    | kind =>
      if rest ≠ [] ∧ kind ≠ .directory then .error "path component is not a directory"
      else walk w (seen ++ [component]) rest

def walkExisting (w : NativeWorkspace) (parts : List String) : Except String (List String) := do
  w.checkRoot
  w.walk [] parts
  return parts

/-- The host path is told by its names below the root. -/
def existingHostPath (w : NativeWorkspace) (path : String) : Except String (String × List String) := do
  let parts ← w.parts path
  let host ← w.walkExisting parts
  return (virtual parts, host)

end NativeWorkspace

/-- Where a virtual path lies in the stage. -/
def stagePath (path : String) : Except String (List String) :=
  if ¬ isAbsolute path ∨ ".." ∈ pureNames path then .error "invalid staged virtual path"
  else .ok (pureNames path)

section
variable {w : NativeWorkspace} {path : String} {parts names seen : List String}

theorem toList_virtual (h : parts ≠ []) :
    (virtual parts).toList = '/' :: ['/'].intercalate (parts.map String.toList) := by
  rw [virtual, if_neg h, String.toList_append, String.toList_intercalate]
  rfl

@[simp] theorem isAbsolute_virtual : isAbsolute (virtual parts) = true := by
  by_cases h : parts = []
  · subst h
    rfl
  · simp [isAbsolute, toList_virtual h]

theorem virtual_ne_empty : virtual parts ≠ "" := by
  intro h
  have := @isAbsolute_virtual parts
  rw [h] at this
  cases this

theorem mem_virtual {c : Char} (h : c ∈ (virtual parts).toList) : c = '/' ∨ ∃ name ∈ parts, c ∈ name.toList := by
  by_cases hnil : parts = []
  · subst hnil
    exact Or.inl (List.mem_singleton.mp h)
  · rw [toList_virtual hnil] at h
    rcases List.mem_cons.mp h with h | h
    · exact Or.inl h
    · rcases mem_intercalate h with h | ⟨l, hl, h⟩
      · exact Or.inl h
      · obtain ⟨name, hname, rfl⟩ := List.mem_map.mp hl
        exact Or.inr ⟨name, hname, h⟩

/-- A virtual path names the components it was made of. -/
theorem pureNames_virtual (h : ∀ name ∈ parts, IsComponent name) : pureNames (virtual parts) = parts := by
  by_cases hnil : parts = []
  · subst hnil
    rfl
  · have hsplit : (virtual parts).toList.splitOn '/' = [] :: parts.map String.toList := by
      rw [toList_virtual hnil]
      have hrest : (['/'].intercalate (parts.map String.toList)).splitOn '/' = parts.map String.toList := by
        apply List.splitOn_intercalate
        · intro l hl
          obtain ⟨name, hname, rfl⟩ := List.mem_map.mp hl
          exact (h name hname).noSlash
        · simpa using hnil
      rw [List.splitOn_cons_eq_if_modifyHead, hrest]
      rfl
    have hback : (parts.map String.toList).map String.ofList = parts := by
      rw [List.map_map]
      exact (List.map_congr_left fun name _ => String.ofList_toList).trans (List.map_id _)
    rw [pureNames, hsplit, List.map_cons, hback, List.filter_cons]
    have hkeep : parts.filter (fun name => name ≠ "" ∧ name ≠ ".") = parts := by
      apply List.filter_eq_self.mpr
      intro name hname
      simp [(h name hname).nonempty, (h name hname).notHere]
    simpa using hkeep

theorem appendParts_component (h : ∀ name ∈ names, IsComponent name) :
    NativeWorkspace.appendParts parts names = .ok (parts ++ names) := by
  induction names generalizing parts with
  | nil => simp [NativeWorkspace.appendParts]
  | cons name names ih =>
    rw [List.forall_mem_cons] at h
    have hc := h.1
    rw [NativeWorkspace.appendParts, if_neg (by simp [hc.nonempty, hc.notHere]), if_neg hc.notParent,
      if_neg hc.noSlash, ih h.2]
    simp

/-- Where a virtual path lies in the stage. -/
theorem stagePath_virtual (h : ∀ name ∈ parts, IsComponent name) :
    stagePath (virtual parts) = .ok parts := by
  rw [stagePath, pureNames_virtual h, if_neg]
  rintro (habs | hup)
  · simp at habs
  · exact (h _ hup).notParent rfl

theorem mem_splitOn {a c : Char} {l xs : List Char} (hl : l ∈ xs.splitOn a) (hc : c ∈ l) : c ∈ xs := by
  induction xs generalizing l with
  | nil =>
    rw [List.splitOn_nil, List.mem_singleton] at hl
    exact hl ▸ hc
  | cons x xs ih =>
    rw [List.splitOn_cons_eq_if_modifyHead] at hl
    split at hl
    · rcases List.mem_cons.mp hl with rfl | hl
      · cases hc
      · exact List.mem_cons_of_mem _ (ih hl hc)
    · cases hs : xs.splitOn a with
      | nil => exact absurd hs (List.splitOn_ne_nil a xs)
      | cons y ys =>
        rw [hs, List.modifyHead_cons] at hl
        rcases List.mem_cons.mp hl with rfl | hl
        · rcases List.mem_cons.mp hc with rfl | hc
          · exact List.mem_cons_self
          · exact List.mem_cons_of_mem _ (ih (hs ▸ List.mem_cons_self) hc)
        · exact List.mem_cons_of_mem _ (ih (hs ▸ List.mem_cons_of_mem _ hl) hc)

theorem mem_pureNames {name : String} {c : Char} (h : name ∈ pureNames path) (hc : c ∈ name.toList) :
    c ∈ path.toList := by
  obtain ⟨l, hl, rfl⟩ := List.mem_map.mp (List.mem_filter.mp h).1
  rw [String.toList_ofList] at hc
  exact mem_splitOn hl hc

namespace NativeWorkspace

theorem checkTextPath_eq_ok (h : checkTextPath path = .ok ()) : IsText MAX_PATH_BYTES path := by
  unfold checkTextPath at h
  split_ifs at h with hempty hnul hlong
  exact ⟨hempty, by omega, hnul⟩

theorem checkTextPath_ok (h : IsText MAX_PATH_BYTES path) : checkTextPath path = .ok () := by
  have hlong := h.2.1
  rw [checkTextPath, if_neg h.1, if_neg h.2.2, if_neg (by omega)]

theorem mem_appendParts (hnul : ∀ name ∈ names, '\x00' ∉ name.toList)
    (hseen : ∀ name ∈ seen, IsComponent name) (h : appendParts seen names = .ok parts) :
    ∀ name ∈ parts, IsComponent name := by
  induction names generalizing seen with
  | nil =>
    cases h
    exact hseen
  | cons name names ih =>
    rw [List.forall_mem_cons] at hnul
    rw [appendParts] at h
    split_ifs at h with hskip hup hslash
    · exact ih hnul.2 hseen h
    · rw [not_or] at hskip
      refine ih hnul.2 (fun c hc => ?_) h
      rcases List.mem_append.mp hc with hc | hc
      · exact hseen c hc
      · rw [List.mem_singleton] at hc
        exact hc ▸ ⟨hskip.1, hskip.2, hup, hslash, hnul.1⟩

/-- What a path is read as, and that it is a text of a path. -/
theorem parts_eq_ok (h : w.parts path = .ok parts) :
    IsText MAX_PATH_BYTES path ∧ ∀ name ∈ parts, IsComponent name := by
  unfold NativeWorkspace.parts at h
  cases hcheck : checkTextPath path with
  | error e =>
    rw [hcheck] at h
    cases h
  | ok u =>
    rw [hcheck] at h
    have htext := checkTextPath_eq_ok hcheck
    refine ⟨htext, mem_appendParts (fun name hname hc => ?_) ?_ h⟩
    · exact htext.2.2 (mem_pureNames hname hc)
    · split
      · simp
      · exact w.cwd_component

/-- A virtual path is read as what it was made of. -/
theorem parts_virtual (h : ∀ name ∈ parts, IsComponent name)
    (htext : encodedLength (virtual parts) ≤ MAX_PATH_BYTES) : w.parts (virtual parts) = .ok parts := by
  have hnul : '\x00' ∉ (virtual parts).toList := by
    intro hc
    rcases mem_virtual hc with hc | ⟨name, hname, hc⟩
    · cases hc
    · exact (h name hname).noNul hc
  rw [NativeWorkspace.parts, checkTextPath_ok ⟨virtual_ne_empty, htext, hnul⟩]
  change appendParts (if isAbsolute (virtual parts) then [] else w.cwdParts) (pureNames (virtual parts)) = _
  rw [isAbsolute_virtual, if_pos rfl, pureNames_virtual h, appendParts_component h, List.nil_append]

/-- Normalising twice changes nothing. -/
theorem normalize_fixed {v : String} (h : w.normalize path = .ok v)
    (htext : encodedLength v ≤ MAX_PATH_BYTES) : w.normalize v = .ok v := by
  unfold normalize at h
  cases hparts : w.parts path with
  | error e =>
    rw [hparts] at h
    cases h
  | ok parts =>
    rw [hparts] at h
    cases h
    unfold normalize
    rw [parts_virtual (parts_eq_ok hparts).2 htext]
    rfl

end NativeWorkspace

end

end Raveil.Command
