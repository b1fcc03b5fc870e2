import Mathlib.Order.Lattice.Nat
import Raveil.Command.Agreement
import Raveil.Lib.Dict

/-! The manifest of a staged workspace, and the audit of what was done to the stage. -/
namespace Raveil.Command

open Lib

section Snapshot

def MAX_STAGE_BYTES : ℕ := 16 * 1024 * 1024

def MAX_STAGE_FILES : ℕ := 1024

/-- A tree of regular files and directories. -/
structure Stage.IsTree (t : Stage) : Prop where
  component : ∀ p, t.lookup p ≠ none → p ≠ [] ∧ ∀ name ∈ p, IsComponent name
  parent : ∀ p name, t.lookup (p ++ [name]) ≠ none → p ≠ [] → t.lookup p = some .directory

/-- What a tree's directories list, each in an order of its own. -/
structure Scan (t : Stage) where
  names : List String → List String
  mem_names : ∀ p name, name ∈ names p ↔ t.lookup (p ++ [name]) ≠ none

/-- One turn of `os.walk`. -/
structure Visit where
  current : List String
  dirs : List String
  files : List String

def Scan.visit {t : Stage} (scan : Scan t) (current : List String) : Visit where
  current
  dirs := (scan.names current).filter fun name => t.lookup (current ++ [name]) = some .directory
  files := (scan.names current).filter fun name => t.lookup (current ++ [name]) ≠ some .directory

/-- `os.walk` from a directory that has at most so many levels below it. -/
def Scan.walk {t : Stage} (scan : Scan t) : ℕ → List String → List Visit
  | 0, _ => []
  | levels + 1, current =>
    scan.visit current :: (scan.visit current).dirs.flatMap fun name => scan.walk levels (current ++ [name])

def Scan.osWalk {t : Stage} (scan : Scan t) : List Visit := scan.walk (t.paths.sup List.length) []

/-- `Path.as_posix` of a relative path. -/
def asPosix (path : List String) : String := if path = [] then "." else "/".intercalate path

/-- `text.lstrip("./")`. -/
def lstripDots (text : String) : String := String.ofList (text.toList.dropWhile fun c => c = '.' ∨ c = '/')

/-- The key of a path in the manifest. -/
def manifestKey (path : List String) : String := "/" ++ lstripDots (asPosix path)

/-- The state of `_snapshot`. -/
structure Snapshot where
  stage : Stage
  manifest : List (String × String)
  total : ℕ
  count : ℕ

def Stage.empty : Stage where
  lookup _ := none
  paths := ∅
  mem_paths := by simp

/-- One turn of the loop over the directories. -/
def snapshotDirectory (current : List String) (s : Snapshot) (name : String) : Snapshot :=
  { s with
    stage := s.stage.set (current ++ [name]) (some .directory)
    manifest := assign (manifestKey (current ++ [name])) "directory" s.manifest }

/-- One turn of the loop over the files. -/
def snapshotFile (t : Stage) (current : List String) (s : Snapshot) (name : String) : Except String Snapshot :=
  match t.lookup (current ++ [name]) with
  | some (.file data) =>
    let total := s.total + data.length
    let count := s.count + 1
    if total > MAX_STAGE_BYTES ∨ count > MAX_STAGE_FILES then .error "workspace snapshot exceeds bounds"
    else
      .ok {
        stage := s.stage.set (current ++ [name]) (some (.file data))
        manifest := assign (manifestKey (current ++ [name])) (hexdigest data) s.manifest
        total, count }
  | _ => .error "workspace snapshot rejects special files"

def snapshotVisit (t : Stage) (s : Snapshot) (v : Visit) : Except String Snapshot :=
  v.files.foldlM (snapshotFile t v.current) (v.dirs.foldl (snapshotDirectory v.current) s)

/-- `_snapshot`: the stage, and the manifest of the workspace. -/
def snapshot (t : Stage) (scan : Scan t) : Except String Snapshot :=
  scan.osWalk.foldlM (snapshotVisit t) ⟨Stage.empty, [], 0, 0⟩

end Snapshot

section Walk

variable {t : Stage} {scan : Scan t} {p q current : List String} {name : String}

/-- What lies above a path of a tree is a directory. -/
theorem Stage.IsTree.above (ht : t.IsTree) (hp : p ≠ []) (hq : q ≠ []) (h : t.lookup (p ++ q) ≠ none) :
    t.lookup p = some .directory := by
  induction q using List.reverseRecOn with
  | nil => exact absurd rfl hq
  | append_singleton q name ih =>
    rw [← List.append_assoc] at h
    have hup := ht.parent (p ++ q) name h (by simp [hp])
    by_cases hnil : q = []
    · simpa [hnil] using hup
    · exact ih hnil (by simp [hup])

/-- The paths a turn goes through, in its order. -/
def Visit.listed (v : Visit) : List (List String) := (v.dirs ++ v.files).map fun name => v.current ++ [name]

theorem mem_visit_listed : p ∈ (scan.visit current).listed ↔ ∃ name, p = current ++ [name] ∧ t.lookup p ≠ none := by
  simp only [Visit.listed, Scan.visit, List.mem_map, List.mem_append, List.mem_filter, scan.mem_names,
    decide_eq_true_eq]
  constructor
  · rintro ⟨name, ⟨h, -⟩ | ⟨h, -⟩, rfl⟩ <;> exact ⟨name, rfl, h⟩
  · rintro ⟨name, rfl, h⟩
    by_cases hdir : t.lookup (current ++ [name]) = some .directory
    · exact ⟨name, Or.inl ⟨h, hdir⟩, rfl⟩
    · exact ⟨name, Or.inr ⟨h, hdir⟩, rfl⟩

/-- The walk goes through what lies below its start, down to its levels. -/
theorem mem_walk (ht : t.IsTree) {levels : ℕ} : p ∈ (scan.walk levels current).flatMap Visit.listed ↔
    ∃ rest, rest ≠ [] ∧ rest.length ≤ levels ∧ p = current ++ rest ∧ t.lookup p ≠ none := by
  induction levels generalizing current with
  | zero =>
    simp only [Scan.walk, List.flatMap_nil, List.not_mem_nil, false_iff]
    rintro ⟨rest, hne, hlen, -⟩
    exact hne (List.length_eq_zero_iff.mp (by omega))
  | succ levels ih =>
    rw [Scan.walk, List.flatMap_cons, List.mem_append, mem_visit_listed, List.flatMap_assoc, List.mem_flatMap]
    simp only [ih]
    constructor
    · rintro (⟨name, rfl, h⟩ | ⟨name, hname, rest, hne, hlen, rfl, h⟩)
      · exact ⟨[name], by simp, by simp, rfl, h⟩
      · exact ⟨name :: rest, by simp, by simpa using hlen, by simp, h⟩
    · rintro ⟨rest, hne, hlen, rfl, h⟩
      obtain ⟨name, rest, rfl⟩ := List.exists_cons_of_ne_nil hne
      by_cases hrest : rest = []
      · subst hrest
        exact Or.inl ⟨name, rfl, h⟩
      · have hsplit : current ++ name :: rest = current ++ [name] ++ rest := by simp
        have hdir : t.lookup (current ++ [name]) = some .directory :=
          ht.above (by simp) hrest (hsplit ▸ h)
        refine Or.inr ⟨name, ?_, rest, hrest, by simpa using hlen, hsplit, h⟩
        exact List.mem_filter.mpr ⟨(scan.mem_names _ _).mpr (by simp [hdir]), by simpa using hdir⟩

theorem mem_osWalk (ht : t.IsTree) : p ∈ scan.osWalk.flatMap Visit.listed ↔ t.lookup p ≠ none := by
  rw [Scan.osWalk, mem_walk ht]
  constructor
  · rintro ⟨rest, -, -, -, h⟩
    exact h
  · intro h
    exact ⟨p, (ht.component p h).1, Finset.le_sup (f := List.length) ((t.mem_paths p).mpr h), rfl, h⟩

end Walk

section Recorded

variable {t : Stage} {scan : Scan t} {s s' : Snapshot} {p q current : List String} {done : List (List String)}

/-- What the snapshot holds when these paths have been copied. -/
structure Recorded (t : Stage) (done : List (List String)) (s : Snapshot) : Prop where
  lookup : ∀ p, s.stage.lookup p = if p ∈ done then t.lookup p else none
  keys : ∀ k, s.manifest.lookup k ≠ none → ∃ p ∈ done, k = manifestKey p
  values : ∀ p ∈ done, ∃ q ∈ done, manifestKey q = manifestKey p ∧
    s.manifest.lookup (manifestKey p) = (t.lookup q).map Entry.describe

theorem Recorded.copy (hr : Recorded t done s) {e : Entry} (hp : p ≠ []) (he : t.lookup p = some e)
    (hstage : s'.stage = s.stage.set p (some e))
    (hmanifest : s'.manifest = assign (manifestKey p) e.describe s.manifest) : Recorded t (done ++ [p]) s' := by
  refine ⟨fun q => ?_, fun k hk => ?_, fun q hq => ?_⟩
  · rw [hstage, Stage.set, if_neg hp]
    by_cases hq : q = p
    · subst hq
      simp [he]
    · simp [hr.lookup, hq]
  · rw [hmanifest, lookup_assign] at hk
    split at hk
    · rename_i hkey
      exact ⟨p, by simp, hkey⟩
    · obtain ⟨q, hq, hkey⟩ := hr.keys k hk
      exact ⟨q, by simp [hq], hkey⟩
  · rw [hmanifest, lookup_assign]
    by_cases hkey : manifestKey q = manifestKey p
    · exact ⟨p, by simp, hkey.symm, by simp [hkey, he]⟩
    · rcases List.mem_append.mp hq with hq | hq
      · obtain ⟨r, hrd, hrk, hrv⟩ := hr.values q hq
        exact ⟨r, by simp [hrd], hrk, by rw [if_neg hkey, hrv]⟩
      · exact absurd (by rw [List.mem_singleton.mp hq]) hkey

theorem Recorded.directories {names : List String} (hr : Recorded t done s)
    (hdir : ∀ name ∈ names, t.lookup (current ++ [name]) = some .directory) :
    Recorded t (done ++ names.map fun name => current ++ [name])
      (names.foldl (snapshotDirectory current) s) := by
  induction names generalizing s done with
  | nil => simpa using hr
  | cons name names ih =>
    rw [List.forall_mem_cons] at hdir
    have hstep : Recorded t (done ++ [current ++ [name]]) (snapshotDirectory current s name) :=
      hr.copy (by simp) hdir.1 rfl rfl
    have hrest := ih hstep hdir.2
    rw [List.append_assoc] at hrest
    exact hrest

theorem Recorded.files {names : List String} (hr : Recorded t done s)
    (hs : names.foldlM (snapshotFile t current) s = .ok s') :
    Recorded t (done ++ names.map fun name => current ++ [name]) s' := by
  induction names generalizing s done with
  | nil =>
    cases hs
    simpa using hr
  | cons name names ih =>
    rw [List.foldlM_cons, except_bind_eq_ok] at hs
    obtain ⟨s₁, hstep, hs⟩ := hs
    have hone : Recorded t (done ++ [current ++ [name]]) s₁ := by
      unfold snapshotFile at hstep
      split at hstep
      · rename_i data hdata
        dsimp only at hstep
        split_ifs at hstep
        cases hstep
        exact hr.copy (by simp) hdata rfl rfl
      · cases hstep
    have hrest := ih hone hs
    rw [List.append_assoc] at hrest
    exact hrest

theorem Recorded.visits {visits : List Visit} (hr : Recorded t done s)
    (hdir : ∀ v ∈ visits, ∀ name ∈ v.dirs, t.lookup (v.current ++ [name]) = some .directory)
    (hs : visits.foldlM (snapshotVisit t) s = .ok s') : Recorded t (done ++ visits.flatMap Visit.listed) s' := by
  induction visits generalizing s done with
  | nil =>
    cases hs
    simpa using hr
  | cons v visits ih =>
    rw [List.forall_mem_cons] at hdir
    rw [List.foldlM_cons, except_bind_eq_ok] at hs
    obtain ⟨s₁, hvisit, hs⟩ := hs
    have hone := (hr.directories hdir.1).files hvisit
    rw [List.append_assoc, ← List.map_append] at hone
    have hrest := ih hone hdir.2 hs
    rw [List.append_assoc] at hrest
    exact hrest

theorem dirs_of_mem_walk {levels : ℕ} {v : Visit} (hv : v ∈ scan.walk levels current) {name : String}
    (hname : name ∈ v.dirs) : t.lookup (v.current ++ [name]) = some .directory := by
  induction levels generalizing current with
  | zero => cases hv
  | succ levels ih =>
    rcases List.mem_cons.mp hv with rfl | hv
    · exact of_decide_eq_true (List.mem_filter.mp hname).2
    · obtain ⟨below, -, hv⟩ := List.mem_flatMap.mp hv
      exact ih hv

/-- What `_snapshot` has recorded at its end. -/
theorem snapshot_recorded (hs : snapshot t scan = .ok s) : Recorded t (scan.osWalk.flatMap Visit.listed) s := by
  have hstart : Recorded t [] ⟨Stage.empty, [], 0, 0⟩ :=
    ⟨fun p => by simp [Stage.empty], fun k hk => absurd rfl hk, by simp⟩
  exact hstart.visits (fun v hv name hname => dirs_of_mem_walk hv hname) hs

/-- The stage is a copy of the workspace. -/
theorem snapshot_stage (ht : t.IsTree) (hs : snapshot t scan = .ok s) : s.stage = t := by
  apply Stage.ext_lookup
  funext p
  rw [(snapshot_recorded hs).lookup p]
  split
  · rfl
  · rename_i hp
    rw [mem_osWalk ht, not_not] at hp
    exact hp.symm

end Recorded

section Keys

variable {t s : Stage} {p q rest : List String} {name k : String} {d e : Entry}

/-- Different paths of a tree have different keys in the audit. -/
theorem virtual_inj (hp : ∀ name ∈ p, IsComponent name) (hq : ∀ name ∈ q, IsComponent name)
    (h : virtual p = virtual q) : p = q := by
  rw [← pureNames_virtual hp, h, pureNames_virtual hq]

theorem toList_asPosix : (asPosix (name :: rest)).toList =
    ['/'].intercalate ((name :: rest).map String.toList) := by
  rw [asPosix, if_neg (by simp), String.toList_intercalate]
  rfl

theorem head?_asPosix (h : IsComponent name) : (asPosix (name :: rest)).toList.head? = name.toList.head? := by
  rw [toList_asPosix]
  have hne : name.toList ≠ [] := fun hnil => h.nonempty (String.toList_eq_nil_iff.mp hnil)
  by_cases hrest : rest = []
  · simp [hrest]
  · rw [List.map_cons, List.intercalate_cons_of_ne_nil (by simpa using hrest), List.append_assoc,
      List.head?_append_of_ne_nil _ hne]

/-- The manifest and the audit agree on a path whose first name has no dot in front. -/
theorem manifestKey_eq (h : IsComponent name) (hdot : name.toList.head? ≠ some '.') :
    manifestKey (name :: rest) = virtual (name :: rest) := by
  have hkeep : lstripDots (asPosix (name :: rest)) = asPosix (name :: rest) := by
    rw [lstripDots]
    have hdrop : (asPosix (name :: rest)).toList.dropWhile (fun c => c = '.' ∨ c = '/') =
        (asPosix (name :: rest)).toList := by
      apply List.dropWhile_eq_self_iff.mpr
      intro hlen
      have hhead : (asPosix (name :: rest)).toList.head? = some ((asPosix (name :: rest)).toList[0]) :=
        List.head?_eq_getElem? .. ▸ List.getElem?_eq_getElem hlen
      rw [head?_asPosix h] at hhead
      simp only [Bool.decide_or, Bool.or_eq_true, decide_eq_true_eq, not_or]
      refine ⟨fun hc => hdot (hc ▸ hhead), fun hc => h.noSlash ?_⟩
      exact List.mem_of_head? (hc ▸ hhead)
    rw [hdrop, String.ofList_toList]
  rw [manifestKey, hkeep, asPosix, virtual, if_neg (by simp), if_neg (by simp)]

/-- No key of the manifest has a dot after its slash. -/
theorem manifestKey_ne (h : IsComponent name) (hdot : name.toList.head? = some '.') :
    manifestKey q ≠ virtual (name :: rest) := by
  intro heq
  have hlist := congrArg String.toList heq
  rw [manifestKey, String.toList_append, toList_virtual (by simp), ← toList_asPosix] at hlist
  have htail : (lstripDots (asPosix q)).toList = (asPosix (name :: rest)).toList := List.cons.inj hlist |>.2
  have hhead : (lstripDots (asPosix q)).toList.head? = some '.' := by
    rw [htail, head?_asPosix h, hdot]
  rw [lstripDots, String.toList_ofList] at hhead
  have hnot := List.head?_dropWhile_not (fun c => decide (c = '.' ∨ c = '/')) (asPosix q).toList
  rw [hhead] at hnot
  simp at hnot

theorem length_hexdigest (data : List UInt8) : (hexdigest data).toList.length = 64 := by
  simp [hexdigest]

theorem hexdigest_ne_directory (data : List UInt8) : hexdigest data ≠ "directory" := by
  intro h
  have hlen := length_hexdigest data
  rw [h] at hlen
  cases hlen

/-- Entries told apart by what the audit compares, but for two contents with one digest. -/
theorem describe_inj (h : d.describe = e.describe)
    (hdigest : ∀ x y, d = .file x → e = .file y → hexdigest x = hexdigest y → x = y) : d = e := by
  cases d with
  | directory =>
    cases e with
    | directory => rfl
    | file y => exact absurd h.symm (hexdigest_ne_directory y)
  | file x =>
    cases e with
    | directory => exact absurd h (hexdigest_ne_directory x)
    | file y => rw [hdigest x y rfl rfl h]

theorem Stage.after_virtual (hp : ∀ name ∈ p, IsComponent name) :
    s.after (virtual p) = (s.lookup p).map Entry.describe := by
  rw [Stage.after, pureNames_virtual hp, if_pos rfl]

end Keys

section Exact

/-- What the nodes write is declared, as `_validate_executable` checks. -/
def WritesDeclared (program : CommandGraphProgram) : Prop :=
  ∀ node ∈ program.nodes, ∀ path ∈ node.declaredWrites, path ∈ program.declaredOutputs

/-- No run of a node ends as the audit does. -/
def Progress.NotAudited (st : Progress) : Prop :=
  ∀ id o, st.outcomes id = some o → o.status ≠ .invalidMutation

/-- No file was given another content with the digest of the old one. -/
def DigestsDiffer (before after : Stage) : Prop :=
  ∀ p x y, before.lookup p = some (.file x) → after.lookup p = some (.file y) → hexdigest x = hexdigest y → x = y

/-- The audit is silent when only declared outputs were made, and speaks when anything else changed. -/
def AuditExact (initial : Snapshot) : Prop :=
  ∀ (program : CommandGraphProgram) (st : Progress) (maximum : ℤ) (outcome : ExecutionOutcome),
    WritesDeclared program → st.stage.IsTree → st.NotAudited →
    finish program st initial.manifest maximum = .ok outcome →
    ((∀ path ∈ program.declaredOutputs, ∃ p, virtual p = path ∧ st.stage.lookup p ≠ none) →
      (∀ p, virtual p ∉ program.declaredOutputs → st.stage.lookup p = initial.stage.lookup p) →
      outcome.status ≠ .invalidMutation) ∧
    (DigestsDiffer initial.stage st.stage →
      (∃ p, virtual p ∉ program.declaredOutputs ∧ st.stage.lookup p ≠ initial.stage.lookup p) →
      outcome.status = .invalidMutation)

/-- The manifest has the keys the audit computes, and another one for every path. -/
def KeysExact (t : Stage) : Prop :=
  (∀ p ∈ t.paths, manifestKey p = virtual p) ∧ ∀ p ∈ t.paths, ∀ q ∈ t.paths, manifestKey p = manifestKey q → p = q

/-- No entry at the top has a name with a dot in front. -/
def NoDots (t : Stage) : Prop := ∀ name, t.lookup [name] ≠ none → name.toList.head? ≠ some '.'

variable {t : Stage} {scan : Scan t} {s : Snapshot} {program : CommandGraphProgram} {st : Progress}
  {initial : List (String × String)} {maximum : ℤ} {outcome : ExecutionOutcome} {p : List String}

/-- When `_finish` reports a mutation. -/
theorem finish_status (hclean : st.NotAudited) (hf : finish program st initial maximum = .ok outcome) :
    outcome.status = .invalidMutation ↔
      unexpected program st.stage initial ∨ ∃ path ∈ program.declaredOutputs, st.stage.after path = none := by
  obtain ⟨nodes, hnodes, hf⟩ := except_bind_eq_ok.mp hf
  have hlength : (program.declaredOutputs.filterMap fun path => (st.stage.after path).map (path, ·)).length ≠
      program.declaredOutputs.length ↔ ∃ path ∈ program.declaredOutputs, st.stage.after path = none := by
    rw [Ne, List.filterMap_length_eq_length]
    simp
  rw [← hlength]
  dsimp only at hf
  by_cases hbad : unexpected program st.stage initial ∨
      (program.declaredOutputs.filterMap fun path => (st.stage.after path).map (path, ·)).length ≠
        program.declaredOutputs.length
  · rw [if_pos hbad] at hf
    cases hf
    exact ⟨fun _ => hbad, fun _ => rfl⟩
  · rw [if_neg hbad] at hf
    refine ⟨fun hstatus => ?_, fun h => absurd h hbad⟩
    cases hfind : nodes.find? (·.status ≠ .executed) with
    | none =>
      rw [hfind] at hf
      cases hf
      cases hstatus
    | some failed =>
      rw [hfind] at hf
      cases hf
      obtain ⟨node, -, hnode⟩ := exists_of_mem_mapM hnodes (List.mem_of_find?_eq_some hfind)
      cases ho : st.outcomes node.nodeId with
      | none =>
        rw [ho] at hnode
        cases hnode
      | some o =>
        rw [ho] at hnode
        cases hnode
        exact absurd hstatus (hclean _ _ ho)

/-- Without dots in front, the manifest has exactly the keys of the audit. -/
theorem keysExact_of_noDots (ht : t.IsTree) (h : NoDots t) : KeysExact t := by
  have hkey : ∀ p ∈ t.paths, manifestKey p = virtual p := by
    intro p hp
    have hp := (t.mem_paths p).mp hp
    obtain ⟨hne, hnames⟩ := ht.component p hp
    obtain ⟨name, rest, rfl⟩ := List.exists_cons_of_ne_nil hne
    refine manifestKey_eq (hnames name (by simp)) (h name ?_)
    by_cases hrest : rest = []
    · exact hrest ▸ hp
    · simp [ht.above (p := [name]) (by simp) hrest hp]
  refine ⟨hkey, fun p hp q hq heq => ?_⟩
  rw [hkey p hp, hkey q hq] at heq
  exact virtual_inj (ht.component p ((t.mem_paths p).mp hp)).2 (ht.component q ((t.mem_paths q).mp hq)).2 heq

theorem noDots_of_keysExact (ht : t.IsTree) (h : KeysExact t) : NoDots t := by
  intro name hname hdot
  have hc := (ht.component [name] hname).2 name (by simp)
  exact manifestKey_ne hc hdot (h.1 [name] ((t.mem_paths _).mpr hname))

/-- What the manifest holds under the key the audit computes for a path. -/
theorem manifest_lookup (ht : t.IsTree) (hk : KeysExact t) (hs : snapshot t scan = .ok s)
    (hp : ∀ name ∈ p, IsComponent name) : s.manifest.lookup (virtual p) = (t.lookup p).map Entry.describe := by
  have hr := snapshot_recorded hs
  by_cases hin : t.lookup p = none
  · rw [hin, Option.map_none]
    by_contra hne
    obtain ⟨q, hq, heq⟩ := hr.keys _ hne
    rw [mem_osWalk ht] at hq
    rw [hk.1 q ((t.mem_paths q).mpr hq)] at heq
    exact hq (virtual_inj hp (ht.component q hq).2 heq ▸ hin)
  · obtain ⟨q, hq, heq, hvalue⟩ := hr.values p ((mem_osWalk ht).mpr hin)
    rw [mem_osWalk ht, ← t.mem_paths] at hq
    have hpaths := (t.mem_paths p).mpr hin
    rw [hk.2 q hq p hpaths heq, hk.1 p hpaths] at hvalue
    exact hvalue

/-- Every key of the manifest is that of a path of the workspace. -/
theorem manifest_key (ht : t.IsTree) (hk : KeysExact t) (hs : snapshot t scan = .ok s) {k : String}
    (h : s.manifest.lookup k ≠ none) : ∃ p, t.lookup p ≠ none ∧ k = virtual p := by
  obtain ⟨p, hp, heq⟩ := (snapshot_recorded hs).keys k h
  rw [mem_osWalk ht] at hp
  exact ⟨p, hp, heq.trans (hk.1 p ((t.mem_paths p).mpr hp))⟩

theorem mem_allowedPaths (hw : WritesDeclared program) {path : String} :
    path ∈ allowedPaths program ↔ path ∈ program.declaredOutputs := by
  rw [allowedPaths, List.mem_append, List.mem_flatMap]
  refine ⟨fun h => h.elim id ?_, Or.inl⟩
  rintro ⟨node, hnode, hpath⟩
  exact hw node hnode path hpath

/-- The audit sees the undeclared differences between the workspace and the stage. -/
theorem unexpected_iff (ht : t.IsTree) (hk : KeysExact t) (hs : snapshot t scan = .ok s)
    (hw : WritesDeclared program) (hstage : st.stage.IsTree) : unexpected program st.stage s.manifest ↔
      ∃ p, (t.lookup p).map Entry.describe ≠ (st.stage.lookup p).map Entry.describe ∧
        virtual p ∉ program.declaredOutputs := by
  unfold unexpected
  simp only [mem_allowedPaths hw]
  constructor
  · rintro (⟨p, hp, hne, hnot⟩ | ⟨entry, hentry, hnone, hnot⟩)
    · have hnames := (hstage.component p ((st.stage.mem_paths p).mp hp)).2
      rw [manifest_lookup ht hk hs hnames, Stage.after_virtual hnames] at hne
      exact ⟨p, hne, hnot⟩
    · obtain ⟨p, hp, hkey⟩ := manifest_key ht hk hs (exists_key_iff.mp ⟨entry, hentry, rfl⟩)
      rw [hkey] at hnone hnot
      rw [Stage.after_virtual (ht.component p hp).2] at hnone
      refine ⟨p, fun heq => ?_, hnot⟩
      rw [hnone, Option.map_eq_none_iff] at heq
      exact hp heq
  · rintro ⟨p, hne, hnot⟩
    by_cases hp : st.stage.lookup p = none
    · rw [hp, Option.map_none, Ne, Option.map_eq_none_iff] at hne
      have hnames := (ht.component p hne).2
      have hlookup : s.manifest.lookup (virtual p) ≠ none := by
        rw [manifest_lookup ht hk hs hnames]
        simpa using hne
      obtain ⟨entry, hentry, hkey⟩ := exists_key_iff.mpr hlookup
      refine Or.inr ⟨entry, hentry, ?_, hkey ▸ hnot⟩
      rw [hkey, Stage.after_virtual hnames, hp]
      rfl
    · have hnames := (hstage.component p hp).2
      refine Or.inl ⟨p, (st.stage.mem_paths p).mpr hp, ?_, hnot⟩
      rw [manifest_lookup ht hk hs hnames, Stage.after_virtual hnames]
      exact hne

theorem auditExact_of_keysExact (ht : t.IsTree) (hk : KeysExact t) (hs : snapshot t scan = .ok s) :
    AuditExact s := by
  intro program st maximum outcome hw hstage hclean hf
  rw [Ne, finish_status hclean hf, snapshot_stage ht hs, unexpected_iff ht hk hs hw hstage]
  constructor
  · rintro hmade hsame (⟨p, hne, hnot⟩ | ⟨path, hpath, hnone⟩)
    · exact hne (congrArg _ (hsame p hnot).symm)
    · obtain ⟨p, rfl, hp⟩ := hmade path hpath
      rw [Stage.after_virtual (hstage.component p hp).2, Option.map_eq_none_iff] at hnone
      exact hp hnone
  · rintro hdigest ⟨p, hnot, hne⟩
    refine Or.inl ⟨p, fun heq => hne ?_, hnot⟩
    cases hbefore : t.lookup p with
    | none =>
      rw [hbefore, Option.map_none, eq_comm, Option.map_eq_none_iff] at heq
      exact heq
    | some d =>
      cases hafter : st.stage.lookup p with
      | none =>
        rw [hbefore, hafter] at heq
        cases heq
      | some e =>
        rw [hbefore, hafter] at heq
        refine congrArg some (describe_inj (Option.some.inj heq) ?_).symm
        rintro x y rfl rfl hxy
        exact hdigest p x y hbefore hafter hxy

end Exact

section Runs

variable {h : Host} {st st' : Progress} {program : CommandGraphProgram} {node : CommandNode} {batch : List CommandNode}

/-- `_validate_executable` compares the writes of the nodes with the declared outputs. -/
theorem writesDeclared_of_validate {m : Machine} {w : NativeWorkspace}
    (hv : validateExecutable m w program = .ok ()) : WritesDeclared program := by
  simp only [validateExecutable, except_bind_eq_ok, require_eq_ok, exists_const] at hv
  obtain ⟨-, footprints, hall, -, houts, -⟩ := hv
  have hmem : ∀ (fs : List (Finset String × Finset String)) (start : Finset String) (path : String),
      path ∈ fs.foldl (fun paths f => paths ∪ f.2) start ↔ path ∈ start ∨ ∃ f ∈ fs, path ∈ f.2 := by
    intro fs
    induction fs with
    | nil => simp
    | cons f fs ih =>
      intro start path
      rw [List.foldl_cons, ih, Finset.mem_union, List.exists_mem_cons_iff, or_assoc]
  intro node hnode path hpath
  obtain ⟨f, hf, hnodef⟩ := exists_of_mapM_eq_ok hall hnode
  have hwrites : path ∈ f.2 := by
    simp only [validateNode, except_bind_eq_ok, require_eq_ok, exists_const] at hnodef
    obtain ⟨-, -, c, -, -, hsorted, hnodef⟩ := hnodef
    rw [← hsorted, sorted, Finset.mem_sort] at hpath
    split at hnodef
    · cases hnodef
      exact hpath
    · simp only [except_bind_eq_ok, except_pure_eq_ok] at hnodef
      obtain ⟨-, -, rfl⟩ := hnodef
      exact hpath
  rw [← List.mem_toFinset, houts, hmem]
  exact Or.inr ⟨f, hf, hwrites⟩

/-- A result that is raised or carries a status of a run. -/
def RunStatus (r : Except String (NodeOutcome × List UInt8)) : Prop :=
  ∀ o stdout, r = .ok (o, stdout) → o.status ≠ .invalidMutation

theorem Steps.andThen_returns {R R' : Type} {P : Except String R → Prop} {p : Steps R} {f : R → Steps R'}
    {P' : Except String R' → Prop} (hp : p.Returns P) (hraise : ∀ message, P' (.error message))
    (hf : ∀ r, P (.ok r) → (f r).Returns P') : (p.andThen f).Returns P' := by
  apply hp.bind
  intro r hr
  cases r with
  | error message => exact hraise message
  | ok r => exact hf r hr

theorem runProgram_returns (streams : String → Option (List UInt8)) :
    (runProgram h streams node).Returns RunStatus := by
  have hraise : ∀ message, RunStatus (.error message) := by
    intro message o stdout heq
    cases heq
  refine Steps.andThen_returns Prog.returns_true hraise fun stdin _ => ?_
  refine Steps.andThen_returns Prog.returns_true hraise fun _ _ => ?_
  refine Steps.andThen_returns Prog.returns_true hraise fun argv _ => ?_
  refine Steps.andThen_returns Prog.returns_true hraise fun stdin _ => ?_
  refine Steps.andThen_returns Prog.returns_true hraise fun _ _ => ?_
  refine Prog.Returns.bind Prog.returns_true fun ran _ => ?_
  have hcaptured : (Steps.lift (ran.captured h.policy)).Returns fun r =>
      ∀ x, r = .ok x → x.1 ≠ .invalidMutation := by
    intro x hx
    unfold Ran.captured at hx
    split at hx
    · cases hx
      simp
    · split_ifs at hx <;> cases hx <;> simp
  refine Steps.andThen_returns hcaptured hraise fun x hx => ?_
  refine Steps.andThen_returns Prog.returns_true hraise fun stdout _ => ?_
  refine Steps.andThen_returns Prog.returns_true hraise fun stdout _ => ?_
  intro o out heq
  cases heq
  exact hx x rfl

theorem triage_notAudited {outcomes outcomes' : String → Option NodeOutcome} {runnable : List CommandNode}
    (ho : ∀ id o, outcomes id = some o → o.status ≠ .invalidMutation)
    (ht : triage outcomes batch = .ok (outcomes', runnable)) :
    ∀ id o, outcomes' id = some o → o.status ≠ .invalidMutation := by
  induction batch generalizing outcomes outcomes' runnable with
  | nil =>
    cases ht
    exact ho
  | cons n batch ih =>
    rw [triage, except_bind_eq_ok] at ht
    obtain ⟨skip, -, ht⟩ := ht
    cases skip with
    | true =>
      refine ih (fun id o hid => ?_) ht
      by_cases heq : id = n.nodeId
      · subst heq
        rw [Function.update_self] at hid
        cases hid
        simp [skippedOutcome]
      · rw [Function.update_of_ne heq] at hid
        exact ho id o hid
    | false =>
      simp only [Bool.false_eq_true, if_false, except_bind_eq_ok, except_pure_eq_ok, Prod.exists, Prod.mk.injEq] at ht
      obtain ⟨outs, runs, ht, rfl, rfl⟩ := ht
      exact ih ho ht

theorem record_notAudited {results : List (CommandNode × Except String (NodeOutcome × List UInt8))}
    (hs : st.NotAudited) (hresults : ∀ r ∈ results, RunStatus r.2) (hr : record st results = .ok st') :
    st'.NotAudited := by
  induction results generalizing st with
  | nil =>
    cases hr
    exact hs
  | cons x results ih =>
    obtain ⟨n, result⟩ := x
    rw [List.forall_mem_cons] at hresults
    cases result with
    | error e => cases hr
    | ok r =>
      refine ih (fun id o hid => ?_) hresults.2 hr
      dsimp only at hid
      by_cases heq : id = n.nodeId
      · rw [heq, Function.update_self] at hid
        cases hid
        exact hresults.1 _ _ rfl
      · rw [Function.update_of_ne heq] at hid
        exact hs id o hid

theorem runBatch_notAudited {choices : List ℕ} {workers : ℤ} (hs : st.NotAudited)
    (hr : runBatch h choices st batch = .ok (st', workers)) : st'.NotAudited := by
  simp only [runBatch, except_bind_eq_ok, require_eq_ok, exists_const, except_pure_eq_ok, Prod.mk.injEq] at hr
  obtain ⟨⟨outcomes, runnable⟩, ht, -, st₁, hrecord, rfl, -⟩ := hr
  refine record_notAudited (triage_notAudited hs ht) (fun r hr => ?_) hrecord
  refine interleave_returns (fun p hp => ?_) choices st.stage r.2 (List.of_mem_zip hr).2
  obtain ⟨n, -, rfl⟩ := List.mem_map.mp hp
  exact runProgram_returns st.streams

theorem directLoop_notAudited {schedule : Schedule} {fuel round : ℕ} {rest : List CommandNode} {m m' : ℤ}
    (hs : st.NotAudited) (hr : directLoop h schedule fuel round rest st m = .ok (st', m')) : st'.NotAudited := by
  induction fuel generalizing round rest st m with
  | zero =>
    cases rest with
    | nil =>
      cases hr
      exact hs
    | cons n rest => cases hr
  | succ fuel ih =>
    cases rest with
    | nil =>
      cases hr
      exact hs
    | cons n rest =>
      rw [directLoop, except_bind_eq_ok] at hr
      obtain ⟨⟨st₁, workers⟩, hbatch, hr⟩ := hr
      exact ih (runBatch_notAudited hs hbatch) hr

theorem graphLoop_notAudited {schedule : Schedule} {fuel round : ℕ} {pending : List CommandNode} {m m' : ℤ}
    (hs : st.NotAudited) (hr : graphLoop h schedule fuel round pending st m = .ok (st', m')) : st'.NotAudited := by
  induction fuel generalizing round pending st m with
  | zero =>
    cases pending with
    | nil =>
      cases hr
      exact hs
    | cons n pending => cases hr
  | succ fuel ih =>
    cases pending with
    | nil =>
      cases hr
      exact hs
    | cons n pending =>
      simp only [graphLoop, except_bind_eq_ok, require_eq_ok, exists_const] at hr
      obtain ⟨-, ⟨st₁, workers⟩, hbatch, hr⟩ := hr
      exact ih (runBatch_notAudited hs hbatch) hr

/-- Both executors end with `_finish`, on outcomes that carry no verdict of it. -/
theorem executors_notAudited {schedule : Schedule} {stage : Stage} {initial : List (String × String)}
    {outcome : ExecutionOutcome} (hr : executeDirect h schedule program stage initial = .ok outcome ∨
      executeGraph h schedule program stage initial = .ok outcome) :
    ∃ st m, st.NotAudited ∧ finish program st initial m = .ok outcome := by
  have hstart : (Progress.mk stage (fun _ => none) fun _ => none).NotAudited := by
    intro id o ho
    cases ho
  rcases hr with hr | hr
  · obtain ⟨⟨st, m⟩, hloop, hf⟩ := except_bind_eq_ok.mp hr
    exact ⟨st, m, directLoop_notAudited hstart hloop, hf⟩
  · obtain ⟨⟨st, m⟩, hloop, hf⟩ := except_bind_eq_ok.mp hr
    exact ⟨st, m, graphLoop_notAudited hstart hloop, hf⟩

end Runs

section Idle

def pwdNode : CommandNode :=
  { nodeId := "node-001-pwd", tool := sampleTool "pwd", argv := [], pathIndices := [], declaredWrites := []
    stdinFile := none, stdoutFile := none, dependencies := [], dependencyMode := .always, fanoutGroup := 0 }

/-- A program that changes nothing. -/
def pwdProgram : CommandGraphProgram :=
  CommandGraphProgram.sealed
    { graphId := "pending", source := "pwd", nodes := [pwdNode], edges := [], declaredInputs := []
      declaredOutputs := [], policy := {}, environment := controlledEnvironment }

/-- Its run has ended, and the stage is as it was. -/
def idleProgress (t : Stage) : Progress where
  stage := t
  outcomes id :=
    if id = "node-001-pwd" then some ⟨id, .executed, 0, hexdigest "/\n".toUTF8.toList, ""⟩ else none

variable {t : Stage} {scan : Scan t} {s : Snapshot}

/-- An exact audit leaves the idle program alone, so nothing stands at the top behind a dot. -/
theorem noDots_of_auditExact (ht : t.IsTree) (hs : snapshot t scan = .ok s) (h : AuditExact s) : NoDots t := by
  intro name hname hdot
  have hnames := (ht.component [name] hname).2
  have hclean : (idleProgress t).NotAudited := by
    intro id o ho
    simp only [idleProgress] at ho
    split at ho
    · cases ho
      simp
    · cases ho
  obtain ⟨outcome, hf⟩ : ∃ outcome, finish pwdProgram (idleProgress t) s.manifest 1 = .ok outcome := ⟨_, rfl⟩
  have hsilent := (h pwdProgram (idleProgress t) 1 outcome (by simp [WritesDeclared, pwdProgram,
    CommandGraphProgram.sealed, pwdNode]) ht hclean hf).1 (by simp [pwdProgram, CommandGraphProgram.sealed])
    fun p _ => by rw [snapshot_stage ht hs]; rfl
  apply hsilent
  rw [finish_status hclean hf]
  have hkey : s.manifest.lookup (virtual [name]) = none := by
    by_contra hne
    obtain ⟨q, -, heq⟩ := (snapshot_recorded hs).keys _ hne
    exact manifestKey_ne (hnames name (by simp)) hdot heq.symm
  refine Or.inl (Or.inl ⟨[name], (t.mem_paths _).mpr hname, ?_, by simp [allowedPaths, pwdProgram,
    CommandGraphProgram.sealed, pwdNode]⟩)
  rw [hkey, Stage.after_virtual hnames, ne_comm, Ne, Option.map_eq_none_iff]
  exact hname

end Idle

/-- The audit of a staged workspace is exact just when nothing at its top has a name with a dot in front. -/
theorem audit_exact {t : Stage} (ht : t.IsTree) (scan : Scan t) {s : Snapshot} (hs : snapshot t scan = .ok s) :
    (AuditExact s ↔ NoDots t) ∧ (KeysExact t ↔ NoDots t) := by
  refine ⟨⟨noDots_of_auditExact ht hs, fun h => ?_⟩, noDots_of_keysExact ht, keysExact_of_noDots ht⟩
  exact auditExact_of_keysExact ht (keysExact_of_noDots ht h) hs

section Sample

instance (name : String) : Decidable (IsComponent name) :=
  decidable_of_iff (name ≠ "" ∧ name ≠ "." ∧ name ≠ ".." ∧ '/' ∉ name.toList ∧ '\x00' ∉ name.toList)
    ⟨fun h => ⟨h.1, h.2.1, h.2.2.1, h.2.2.2.1, h.2.2.2.2⟩, fun h => ⟨h.1, h.2, h.3, h.4, h.5⟩⟩

theorem lookup_ne_none {l : List (List String × Entry)} {p : List String} :
    l.lookup p ≠ none ↔ p ∈ l.map Prod.fst := by
  rw [Ne, List.lookup_eq_none_iff]
  simp

/-- The workspace with these entries. -/
def Stage.ofEntries (l : List (List String × Entry)) : Stage where
  lookup p := l.lookup p
  paths := (l.map Prod.fst).toFinset
  mem_paths p := by rw [List.mem_toFinset, lookup_ne_none]

/-- Its directories list their names in the order of the entries. -/
def Scan.ofEntries (l : List (List String × Entry)) : Scan (Stage.ofEntries l) where
  names p := ((l.map Prod.fst).filter fun q => q ≠ [] ∧ q.dropLast = p).map fun q => q.getLastD ""
  mem_names p name := by
    rw [Stage.ofEntries, lookup_ne_none, List.mem_map]
    constructor
    · rintro ⟨q, hq, rfl⟩
      obtain ⟨hmem, hq⟩ := List.mem_filter.mp hq
      obtain ⟨hne, rfl⟩ := of_decide_eq_true hq
      rwa [List.getLastD_eq_getLast?, List.getLast?_eq_some_getLast hne, Option.getD_some, List.dropLast_append_getLast]
    · intro hmem
      exact ⟨p ++ [name], List.mem_filter.mpr ⟨hmem, by simp⟩, by simp⟩

theorem Stage.ofEntries_isTree {l : List (List String × Entry)} (h : ∀ p ∈ l.map Prod.fst, (p ≠ [] ∧
    ∀ name ∈ p, IsComponent name) ∧ (p.dropLast = [] ∨ l.lookup p.dropLast = some .directory)) :
    (Stage.ofEntries l).IsTree := by
  refine ⟨fun p hp => (h p (lookup_ne_none.mp hp)).1, fun p name hp hne => ?_⟩
  obtain ⟨-, habove⟩ := h _ (lookup_ne_none.mp hp)
  rw [List.dropLast_concat] at habove
  exact habove.resolve_left hne

/-- Notes in two directories, with a name behind a dot below the top, and a file beside them. -/
def notes : Stage := Stage.ofEntries [
  (["notes"], .directory),
  (["notes", "today"], .file [1, 2]),
  (["notes", "old"], .directory),
  (["notes", "old", ".draft"], .file []),
  (["readme.md"], .file [3])]

def notesScan : Scan notes := .ofEntries _

theorem audit_exact_notes : ∃ s, snapshot notes notesScan = .ok s ∧ (AuditExact s ↔ NoDots notes) ∧
    (KeysExact notes ↔ NoDots notes) := by
  have htree : notes.IsTree := Stage.ofEntries_isTree (by decide)
  obtain ⟨s, hs⟩ : ∃ s, snapshot notes notesScan = .ok s := ⟨_, rfl⟩
  exact ⟨s, hs, audit_exact htree notesScan hs⟩

/-- A workspace that holds `.env`. -/
def settings : Stage := Stage.ofEntries [([".env"], .file [])]

def settingsScan : Scan settings := .ofEntries _

/-- In a workspace that holds `.env`, a run that changes nothing is reported. -/
theorem audit_inexact : ¬ ∀ (t : Stage) (_ : t.IsTree) (scan : Scan t) (s : Snapshot), snapshot t scan = .ok s →
    AuditExact s ∧ KeysExact t := by
  intro h
  have htree : settings.IsTree := Stage.ofEntries_isTree (by decide)
  obtain ⟨s, hs⟩ : ∃ s, snapshot settings settingsScan = .ok s := ⟨_, rfl⟩
  have hdots := noDots_of_auditExact htree hs (h _ htree _ s hs).1
  exact hdots ".env" (by simp [settings, Stage.ofEntries]) (by decide)

end Sample

end Raveil.Command
