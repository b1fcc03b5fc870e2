import Raveil.Flow.Structure

/-! The stages of a flow with their lowerings: what `compile` accepts, and its reference under any tiles. -/
namespace Raveil.Flow
open Lib

variable {value : FlowSource} {order : List Stage} {stage : Stage} {tiles : String → ℕ × ℕ} {env env' : Outputs}
  {source : Grid.Source} {ls : List Grid.Lowered}

section Materialize

/-- The stage with the tile of an assignment. -/
def Stage.assign (tiles : String → ℕ × ℕ) (stage : Stage) : Stage :=
  { stage with source := stage.source.retile (Grid.tileList (tiles stage.name)) }

/-- The flow with the tiles of an assignment. -/
def FlowSource.assign (value : FlowSource) (tiles : String → ℕ × ℕ) : FlowSource := value.mapStages (Stage.assign tiles)

theorem keeps_assign (tiles : String → ℕ × ℕ) : Keeps (Stage.assign tiles) := ⟨fun _ => rfl, fun _ => rfl⟩

theorem materialize_retile {source : Grid.SourceOf Input} {resolved : Grid.Source} (tile : List ℤ)
    (h : materialize source env = .ok resolved) : materialize (source.retile tile) env = .ok (resolved.retile tile) := by
  obtain ⟨inputs, hinputs, h⟩ := except_bind_eq_ok.mp h
  cases h
  exact except_bind_eq_ok.mpr ⟨inputs, hinputs, rfl⟩

theorem materialize_of_retile {source : Grid.SourceOf Input} {resolved : Grid.Source} {tile : List ℤ}
    (h : materialize (source.retile tile) env = .ok resolved) :
    ∃ plain, materialize source env = .ok plain ∧ resolved = plain.retile tile ∧ plain.tile = source.tile := by
  obtain ⟨inputs, hinputs, h⟩ := except_bind_eq_ok.mp h
  cases h
  exact ⟨_, except_bind_eq_ok.mpr ⟨inputs, hinputs, rfl⟩, rfl, rfl⟩

end Materialize

section Compile

/-- The lowerings of stages one after the other, each over placeholders for those before. -/
inductive Lowers : Outputs → List Stage → List Grid.Lowered → Prop
  | nil (env : Outputs) : Lowers env [] []
  | cons {env : Outputs} {stage : Stage} {source : Grid.Source} {l : Grid.Lowered} {stages : List Stage}
      {ls : List Grid.Lowered} (hsource : materialize stage.source env = .ok source)
      (hl : Grid.compile source = .ok l)
      (hrest : Lowers (Function.update env stage.name (some (zeros l.rows l.columns))) stages ls) :
      Lowers env (stage :: stages) (l :: ls)

theorem Lowers.unique {ls' : List Grid.Lowered} (h : Lowers env order ls) (h' : Lowers env order ls') : ls = ls' := by
  induction h generalizing ls' with
  | nil =>
    cases h'
    rfl
  | cons hsource hl _ ih =>
    cases h' with
    | cons hsource' hl' hrest' =>
      rw [hsource] at hsource'
      cases hsource'
      rw [hl] at hl'
      cases hl'
      rw [ih hrest']

/-- The sums of a list of lowerings. -/
def sessionsOf (ls : List Grid.Lowered) : ℕ := (ls.map (·.sessions)).sum

def jobsOf (ls : List Grid.Lowered) : ℕ := (ls.map (·.jobs)).sum

def wordsOf (ls : List Grid.Lowered) : ℤ := (ls.map (·.words)).sum

theorem sessionsOf_cons (l : Grid.Lowered) (ls : List Grid.Lowered) : sessionsOf (l :: ls) = l.sessions + sessionsOf ls :=
  List.sum_cons

theorem jobsOf_cons (l : Grid.Lowered) (ls : List Grid.Lowered) : jobsOf (l :: ls) = l.jobs + jobsOf ls := List.sum_cons

theorem wordsOf_cons (l : Grid.Lowered) (ls : List Grid.Lowered) : wordsOf (l :: ls) = l.words + wordsOf ls :=
  List.sum_cons

/-- What the loop of `compile` has done when it is through. -/
structure Passed (s : Progress) (order : List Stage) (ls : List Grid.Lowered) (s' : Progress) : Prop where
  lowers : Lowers s.placeholders order ls
  plan : s'.plan = s.plan ++ List.zipWith stagePlan order ls
  sessions : s'.sessions = s.sessions + sessionsOf ls
  jobs : s'.jobs = s.jobs + jobsOf ls

theorem compileStages_eq_ok {s s' : Progress} (hs : s.sessions ≤ 16 ∧ s.jobs ≤ 128)
    (h : order.foldlM compileStage s = .ok s') :
    ∃ ls, Passed s order ls s' ∧ s'.sessions ≤ 16 ∧ s'.jobs ≤ 128 := by
  induction order generalizing s with
  | nil =>
    cases h
    exact ⟨[], ⟨.nil _, by simp, rfl, rfl⟩, hs⟩
  | cons stage order ih =>
    rw [List.foldlM_cons] at h
    obtain ⟨next, hstage, h⟩ := except_bind_eq_ok.mp h
    obtain ⟨source, hsource, hstage⟩ := except_bind_eq_ok.mp hstage
    obtain ⟨l, hl, hstage⟩ := except_bind_eq_ok.mp hstage
    obtain ⟨hfits, hstage⟩ := require_then_eq_ok.mp hstage
    cases hstage
    obtain ⟨ls, hpassed, hbounds⟩ := ih hfits h
    refine ⟨l :: ls, ⟨.cons hsource hl hpassed.lowers, ?_, ?_, ?_⟩, hbounds⟩
    · rw [hpassed.plan, List.zipWith_cons_cons, List.append_assoc]
      rfl
    · rw [hpassed.sessions, sessionsOf_cons, Nat.add_assoc]
    · rw [hpassed.jobs, jobsOf_cons, Nat.add_assoc]

theorem compileStages_total {s : Progress} (h : Lowers s.placeholders order ls) (hs : s.sessions + sessionsOf ls ≤ 16)
    (hj : s.jobs + jobsOf ls ≤ 128) : ∃ s', order.foldlM compileStage s = .ok s' := by
  induction order generalizing s ls with
  | nil => exact ⟨s, rfl⟩
  | cons stage order ih =>
    cases h with
    | @cons _ _ source l _ ls hsource hl hrest =>
      rw [sessionsOf_cons] at hs
      rw [jobsOf_cons] at hj
      obtain ⟨s', hs'⟩ := @ih ls
        ⟨Function.update s.placeholders stage.name (some (zeros l.rows l.columns)), s.plan ++ [stagePlan stage l],
          s.sessions + l.sessions, s.jobs + l.jobs⟩ hrest (by dsimp only; omega) (by dsimp only; omega)
      refine ⟨s', ?_⟩
      rw [List.foldlM_cons]
      exact except_bind_eq_ok.mpr ⟨_, except_bind_eq_ok.mpr ⟨source, hsource, except_bind_eq_ok.mpr ⟨l, hl,
        require_then_eq_ok.mpr ⟨⟨by omega, by omega⟩, rfl⟩⟩⟩, hs'⟩

/-- What a flow compiles to. -/
structure Compiles (value : FlowSource) (order : List Stage) (ls : List Grid.Lowered) (c : Compiled) : Prop where
  scheduled : flowStructure value = .ok order
  lowers : Lowers (fun _ => none) order ls
  plan : c.stages = List.zipWith stagePlan order ls
  outputs : c.outputs = value.outputs
  sessions : c.sessions = sessionsOf ls
  jobs : c.jobs = jobsOf ls
  sessions_le : sessionsOf ls ≤ 16
  jobs_le : jobsOf ls ≤ 128

theorem compiles_of_compile {c : Compiled} (h : compile value = .ok c) : ∃ order ls, Compiles value order ls c := by
  obtain ⟨order, horder, h⟩ := except_bind_eq_ok.mp h
  obtain ⟨s, hs, h⟩ := except_bind_eq_ok.mp h
  cases h
  obtain ⟨ls, hpassed, h16, h128⟩ := compileStages_eq_ok ⟨by decide, by decide⟩ hs
  have hsessions := hpassed.sessions
  have hjobs := hpassed.jobs
  dsimp only at hsessions hjobs
  rw [Nat.zero_add] at hsessions hjobs
  exact ⟨order, ls, horder, hpassed.lowers, hpassed.plan, rfl, hsessions, hjobs, by omega, by omega⟩

theorem compile_total (horder : flowStructure value = .ok order) (h : Lowers (fun _ => none) order ls)
    (hs : sessionsOf ls ≤ 16) (hj : jobsOf ls ≤ 128) : ∃ c, compile value = .ok c := by
  obtain ⟨s, hs⟩ := @compileStages_total order ls {} h (by dsimp only; omega) (by dsimp only; omega)
  exact ⟨_, except_bind_eq_ok.mpr ⟨order, horder, except_bind_eq_ok.mpr ⟨s, hs, rfl⟩⟩⟩

end Compile

section Reference

/-- The real outputs, where the compiler has placeholders of the same shapes. -/
structure Stands (env env' : Outputs) : Prop where
  absent : ∀ name, env name = none → env' name = none
  present : ∀ name output, env name = some output → ∃ words, env' name = some ⟨output.rows, output.columns, words⟩ ∧
    words.length = output.rows * output.columns ∧ (∀ w ∈ words, w < 2 ^ 32)

/-- An output object is read in its own dimensions when it has as many words. -/
theorem readInput_output {rows columns : ℕ} {words : List ℕ} (hr : 1 ≤ rows ∧ rows ≤ 64) (hc : 1 ≤ columns ∧ columns ≤ 64)
    (hlen : words.length = rows * columns) (hw : ∀ w ∈ words, w < 2 ^ 32) :
    ∃ grid, Grid.readInput ⟨Grid.INPUT, rows, columns, words.map Int.ofNat⟩ = .ok grid ∧
      grid.rows = rows ∧ grid.columns = columns := by
  unfold Grid.readInput
  have hd : ((1 : ℤ) ≤ rows ∧ (rows : ℤ) ≤ 64) ∧ (1 : ℤ) ≤ columns ∧ (columns : ℤ) ≤ 64 := by omega
  have hwords : ((words.map Int.ofNat).length : ℤ) = rows * columns ∧ ∀ w ∈ words.map Int.ofNat, 0 ≤ w ∧ w < 2 ^ 32 := by
    constructor
    · rw [List.length_map, hlen, Nat.cast_mul]
    · intro w hm
      obtain ⟨v, hv, rfl⟩ := List.mem_map.mp hm
      have := hw v hv
      change 0 ≤ (v : ℤ) ∧ (v : ℤ) < 2 ^ 32
      omega
  rw [if_neg (by simp), dif_pos hd, dif_pos hwords]
  exact ⟨_, rfl, Int.toNat_natCast rows, Int.toNat_natCast columns⟩

theorem readInput_dimensions {v : Grid.GridInput} {grid : Tiling.Grid} (h : Grid.readInput v = .ok grid) :
    (1 ≤ v.rows ∧ v.rows ≤ 64) ∧ (1 ≤ v.columns ∧ v.columns ≤ 64) ∧ grid.rows = v.rows.toNat ∧
      grid.columns = v.columns.toNat := by
  unfold Grid.readInput at h
  split at h
  · cases h
  · split at h
    · rename_i hd
      split at h
      · cases h
        exact ⟨hd.1, hd.2, rfl, rfl⟩
      · cases h
    · cases h

/-- What is read of a placeholder is read of the real output. -/
theorem Stands.input (h : Stands env env') {item : Input} {v : Grid.GridInput} (hv : inputOf env item = .ok v) :
    ∃ v', inputOf env' item = .ok v' ∧ Grid.Matches v v' := by
  cases item with
  | grid value =>
    cases hv
    exact ⟨_, rfl, Grid.matches_refl _⟩
  | link name =>
    dsimp only [inputOf] at hv ⊢
    cases hout : env name with
    | none =>
      rw [hout] at hv
      cases hv
    | some output =>
      rw [hout] at hv
      cases hv
      obtain ⟨words, hwords, hlen, hlt⟩ := h.present name output hout
      rw [hwords]
      refine ⟨_, rfl, ?_⟩
      intro grid hread
      obtain ⟨hr, hc, hrows, hcolumns⟩ := readInput_dimensions hread
      dsimp only at hr hc hrows hcolumns
      obtain ⟨grid', hread', hrows', hcolumns'⟩ :=
        readInput_output (show 1 ≤ output.rows ∧ output.rows ≤ 64 by omega)
          (show 1 ≤ output.columns ∧ output.columns ≤ 64 by omega) hlen hlt
      exact ⟨grid', hread', by omega, by omega⟩

/-- A source over placeholders and the source over the real outputs differ in their inputs only. -/
theorem Stands.materialize (h : Stands env env') {source : Grid.SourceOf Input} {resolved : Grid.Source}
    (hm : materialize source env = .ok resolved) :
    ∃ inputs, materialize source env' = .ok { resolved with inputs } ∧
      List.Forall₂ Grid.Matches resolved.inputs inputs := by
  obtain ⟨inputs, hinputs, hm⟩ := except_bind_eq_ok.mp hm
  cases hm
  obtain ⟨inputs', hinputs', hall⟩ := mapM_forall₂ (List.forall₂_same.mpr fun _ _ => rfl)
    (fun item item' (heq : item = item') v hv => heq ▸ h.input hv) hinputs
  exact ⟨inputs', except_bind_eq_ok.mpr ⟨inputs', hinputs', rfl⟩, hall⟩

theorem Stands.update (h : Stands env env') {name : String} {rows columns : ℕ} {words : List ℕ}
    (hlen : words.length = rows * columns) (hlt : ∀ w ∈ words, w < 2 ^ 32) :
    Stands (Function.update env name (some (zeros rows columns)))
      (Function.update env' name (some ⟨rows, columns, words⟩)) := by
  constructor
  · intro other hother
    by_cases heq : other = name
    · rw [heq, Function.update_self] at hother
      cases hother
    · rw [Function.update_of_ne heq] at hother ⊢
      exact h.absent other hother
  · intro other output hother
    by_cases heq : other = name
    · subst heq
      rw [Function.update_self] at hother ⊢
      cases hother
      exact ⟨words, rfl, hlen, hlt⟩
    · rw [Function.update_of_ne heq] at hother ⊢
      exact h.present other output hother

/-- A stage that compiles over placeholders has the same reference under two tiles, over the real outputs. -/
theorem Stands.reference (h : Stands env env') {source : Grid.SourceOf Input} {resolved resolved' : Grid.Source}
    {tile tile' : List ℤ} {l l' : Grid.Lowered} (hm : Flow.materialize (source.retile tile) env = .ok resolved)
    (hl : Grid.compile resolved = .ok l) (hm' : Flow.materialize (source.retile tile') env = .ok resolved')
    (hl' : Grid.compile resolved' = .ok l') :
    ∃ real real' words, Flow.materialize (source.retile tile) env' = .ok real ∧
      Flow.materialize (source.retile tile') env' = .ok real' ∧ Grid.reference real = .ok words ∧
      Grid.reference real' = .ok words ∧ (l'.rows = l.rows ∧ l'.columns = l.columns) ∧
      words.length = l.rows * l.columns ∧ ∀ w ∈ words, w < 2 ^ 32 := by
  obtain ⟨plain, hplain, rfl, -⟩ := materialize_of_retile hm
  obtain ⟨plain', hplain', rfl, -⟩ := materialize_of_retile hm'
  rw [hplain] at hplain'
  cases hplain'
  obtain ⟨inputs, hreal, hall⟩ := h.materialize hplain
  -- over the real outputs both tiles still compile
  obtain ⟨m, hcompiled, hsame⟩ := Grid.compile_matches hl hall
  obtain ⟨m', hcompiled', hsame'⟩ := Grid.compile_matches hl' hall
  obtain ⟨words, hwords, hlen, hlt⟩ := Grid.reference_total hcompiled
  obtain ⟨hreference, -, -⟩ := @Grid.reference_retile { plain with inputs } m tile tile' m' hcompiled hcompiled'
  obtain ⟨-, hrows, hcolumns⟩ := Grid.reference_retile hl hl'
  refine ⟨_, _, words, materialize_retile tile hreal, materialize_retile tile' hreal, hwords,
    hreference.trans hwords, ⟨hrows, hcolumns⟩, ?_, hlt⟩
  rw [hlen, hsame.rows, hsame.columns]

theorem find_assign (hnodup : (value.stages.map (·.name)).Nodup) (hmem : stage ∈ value.stages) :
    (value.assign tiles).stages.find? (fun other => other.name = stage.name) = some (stage.assign tiles) := by
  change (value.stages.map (Stage.assign tiles)).find? _ = _
  rw [List.find?_map]
  cases hfind : value.stages.find? ((fun other : Stage => decide (other.name = stage.name)) ∘ Stage.assign tiles) with
  | none =>
    have := List.find?_eq_none.mp hfind stage hmem
    exact absurd (decide_eq_true rfl) this
  | some other =>
    have hname : (Stage.assign tiles other).name = stage.name := by simpa using List.find?_some hfind
    change other.name = stage.name at hname
    rw [eq_of_nodup_name hnodup (List.mem_of_find?_eq_some hfind) hmem hname]
    rfl

theorem referenceStage_assign (hnodup : (value.stages.map (·.name)).Nodup) (hmem : stage ∈ value.stages)
    {real : Grid.Source} {words : List ℕ} {l : Grid.Lowered}
    (hreal : materialize (stage.assign tiles).source env = .ok real) (hwords : Grid.reference real = .ok words) :
    referenceStage (value.assign tiles) env (stagePlan (stage.assign tiles) l) =
      .ok (Function.update env stage.name (some ⟨l.rows, l.columns, words⟩)) := by
  unfold referenceStage
  rw [show (stagePlan (stage.assign tiles) l).name = stage.name from rfl, find_assign hnodup hmem]
  exact except_bind_eq_ok.mpr ⟨real, hreal, except_bind_eq_ok.mpr ⟨words, hwords, rfl⟩⟩

variable {tiles' : String → ℕ × ℕ} {ls' : List Grid.Lowered}

/-- Under two assignments that compile, the loops of the reference give the same outputs. -/
theorem referenceStages_eq (hnodup : (value.stages.map (·.name)).Nodup) (hmem : ∀ stage ∈ order, stage ∈ value.stages)
    (h : Stands env env') (hl : Lowers env (order.map (Stage.assign tiles)) ls)
    (hl' : Lowers env (order.map (Stage.assign tiles')) ls') :
    ∃ outputs, (List.zipWith stagePlan (order.map (Stage.assign tiles)) ls).foldlM
        (referenceStage (value.assign tiles)) env' = .ok outputs ∧
      (List.zipWith stagePlan (order.map (Stage.assign tiles')) ls').foldlM
        (referenceStage (value.assign tiles')) env' = .ok outputs ∧
      ∀ name, (env' name).isSome ∨ name ∈ order.map (·.name) → (outputs name).isSome := by
  induction order generalizing env env' ls ls' with
  | nil =>
    cases hl
    cases hl'
    exact ⟨env', rfl, rfl, by simp⟩
  | cons stage order ih =>
    rw [List.forall_mem_cons] at hmem
    rw [List.map_cons] at hl hl'
    cases hl with
    | @cons _ _ source l _ ls hsource hcompiled hrest =>
    cases hl' with
    | @cons _ _ source' l' _ ls' hsource' hcompiled' hrest' =>
    obtain ⟨real, real', words, hreal, hreal', hwords, hwords', ⟨hrows, hcolumns⟩, hlen, hlt⟩ :=
      h.reference hsource hcompiled hsource' hcompiled'
    rw [hrows, hcolumns] at hrest'
    obtain ⟨outputs, hrun, hrun', hall⟩ := ih hmem.2 (h.update hlen hlt) hrest hrest'
    refine ⟨outputs, ?_, ?_, ?_⟩
    · rw [List.map_cons, List.zipWith_cons_cons, List.foldlM_cons, referenceStage_assign hnodup hmem.1 hreal hwords]
      exact hrun
    · rw [List.map_cons, List.zipWith_cons_cons, List.foldlM_cons, referenceStage_assign hnodup hmem.1 hreal' hwords',
        hrows, hcolumns]
      exact hrun'
    · intro name hname
      apply hall
      by_cases heq : name = stage.name
      · left
        rw [heq]
        change (Function.update env' stage.name _ stage.name).isSome
        rw [Function.update_self]
        rfl
      · rw [List.map_cons, List.mem_cons] at hname
        rcases hname with hsome | hin | hin
        · left
          change (Function.update env' stage.name _ name).isSome
          rw [Function.update_of_ne heq]
          exact hsome
        · exact absurd hin heq
        · exact Or.inr hin

/-- A flow that compiles under some tiles does so along its own schedule. -/
theorem compiles_assign {c : Compiled} (h : compile (value.assign tiles) = .ok c) :
    ∃ order ls, flowStructure value = .ok order ∧
      Compiles (value.assign tiles) (order.map (Stage.assign tiles)) ls c := by
  obtain ⟨o, ls, hc⟩ := compiles_of_compile h
  obtain ⟨order, horder, rfl⟩ := (keeps_assign tiles).flowStructure_eq_ok.mp hc.scheduled
  exact ⟨order, ls, horder, hc⟩

/-- All assignments that compile have one reference result. -/
theorem reference_assign {c c' : Compiled} (h : compile (value.assign tiles) = .ok c)
    (h' : compile (value.assign tiles') = .ok c') :
    ∃ result, reference (value.assign tiles) = .ok result ∧ reference (value.assign tiles') = .ok result := by
  obtain ⟨order, ls, horder, hc⟩ := compiles_assign h
  obtain ⟨order', ls', horder', hc'⟩ := compiles_assign h'
  rw [horder] at horder'
  cases horder'
  have hscheduled := scheduled_of_structure horder
  have hnodup := (hscheduled.perm.map (·.name)).nodup_iff.mp hscheduled.nodup
  have hstart : Stands (fun _ => none) fun _ => none := ⟨fun _ _ => rfl, fun _ _ h => by cases h⟩
  obtain ⟨outputs, hrun, hrun', hall⟩ := referenceStages_eq hnodup (fun stage hs => hscheduled.perm.mem_iff.mp hs)
    hstart hc.lowers hc'.lowers
  have houtput : ∀ name ∈ value.outputs, ∃ output, namedOutput outputs name = .ok output := by
    intro name hname
    obtain ⟨output, hout⟩ := Option.isSome_iff_exists.mp (hall name (Or.inr (hscheduled.outputs name hname)))
    refine ⟨(name, output), ?_⟩
    unfold namedOutput
    rw [hout]
  choose! output houtput using houtput
  have hresult : value.outputs.mapM (namedOutput outputs) = .ok (value.outputs.map output) := mapM_eq_map houtput
  refine ⟨value.outputs.map output, ?_, ?_⟩
  · refine except_bind_eq_ok.mpr ⟨c, h, except_bind_eq_ok.mpr ⟨outputs, ?_, ?_⟩⟩
    · rw [hc.plan]
      exact hrun
    · rw [hc.outputs]
      exact hresult
  · refine except_bind_eq_ok.mpr ⟨c', h', except_bind_eq_ok.mpr ⟨outputs, ?_, ?_⟩⟩
    · rw [hc'.plan]
      exact hrun'
    · rw [hc'.outputs]
      exact hresult

end Reference

end Raveil.Flow
