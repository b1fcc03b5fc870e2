import Mathlib.Algebra.Order.Monoid.Prod
import Raveil.Flow.Lowers

/-! The tile planner of a flow is complete, and its choice is least in sessions, then in initial packed words. -/
namespace Raveil.Flow
open Lib
open Grid (InRange tileList)

variable {value : FlowSource} {order : List Stage} {stage : Stage} {tiles : String → ℕ × ℕ} {s s' : Planning}
  {ls ms : List Grid.Lowered} {env : Outputs}

section Words

/-- The body of the loop that adds up the words. -/
def packedStage (s : Outputs × ℤ) (stage : Stage) : Except String (Outputs × ℤ) := do
  let source ← materialize stage.source s.1
  let lowered ← Grid.compile source
  pure (Function.update s.1 stage.name (some (zeros lowered.rows lowered.columns)), s.2 + lowered.words)

/-- The initial packed words of all stages of a flow. -/
def packedWords (value : FlowSource) : Except String ℤ := do
  let order ← flowStructure value
  let s ← order.foldlM packedStage (fun _ => none, 0)
  pure s.2

theorem packedStages_eq (h : Lowers env order ls) (words : ℤ) :
    ∃ env', order.foldlM packedStage (env, words) = .ok (env', words + wordsOf ls) := by
  induction h generalizing words with
  | nil env => exact ⟨env, by rw [wordsOf, List.map_nil, List.sum_nil, add_zero]; rfl⟩
  | @cons env stage source l stages ls hsource hl _ ih =>
    obtain ⟨env', hrun⟩ := ih (words + l.words)
    refine ⟨env', ?_⟩
    rw [wordsOf_cons, ← add_assoc, List.foldlM_cons]
    exact except_bind_eq_ok.mpr ⟨_, except_bind_eq_ok.mpr ⟨source, hsource, except_bind_eq_ok.mpr ⟨l, hl, rfl⟩⟩, hrun⟩

theorem packedWords_eq (horder : flowStructure value = .ok order) (h : Lowers (fun _ => none) order ls) :
    packedWords value = .ok (wordsOf ls) := by
  obtain ⟨env', hrun⟩ := packedStages_eq h 0
  rw [zero_add] at hrun
  exact except_bind_eq_ok.mpr ⟨order, horder, except_bind_eq_ok.mpr ⟨_, hrun, rfl⟩⟩

theorem sum_cost (ls : List Grid.Lowered) : (ls.map (·.cost)).sum = toLex (sessionsOf ls, wordsOf ls) := by
  induction ls with
  | nil => rfl
  | cons l ls ih =>
    rw [List.map_cons, List.sum_cons, ih, sessionsOf_cons, wordsOf_cons]
    rfl

end Words

section Stages

/-- One turn of the planner chooses a best tile for the stage over the placeholders so far. -/
theorem planStage_eq_ok (h : planStage s stage = .ok s') :
    ∃ plain p l, materialize stage.source s.placeholders = .ok plain ∧ Grid.Best plain p l ∧
      s'.placeholders = Function.update s.placeholders stage.name (some (zeros l.rows l.columns)) ∧
      (s'.rows.map (·.words)).sum = (s.rows.map (·.words)).sum + l.words ∧
      s'.tiles = Function.update s.tiles stage.name (some p.tile) := by
  obtain ⟨plain, hplain, h⟩ := except_bind_eq_ok.mp h
  obtain ⟨p, hp, h⟩ := except_bind_eq_ok.mp h
  obtain ⟨a, ha, h⟩ := except_bind_eq_ok.mp h
  cases h
  obtain ⟨l, hbest⟩ := Grid.best_of_plan hp
  obtain ⟨a', ha', hrows, hcolumns⟩ := Grid.compile_source hbest.compiled
  rw [hbest.source] at ha
  cases ha.symm.trans ha'
  refine ⟨plain, p, l, hplain, hbest, ?_, ?_, rfl⟩
  · rw [hrows, hcolumns]
  · dsimp only
    rw [List.map_append, List.sum_append, List.map_singleton, List.sum_singleton, hbest.words]

/-- The planner gets through a stage when some tile in the range compiles. -/
theorem planStage_total {plain : Grid.Source} {l : Grid.Lowered} {tile : ℕ × ℕ}
    (hrequested : Grid.checkRequested stage.source.tile = .ok ())
    (hplain : materialize stage.source s.placeholders = .ok plain) (htile : plain.tile = stage.source.tile)
    (ht : InRange tile) (hl : Grid.compile (plain.retile (tileList tile)) = .ok l) : ∃ s', planStage s stage = .ok s' := by
  rw [← htile] at hrequested
  obtain ⟨p, hp⟩ := Grid.plan_total hrequested ht hl
  obtain ⟨l', hbest⟩ := Grid.best_of_plan hp
  obtain ⟨a, ha, -, -⟩ := Grid.compile_source hbest.compiled
  rw [← hbest.source] at ha
  exact ⟨_, except_bind_eq_ok.mpr ⟨plain, hplain, except_bind_eq_ok.mpr ⟨p, hp, except_bind_eq_ok.mpr ⟨a, ha, rfl⟩⟩⟩⟩

/-- The lowerings `ls` cost no more than `ms`. -/
structure Cheaper (ls ms : List Grid.Lowered) : Prop where
  cost : (ls.map (·.cost)).sum ≤ (ms.map (·.cost)).sum
  sessions : sessionsOf ls ≤ sessionsOf ms
  jobs : jobsOf ls ≤ jobsOf ms

theorem cheaper_nil : Cheaper [] [] := ⟨le_refl _, le_refl _, le_refl _⟩

theorem Cheaper.cons {l m : Grid.Lowered} (h : Cheaper ls ms) (hcost : l.cost ≤ m.cost) (hs : l.sessions ≤ m.sessions)
    (hj : l.jobs ≤ m.jobs) : Cheaper (l :: ls) (m :: ms) := by
  constructor
  · rw [List.map_cons, List.map_cons, List.sum_cons, List.sum_cons]
    exact add_le_add hcost h.cost
  · rw [sessionsOf_cons, sessionsOf_cons]
    exact Nat.add_le_add hs h.sessions
  · rw [jobsOf_cons, jobsOf_cons]
    exact Nat.add_le_add hj h.jobs

theorem sessions_le_of_cost {l m : Grid.Lowered} (h : l.cost ≤ m.cost) : l.sessions ≤ m.sessions := by
  rcases Prod.Lex.toLex_le_toLex.mp h with hlt | ⟨heq, -⟩
  · exact le_of_lt hlt
  · exact le_of_eq heq

/-- Two tiles of one source: the jobs follow the sessions. -/
theorem jobs_le_of_sessions {plain : Grid.Source} {tile tile' : List ℤ} {l m : Grid.Lowered}
    (hl : Grid.compile (plain.retile tile) = .ok l) (hm : Grid.compile (plain.retile tile') = .ok m)
    (h : l.sessions ≤ m.sessions) : l.jobs ≤ m.jobs := by
  rw [Grid.compile_jobs hl, Grid.compile_jobs hm]
  exact Nat.mul_le_mul_right _ h

/-- What the loop of the planner has done when it is through. -/
structure Planned (s : Planning) (order : List Stage) (s' : Planning) (ls : List Grid.Lowered) : Prop where
  lowers : Lowers s.placeholders (order.map (Stage.select s'.tiles)) ls
  words : (s'.rows.map (·.words)).sum = (s.rows.map (·.words)).sum + wordsOf ls
  kept : ∀ name, name ∉ order.map (·.name) → s'.tiles name = s.tiles name
  chosen : ∀ stage ∈ order, ∃ tile, InRange tile ∧ s'.tiles stage.name = some tile
  least : ∀ tiles ms, (∀ stage ∈ order, InRange (tiles stage.name)) →
    Lowers s.placeholders (order.map (Stage.assign tiles)) ms → Cheaper ls ms

theorem planStages_eq_ok (hnodup : (order.map (·.name)).Nodup) (h : order.foldlM planStage s = .ok s') :
    ∃ ls, Planned s order s' ls := by
  induction order generalizing s with
  | nil =>
    cases h
    refine ⟨[], .nil _, ?_, fun _ _ => rfl, by simp, ?_⟩
    · rw [wordsOf, List.map_nil, List.sum_nil, add_zero]
    · intro tiles ms _ hm
      cases hm
      exact cheaper_nil
  | cons stage order ih =>
    rw [List.map_cons, List.nodup_cons] at hnodup
    rw [List.foldlM_cons] at h
    obtain ⟨next, hstage, h⟩ := except_bind_eq_ok.mp h
    obtain ⟨plain, p, l, hplain, hbest, henv, hwords, htiles⟩ := planStage_eq_ok hstage
    obtain ⟨ls, hplanned⟩ := ih hnodup.2 h
    -- later turns leave the tile of this stage alone
    have htile : s'.tiles stage.name = some p.tile := by
      rw [hplanned.kept _ hnodup.1, htiles, Function.update_self]
    refine ⟨l :: ls, ?_, ?_, ?_, ?_, ?_⟩
    · have hselect : Stage.select s'.tiles stage =
          { stage with source := stage.source.retile (tileList p.tile) } := by
        unfold Stage.select
        rw [htile]
      rw [List.map_cons, hselect]
      refine .cons (materialize_retile _ hplain) hbest.compiled ?_
      have hlowers := hplanned.lowers
      rw [henv] at hlowers
      exact hlowers
    · rw [hplanned.words, hwords, wordsOf_cons, add_assoc]
    · intro name hname
      rw [List.map_cons, List.mem_cons, not_or] at hname
      rw [hplanned.kept name hname.2, htiles, Function.update_of_ne hname.1]
    · rw [List.forall_mem_cons]
      exact ⟨⟨p.tile, hbest.range, htile⟩, hplanned.chosen⟩
    · intro tiles ms hrange hm
      rw [List.forall_mem_cons] at hrange
      rw [List.map_cons] at hm
      cases hm with
      | @cons _ _ source m _ ms hsource hcompiled hrest =>
        obtain ⟨plain', hplain', rfl, -⟩ := materialize_of_retile hsource
        rw [hplain] at hplain'
        cases hplain'
        have hcost := hbest.least _ m hrange.1 hcompiled
        have hsessions := sessions_le_of_cost hcost
        obtain ⟨-, hrows, hcolumns⟩ := Grid.reference_retile hbest.compiled hcompiled
        rw [hrows, hcolumns] at hrest
        have hlater := hplanned.least tiles ms hrange.2
        rw [henv] at hlater
        exact (hlater hrest).cons hcost hsessions (jobs_le_of_sessions hbest.compiled hcompiled hsessions)

theorem planStages_total (hrequested : ∀ stage ∈ order, Grid.checkRequested stage.source.tile = .ok ())
    (hrange : ∀ stage ∈ order, InRange (tiles stage.name))
    (h : Lowers s.placeholders (order.map (Stage.assign tiles)) ms) : ∃ s', order.foldlM planStage s = .ok s' := by
  induction order generalizing s ms with
  | nil => exact ⟨s, rfl⟩
  | cons stage order ih =>
    rw [List.forall_mem_cons] at hrequested hrange
    rw [List.map_cons] at h
    cases h with
    | @cons _ _ source m _ ms hsource hcompiled hrest =>
      obtain ⟨plain, hplain, rfl, htile⟩ := materialize_of_retile hsource
      obtain ⟨next, hnext⟩ := planStage_total hrequested.1 hplain htile hrange.1 hcompiled
      obtain ⟨plain', p, l, hplain', hbest, henv, -, -⟩ := planStage_eq_ok hnext
      rw [hplain] at hplain'
      cases hplain'
      obtain ⟨-, hrows, hcolumns⟩ := Grid.reference_retile hbest.compiled hcompiled
      rw [show (Stage.assign tiles stage).name = stage.name from rfl, hrows, hcolumns, ← henv] at hrest
      obtain ⟨s', hs'⟩ := ih hrequested.2 hrange.2 hrest
      refine ⟨s', ?_⟩
      rw [List.foldlM_cons]
      exact except_bind_eq_ok.mpr ⟨next, hnext, hs'⟩

end Stages

section Optimal

/-- The tiles of an assignment are in the range, and the flow compiles with them. -/
structure Admits (value : FlowSource) (tiles : String → ℕ × ℕ) (c : Compiled) : Prop where
  range : ∀ stage ∈ value.stages, InRange (tiles stage.name)
  compiled : compile (value.assign tiles) = .ok c

/-- The assignment that the planner has written. -/
def tileOf (tiles : String → Option (ℕ × ℕ)) (name : String) : ℕ × ℕ := (tiles name).getD (1, 1)

theorem select_eq_assign {chosen : String → Option (ℕ × ℕ)} (h : ∀ stage ∈ order, ∃ tile, InRange tile ∧
    chosen stage.name = some tile) : order.map (Stage.select chosen) = order.map (Stage.assign (tileOf chosen)) := by
  apply List.map_congr_left
  intro stage hstage
  obtain ⟨tile, -, htile⟩ := h stage hstage
  unfold Stage.select Stage.assign tileOf
  rw [htile]
  rfl

/-- The least costs along the schedule carry over to the sums of a flow. -/
theorem Cheaper.toLex_le (h : Cheaper ls ms) : toLex (sessionsOf ls, wordsOf ls) ≤ toLex (sessionsOf ms, wordsOf ms) := by
  rw [← sum_cost, ← sum_cost]
  exact h.cost

/-- A tile as the planner asks for it. -/
theorem checkRequested_tileList {tile : ℕ × ℕ} (h : InRange tile) : Grid.checkRequested (tileList tile) = .ok () := by
  refine require_then_eq_ok.mpr ⟨rfl, forM_eq_ok.mpr ?_⟩
  obtain ⟨hr, hc⟩ := h
  intro size hsize
  apply require_eq_ok.mpr
  rcases List.mem_cons.mp hsize with rfl | hsize
  · omega
  · rw [List.mem_singleton.mp hsize]
    omega

/-- What a proposal of the planner is, against an assignment that the compiler accepts. -/
structure Dominates (value : FlowSource) (p : Proposal) (tiles : String → ℕ × ℕ) (c : Compiled) : Prop where
  reference : ∃ result, reference p.source = .ok result ∧ reference (value.assign tiles) = .ok result
  least : ∃ words, packedWords (value.assign tiles) = .ok words ∧
    (toLex (p.sessions, p.packedInputWords) : ℕ ×ₗ ℤ) ≤ toLex (c.sessions, words)

/-- A proposal of the planner: tiles that the compiler accepts, with their costs, and none are better. -/
structure Optimal (value : FlowSource) (p : Proposal) (chosen : String → ℕ × ℕ) (c : Compiled) : Prop where
  source : p.source = value.assign chosen
  admits : Admits value chosen c
  sessions : p.sessions = c.sessions
  words : packedWords p.source = .ok p.packedInputWords
  dominates : ∀ tiles c', Admits value tiles c' → Dominates value p tiles c'

theorem optimal_of_plan {p : Proposal} (h : plan value = .ok p) : ∃ chosen c, Optimal value p chosen c := by
  obtain ⟨order, horder, h⟩ := except_bind_eq_ok.mp h
  obtain ⟨s, hs, h⟩ := except_bind_eq_ok.mp h
  obtain ⟨c, hc, h⟩ := except_bind_eq_ok.mp h
  cases h
  have hscheduled := scheduled_of_structure horder
  obtain ⟨ls, hplanned⟩ := planStages_eq_ok hscheduled.nodup hs
  have hchosen : ∀ stage ∈ value.stages, ∃ tile, InRange tile ∧ s.tiles stage.name = some tile :=
    fun stage hstage => hplanned.chosen stage (hscheduled.perm.mem_iff.mpr hstage)
  have hsource : ({ value with stages := value.stages.map (·.select s.tiles) } : FlowSource) = value.assign (tileOf s.tiles) := by
    unfold FlowSource.assign FlowSource.mapStages
    rw [← select_eq_assign hchosen]
  rw [hsource] at hc
  -- the lowerings of the loop are those of the selected flow
  obtain ⟨order', ls', horder', hcompiles⟩ := compiles_assign hc
  rw [horder] at horder'
  cases horder'
  have hlowers := hplanned.lowers
  rw [select_eq_assign hplanned.chosen] at hlowers
  obtain rfl := hlowers.unique hcompiles.lowers
  have hwords : (s.rows.map (·.words)).sum = wordsOf ls := by
    rw [hplanned.words]
    exact zero_add _
  have hrange : ∀ stage ∈ value.stages, InRange (tileOf s.tiles stage.name) := by
    intro stage hstage
    obtain ⟨tile, htile, hsome⟩ := hchosen stage hstage
    unfold tileOf
    rw [hsome]
    exact htile
  refine ⟨tileOf s.tiles, c, hsource, ⟨hrange, hc⟩, rfl, ?_, ?_⟩
  · dsimp only
    rw [hsource, hwords]
    exact packedWords_eq hcompiles.scheduled hcompiles.lowers
  · intro tiles c' hadmits
    obtain ⟨order', ms, horder', hm⟩ := compiles_assign hadmits.compiled
    rw [horder] at horder'
    cases horder'
    have hcheaper := hplanned.least tiles ms
      (fun stage hstage => hadmits.range stage (hscheduled.perm.mem_iff.mp hstage)) hm.lowers
    refine ⟨?_, wordsOf ms, packedWords_eq hm.scheduled hm.lowers, ?_⟩
    · dsimp only
      rw [hsource]
      exact reference_assign hc hadmits.compiled
    · dsimp only
      rw [hcompiles.sessions, hwords, hm.sessions]
      exact hcheaper.toLex_le

theorem plan_of_admits {c : Compiled} (hrequested : ∀ stage ∈ value.stages, ∃ tile, InRange tile ∧
    stage.source.tile = tileList tile) (h : Admits value tiles c) : ∃ p, plan value = .ok p := by
  obtain ⟨order, ms, horder, hm⟩ := compiles_assign h.compiled
  have hscheduled := scheduled_of_structure horder
  have hmem := fun stage (hstage : stage ∈ order) => hscheduled.perm.mem_iff.mp hstage
  have hchecked : ∀ stage ∈ order, Grid.checkRequested stage.source.tile = .ok () := by
    intro stage hstage
    obtain ⟨tile, htile, heq⟩ := hrequested stage (hmem stage hstage)
    rw [heq]
    exact checkRequested_tileList htile
  obtain ⟨s, hs⟩ := @planStages_total order tiles {} ms hchecked (fun stage hstage => h.range stage (hmem stage hstage))
    hm.lowers
  obtain ⟨ls, hplanned⟩ := planStages_eq_ok hscheduled.nodup hs
  have hcheaper := hplanned.least tiles ms (fun stage hstage => h.range stage (hmem stage hstage)) hm.lowers
  -- the chosen tiles need no more sessions and jobs, so the flow admits them
  have hlowers := hplanned.lowers
  rw [select_eq_assign hplanned.chosen] at hlowers
  obtain ⟨c', hc'⟩ := @compile_total (value.assign (tileOf s.tiles)) _ ls
    ((keeps_assign (tileOf s.tiles)).flowStructure_eq_ok.mpr ⟨order, horder, rfl⟩) hlowers
    (hcheaper.sessions.trans hm.sessions_le) (hcheaper.jobs.trans hm.jobs_le)
  have hsource : ({ value with stages := value.stages.map (·.select s.tiles) } : FlowSource) = value.assign (tileOf s.tiles) := by
    unfold FlowSource.assign FlowSource.mapStages
    rw [← select_eq_assign fun stage hstage => hplanned.chosen stage (hscheduled.perm.mem_iff.mpr hstage)]
  rw [← hsource] at hc'
  exact ⟨_, except_bind_eq_ok.mpr ⟨order, horder, except_bind_eq_ok.mpr ⟨s, hs, except_bind_eq_ok.mpr ⟨c', hc', rfl⟩⟩⟩⟩

/-- The planner succeeds exactly on the flows that some tiles make compile, and what it proposes is optimal. -/
theorem plan_complete_optimal (value : FlowSource)
    (hrequested : ∀ stage ∈ value.stages, ∃ tile, InRange tile ∧ stage.source.tile = tileList tile) :
    ((∃ p, plan value = .ok p) ↔ ∃ tiles c, Admits value tiles c) ∧
      ∀ p, plan value = .ok p → ∃ chosen c, Optimal value p chosen c := by
  refine ⟨⟨?_, ?_⟩, fun p hp => optimal_of_plan hp⟩
  · rintro ⟨p, hp⟩
    obtain ⟨chosen, c, hoptimal⟩ := optimal_of_plan hp
    exact ⟨chosen, c, hoptimal.admits⟩
  · rintro ⟨tiles, c, hadmits⟩
    exact plan_of_admits hrequested hadmits

/-- A view of one cell. -/
def cellView : Grid.ViewSource where
  input := 0
  offset := [0, 0]
  step := [0, 0]
  row := some [1, 0]
  column := some [0, 1]

/-- Adds one to every cell of its input. -/
def incrementStage (name : String) (input : Input) : Stage where
  name
  source := {
    schema := Grid.SCHEMA_V2
    inputs := [input]
    tile := [1, 1]
    boundary := "clamp"
    kernel := {
      extent := 1
      fold := "sum"
      views := ⟨[("x", cellView)], List.nodup_singleton _⟩
      nodes := [{ id := "x", op := .load, view := some "x" }, { id := "y", op := .addImm, args := some ["x"], imm := some 1 }]
      result := "y" }
    shape := some [2, 3] }

/-- Two stages, the second one written first. -/
def incrementFlow : FlowSource where
  schema := SCHEMA
  stages := [incrementStage "second" (.link "first"),
    incrementStage "first" (.grid ⟨Grid.INPUT, 2, 3, [1, 2, 3, 4, 5, 6]⟩)]
  outputs := ["second"]

theorem plan_complete_optimal_increment : (∃ p, plan incrementFlow = .ok p) ∧
    ∀ p, plan incrementFlow = .ok p → ∃ chosen c, Optimal incrementFlow p chosen c := by
  have hrequested : ∀ stage ∈ incrementFlow.stages, ∃ tile, InRange tile ∧ stage.source.tile = tileList tile := by
    intro stage hstage
    refine ⟨(1, 1), by unfold InRange; decide, ?_⟩
    simp only [incrementFlow, List.mem_cons, List.not_mem_nil, or_false] at hstage
    rcases hstage with rfl | rfl <;> rfl
  have hcompiled : ((compile (incrementFlow.assign fun _ => (2, 3))).toOption).isSome = true := by decide +kernel
  obtain ⟨c, hc⟩ : ∃ c, compile (incrementFlow.assign fun _ => (2, 3)) = .ok c := by
    cases h : compile (incrementFlow.assign fun _ => (2, 3)) with
    | error e =>
      rw [h] at hcompiled
      cases hcompiled
    | ok c => exact ⟨c, rfl⟩
  have hrange : ∀ stage ∈ incrementFlow.stages, InRange (2, 3) := fun _ _ => by unfold InRange; decide
  obtain ⟨hiff, hoptimal⟩ := plan_complete_optimal incrementFlow hrequested
  exact ⟨hiff.mpr ⟨fun _ => (2, 3), c, hrange, hc⟩, hoptimal⟩

end Optimal

end Raveil.Flow
