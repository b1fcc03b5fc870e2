import Raveil.ArrayProgram.Executed

/-! What a plan of the materialising compiler says it uses is what its passes use. -/
namespace Raveil.ArrayProgram
open Lib
open Raveil.Flow (Output)

section Emission

variable {e e' : Emission}

/-- The tiles of a pass of one operation. -/
def sessionsOf (step : Step) : ℕ := (step.shape.1 + 15) / 16 * ((step.shape.2 + 15) / 16)

/-- The words of the plane of a pass. -/
def workOf (step : Step) : ℕ := step.shape.1 * step.shape.2

/-- The counts of an emission are those of its passes, within the limits. -/
structure Emission.Counted (e : Emission) : Prop where
  passes : e.steps.length ≤ MAX_PASSES
  sessions : e.sessions = (e.steps.map sessionsOf).sum ∧ e.sessions ≤ MAX_SESSIONS
  work : e.work = (e.steps.map workOf).sum ∧ e.work ≤ MAX_WORK

theorem counted_start : ({} : Emission).Counted := ⟨Nat.zero_le _, ⟨rfl, Nat.zero_le _⟩, ⟨rfl, Nat.zero_le _⟩⟩

theorem counted_emit {s e : Emission} {shape : ℕ × ℕ} {args : List String} {body : Body} {ref : String} (hs : s.Counted)
    (h : emit s shape args body = .ok (ref, e)) : e.Counted := by
  obtain ⟨⟨hpasses, hsessions, hwork⟩, h⟩ := require_then_eq_ok.mp h
  cases h
  refine ⟨?_, ⟨?_, hsessions⟩, ⟨?_, hwork⟩⟩
  · rw [List.length_append, List.length_singleton]
    exact hpasses
  · rw [List.map_append, List.sum_append, ← hs.sessions.1]
    rfl
  · rw [List.map_append, List.sum_append, ← hs.work.1]
    rfl

theorem Grown.counted (h : Grown emit e e') (hc : e.Counted) : e'.Counted := by
  induction h with
  | refl => exact hc
  | append _ _ hemit ih => exact counted_emit ih hemit

end Emission

section Peak

variable {value : Program} {plan : Plan} {structured : Structured} {e : Emission} {results : Refs} {g : ℕ → Planning} {n m : ℕ}
  {step : Step} {name : String}

/-- The words of the planes of these names. -/
def planeWords (planes : Planes) (names : List String) : ℕ :=
  (names.map fun name => ((planes name).map fun plane => plane.words.length).getD 0).sum

/-- The sizes that the books keep are those of the planes that run. -/
theorem liveWords_eq {steps : List Step} {outputs : List (String × String)} {s : Planning} {full live : Store}
    (hbooks : Books steps outputs s n) (hruns : Runs value steps outputs s n full live) :
    liveWords s.sizes = planeWords (planesOf live) (s.sizes.map Prod.fst) := by
  obtain ⟨zeroed, hplanes, -, hwords⟩ := hbooks.planes
  obtain ⟨zeroed', hplanes', halike⟩ := hruns.alike
  unfold liveWords planeWords
  rw [List.map_map]
  refine congrArg List.sum (List.map_congr_left fun entry hentry => ?_)
  obtain ⟨grid, hgrid, hlen⟩ := hwords entry hentry
  obtain ⟨grid', hgrid', heq⟩ : ∃ grid', zeroed' entry.1 = some grid' ∧ ofGrid grid' = ofGrid grid := by
    apply planesOf_eq_some.mp
    rw [← hplanes', hplanes]
    exact planesOf_eq_some.mpr ⟨grid, hgrid, rfl⟩
  obtain ⟨run, hrun, hrows, hcolumns⟩ := halike.get hgrid'
  rw [ofGrid_injective heq] at hrows hcolumns
  have hplane : planesOf live entry.1 = some (ofGrid run) := planesOf_eq_some.mpr ⟨run, hrun, rfl⟩
  change entry.2 = ((planesOf live entry.1).map _).getD 0
  rw [hplane, hlen, grid.length_words, ← hrows, ← hcolumns]
  exact run.length_words.symm

/-- The peak never falls. -/
theorem Materialized.peak_mono (h : Materialized value plan structured e results g) (hmn : m ≤ n) (hn : n ≤ e.steps.length) :
    (g m).peak ≤ (g n).peak := by
  induction n, hmn using Nat.le_induction with
  | base => exact le_rfl
  | succ n hmn ih =>
    have hi : e.steps[n]? = some e.steps[n] := List.getElem?_eq_getElem (by omega)
    have hpeak := (planStep_eq_ok (h.turns n _ hi)).2.2
    exact (ih (by omega)).trans (hpeak ▸ le_max_left _ _)

/-- The passes so far are the first of the plan. -/
theorem Materialized.taken (h : Materialized value plan structured e results g) (hn : n ≤ e.steps.length) :
    plan.passes.take n = (g n).steps := by
  have hprefixed : ∀ m, n ≤ m → m ≤ e.steps.length → (g n).steps <+: (g m).steps := by
    intro m hmn
    induction m, hmn using Nat.le_induction with
    | base => exact fun _ => List.prefix_rfl
    | succ m hmn ih =>
      intro hm
      have hi : e.steps[m]? = some e.steps[m] := List.getElem?_eq_getElem (by omega)
      obtain ⟨_, _, _, -, -, hnext⟩ := (planStep_eq_ok (h.turns m _ hi)).1
      rw [hnext]
      exact (ih (by omega)).trans (List.prefix_append _ _)
  have hlen := (h.runs hn).1.length
  rw [h.passes, List.prefix_iff_eq_take.mp (hprefixed _ hn le_rfl), hlen]

/-- The pass of a plan at a place is the emitted one, with the planes whose last use it is. -/
theorem Materialized.pass (h : Materialized value plan structured e results g) {step' : Step}
    (hi : plan.passes[n]? = some step') : ∃ step, e.steps[n]? = some step ∧ Retired e.steps plan.outputs n step step' :=
  (h.runs le_rfl).1.retired n step' (h.passes ▸ hi)

theorem Materialized.length_passes (h : Materialized value plan structured e results g) :
    plan.passes.length = e.steps.length := by
  rw [h.passes]
  exact (h.runs le_rfl).1.length

/-- What does not look at what is released is the same of the passes of a plan and of the emitted ones. -/
theorem Materialized.map_passes (h : Materialized value plan structured e results g) {α : Type} {f : Step → α}
    (hf : ∀ step release, f { step with release } = f step) : plan.passes.map f = e.steps.map f := by
  apply List.ext_getElem
  · rw [List.length_map, List.length_map, h.length_passes]
  · intro i hi hi'
    rw [List.length_map] at hi hi'
    obtain ⟨step, hstep, hretired⟩ := h.pass (List.getElem?_eq_getElem hi)
    rw [List.getElem_map, List.getElem_map, hretired.same, hf]
    rw [List.getElem?_eq_getElem hi'] at hstep
    rw [Option.some.inj hstep]

end Peak

section Releases

variable {value : Program} {plan : Plan} {structured : Structured} {e : Emission} {results : Refs} {g : ℕ → Planning} {n m : ℕ}
  {step : Step} {name : String}

/-- A plane is released at its last use, and at no other pass. -/
theorem Materialized.release_last (h : Materialized value plan structured e results g) (hi : plan.passes[n]? = some step)
    (hname : name ∈ step.release) : lastUses e.steps plan.outputs name = some n := by
  obtain ⟨_, -, hretired⟩ := h.pass hi
  exact ((hretired.release name).mp hname).2

theorem Materialized.release_nodup (h : Materialized value plan structured e results g) :
    (plan.passes.flatMap (·.release)).Nodup := by
  rw [List.nodup_flatMap]
  refine ⟨?_, ?_⟩
  · intro step hstep
    obtain ⟨i, hi⟩ := List.mem_iff_getElem?.mp hstep
    obtain ⟨_, -, hretired⟩ := h.pass hi
    exact hretired.nodup
  · rw [List.pairwise_iff_getElem]
    intro i j hi hj hij name hname hname'
    have hlast := h.release_last (List.getElem?_eq_getElem hi) hname
    rw [h.release_last (List.getElem?_eq_getElem hj) hname'] at hlast
    cases hlast
    omega

/-- What is released is every plane but the outputs. -/
theorem Materialized.mem_release (h : Materialized value plan structured e results g) :
    name ∈ plan.passes.flatMap (·.release) ↔ name ∈ plan.passes.map (·.id) ∧ name ∉ plan.outputs.map Prod.snd := by
  have hordered := h.numbered.straight
  have hids : plan.passes.map (·.id) = e.steps.map (·.id) := h.map_passes fun _ _ => rfl
  rw [hids, List.mem_flatMap]
  constructor
  · rintro ⟨step', hstep', hname⟩
    obtain ⟨i, hi⟩ := List.mem_iff_getElem?.mp hstep'
    obtain ⟨step, hstep, hretired⟩ := h.pass hi
    obtain ⟨hin, hlast⟩ := (hretired.release name).mp hname
    have hlt := (List.getElem?_eq_some_iff.mp hstep).1
    refine ⟨?_, fun ho => ?_⟩
    · rcases hin with ⟨⟨j, -, hwritten⟩, -⟩ | rfl
      · exact List.mem_of_getElem? hwritten
      · exact List.mem_map_of_mem (List.mem_of_getElem? hstep)
    · have hend : lastUses e.steps plan.outputs name = some e.steps.length := lastUse_output ho
      rw [hend] at hlast
      cases hlast
      omega
  · rintro ⟨hwritten, ho⟩
    obtain ⟨step, hstep, rfl⟩ := List.mem_map.mp hwritten
    obtain ⟨j, hj⟩ := List.mem_iff_getElem?.mp hstep
    obtain ⟨m, hm, hle⟩ := @lastUse_write _ _ _ Step.id Step.args e.steps (plan.outputs.map Prod.snd) j step hordered hj
    have hlt : m < e.steps.length := lastUse_lt ho hm
    have hlt' : m < plan.passes.length := h.length_passes ▸ hlt
    have hpass : plan.passes[m]? = some plan.passes[m] := List.getElem?_eq_getElem hlt'
    obtain ⟨last, hlast, hretired⟩ := h.pass hpass
    refine ⟨_, List.mem_of_getElem? hpass, (hretired.release step.id).mpr ⟨?_, hm⟩⟩
    rcases Nat.lt_or_eq_of_le hle with hjm | rfl
    · exact Or.inl ⟨⟨j, hjm, getElem?_map_writes hj⟩, m, hm, le_rfl⟩
    · rw [hj] at hlast
      cases hlast
      exact Or.inr rfl

end Releases

section Resources

variable {value : Program} {plan : Plan}

/-- Before a pass, the planes of the passes so far are there, and the words that the pass needs beside them stay within
the peak. -/
def WithinPeak (value : Program) (plan : Plan) (n : ℕ) (step : Step) : Prop :=
  ∃ planes names, (plan.passes.take n).foldlM (executeStep value) (fun _ => none) = .ok planes ∧ names.Nodup ∧
    (∀ name, name ∈ names ↔ (planes name).isSome) ∧
      (totalWords value.stages + planeWords planes names + packedOperands step * workOf step + workOf step : ℕ) ≤
        plan.peakPlaneWords

/-- A plan of the materialising compiler stays within its limits, counts the sessions and the words of its passes, and
bounds the words in use before every pass; a plane is released once, and an output never. -/
theorem scalar_plan_resources (h : compileScalar value = .ok plan) :
    (plan.passes.length ≤ MAX_PASSES ∧ plan.sessions ≤ MAX_SESSIONS ∧ plan.workWords ≤ MAX_WORK ∧
      plan.peakPlaneWords ≤ MAX_PLANES) ∧
    plan.sessions = (plan.passes.map sessionsOf).sum ∧ plan.workWords = (plan.passes.map workOf).sum ∧
    (∀ (n : ℕ) step, plan.passes[n]? = some step → WithinPeak value plan n step) ∧
    (plan.passes.flatMap (·.release)).Nodup ∧
    ∀ name, name ∈ plan.passes.flatMap (·.release) ↔ name ∈ plan.passes.map (·.id) ∧ name ∉ plan.outputs.map Prod.snd := by
  obtain ⟨structured, e, results, g, hm⟩ := compileScalar_materialized h
  obtain ⟨hwell, -, -, hwords⟩ := structureOf_eq_ok.mp hm.accepted
  have hcounted := hm.grown.1.counted counted_start
  have hlength := hm.length_passes
  -- the first output has a pass
  have hpos : 0 < e.steps.length := by
    obtain ⟨name, hname⟩ := List.exists_mem_of_length_pos hwell.outputCount.1
    obtain ⟨entry, -, hentry⟩ := exists_of_mapM_eq_ok hm.outputs hname
    obtain ⟨producer, hproducer, -⟩ := except_bind_eq_ok.mp hentry
    obtain ⟨step, hstep, -⟩ := hm.grown.2 _ _ (keyed_eq_ok.mp hproducer)
    exact List.length_pos_of_mem hstep
  have hpeak : plan.peakPlaneWords ≤ MAX_PLANES := by
    have hend : e.steps.length - 1 < e.steps.length := Nat.sub_one_lt_of_lt hpos
    have hi : e.steps[e.steps.length - 1]? = some e.steps[e.steps.length - 1] := List.getElem?_eq_getElem hend
    have hlast := (planStep_eq_ok (hm.turns _ _ hi)).2.1
    rw [Nat.sub_add_cancel hpos] at hlast
    exact hm.peak ▸ hlast
  refine ⟨⟨hlength ▸ hcounted.passes, hm.sessions ▸ hcounted.sessions.2, ?_, hpeak⟩, ?_, ?_, ?_, hm.release_nodup,
    fun name => hm.mem_release⟩
  · rw [hm.work]
    exact_mod_cast hcounted.work.2
  · rw [hm.sessions, hcounted.sessions.1, hm.map_passes fun _ _ => rfl]
  · rw [hm.work, hcounted.work.1, hm.map_passes fun _ _ => rfl]
  · intro n step' hstep'
    obtain ⟨step, hstep, hretired⟩ := hm.pass hstep'
    have hn := (List.getElem?_eq_some_iff.mp hstep).1
    obtain ⟨hbooks, full, live, hruns⟩ := hm.runs hn.le
    refine ⟨planesOf live, (g n).sizes.map Prod.fst, ?_, hbooks.nodup, ?_, ?_⟩
    · rw [hm.taken hn.le]
      exact hruns.run
    · intro name
      rw [hbooks.keys, isSome_planesOf, hruns.inUse]
    · have hturn := (planStep_eq_ok (hm.turns n step hstep)).2.2
      have hmono := hm.peak_mono (show n + 1 ≤ e.steps.length by omega) le_rfl
      rw [← liveWords_eq hbooks hruns, ← hwords, hm.peak, hretired.same]
      exact (le_max_right _ _).trans (hturn ▸ hmono)

theorem scalar_plan_resources_rectified : ∃ plan, compileScalar rectifiedProgram = .ok plan ∧
    (∀ (n : ℕ) step, plan.passes[n]? = some step → WithinPeak rectifiedProgram plan n step) ∧
    (plan.passes.flatMap (·.release)).Nodup := by
  obtain ⟨plan, h⟩ := rectified_compiles
  obtain ⟨-, -, -, hwithin, hnodup, -⟩ := scalar_plan_resources h
  exact ⟨plan, h, hwithin, hnodup⟩

end Resources

end Raveil.ArrayProgram
