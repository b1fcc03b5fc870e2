import Raveil.Command.Footprint

/-! A batch of independent nodes does what its nodes do one after the other. -/
namespace Raveil.Command

open Lib

/-- A node on its own: it is skipped, or it runs to its end. -/
def stepNode (h : Host) (st : Progress) (node : CommandNode) : Option Progress :=
  if h.policy.maxParallel ≤ 0 then none
  else
    match skips st.outcomes node with
    | .error _ => none
    | .ok true =>
      some { st with outcomes := Function.update st.outcomes node.nodeId (some (skippedOutcome node.nodeId)) }
    | .ok false =>
      match (runProgram h st.streams node).run Stage.perform st.stage with
      | (.error _, _) => none
      | (.ok (outcome, stdout), stage) =>
        some {
          stage
          outcomes := Function.update st.outcomes node.nodeId (some outcome)
          streams := Function.update st.streams node.nodeId (some stdout) }

variable {h : Host} {st : Progress} {node a b : CommandNode} {batch : List CommandNode} {id : String}
  {outcomes : String → Option NodeOutcome} {streams : String → Option (List UInt8)} {o : NodeOutcome}

theorem skips_update (hid : id ∉ node.dependencies) (x : Option NodeOutcome) :
    skips (Function.update outcomes id x) node = skips outcomes node := by
  have hdeps : ∀ deps : List String, id ∉ deps →
      deps.mapM (fun dep => (Function.update outcomes id x dep).elim (.error dep) .ok) =
        deps.mapM fun dep => ((outcomes dep).elim (.error dep) .ok : Except String NodeOutcome) := by
    intro deps
    induction deps with
    | nil => intro _; rfl
    | cons dep deps ih =>
      intro hmem
      rw [List.mem_cons, not_or] at hmem
      rw [List.mapM_cons, List.mapM_cons, ih hmem.2, Function.update_of_ne (Ne.symm hmem.1)]
  rw [skips, skips, hdeps _ hid]

theorem stdinOf_update (hid : id ∉ node.dependencies) (x : Option (List UInt8)) :
    stdinOf (Function.update streams id x) node = stdinOf streams node := by
  unfold stdinOf
  split
  · cases hlast : node.dependencies.getLast? with
    | none => rfl
    | some dep =>
      have hne : dep ≠ id := by
        rintro rfl
        exact hid (List.mem_of_getLast? hlast)
      simp [Function.update_of_ne hne]
  · rfl

theorem runProgram_update (hid : id ∉ node.dependencies) (x : Option (List UInt8)) :
    runProgram h (Function.update streams id x) node = runProgram h streams node := by
  rw [runProgram, runProgram, stdinOf_update hid]

/-- A node that nobody in the batch waits for can be recorded before the batch is looked at. -/
theorem triage_update (hid : ∀ n ∈ batch, id ∉ n.dependencies ∧ n.nodeId ≠ id) (x : Option NodeOutcome) :
    triage (Function.update outcomes id x) batch =
      (triage outcomes batch).map fun r => (Function.update r.1 id x, r.2) := by
  induction batch generalizing outcomes with
  | nil => rfl
  | cons n batch ih =>
    rw [List.forall_mem_cons] at hid
    rw [triage, triage, skips_update hid.1.1]
    cases hs : skips outcomes n with
    | error e => rfl
    | ok skip =>
      cases skip with
      | true =>
        change triage (Function.update (Function.update outcomes id x) n.nodeId _) batch =
          (triage (Function.update outcomes n.nodeId _) batch).map _
        rw [Function.update_comm (Ne.symm hid.1.2), ih hid.2]
      | false =>
        change (do
          let r ← triage (Function.update outcomes id x) batch
          return (r.1, n :: r.2)) = _
        rw [ih hid.2]
        cases triage outcomes batch <;> simp [Except.map] <;> rfl

/-- Both loops of a batch, its runs one after the other. -/
def twoPass (h : Host) (st : Progress) (batch : List CommandNode) : Except String Progress := do
  let (outcomes, runnable) ← triage st.outcomes batch
  let (results, stage) := sequential Stage.perform (runnable.map (runProgram h st.streams)) st.stage
  record { st with stage, outcomes } (runnable.zip results)

/-- No node of the batch waits for another one, and no two have one id. -/
structure Flat (batch : List CommandNode) : Prop where
  nodup : (batch.map (·.nodeId)).Nodup
  free : ∀ a ∈ batch, ∀ b ∈ batch, a.nodeId ∉ b.dependencies

theorem Flat.tail (hf : Flat (node :: batch)) : Flat batch :=
  ⟨(List.nodup_cons.mp hf.nodup).2,
    fun a ha b hb => hf.free a (List.mem_cons_of_mem _ ha) b (List.mem_cons_of_mem _ hb)⟩

theorem Flat.head (hf : Flat (node :: batch)) : ∀ n ∈ batch, node.nodeId ∉ n.dependencies ∧ n.nodeId ≠ node.nodeId := by
  intro n hn
  refine ⟨hf.free node (by simp) n (by simp [hn]), fun heq => ?_⟩
  apply (List.nodup_cons.mp hf.nodup).1
  exact List.mem_map.mpr ⟨n, hn, heq⟩

theorem triage_sublist {r : (String → Option NodeOutcome) × List CommandNode} (ht : triage outcomes batch = .ok r) :
    r.2.Sublist batch := by
  induction batch generalizing outcomes r with
  | nil =>
    cases ht
    exact List.Sublist.refl _
  | cons n batch ih =>
    rw [triage] at ht
    cases hs : skips outcomes n with
    | error e =>
      rw [hs] at ht
      cases ht
    | ok skip =>
      rw [hs] at ht
      cases skip with
      | true => exact (ih ht).cons n
      | false =>
        cases hrest : triage outcomes batch with
        | error e =>
          rw [hrest] at ht
          cases ht
        | ok r' =>
          rw [hrest] at ht
          cases ht
          exact (ih hrest).cons_cons n

theorem twoPass_skip (hs : skips st.outcomes node = .ok true) :
    twoPass h st (node :: batch) = twoPass h { st with
      outcomes := Function.update st.outcomes node.nodeId (some (skippedOutcome node.nodeId)) } batch := by
  unfold twoPass
  rw [triage, hs]
  rfl

theorem twoPass_raise (hs : skips st.outcomes node = .ok false) {e : String} {stage : Stage}
    (hrun : (runProgram h st.streams node).run Stage.perform st.stage = (.error e, stage)) :
    (twoPass h st (node :: batch)).toOption = none := by
  unfold twoPass
  rw [triage, hs]
  cases triage st.outcomes batch with
  | error e' => simp [Except.toOption, bind, Except.bind]
  | ok r => simp [Except.toOption, bind, Except.bind, pure, Except.pure, sequential, hrun, record]

theorem twoPass_run (hf : Flat (node :: batch)) (hs : skips st.outcomes node = .ok false) {stage : Stage}
    {stdout : List UInt8}
    (hrun : (runProgram h st.streams node).run Stage.perform st.stage = (.ok (o, stdout), stage)) :
    twoPass h st (node :: batch) = twoPass h
      { stage, outcomes := Function.update st.outcomes node.nodeId (some o)
        streams := Function.update st.streams node.nodeId (some stdout) } batch := by
  have hupdate := @triage_update _ _ st.outcomes hf.head (some o)
  unfold twoPass
  rw [triage, hs]
  cases ht : triage st.outcomes batch with
  | error e => simp [ht, hupdate, Except.map, bind, Except.bind]
  | ok r =>
    have hmap : r.2.map (runProgram h (Function.update st.streams node.nodeId (some stdout))) =
        r.2.map (runProgram h st.streams) := by
      apply List.map_congr_left
      intro n hn
      exact runProgram_update (hf.head n ((triage_sublist ht).subset hn)).1 _
    simp [ht, hupdate, Except.map, bind, Except.bind, pure, Except.pure, sequential, hrun, record, hmap]

/-- By induction on the batch: the first node's turn can be taken out of both loops. -/
theorem twoPass_eq_foldlM (hf : Flat batch) (hmax : ¬ h.policy.maxParallel ≤ 0) :
    (twoPass h st batch).toOption = batch.foldlM (stepNode h) st := by
  induction batch generalizing st with
  | nil => rfl
  | cons node batch ih =>
    rw [List.foldlM_cons, stepNode, if_neg hmax]
    cases hs : skips st.outcomes node with
    | error e =>
      unfold twoPass
      rw [triage, hs]
      rfl
    | ok skip =>
      cases skip with
      | true =>
        rw [twoPass_skip hs, ih hf.tail]
        rfl
      | false =>
        rcases hrun : (runProgram h st.streams node).run Stage.perform st.stage with ⟨result, stage⟩
        cases result with
        | error e =>
          rw [twoPass_raise hs hrun]
          simp
        | ok r =>
          rw [twoPass_run hf hs hrun, ih hf.tail]
          simp

/-- Whatever order its runs act in, a batch does what its nodes do one after the other. -/
theorem runBatch_eq_foldlM (choices : List ℕ) (hf : Flat batch) (hne : batch ≠ [])
    (hind : Independent Stage.perform (batch.map (runProgram h st.streams))) :
    ((runBatch h choices st batch).map Prod.fst).toOption = batch.foldlM (stepNode h) st := by
  by_cases hmax : h.policy.maxParallel ≤ 0
  · obtain ⟨node, rest, rfl⟩ := List.exists_cons_of_ne_nil hne
    rw [List.foldlM_cons, stepNode, if_pos hmax]
    unfold runBatch
    cases ht : triage st.outcomes (node :: rest) with
    | error e => rfl
    | ok r => simp [require, not_lt.mpr hmax, Except.toOption, Except.map, bind, Except.bind]
  · rw [← twoPass_eq_foldlM hf hmax]
    unfold runBatch twoPass
    cases ht : triage st.outcomes batch with
    | error e => rfl
    | ok r =>
      have hsub := (triage_sublist ht).map (runProgram h st.streams)
      have hseq := interleave_eq_sequential choices (hind.sublist hsub) st.stage
      simp only [bind, Except.bind, require_of (not_le.mp hmax), hseq, pure, Except.pure]
      split <;> rename_i hrec <;> simp [hrec, Except.map, Except.toOption]

end Raveil.Command
