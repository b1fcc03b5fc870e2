import Raveil.Command.Order

/-! A node starts only when what it hangs on by stream or success has executed. -/
namespace Raveil.Command

open Lib

variable {h : Host} {st st' : Progress} {a b n : CommandNode} {batch rest pending runnable : List CommandNode}
  {program : CommandGraphProgram} {outcomes outcomes' : String → Option NodeOutcome} {id : String}

def Executed (outcomes : String → Option NodeOutcome) (id : String) : Prop :=
  ∃ o, outcomes id = some o ∧ o.status = .executed

/-- The batch has kept the node for its workers. -/
def Starts (st : Progress) (batch : List CommandNode) (n : CommandNode) : Prop :=
  ∃ outcomes runnable, triage st.outcomes batch = .ok (outcomes, runnable) ∧ n ∈ runnable

theorem directBatch_append (node : CommandNode) (rest : List CommandNode) :
    directBatch node rest ++ rest.drop ((directBatch node rest).length - 1) = node :: rest := by
  unfold directBatch
  split
  · exact congrArg (node :: ·) (List.prefix_iff_eq_append.mp (List.takeWhile_prefix _))
  · rfl

/-- What the direct executor has before each batch. -/
def directTrace (h : Host) (schedule : Schedule) : ℕ → ℕ → List CommandNode → Progress →
    List (Progress × List CommandNode)
  | _, _, [], _ => []
  | 0, _, _ :: _, _ => []
  | fuel + 1, round, node :: rest, st =>
    (st, directBatch node rest) ::
      match runBatch h (schedule round) st (directBatch node rest) with
      | .error _ => []
      | .ok (st, _) => directTrace h schedule fuel (round + 1) (rest.drop ((directBatch node rest).length - 1)) st

/-- What the graph executor has before each batch. -/
def graphTrace (h : Host) (schedule : Schedule) : ℕ → ℕ → List CommandNode → Progress →
    List (Progress × List CommandNode)
  | _, _, [], _ => []
  | 0, _, _ :: _, _ => []
  | fuel + 1, round, node :: rest, st =>
    let ready := readyNodes st (node :: rest)
    if ready = [] then []
    else
      (st, ready) ::
        match runBatch h (schedule round) st ready with
        | .error _ => []
        | .ok (st, _) => graphTrace h schedule fuel (round + 1) ((node :: rest).filter (· ∉ ready)) st

/-- What hangs on an executed node by stream or success has executed. -/
def Honest (program : CommandGraphProgram) (st : Progress) : Prop :=
  ∀ n ∈ program.nodes, Executed st.outcomes n.nodeId → n.dependencyMode ≠ .always →
    ∀ dep ∈ n.dependencies, Executed st.outcomes dep

theorem executed_of_skips (hs : skips outcomes n = .ok false) (hmode : n.dependencyMode ≠ .always) :
    ∀ dep ∈ n.dependencies, Executed outcomes dep := by
  simp only [skips, except_bind_eq_ok, except_pure_eq_ok] at hs
  obtain ⟨deps, hdeps, hskip⟩ := hs
  intro dep hdep
  obtain ⟨o, ho, heq⟩ := exists_of_mapM_eq_ok hdeps hdep
  refine ⟨o, ?_, ?_⟩
  · cases hd : outcomes dep with
    | none => simp [hd] at heq
    | some o' =>
      rw [hd] at heq
      exact congrArg some (Except.ok.inj heq)
  · simp only [ne_eq, hmode, not_false_eq_true, true_and, decide_eq_false_iff_not, List.any_eq_true] at hskip
    by_contra hno
    exact hskip ⟨o, ho, by simpa using hno⟩

/-- The first loop only adds nodes to skip. -/
structure Triaged (outcomes outcomes' : String → Option NodeOutcome) (batch runnable : List CommandNode) : Prop where
  sub : ∀ n ∈ runnable, n ∈ batch
  executed : ∀ id, Executed outcomes' id → Executed outcomes id
  kept : ∀ id, id ∉ batch.map (·.nodeId) → outcomes' id = outcomes id
  hangs : ∀ n ∈ runnable, n.dependencyMode ≠ .always → ∀ dep ∈ n.dependencies, Executed outcomes dep

theorem executed_of_update_skipped
    (he : Executed (Function.update outcomes n.nodeId (some (skippedOutcome n.nodeId))) id) : Executed outcomes id := by
  obtain ⟨o, ho, hstatus⟩ := he
  by_cases hid : id = n.nodeId
  · subst hid
    rw [Function.update_self] at ho
    cases ho
    cases hstatus
  · rw [Function.update_of_ne hid] at ho
    exact ⟨o, ho, hstatus⟩

theorem triaged_of_triage (ht : triage outcomes batch = .ok (outcomes', runnable)) :
    Triaged outcomes outcomes' batch runnable := by
  induction batch generalizing outcomes outcomes' runnable with
  | nil =>
    cases ht
    exact ⟨by simp, fun _ h => h, fun _ _ => rfl, by simp⟩
  | cons n batch ih =>
    rw [triage, except_bind_eq_ok] at ht
    obtain ⟨skip, hs, ht⟩ := ht
    cases skip with
    | true =>
      have hrec := ih ht
      refine ⟨fun x hx => by simp [hrec.sub x hx], fun id he => executed_of_update_skipped (hrec.executed id he),
        fun id hid => ?_, fun x hx hmode dep hdep => executed_of_update_skipped (hrec.hangs x hx hmode dep hdep)⟩
      rw [List.map_cons, List.mem_cons, not_or] at hid
      rw [hrec.kept id hid.2, Function.update_of_ne hid.1]
    | false =>
      simp only [Bool.false_eq_true, if_false, except_bind_eq_ok, except_pure_eq_ok, Prod.exists, Prod.mk.injEq] at ht
      obtain ⟨outs, runs, ht, rfl, rfl⟩ := ht
      have hrec := ih ht
      refine ⟨fun x hx => ?_, hrec.executed, fun id hid => ?_, fun x hx => ?_⟩
      · rcases List.mem_cons.mp hx with rfl | hx
        · simp
        · simp [hrec.sub x hx]
      · rw [List.map_cons, List.mem_cons, not_or] at hid
        exact hrec.kept id hid.2
      · rcases List.mem_cons.mp hx with rfl | hx
        · exact executed_of_skips hs
        · exact hrec.hangs x hx

theorem record_of_not_mem {results : List (CommandNode × Except String (NodeOutcome × List UInt8))}
    (hr : record st results = .ok st') (hid : id ∉ results.map (·.1.nodeId)) : st'.outcomes id = st.outcomes id := by
  induction results generalizing st with
  | nil =>
    cases hr
    rfl
  | cons x results ih =>
    obtain ⟨node, result⟩ := x
    rw [List.map_cons, List.mem_cons, not_or] at hid
    cases result with
    | error e => cases hr
    | ok r =>
      rw [ih hr hid.2]
      exact Function.update_of_ne hid.1 _ _

theorem runBatch_eq_ok {choices : List ℕ} {workers : ℤ} (hr : runBatch h choices st batch = .ok (st', workers)) :
    ∃ outcomes runnable, triage st.outcomes batch = .ok (outcomes, runnable) ∧
      ∀ id, id ∉ runnable.map (·.nodeId) → st'.outcomes id = outcomes id := by
  simp only [runBatch, except_bind_eq_ok, require_eq_ok, exists_const, except_pure_eq_ok, Prod.mk.injEq] at hr
  obtain ⟨⟨outcomes, runnable⟩, ht, -, st₁, hrecord, rfl, -⟩ := hr
  refine ⟨outcomes, runnable, ht, fun id hid => ?_⟩
  refine record_of_not_mem hrecord fun hmem => hid ?_
  obtain ⟨⟨node, result⟩, hzip, rfl⟩ := List.mem_map.mp hmem
  exact List.mem_map.mpr ⟨node, (List.of_mem_zip hzip).1, rfl⟩

/-- A batch of nodes without outcomes keeps the state honest and gives outcomes to no others. -/
theorem runBatch_honest (hac : Acyclic program) {choices : List ℕ} {workers : ℤ} (hs : Honest program st)
    (hsub : ∀ n ∈ batch, n ∈ program.nodes) (hfresh : ∀ n ∈ batch, st.outcomes n.nodeId = none)
    (hr : runBatch h choices st batch = .ok (st', workers)) :
    Honest program st' ∧ ∀ id, id ∉ batch.map (·.nodeId) → st'.outcomes id = st.outcomes id := by
  obtain ⟨outcomes, runnable, ht, hkept⟩ := runBatch_eq_ok hr
  have htri := triaged_of_triage ht
  have hsame : ∀ id, id ∉ batch.map (·.nodeId) → st'.outcomes id = st.outcomes id := by
    intro id hid
    rw [hkept id fun hmem => hid ?_, htri.kept id hid]
    obtain ⟨x, hx, rfl⟩ := List.mem_map.mp hmem
    exact List.mem_map_of_mem (htri.sub x hx)
  have hold : ∀ id, Executed st.outcomes id → Executed st'.outcomes id := by
    rintro id ⟨o, ho, hstatus⟩
    refine ⟨o, ?_, hstatus⟩
    rw [hsame id fun hmem => ?_, ho]
    obtain ⟨x, hx, rfl⟩ := List.mem_map.mp hmem
    rw [hfresh x hx] at ho
    cases ho
  refine ⟨fun n hn he hmode dep hdep => hold dep ?_, hsame⟩
  by_cases hrun : n.nodeId ∈ runnable.map (·.nodeId)
  · obtain ⟨x, hx, hid⟩ := List.mem_map.mp hrun
    obtain rfl := hac.eq_of_nodeId (hsub x (htri.sub x hx)) hn hid
    exact htri.hangs x hx hmode dep hdep
  · obtain ⟨o, ho, hstatus⟩ := he
    rw [hkept _ hrun] at ho
    exact hs n hn (htri.executed _ ⟨o, ho, hstatus⟩) hmode dep hdep

/-- What holds before every batch of an executor. -/
structure Before (program : CommandGraphProgram) (st : Progress) (batch : List CommandNode) : Prop where
  honest : Honest program st
  sub : ∀ n ∈ batch, n ∈ program.nodes

theorem directTrace_before (hac : Acyclic program) (schedule : Schedule) (fuel round : ℕ) (hs : Honest program st)
    (hsub : rest.Sublist program.nodes) (hfresh : ∀ n ∈ rest, st.outcomes n.nodeId = none) :
    ∀ v ∈ directTrace h schedule fuel round rest st, Before program v.1 v.2 := by
  induction fuel generalizing round rest st with
  | zero => cases rest <;> simp [directTrace]
  | succ fuel ih =>
    cases rest with
    | nil => simp [directTrace]
    | cons node rest =>
      have happ := directBatch_append node rest
      have hbatch : ∀ n ∈ directBatch node rest, n ∈ node :: rest := by
        intro n hn
        rw [← happ]
        exact List.mem_append_left _ hn
      have hnodup := hac.nodup.sublist (hsub.map _)
      rw [← happ, List.map_append, List.nodup_append] at hnodup
      intro v hv
      rw [directTrace] at hv
      rcases List.mem_cons.mp hv with rfl | hv
      · exact ⟨hs, fun n hn => hsub.subset (hbatch n hn)⟩
      cases hr : runBatch h (schedule round) st (directBatch node rest) with
      | error e => simp [hr] at hv
      | ok r =>
        rw [hr] at hv
        obtain ⟨hhonest, hsame⟩ := runBatch_honest hac hs (fun n hn => hsub.subset (hbatch n hn))
          (fun n hn => hfresh n (hbatch n hn)) hr
        have hdrop : (rest.drop ((directBatch node rest).length - 1)).Sublist (node :: rest) :=
          (List.drop_sublist _ _).trans (List.sublist_cons_self _ _)
        refine ih (round + 1) hhonest (hdrop.trans hsub) (fun n hn => ?_) v hv
        rw [hsame, hfresh n (hdrop.subset hn)]
        exact fun hmem => hnodup.2.2 _ hmem _ (List.mem_map_of_mem hn) rfl

theorem graphTrace_before (hac : Acyclic program) (schedule : Schedule) (fuel round : ℕ) (hs : Honest program st)
    (hsub : pending.Sublist program.nodes) (hfresh : ∀ n ∈ pending, st.outcomes n.nodeId = none) :
    ∀ v ∈ graphTrace h schedule fuel round pending st, Before program v.1 v.2 := by
  induction fuel generalizing round pending st with
  | zero => cases pending <;> simp [graphTrace]
  | succ fuel ih =>
    cases pending with
    | nil => simp [graphTrace]
    | cons node rest =>
      have hready : ∀ n ∈ readyNodes st (node :: rest), n ∈ node :: rest := fun n hn => (List.mem_filter.mp hn).1
      intro v hv
      rw [graphTrace] at hv
      split at hv
      · cases hv
      rcases List.mem_cons.mp hv with rfl | hv
      · exact ⟨hs, fun n hn => hsub.subset (hready n hn)⟩
      cases hr : runBatch h (schedule round) st (readyNodes st (node :: rest)) with
      | error e => simp [hr] at hv
      | ok r =>
        rw [hr] at hv
        obtain ⟨hhonest, hsame⟩ := runBatch_honest hac hs (fun n hn => hsub.subset (hready n hn))
          (fun n hn => hfresh n (hready n hn)) hr
        refine ih (round + 1) hhonest (List.filter_sublist.trans hsub) (fun n hn => ?_) v hv
        obtain ⟨hn, hnot⟩ := List.mem_filter.mp hn
        rw [hsame, hfresh n hn]
        intro hmem
        obtain ⟨x, hx, hid⟩ := List.mem_map.mp hmem
        obtain rfl := hac.eq_of_nodeId (hsub.subset (hready x hx)) (hsub.subset hn) hid
        simp [hx] at hnot

/-- A dependency path whose edges are all stream or success. -/
def HardPath (program : CommandGraphProgram) : CommandNode → CommandNode → Prop :=
  Relation.TransGen fun a b => DependsOn program a b ∧ b.dependencyMode ≠ .always

/-- Before a node starts, everything it hangs on has executed. -/
theorem Before.executed (hb : Before program st batch) (hstarts : Starts st batch b) (hpath : HardPath program a b) :
    Executed st.outcomes a.nodeId := by
  obtain ⟨outcomes, runnable, ht, hrun⟩ := hstarts
  have hdirect : ∀ dep ∈ b.dependencies, b.dependencyMode ≠ .always → Executed st.outcomes dep :=
    fun dep hdep hmode => (triaged_of_triage ht).hangs b hrun hmode dep hdep
  clear hrun ht
  induction hpath with
  | single hdep => exact hdirect _ hdep.1.2.2 hdep.2
  | tail _ hdep ih =>
    have hexec := hdirect _ hdep.1.2.2 hdep.2
    exact ih fun dep hd hmode => hb.honest _ hdep.1.1 hexec hmode dep hd

/-- In no execution, by either executor, does `b` start before `a` has executed. -/
def Guards (program : CommandGraphProgram) (a b : CommandNode) : Prop :=
  ∀ (h : Host) (schedule : Schedule) (stage : Stage),
    (∀ v ∈ directTrace h schedule program.nodes.length 0 program.nodes { stage },
      Starts v.1 v.2 b → Executed v.1.outcomes a.nodeId) ∧
    ∀ v ∈ graphTrace h schedule program.nodes.length 0 program.nodes { stage },
      Starts v.1 v.2 b → Executed v.1.outcomes a.nodeId

theorem guards_of_hardPath (hac : Acyclic program) (hpath : HardPath program a b) : Guards program a b := by
  intro h schedule stage
  have hstart : Honest program { stage } := by
    rintro n - ⟨o, ho, -⟩
    cases ho
  constructor
  · intro v hv hstarts
    exact (directTrace_before hac schedule _ 0 hstart (List.Sublist.refl _) (fun _ _ => rfl) v hv).executed hstarts hpath
  · intro v hv hstarts
    exact (graphTrace_before hac schedule _ 0 hstart (List.Sublist.refl _) (fun _ _ => rfl) v hv).executed hstarts hpath

end Raveil.Command
