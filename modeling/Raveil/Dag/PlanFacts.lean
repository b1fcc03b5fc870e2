import Raveil.Fold.Compile
import Raveil.Dag.Plan

/-! What an accepted plan says about its jobs. -/
namespace Raveil.Dag
open Raveil.Lib Raveil.Fold

/-- What the planner computed for one job. -/
structure PlanData where
  config : List ℕ
  source : ℕ → ℕ
  start : ℕ → ℕ
  values : ℕ → List ℕ

namespace PlanData

def cells (d : PlanData) : ℕ := cfg d.config 1 * cfg d.config 2

def chunks (d : PlanData) : ℕ := (d.cells + 127) / 128

/-- The producers the job uses. -/
def uses (d : PlanData) : List ℕ := ((List.range 2).filter fun b => d.source b ≠ UINT32_MAX).map d.source

def sources (d : PlanData) : List ℕ := [d.source 0, d.source 1]

def starts (d : PlanData) : List ℕ := [d.start 0, d.start 1]

def lengths (d : PlanData) : List ℕ := [cfg d.config 5, cfg d.config 6]

end PlanData

/-- What the planner checked of one operand. -/
inductive OperandPlan (ranged : Bool) (names : String → Option ℕ) (counts : List ℕ) :
    Operand → ℕ → ℕ → ℕ → List ℕ → Prop
  | literal (values : List ℕ) (length : ℕ) :
      OperandPlan ranged names counts (.literal values) length UINT32_MAX 0 values
  | link (name : String) (offset extent : Option ℤ) (length source start : ℕ)
      (hname : names name = some source) (hpos : 1 ≤ length)
      (hfits : start + length ≤ counts.getD source 0)
      (hwhole : ranged = false → start = 0 ∧ length = counts.getD source 0) :
      OperandPlan ranged names counts (.link name offset extent) length source start
        (List.replicate length 0)

section Operand

variable {ranged : Bool} {s : PlanLoop} {index : ℕ} {j t : JobLoop} {operand : Operand} {length : ℕ}

/-- A literal marks position `UINT32_MAX`, which no list has. -/
theorem planOperand_eq_ok (hlast : j.last.length ≤ UINT32_MAX)
    (h : planOperand ranged s index j (operand, length) = .ok t) :
    ∃ source start values, OperandPlan ranged s.names s.counts operand length source start values ∧
      t = ⟨j.linked ++ [source], j.literal ++ [values], j.starts ++ [start], j.last.set source index⟩ := by
  cases operand with
  | literal values =>
    refine ⟨_, _, _, .literal values length, ?_⟩
    rw [List.set_eq_of_length_le hlast]
    exact (except_pure_eq_ok.mp h).symm
  | link name offset extent =>
    simp only [planOperand, require_then_eq_ok, except_pure_eq_ok] at h
    obtain ⟨⟨hkeys, hranged, hname⟩, ⟨h0, h1, h2, h3, h4⟩, rfl⟩ := h
    obtain ⟨source, hsource⟩ := Option.isSome_iff_exists.mp hname
    rw [hsource, Option.getD_some] at h1 h2 h3 h4 ⊢
    refine ⟨source, (offset.getD 0).toNat, _, .link name offset extent length source _ hsource ?_ ?_ ?_, rfl⟩
    · omega
    · omega
    · intro hr
      have hnone : offset.isNone := by simpa [hr] using hranged
      obtain rfl := Option.isNone_iff_eq_none.mp hnone
      have hextent : extent = none := by simpa using hkeys
      subst hextent
      simp only [Option.getD_none] at h4 ⊢
      exact ⟨rfl, by omega⟩

end Operand

section Job

/-- One turn of the job loop. -/
structure PlanStep (ranged : Bool) (s : PlanLoop) (job : Job) (k : ℕ) (d : PlanData) (t : PlanLoop) :
    Prop where
  fresh : s.names job.name = none
  compiled : compileRegion job.region = .ok d.config
  two : job.inputs.length = 2
  operand : ∀ b x, job.inputs[b]? = some x → OperandPlan ranged s.names s.counts x (cfg d.config (5 + b))
    (d.source b) (d.start b) (d.values b)
  admitted : ∃ out, reference job.region [d.values 0, d.values 1] = .ok out
  next : t =
    { names := Function.update s.names job.name (some k)
      sources := s.sources ++ [d.sources]
      offsets := s.offsets ++ [d.starts]
      lengths := s.lengths ++ [d.lengths]
      counts := s.counts ++ [d.cells]
      chunks := s.chunks ++ [d.chunks]
      last := ((s.last.set (d.source 0) k).set (d.source 1) k) ++ [k] }

theorem planJob_eq_ok {ranged : Bool} {s t : PlanLoop} {job : Job} {k : ℕ}
    (hlast : s.last.length ≤ UINT32_MAX) (h : planJob ranged s (job, k) = .ok t) :
    ∃ d, PlanStep ranged s job k d t := by
  unfold planJob at h
  simp only [require_then_eq_ok] at h
  obtain ⟨-, hfresh, h⟩ := h
  obtain ⟨config, hconfig, h⟩ := except_bind_eq_ok.mp h
  obtain ⟨htwo, h⟩ := require_then_eq_ok.mp h
  obtain ⟨j, hj, h⟩ := except_bind_eq_ok.mp h
  obtain ⟨out, hout, h⟩ := except_bind_eq_ok.mp h
  obtain rfl := except_pure_eq_ok.mp h
  obtain ⟨x, y, hxy⟩ := List.length_eq_two.mp htwo
  rw [hxy] at hj
  simp only [List.zip_cons_cons, List.zip_nil_right, List.foldlM_cons, List.foldlM_nil,
    except_bind_eq_ok, except_pure_eq_ok] at hj
  obtain ⟨j1, hj1, j2, hj2, rfl⟩ := hj
  obtain ⟨s0, st0, v0, hop0, rfl⟩ := planOperand_eq_ok hlast hj1
  obtain ⟨s1, st1, v1, hop1, rfl⟩ := planOperand_eq_ok (by simpa using hlast) hj2
  refine ⟨⟨config, fun b => if b = 0 then s0 else s1, fun b => if b = 0 then st0 else st1,
    fun b => if b = 0 then v0 else v1⟩, by simpa using hfresh, hconfig, htwo, fun b z hz => ?_, ⟨out, hout⟩, rfl⟩
  rw [hxy] at hz
  rcases b with _ | _ | b
  · obtain rfl : x = z := by simpa using hz
    exact hop0
  · obtain rfl : y = z := by simpa using hz
    exact hop1
  · cases hz

end Job

/-- What the plan says about one operand. -/
structure PlanOperand (ranged : Bool) (d : ℕ → PlanData) (k b : ℕ) (x : Operand) : Prop where
  literal : (d k).source b = UINT32_MAX → x = .literal ((d k).values b) ∧ (d k).start b = 0
  link : (d k).source b ≠ UINT32_MAX → (∃ name offset extent, x = .link name offset extent) ∧
    (d k).source b < k ∧ 1 ≤ cfg (d k).config (5 + b) ∧
    (d k).start b + cfg (d k).config (5 + b) ≤ (d ((d k).source b)).cells ∧
    (ranged = false → (d k).start b = 0 ∧ cfg (d k).config (5 + b) = (d ((d k).source b)).cells) ∧
    (d k).values b = List.replicate (cfg (d k).config (5 + b)) 0

/-- The first loop of the planner, job by job. -/
structure PlanRun (d : ℕ → PlanData) (k : ℕ) (s : PlanLoop) : Prop where
  names : ∀ x i, s.names x = some i → i < k
  sources : s.sources = (List.range k).map fun i => (d i).sources
  offsets : s.offsets = (List.range k).map fun i => (d i).starts
  lengths : s.lengths = (List.range k).map fun i => (d i).lengths
  counts : s.counts = (List.range k).map fun i => (d i).cells
  chunks : s.chunks = (List.range k).map fun i => (d i).chunks
  last : s.last = (List.range k).map (lastUseAt (fun i => (d i).uses) k)

section Run

variable {ranged : Bool} {d : ℕ → PlanData} {k : ℕ} {s t : PlanLoop} {job : Job}

theorem mem_uses {x : ℕ} (d : PlanData) (hx : x ≠ UINT32_MAX) :
    x ∈ d.uses ↔ x = d.source 0 ∨ x = d.source 1 := by
  simp only [PlanData.uses, List.mem_map, List.mem_filter, List.mem_range, decide_eq_true_iff]
  constructor
  · rintro ⟨b, ⟨hb, -⟩, rfl⟩
    obtain rfl | rfl : b = 0 ∨ b = 1 := by omega
    · exact Or.inl rfl
    · exact Or.inr rfl
  · rintro (rfl | rfl)
    · exact ⟨0, ⟨by omega, hx⟩, rfl⟩
    · exact ⟨1, ⟨by omega, hx⟩, rfl⟩

theorem PlanRun.step (hk : k < 8) (h : PlanRun d k s) (hstep : PlanStep ranged s job k (d k) t) :
    PlanRun d (k + 1) t := by
  have hnames : t.names = Function.update s.names job.name (some k) := by rw [hstep.next]
  have hlast : (((List.range k).map (lastUseAt (fun i => (d i).uses) k)).set ((d k).source 0) k).set
      ((d k).source 1) k = (List.range k).map (lastUseAt (fun i => (d i).uses) (k + 1)) := by
    refine List.ext_getElem (by simp) fun i hi hi' => ?_
    have hlt : i < k := by simpa using hi'
    have hne : i ≠ UINT32_MAX := by
      unfold UINT32_MAX
      omega
    simp only [List.getElem_set, List.getElem_map, List.getElem_range, lastUseAt_succ, mem_uses _ hne]
    by_cases h0 : (d k).source 0 = i
    · simp [h0]
    · by_cases h1 : (d k).source 1 = i
      · simp [h1]
      · rw [if_neg h1, if_neg h0, if_neg (by omega)]
  refine ⟨fun x i hx => ?_, ?_, ?_, ?_, ?_, ?_, ?_⟩
  · rw [hnames] at hx
    by_cases hname : x = job.name
    · subst hname
      rw [Function.update_self] at hx
      obtain rfl := Option.some.inj hx
      omega
    · rw [Function.update_of_ne hname] at hx
      have := h.names x i hx
      omega
  · simp [hstep.next, h.sources, List.range_succ]
  · simp [hstep.next, h.offsets, List.range_succ]
  · simp [hstep.next, h.lengths, List.range_succ]
  · simp [hstep.next, h.counts, List.range_succ]
  · simp [hstep.next, h.chunks, List.range_succ]
  · have hself : lastUseAt (fun i => (d i).uses) (k + 1) k = k := by
      rw [lastUseAt_succ, if_pos (Or.inl rfl)]
    simp only [hstep.next, h.last]
    rw [hlast, List.range_succ, List.map_append, List.map_singleton, hself]

theorem PlanRun.operand (h : PlanRun d k s) (hk : k < 8) {b : ℕ} {x : Operand}
    (hx : OperandPlan ranged s.names s.counts x (cfg (d k).config (5 + b)) ((d k).source b)
      ((d k).start b) ((d k).values b)) : PlanOperand ranged d k b x := by
  have hcount : ∀ i, i < k → s.counts.getD i 0 = (d i).cells := by
    intro i hi
    rw [h.counts, List.getD_eq_getElem?_getD, List.getElem?_map, List.getElem?_range hi]
    rfl
  generalize hl : cfg (d k).config (5 + b) = length at hx
  generalize hsource : (d k).source b = source at hx
  generalize hstart : (d k).start b = start at hx
  generalize hvalues : (d k).values b = values at hx
  cases hx with
  | literal values =>
    exact ⟨fun _ => ⟨by rw [hvalues], hstart⟩, fun hne => absurd hsource hne⟩
  | link name offset extent length source start hname hpos hfits hwhole =>
    have hlt := h.names name source hname
    rw [hcount source hlt] at hfits hwhole
    refine ⟨fun hmax => ?_, fun _ => ?_⟩
    · rw [hsource] at hmax
      unfold UINT32_MAX at hmax
      omega
    · rw [hsource, hl, hstart, hvalues]
      exact ⟨⟨_, _, _, rfl⟩, hlt, hpos, hfits, hwhole, rfl⟩

end Run

/-- The last uses of a plan with this output. -/
def planLast (d : ℕ → PlanData) (count output : ℕ) : ℕ → ℕ :=
  Function.update (lastUseAt (fun i => (d i).uses) count) output count

/-- The slots of job `i`. -/
def planSlotsAt (d : ℕ → PlanData) (count output i : ℕ) : List ℕ :=
  slotsAt (planLast d count output) (fun i => (d i).chunks) 8 i

/-- Everything the planner established about an accepted session. -/
structure PlanOk (session : Session) (plan : Plan) (d : ℕ → PlanData) : Prop where
  schema : session.schema = SCHEMA_V1 ∨ session.schema = SCHEMA_V2
  count : 1 ≤ session.jobs.length ∧ session.jobs.length ≤ 8
  two : ∀ (k : ℕ) (job : Job), session.jobs[k]? = some job → job.inputs.length = 2
  compiled : ∀ (k : ℕ) (job : Job), session.jobs[k]? = some job → compileRegion job.region = .ok (d k).config
  operand : ∀ (k : ℕ) (job : Job), session.jobs[k]? = some job → ∀ b x, job.inputs[b]? = some x →
    PlanOperand (session.schema = SCHEMA_V2) d k b x
  admitted : ∀ (k : ℕ) (job : Job), session.jobs[k]? = some job →
    ∃ out, reference job.region [(d k).values 0, (d k).values 1] = .ok out
  sources : plan.sources = (List.range session.jobs.length).map fun i => (d i).sources
  offsets : plan.offsets = (List.range session.jobs.length).map fun i => (d i).starts
  lengths : plan.lengths = (List.range session.jobs.length).map fun i => (d i).lengths
  chunks : plan.chunks = (List.range session.jobs.length).map fun i => (d i).chunks
  output : plan.output < session.jobs.length
  lastUse : plan.lastUse = (List.range session.jobs.length).map
    (planLast d session.jobs.length plan.output)
  refs : ∀ i, i < session.jobs.length →
    (planReads (d i).sources (d i).starts (d i).lengths).card + (d i).chunks ≤ 4
  slots : plan.slots = (List.range session.jobs.length).map
    (planSlotsAt d session.jobs.length plan.output)
  found : ∀ i, i < session.jobs.length →
    (planSlotsAt d session.jobs.length plan.output i).length = (d i).chunks

section Slots

variable {s : PlanLoop} {d : ℕ → PlanData} {N output k : ℕ}

/-- The slot loop before job `k`. -/
structure SlotRun (d : ℕ → PlanData) (N output k : ℕ) (state : List (Option ℕ) × List (List ℕ)) : Prop where
  length : state.1.length = 8
  owners : ∀ slot, slot < 8 → state.1.getD slot none =
    ownersAt (planLast d N output) (fun i => (d i).chunks) 8 k slot
  slots : state.2 = (List.range k).map (planSlotsAt d N output)

theorem getD_map_range {α : Type} (f : ℕ → α) (z : α) {n i : ℕ} (hi : i < n) :
    ((List.range n).map f).getD i z = f i := by
  rw [List.getD_eq_getElem?_getD, List.getElem?_map, List.getElem?_range hi]
  rfl

theorem foldl_set_getD {α : Type} (l : List ℕ) (a z : α) (owners : List α) (slot : ℕ)
    (h : slot < owners.length) :
    (l.foldl (fun owners slot => owners.set slot a) owners).getD slot z =
      if slot ∈ l then a else owners.getD slot z := by
  induction l generalizing owners with
  | nil => rfl
  | cons x l ih =>
    rw [List.foldl_cons, ih _ (by simpa using h)]
    by_cases hl : slot ∈ l
    · simp [hl]
    · by_cases hx : x = slot
      · subst hx
        simp [hl, List.getD_eq_getElem?_getD, h]
      · simp [hl, Ne.symm hx, List.getD_eq_getElem?_getD, hx]

theorem foldl_set_length {α : Type} (l : List ℕ) (a : α) (owners : List α) :
    (l.foldl (fun owners slot => owners.set slot a) owners).length = owners.length := by
  induction l generalizing owners with
  | nil => rfl
  | cons x l ih => rw [List.foldl_cons, ih, List.length_set]

theorem planSlots_eq_ok (hs : PlanRun d N s) (hk : k < N) {state t : List (Option ℕ) × List (List ℕ)}
    (h : SlotRun d N output k state)
    (hok : planSlots s ((List.range N).map (planLast d N output)) state ((d k).sources, k) = .ok t) :
    SlotRun d N output (k + 1) t ∧
      (planReads (d k).sources (d k).starts (d k).lengths).card + (d k).chunks ≤ 4 ∧
      (planSlotsAt d N output k).length = (d k).chunks := by
  have hfree : ((List.range 8).filter fun slot =>
      isFree (fun owner => ((List.range N).map (planLast d N output)).getD owner 0)
        (state.1.getD slot none) k) =
      (List.range 8).filter fun slot => isFree (planLast d N output)
        (ownersAt (planLast d N output) (fun i => (d i).chunks) 8 k slot) k := by
    refine List.filter_congr fun slot hslot => ?_
    rw [h.owners slot (List.mem_range.mp hslot)]
    unfold isFree
    cases ho : ownersAt (planLast d N output) (fun i => (d i).chunks) 8 k slot with
    | none => rfl
    | some o =>
      have := (ownersAt_eq_some ho).1
      simp only [Option.all_some, getD_map_range _ _ (show o < N by omega)]
  unfold planSlots at hok
  simp only [require_then_eq_ok, except_pure_eq_ok, hs.offsets, hs.lengths, hs.chunks,
    getD_map_range _ _ hk, hfree] at hok
  obtain ⟨hrefs, hlen, rfl⟩ := hok
  have hlength : (planSlotsAt d N output k).length = (d k).chunks := by
    rw [planSlotsAt, slotsAt, List.length_take]
    omega
  refine ⟨⟨?_, fun slot hslot => ?_, ?_⟩, hrefs, hlength⟩
  · exact (foldl_set_length _ _ _).trans h.length
  · rw [foldl_set_getD _ _ _ _ _ (by rw [h.length]; exact hslot), h.owners slot hslot, ownersAt_succ]
    rfl
  · simp only [h.slots, List.range_succ (n := k), List.map_append, List.map_singleton]
    rfl

end Slots

theorem compilePlan_eq_ok {session : Session} {plan : Plan} (h : compilePlan session = .ok plan) :
    ∃ d, PlanOk session plan d := by
  unfold compilePlan at h
  obtain ⟨hschema, h⟩ := require_then_eq_ok.mp h
  obtain ⟨hcount, h⟩ := require_then_eq_ok.mp h
  obtain ⟨s, hs, h⟩ := except_bind_eq_ok.mp h
  obtain ⟨hout, h⟩ := require_then_eq_ok.mp h
  obtain ⟨r, hr, h⟩ := except_bind_eq_ok.mp h
  obtain rfl := except_pure_eq_ok.mp h
  obtain ⟨output, houtput⟩ := Option.isSome_iff_exists.mp hout
  rw [houtput, Option.getD_some] at hr ⊢
  obtain ⟨g, hg0, hgN, hg⟩ := foldlM_zipIdx_eq_ok.mp hs
  -- What each turn of the job loop chose.
  have hsteps : ∀ k, ∃ data, ∀ job, session.jobs[k]? = some job →
      (g k).last.length ≤ UINT32_MAX → PlanStep (session.schema = SCHEMA_V2) (g k) job k data (g (k + 1)) := by
    intro k
    by_cases hk : ∃ job, session.jobs[k]? = some job ∧ (g k).last.length ≤ UINT32_MAX
    · obtain ⟨job, hjob, hlen⟩ := hk
      obtain ⟨data, hdata⟩ := planJob_eq_ok hlen (hg k job hjob)
      refine ⟨data, fun job' hjob' _ => ?_⟩
      obtain rfl : job = job' := Option.some.inj (hjob.symm.trans hjob')
      exact hdata
    · exact ⟨⟨[], fun _ => 0, fun _ => 0, fun _ => []⟩, fun job hjob hlen => absurd ⟨job, hjob, hlen⟩ hk⟩
  choose d hd using hsteps
  have hrun : ∀ k, k ≤ session.jobs.length → PlanRun d k (g k) := by
    intro k hk
    induction k with
    | zero =>
      rw [hg0]
      exact ⟨fun x i hx => by simp at hx, rfl, rfl, rfl, rfl, rfl, rfl⟩
    | succ k ih =>
      have hrunk := ih (by omega)
      have hjob := List.getElem?_eq_getElem (show k < session.jobs.length by omega)
      refine hrunk.step (by omega) (hd k _ hjob ?_)
      rw [hrunk.last, List.length_map, List.length_range]
      unfold UINT32_MAX
      omega
  have hstep : ∀ k job, session.jobs[k]? = some job →
      PlanStep (session.schema = SCHEMA_V2) (g k) job k (d k) (g (k + 1)) := by
    intro k job hjob
    have hk := (List.getElem?_eq_some_iff.mp hjob).1
    refine hd k job hjob ?_
    rw [(hrun k hk.le).last, List.length_map, List.length_range]
    unfold UINT32_MAX
    omega
  have hfinal : PlanRun d session.jobs.length s := hgN ▸ hrun _ le_rfl
  have hout' : output < session.jobs.length := hfinal.names _ _ houtput
  have hlast : s.last.set output s.chunks.length =
      (List.range session.jobs.length).map (planLast d session.jobs.length output) := by
    rw [hfinal.last, hfinal.chunks, List.length_map, List.length_range]
    refine List.ext_getElem (by simp) fun i hi hi' => ?_
    simp only [List.getElem_set, List.getElem_map, List.getElem_range, planLast]
    by_cases ho : output = i
    · rw [if_pos ho, ← ho, Function.update_self]
    · rw [if_neg ho, Function.update_of_ne (Ne.symm ho)]
  rw [hlast] at hr ⊢
  obtain ⟨u, hu0, huN, hu⟩ := foldlM_zipIdx_eq_ok.mp hr
  have hsources : ∀ k, k < session.jobs.length → s.sources[k]? = some (d k).sources := by
    intro k hk
    rw [hfinal.sources, List.getElem?_map, List.getElem?_range hk]
    rfl
  have hslots : ∀ k, k ≤ session.jobs.length → SlotRun d session.jobs.length output k (u k) := by
    intro k hk
    induction k with
    | zero =>
      rw [hu0]
      refine ⟨rfl, fun slot hslot => ?_, rfl⟩
      rw [List.getD_eq_getElem?_getD, List.getElem?_replicate, if_pos hslot]
      rfl
    | succ k ih =>
      exact (planSlots_eq_ok hfinal (by omega) (ih (by omega)) (hu k _ (hsources k (by omega)))).1
  have hfound : ∀ k, k < session.jobs.length → _ := fun k hk =>
    (planSlots_eq_ok hfinal hk (hslots k hk.le) (hu k _ (hsources k hk))).2
  have hlen : s.sources.length = session.jobs.length := by
    rw [hfinal.sources, List.length_map, List.length_range]
  refine ⟨d, hschema, hcount, fun k job hj => (hstep k job hj).two,
    fun k job hj => (hstep k job hj).compiled, fun k job hj b x hx => ?_,
    fun k job hj => (hstep k job hj).admitted, hfinal.sources, hfinal.offsets, hfinal.lengths,
    hfinal.chunks, hout', rfl, fun i hi => (hfound i hi).1, ?_, fun i hi => (hfound i hi).2⟩
  · have hk := (List.getElem?_eq_some_iff.mp hj).1
    exact (hrun k hk.le).operand (by omega) ((hstep k job hj).operand b x hx)
  · rw [← huN, hlen]
    exact (hslots _ le_rfl).slots

end Raveil.Dag
