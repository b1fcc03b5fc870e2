import Raveil.Dag.Layout
import Raveil.Dag.PlanFacts

/-! Host and guest agree on every envelope: what the planner writes, the decoder reads. -/
namespace Raveil.Dag
open Raveil.Lib Raveil.Fold

variable {session : Session} {plan : Plan} {d : ℕ → PlanData} {epoch : ℕ} {ids : List ℕ} {i : ℕ}

theorem mem_planReads {data : PlanData} {s c : ℕ} :
    (s, c) ∈ planReads data.sources data.starts data.lengths ↔ ∃ b, b < 2 ∧ data.source b ≠ UINT32_MAX ∧
      s = data.source b ∧ c ∈ chunkRange (data.start b) (cfg data.config (5 + b)) := by
  have hget : ∀ b, b < 2 → data.sources.getD b 0 = data.source b ∧ data.starts.getD b 0 = data.start b ∧
      data.lengths.getD b 0 = cfg data.config (5 + b) := by
    intro b hb
    obtain rfl | rfl : b = 0 ∨ b = 1 := by omega
    · exact ⟨rfl, rfl, rfl⟩
    · exact ⟨rfl, rfl, rfl⟩
  simp only [planReads, List.mem_toFinset, List.mem_flatMap, List.mem_range]
  constructor
  · rintro ⟨b, hb, hx⟩
    obtain ⟨h1, h2, h3⟩ := hget b hb
    rw [h1, h2, h3] at hx
    split at hx
    · cases hx
    · rename_i hs
      simp only [List.mem_map, Prod.mk.injEq] at hx
      obtain ⟨c', hc, rfl, rfl⟩ := hx
      exact ⟨b, hb, hs, rfl, hc⟩
  · rintro ⟨b, hb, hs, rfl, hc⟩
    obtain ⟨h1, h2, h3⟩ := hget b hb
    refine ⟨b, hb, ?_⟩
    rw [h1, h2, h3, if_neg hs]
    exact List.mem_map.mpr ⟨c, hc, rfl⟩

/-- What the host writes about job `i` of a plan. -/
def wireJob (d : ℕ → PlanData) (ids : List ℕ) (i : ℕ) : WireJob where
  sources := (d i).source
  starts := (d i).start
  config := (d i).config
  a := (d i).values 0
  b := (d i).values 1
  id := ids.getD i 0

def wireVersion (session : Session) : ℕ := if session.schema = SCHEMA_V2 then 2 else 1

/-- The envelope of a plan. -/
def planLayout (session : Session) (plan : Plan) (d : ℕ → PlanData) (epoch : ℕ) (ids : List ℕ) : Layout where
  version := wireVersion session
  epoch := epoch
  output := plan.output
  jobs := (List.range session.jobs.length).map (wireJob d ids)

/-- The request identities `encode` accepts. -/
structure IdsOk (session : Session) (ids : List ℕ) : Prop where
  length : ids.length = session.jobs.length
  range : ∀ i ∈ ids, 0 < i ∧ i < 2 ^ 64
  nodup : ids.Nodup

section Facts

variable (h : PlanOk session plan d)

include h

theorem PlanOk.compiledAt (hi : i < session.jobs.length) : ∃ t q, Compiled session.jobs[i].region (d i).config t q :=
  compileRegion_eq_ok (h.compiled i _ (List.getElem?_eq_getElem hi))

theorem PlanOk.inputs (hi : i < session.jobs.length) : ((d i).values 0).length = cfg (d i).config 5 ∧
    ((d i).values 1).length = cfg (d i).config 6 ∧ (∀ w ∈ (d i).values 0, w < 2 ^ 32) ∧
    ∀ w ∈ (d i).values 1, w < 2 ^ 32 := by
  have hjob := List.getElem?_eq_getElem hi
  obtain ⟨out, hout⟩ := h.admitted i _ hjob
  obtain ⟨a, b, hab, hinputs⟩ := reference_inputs (h.compiled i _ hjob) hout
  obtain ⟨rfl, rfl⟩ : (d i).values 0 = a ∧ (d i).values 1 = b := by simpa using hab
  exact hinputs

theorem PlanOk.cells_le (hi : i < session.jobs.length) : 1 ≤ (d i).cells ∧ (d i).cells ≤ 256 := by
  obtain ⟨t, q, hc⟩ := h.compiledAt hi
  refine ⟨?_, Fold.cells_le hc.admissible⟩
  exact Nat.mul_pos hc.admissible.header.rows.1 hc.admissible.header.cols.1

/-- Every operand of every job was planned. -/
theorem PlanOk.planOperand (hi : i < session.jobs.length) {b : ℕ} (hb : b < 2) :
    ∃ x, (session.jobs[i]).inputs[b]? = some x ∧ PlanOperand (session.schema = SCHEMA_V2) d i b x := by
  have hjob := List.getElem?_eq_getElem hi
  have htwo := h.two i _ hjob
  have hx := List.getElem?_eq_getElem (show b < (session.jobs[i]).inputs.length by omega)
  exact ⟨_, hx, h.operand i _ hjob b _ hx⟩

theorem PlanOk.start_le (hi : i < session.jobs.length) {b : ℕ} (hb : b < 2) : (d i).start b ≤ 256 := by
  obtain ⟨x, -, hx⟩ := h.planOperand hi hb
  by_cases hs : (d i).source b = UINT32_MAX
  · rw [(hx.literal hs).2]
    omega
  · obtain ⟨-, hlt, -, hfits, -⟩ := hx.link hs
    have := (h.cells_le (show (d i).source b < session.jobs.length by omega)).2
    omega

theorem PlanOk.source_lt (hi : i < session.jobs.length) {b : ℕ} (hb : b < 2) : (d i).source b < 2 ^ 32 := by
  obtain ⟨x, -, hx⟩ := h.planOperand hi hb
  by_cases hs : (d i).source b = UINT32_MAX
  · rw [hs]
    decide
  · have := (hx.link hs).2.1
    have := h.count.2
    omega

theorem PlanOk.wireJob_ok (hids : IdsOk session ids) (hi : i < session.jobs.length) : (wireJob d ids i).Ok := by
  obtain ⟨t, q, hc⟩ := h.compiledAt hi
  obtain ⟨ha, hb, hwa, hwb⟩ := h.inputs hi
  have hid : ids.getD i 0 ∈ ids := by
    rw [List.getD_eq_getElem _ _ (by rw [hids.length]; exact hi)]
    exact List.getElem_mem _
  refine ⟨⟨hc.length, hc.admissible, hc.u32, hids.range _ hid, ha, hb, hwa, hwb⟩,
    fun b hb => h.source_lt hi hb, fun b hb => ?_⟩
  have := h.start_le hi hb
  change (d i).start b < 2 ^ 32
  omega

theorem PlanOk.layout_ok (hids : IdsOk session ids) (hepoch : 0 < epoch ∧ epoch < 2 ^ 64) :
    (planLayout session plan d epoch ids).Ok := by
  refine ⟨?_, hepoch, ?_, ?_, fun j hj => ?_⟩
  · unfold planLayout wireVersion
    dsimp only
    split
    · exact Or.inr rfl
    · exact Or.inl rfl
  · simpa [planLayout] using h.count
  · simpa [planLayout] using h.output
  · simp only [planLayout, List.mem_map, List.mem_range] at hj
    obtain ⟨i, hi, rfl⟩ := hj
    exact h.wireJob_ok hids hi

theorem PlanOk.wireInputs_eq (hi : i < session.jobs.length) :
    wireInputs plan (d i).config session.jobs[i] i = [(d i).values 0, (d i).values 1] := by
  have hvalue : ∀ b, b < 2 → (if (plan.sources.getD i []).getD b 0 ≠ UINT32_MAX then
      List.replicate (cfg (d i).config (5 + b)) 0
      else literalValues (session.jobs[i]).inputs[b]?) = (d i).values b := by
    intro b hb
    obtain ⟨x, hx, hplan⟩ := h.planOperand hi hb
    have hsource : (plan.sources.getD i []).getD b 0 = (d i).source b := by
      rw [h.sources, getD_map_range _ _ hi]
      obtain rfl | rfl : b = 0 ∨ b = 1 := by omega
      · rfl
      · rfl
    rw [hsource, hx]
    by_cases hs : (d i).source b = UINT32_MAX
    · rw [if_neg (not_not.mpr hs), (hplan.literal hs).1]
      rfl
    · obtain ⟨-, -, -, -, -, hv⟩ := hplan.link hs
      rw [if_pos hs, hv]
  rw [wireInputs, List.map_congr_left fun b hb => hvalue b (List.mem_range.mp hb)]
  rfl

theorem PlanOk.planMetadata_eq (ids : List ℕ) (hi : i < session.jobs.length) :
    planMetadata plan (wireVersion session) i = (wireJob d ids i).metadata (wireVersion session) := by
  obtain ⟨ha, hb, -, -⟩ := h.inputs hi
  unfold planMetadata WireJob.metadata
  rw [h.sources, h.offsets, h.lengths, getD_map_range _ _ hi, getD_map_range _ _ hi, getD_map_range _ _ hi]
  split
  · change [(d i).source 0, (d i).start 0, cfg (d i).config 5, (d i).source 1, (d i).start 1,
      cfg (d i).config 6] = [(d i).source 0, (d i).start 0, ((d i).values 0).length, (d i).source 1,
      (d i).start 1, ((d i).values 1).length]
    rw [ha, hb]
  · rfl

/-- The encoder writes the layout of the plan. -/
theorem PlanOk.encodeDag_eq (hplan : compilePlan session = .ok plan) (hids : IdsOk session ids)
    (hepoch : 0 < epoch ∧ epoch < 2 ^ 64) :
    encodeDag session epoch ids = .ok ((planLayout session plan d epoch ids).bytes,
      (List.range session.jobs.length).map fun i => packWords (wireJob d ids i).request) := by
  have hchild : ∀ k, k < session.jobs.length →
      requestBytes (d k).config [(d k).values 0, (d k).values 1] (ids.getD k 0) =
        .ok (packWords (wireJob d ids k).request) :=
    fun k hk => requestBytes_eq_ok.mpr ⟨(h.wireJob_ok hids hk).request, rfl⟩
  have hlen : (session.jobs.zip ids).length = session.jobs.length := by
    rw [List.length_zip, hids.length, Nat.min_self]
  have hpayload : ∀ k, (((List.range k).map (wireJob d ids)).flatMap
      fun j => packWords (j.metadata (wireVersion session)) ++ packWords j.request) =
      packWords (((List.range k).map (wireJob d ids)).flatMap (WireJob.words (wireVersion session))) := by
    intro k
    induction k with
    | zero => rfl
    | succ k ih =>
      rw [List.range_succ, List.map_append, List.flatMap_append, List.flatMap_append, ih, packWords_append]
      simp [WireJob.words]
  have hloop : (session.jobs.zip ids).zipIdx.foldlM
      (fun (s : List (List UInt8) × List UInt8) job => do
        let config ← compileRegion job.1.1.region
        let child ← requestBytes config (wireInputs plan config job.1.1 job.2) job.1.2
        pure (s.1 ++ [child], s.2 ++ (packWords (planMetadata plan (wireVersion session) job.2) ++ child)))
      ([], []) =
      .ok ((List.range session.jobs.length).map (fun i => packWords (wireJob d ids i).request),
        packWords (planLayout session plan d epoch ids).payload) := by
    refine foldlM_zipIdx_eq_ok.mpr ⟨fun k => ((List.range k).map (fun i => packWords (wireJob d ids i).request),
      ((List.range k).map (wireJob d ids)).flatMap
        fun j => packWords (j.metadata (wireVersion session)) ++ packWords j.request), rfl, ?_, ?_⟩
    · simp only [hlen, hpayload]
      rfl
    · rintro k ⟨job, id⟩ hk
      obtain ⟨hjob, hid⟩ := List.getElem?_zip_eq_some.mp hk
      obtain ⟨hlt, rfl⟩ := List.getElem?_eq_some_iff.mp hjob
      obtain rfl : ids.getD k 0 = id := by rw [List.getD_eq_getElem?_getD, hid, Option.getD_some]
      simp only [except_bind_eq_ok, except_pure_eq_ok]
      refine ⟨_, h.compiled k _ hjob, packWords (wireJob d ids k).request, ?_, ?_⟩
      · rw [h.wireInputs_eq hlt]
        exact hchild k hlt
      · rw [List.range_succ, List.map_append, List.map_append, List.flatMap_append, h.planMetadata_eq ids hlt]
        simp
  unfold encodeDag
  rw [hplan]
  refine except_bind_eq_ok.mpr ⟨plan, rfl, ?_⟩
  rw [require_of hepoch, require_of ⟨hids.length, hids.range, hids.nodup⟩]
  refine except_bind_eq_ok.mpr ⟨(), rfl, except_bind_eq_ok.mpr ⟨(), rfl, ?_⟩⟩
  refine except_bind_eq_ok.mpr ⟨_, hloop, ?_⟩
  rw [except_pure_eq_ok, Prod.mk.injEq]
  refine ⟨?_, rfl⟩
  have hbody : packWords [RAVEIL_FOLD_DAG_MAGIC, wireVersion session,
      40 + (packWords (planLayout session plan d epoch ids).payload).length,
      ((List.range session.jobs.length).map fun i => packWords (wireJob d ids i).request).length] ++
      le64 epoch ++ packWords [plan.output, 0] ++
      packWords (planLayout session plan d epoch ids).payload =
      packWords (planLayout session plan d epoch ids).body := by
    rw [le64_eq, ← packWords_append, ← packWords_append, ← packWords_append, Layout.body]
    congr 1
    simp [planLayout]
  unfold wireVersion at hbody
  rw [hbody, ← packWords_append]
  rfl

end Facts

section Accept

variable (h : PlanOk session plan d) (hids : IdsOk session ids) (hepoch : 0 < epoch ∧ epoch < 2 ^ 64)

include h hids hepoch

theorem PlanOk.reads (hi : i < session.jobs.length) :
    Layout.Reads (planLayout session plan d epoch ids) i (wireJob d ids i) := by
  refine Layout.reads (h.layout_ok hids hepoch) ?_
  simp only [planLayout, List.getElem?_map, List.getElem?_range hi, Option.map_some]

theorem PlanOk.configAt_eq (hi : i < session.jobs.length) :
    configAt (planLayout session plan d epoch ids).bytes i = (d i).config := by
  rw [Dag.configAt_eq (h.reads hids hepoch hi).request]
  rfl

theorem PlanOk.cellsAt_eq (hi : i < session.jobs.length) :
    cellsAt (planLayout session plan d epoch ids).bytes i = (d i).cells := by
  rw [cellsAt, h.configAt_eq hids hepoch hi]
  rfl

theorem PlanOk.chunksAt_eq (hi : i < session.jobs.length) :
    chunksAt (planLayout session plan d epoch ids).bytes i = (d i).chunks := by
  rw [chunksAt, h.cellsAt_eq hids hepoch hi]
  rfl

theorem PlanOk.extentAt_eq (hi : i < session.jobs.length) (b : ℕ) :
    extentAt (planLayout session plan d epoch ids).bytes i b = cfg (d i).config (5 + b) := by
  rw [extentAt, h.configAt_eq hids hepoch hi]

theorem PlanOk.sourceAt_eq (hi : i < session.jobs.length) {b : ℕ} (hb : b < 2) :
    sourceAt (planLayout session plan d epoch ids).bytes i b = (d i).source b :=
  (h.reads hids hepoch hi).source b hb

/-- A schema without ranges starts every operand at zero. -/
theorem PlanOk.startAt_eq (hi : i < session.jobs.length) {b : ℕ} (hb : b < 2) :
    startAt (planLayout session plan d epoch ids).bytes i b = (d i).start b := by
  rw [(h.reads hids hepoch hi).start b hb]
  obtain ⟨x, -, hx⟩ := h.planOperand hi hb
  by_cases hv : session.schema = SCHEMA_V2
  · rw [if_pos (show (planLayout session plan d epoch ids).version = 2 from if_pos hv)]
    rfl
  · rw [if_neg (show ¬ (planLayout session plan d epoch ids).version = 2 by
      simp [planLayout, wireVersion, hv])]
    by_cases hs : (d i).source b = UINT32_MAX
    · exact (hx.literal hs).2.symm
    · exact ((hx.link hs).2.2.2.2.1 (by simpa using hv)).1.symm

theorem PlanOk.usesAt_eq (hi : i < session.jobs.length) :
    usesAt (planLayout session plan d epoch ids).bytes i = (d i).uses := by
  have hs : ∀ b ∈ List.range 2, sourceAt (planLayout session plan d epoch ids).bytes i b = (d i).source b :=
    fun b hb => h.sourceAt_eq hids hepoch hi (List.mem_range.mp hb)
  unfold usesAt linksBelow PlanData.uses
  rw [List.filter_congr fun b hb => by rw [hs b hb]]
  exact List.map_congr_left fun b hb => hs b (List.mem_of_mem_filter hb)

theorem PlanOk.lastUses_eq : lastUses (planLayout session plan d epoch ids).bytes =
    planLast d session.jobs.length plan.output := by
  have hl := h.layout_ok hids hepoch
  have hcount : word (planLayout session plan d epoch ids).bytes 12 = session.jobs.length := by
    rw [Layout.count_bytes hl]
    simp [planLayout]
  rw [lastUses, hcount, Layout.output_bytes hl, planLast]
  congr 1
  exact lastUseAt_congr fun i hi => h.usesAt_eq hids hepoch hi

theorem PlanOk.destinationsAt_eq (hi : i < session.jobs.length) :
    destinationsAt (planLayout session plan d epoch ids).bytes i =
      planSlotsAt d session.jobs.length plan.output i := by
  rw [destinationsAt, h.lastUses_eq hids hepoch]
  exact slotsAt_congr fun j hj => ⟨rfl, h.chunksAt_eq hids hepoch (by omega)⟩

/-- The bits of the guest and the pairs of the host count the same reads. -/
theorem PlanOk.reads_card (hi : i < session.jobs.length) :
    (List.range 16).countP (fun bit =>
      readMask (planLayout session plan d epoch ids).bytes i &&& 1 <<< bit ≠ 0) =
      (planReads (d i).sources (d i).starts (d i).lengths).card := by
  have hchunk : ∀ x ∈ planReads (d i).sources (d i).starts (d i).lengths, x.1 < 8 ∧ x.2 ≤ 1 := by
    rintro ⟨s, c⟩ hx
    obtain ⟨b, hb, hs, rfl, hc⟩ := mem_planReads.mp hx
    obtain ⟨x, -, hx⟩ := h.planOperand hi hb
    obtain ⟨-, hlt, hpos, hfits, -⟩ := hx.link hs
    have := (h.cells_le (show (d i).source b < session.jobs.length by omega)).2
    have := h.count
    rw [mem_chunkRange] at hc
    dsimp only
    omega
  have hbits : ∀ bit, bit ∈ (linksBelow (planLayout session plan d epoch ids).bytes i 2).flatMap
      (readBits (planLayout session plan d epoch ids).bytes i) ↔
      ∃ x ∈ planReads (d i).sources (d i).starts (d i).lengths, 2 * x.1 + x.2 = bit := by
    intro bit
    simp only [linksBelow, List.mem_flatMap, List.mem_filter, List.mem_range, decide_eq_true_iff, readBits,
      List.mem_map, Prod.exists, mem_planReads]
    constructor
    · rintro ⟨b, ⟨hb, hs⟩, c, hc, rfl⟩
      rw [h.sourceAt_eq hids hepoch hi hb] at hs ⊢
      rw [h.startAt_eq hids hepoch hi hb, h.extentAt_eq hids hepoch hi] at hc
      exact ⟨_, c, ⟨b, hb, hs, rfl, hc⟩, rfl⟩
    · rintro ⟨s, c, ⟨b, hb, hs, rfl, hc⟩, rfl⟩
      refine ⟨b, ⟨hb, ?_⟩, c, ?_, ?_⟩
      · rw [h.sourceAt_eq hids hepoch hi hb]
        exact hs
      · rw [h.startAt_eq hids hepoch hi hb, h.extentAt_eq hids hepoch hi]
        exact hc
      · rw [h.sourceAt_eq hids hepoch hi hb]
  rw [readMask, readMaskBelow, countP_maskOf]
  · have himage : ((linksBelow (planLayout session plan d epoch ids).bytes i 2).flatMap
        (readBits (planLayout session plan d epoch ids).bytes i)).toFinset =
        (planReads (d i).sources (d i).starts (d i).lengths).image fun x => 2 * x.1 + x.2 := by
      ext bit
      rw [List.mem_toFinset, Finset.mem_image, hbits]
    rw [himage]
    refine Finset.card_image_of_injOn fun x hx y hy hxy => ?_
    have h1 := hchunk x hx
    have h2 := hchunk y hy
    exact Prod.ext (by omega) (by omega)
  · intro bit hbit
    obtain ⟨x, hx, rfl⟩ := (hbits bit).mp hbit
    have := hchunk x hx
    omega

theorem PlanOk.accepted : Accepted (planLayout session plan d epoch ids).bytes
    (planLayout session plan d epoch ids).bytes.length := by
  have hl := h.layout_ok hids hepoch
  have hcount : word (planLayout session plan d epoch ids).bytes 12 = session.jobs.length := by
    rw [Layout.count_bytes hl]
    simp [planLayout]
  have hversion : version (planLayout session plan d epoch ids).bytes = wireVersion session :=
    Layout.version_bytes hl
  have hidAt : ∀ j, j < session.jobs.length →
      idAt (planLayout session plan d epoch ids).bytes j = ids.getD j 0 := by
    intro j hj
    rw [idAt_eq (h.reads hids hepoch hj).request]
    rfl
  refine ⟨Layout.headerOk hl, fun i hi => ?_, ?_, fun i hi => ?_⟩
  · rw [hcount] at hi
    have hr := h.reads hids hepoch hi
    have hok := h.wireJob_ok hids hi
    obtain ⟨ha, hb, -, -⟩ := h.inputs hi
    obtain ⟨hla, hlb⟩ := hok.request.lengths
    have hfits := Layout.request_fits hl (i := i) (j := wireJob d ids i)
      (by simp [planLayout, List.getElem?_range hi])
    have hlen := hr.length
    refine ⟨by omega, hr.magic, ⟨by omega, ?_, by omega⟩, ⟨_, hr.request⟩, fun j hj => ?_, fun b hb2 => ?_⟩
    · unfold RAVEIL_FOLD_MAX_BYTES
      omega
    · rw [hidAt j (by omega), hidAt i hi, List.getD_eq_getElem _ _ (by rw [hids.length]; omega),
        List.getD_eq_getElem _ _ (by rw [hids.length]; omega), ne_eq, hids.nodup.getElem_inj_iff]
      omega
    · obtain ⟨x, -, hx⟩ := h.planOperand hi hb2
      refine ⟨fun h2 => ?_, fun hs => ?_, fun hs => ?_⟩
      · rw [hversion] at h2
        rw [hr.declared b hb2 h2, h.extentAt_eq hids hepoch hi]
        obtain rfl | rfl : b = 0 ∨ b = 1 := by omega
        · exact ha
        · exact hb
      · rw [h.sourceAt_eq hids hepoch hi hb2] at hs
        rw [h.startAt_eq hids hepoch hi hb2]
        exact (hx.literal hs).2
      · rw [h.sourceAt_eq hids hepoch hi hb2] at hs ⊢
        obtain ⟨-, hlt, hpos, hrange, hwhole, hzero⟩ := hx.link hs
        rw [h.startAt_eq hids hepoch hi hb2, h.extentAt_eq hids hepoch hi,
          h.cellsAt_eq hids hepoch (by omega)]
        refine ⟨hlt, by omega, hrange, fun h1 => ?_, fun r hreq k hk => ?_⟩
        · rw [hversion] at h1
          refine (hwhole ?_).2
          unfold wireVersion at h1
          split at h1
          · omega
          · simpa using ‹_›
        · obtain rfl := Option.some.inj (hr.request.symm.trans hreq)
          have hval : ((d i).values b)[k]? = some 0 := by
            rw [hzero, List.getElem?_replicate, if_pos hk]
          rw [List.getD_eq_getElem?_getD]
          obtain rfl | rfl : b = 0 ∨ b = 1 := by omega
          · rw [Nat.mul_zero, Nat.zero_add]
            have := placed_left (b := (d i).values 1) (List.getElem?_eq_some_iff.mp hval).1
            simp [wireJob, this, hval]
          · have := placed_right (a := (d i).values 0) hla (List.getElem?_eq_some_iff.mp hval).1
            simp [wireJob, this, hval]
  · rw [hcount, ← Layout.jobOffset_count hl]
    simp [planLayout]
  · rw [hcount] at hi
    refine ⟨?_, ?_⟩
    · rw [h.chunksAt_eq hids hepoch hi, h.reads_card hids hepoch hi]
      have := h.refs i hi
      omega
    · rw [h.destinationsAt_eq hids hepoch hi, h.chunksAt_eq hids hepoch hi]
      exact h.found i hi

end Accept

/-- Host and guest agree on every envelope: the decoder accepts what the encoder writes for an
accepted session, finds the plan in it, and reads back every request. -/
theorem envelope_agreement (hplan : compilePlan session = .ok plan) (hepoch : 0 < epoch ∧ epoch < 2 ^ 64)
    (hids : IdsOk session ids) :
    ∃ bytes children dag, encodeDag session epoch ids = .ok (bytes, children) ∧
      raveilFoldDagDecode bytes bytes.length = some dag ∧ dag.epoch = epoch ∧
      dag.count = session.jobs.length ∧ dag.output = plan.output ∧
      plan.sources = (List.range dag.count).map (fun i => [dag.sources i 0, dag.sources i 1]) ∧
      plan.offsets = (List.range dag.count).map (fun i => [dag.inputOffsets i 0, dag.inputOffsets i 1]) ∧
      plan.chunks = (List.range dag.count).map dag.chunks ∧
      plan.lastUse = (List.range dag.count).map dag.lastUse ∧
      plan.slots = (List.range dag.count).map dag.destinations ∧
      ∀ i job id, session.jobs[i]? = some job → ids[i]? = some id →
        ∃ config a b, compileRegion job.region = .ok config ∧ wireInputs plan config job i = [a, b] ∧
          raveilFoldDecode (bytes.drop (dag.offsets i)) (dag.lengths i) = some ⟨id, config, placed a b⟩ := by
  obtain ⟨d, h⟩ := compilePlan_eq_ok hplan
  have hl := h.layout_ok hids hepoch
  have hcount : word (planLayout session plan d epoch ids).bytes 12 = session.jobs.length := by
    rw [Layout.count_bytes hl]
    simp [planLayout]
  have hdecode := raveilFoldDagDecode_eq_some.mpr ⟨h.accepted hids hepoch, rfl⟩
  set p := (planLayout session plan d epoch ids).bytes with hp
  refine ⟨p, _, decoded p, h.encodeDag_eq hplan hids hepoch, hdecode, Layout.epoch_bytes hl, hcount,
    Layout.output_bytes hl, ?_, ?_, ?_, ?_, ?_, ?_⟩
  all_goals simp only [decoded, loopAt]
  · rw [hcount, h.sources]
    refine List.map_congr_left fun i hi => ?_
    rw [if_pos (List.mem_range.mp hi), h.sourceAt_eq hids hepoch (List.mem_range.mp hi) (by omega),
      h.sourceAt_eq hids hepoch (List.mem_range.mp hi) (by omega)]
    rfl
  · rw [hcount, h.offsets]
    refine List.map_congr_left fun i hi => ?_
    rw [if_pos (List.mem_range.mp hi), h.startAt_eq hids hepoch (List.mem_range.mp hi) (by omega),
      h.startAt_eq hids hepoch (List.mem_range.mp hi) (by omega)]
    rfl
  · rw [hcount, h.chunks]
    refine List.map_congr_left fun i hi => ?_
    rw [if_pos (List.mem_range.mp hi), h.chunksAt_eq hids hepoch (List.mem_range.mp hi)]
  · rw [hcount, h.lastUse, h.lastUses_eq hids hepoch]
  · rw [hcount, h.slots]
    refine List.map_congr_left fun i hi => ?_
    rw [if_pos (List.mem_range.mp hi), h.destinationsAt_eq hids hepoch (List.mem_range.mp hi)]
  · intro i job id hjob hid
    obtain ⟨hi, rfl⟩ := List.getElem?_eq_some_iff.mp hjob
    refine ⟨(d i).config, (d i).values 0, (d i).values 1, h.compiled i _ hjob, h.wireInputs_eq hi, ?_⟩
    rw [hcount, if_pos hi, if_pos hi]
    have hreq := (h.reads hids hepoch hi).request
    have hid' : ids.getD i 0 = id := by rw [List.getD_eq_getElem?_getD, hid, Option.getD_some]
    rw [← hid']
    exact hreq

def copyRegion : Region where
  schema := "raveil.affine-fold.v1"
  shape := [1, 1]
  extent := 1
  fold := .sum
  lengths := [1, 0]
  views := ⟨[("v", [0, 0, 0, 0, 0])], by decide⟩
  nodes := [{ id := "x", op := .load, view := some "v" }]
  result := "x"

/-- Two jobs, the second copying the word of the first. -/
def copySession : Session where
  schema := SCHEMA_V2
  jobs :=
    [{ name := "a", region := copyRegion, inputs := [.literal [7], .literal []] },
      { name := "b", region := copyRegion, inputs := [.link "a" (some 0) (some 1), .literal []] }]
  output := "b"

def copyPlan : Plan where
  sources := [[UINT32_MAX, UINT32_MAX], [0, UINT32_MAX]]
  chunks := [1, 1]
  lastUse := [1, 2]
  slots := [[0], [1]]
  output := 1
  offsets := [[0, 0], [0, 0]]
  lengths := [[1, 0], [1, 0]]

theorem envelope_agreement_copy : compilePlan copySession = .ok copyPlan ∧
    ∃ bytes children dag, encodeDag copySession 5 [3, 4] = .ok (bytes, children) ∧
      raveilFoldDagDecode bytes bytes.length = some dag ∧ dag.epoch = 5 ∧ dag.count = 2 ∧ dag.output = 1 := by
  have hplan : compilePlan copySession = .ok copyPlan := by decide
  have hids : IdsOk copySession [3, 4] := ⟨rfl, by decide, by decide⟩
  obtain ⟨bytes, children, dag, hencode, hdecode, hepoch, hcount, houtput, -⟩ :=
    envelope_agreement hplan (show 0 < 5 ∧ 5 < 2 ^ 64 by decide) hids
  exact ⟨hplan, bytes, children, dag, hencode, hdecode, hepoch, hcount, houtput⟩

end Raveil.Dag
