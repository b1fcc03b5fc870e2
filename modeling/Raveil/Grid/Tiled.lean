import Raveil.Dag.Host
import Raveil.Grid.Assembly
import Raveil.Grid.Evaluated

/-! Every tile run through its DAG and assembled is the untiled reference. -/
namespace Raveil.Dag
open Lib Fold

/-- `int.bit_count`. -/
def bitCount (n : ℕ) : ℕ := n.bitIndices.length

/-- One job of a tile in `execute_host`. -/
def executeJob (session : Session) (plan : Plan) (state : HostState) (index : ℕ) : Except String HostState := do
  match ← state.resolve session plan index with
  | none => .error "TypeError"
  | some r => do
    require (bitCount r.source + bitCount r.destination ≤ 4) "AssertionError"
    let words ← Fold.reference r.region r.inputs
    state.commit plan index r.destination words true

section Session

variable {session : Session} {plan : Plan} {d : ℕ → PlanData} {s s' : HostState} {i : ℕ} {out A B : List ℕ}
  {name name' : String} {region post : Region} {job : Job}

theorem bitCount_sum (slots : Finset ℕ) : bitCount (∑ slot ∈ slots, 1 <<< slot) = slots.card := by
  unfold bitCount
  simp only [Nat.one_shiftLeft]
  rw [← List.toFinset_card_of_nodup Nat.bitIndices_nodup, Finset.toFinset_bitIndices_sum_two_pow]

theorem planReadSlots_card (plan : Plan) (i : ℕ) : (planReadSlots plan i).card ≤
    (planReads (plan.sources.getD i []) (plan.offsets.getD i []) (plan.lengths.getD i [])).card := by
  have himage : planReadSlots plan i ⊆
      (planReads (plan.sources.getD i []) (plan.offsets.getD i []) (plan.lengths.getD i [])).image
        fun e => (plan.slots.getD e.1 []).getD e.2 0 := by
    intro slot hslot
    unfold planReadSlots at hslot
    obtain ⟨b, hb, hslot⟩ := List.mem_flatMap.mp (List.mem_toFinset.mp hslot)
    split at hslot
    · cases hslot
    · rename_i hsource
      obtain ⟨chunk, hchunk, rfl⟩ := List.mem_map.mp hslot
      refine Finset.mem_image.mpr ⟨((plan.sources.getD i []).getD b 0, chunk), List.mem_toFinset.mpr ?_, rfl⟩
      refine List.mem_flatMap.mpr ⟨b, hb, ?_⟩
      rw [if_neg hsource]
      exact List.mem_map_of_mem hchunk
  exact (Finset.card_le_card himage).trans Finset.card_image_le

/-- A planned job touches at most four slots. -/
theorem PlanOk.references (h : PlanOk session plan d) (hi : i < session.jobs.length) :
    bitCount (∑ slot ∈ planReadSlots plan i, 1 <<< slot) + bitCount (slotSum (plan.slots.getD i [])) ≤ 4 := by
  have hslots : plan.slots.getD i [] = planSlotsAt d session.jobs.length plan.output i := by
    rw [h.slots, getD_map_range _ _ hi]
  have hnodup : (plan.slots.getD i []).Nodup := by
    rw [hslots]
    exact slotsAt_nodup i
  have hreads := planReadSlots_card plan i
  have hrefs := h.refs i hi
  rw [h.sources, h.offsets, h.lengths, getD_map_range _ _ hi, getD_map_range _ _ hi, getD_map_range _ _ hi] at hreads
  have hwrites : bitCount (slotSum (plan.slots.getD i [])) = (d i).chunks := by
    have hsum := bitCount_sum (plan.slots.getD i []).toFinset
    simp only [Nat.one_shiftLeft] at hsum
    rw [slotSum_eq hnodup, hsum, List.toFinset_card_of_nodup hnodup, hslots]
    exact h.found i hi
  rw [bitCount_sum, hwrites]
  omega

/-- The output of a plan is the job of that name. -/
theorem output_named (h : compilePlan session = .ok plan) :
    ∃ job, session.jobs[plan.output]? = some job ∧ job.name = session.output := by
  obtain ⟨-, h⟩ := require_then_eq_ok.mp h
  obtain ⟨-, h⟩ := require_then_eq_ok.mp h
  obtain ⟨loop, hrun, h⟩ := except_bind_eq_ok.mp h
  obtain ⟨hsome, h⟩ := require_then_eq_ok.mp h
  obtain ⟨r, -, h⟩ := except_bind_eq_ok.mp h
  obtain rfl := except_pure_eq_ok.mp h
  obtain ⟨output, houtput⟩ := Option.isSome_iff_exists.mp hsome
  obtain ⟨g, hstart, hend, hstep⟩ := foldlM_zipIdx_eq_ok.mp hrun
  -- after `k` jobs every name stands for a job of that name
  have hnames : ∀ k, k ≤ session.jobs.length → ∀ x i, (g k).names x = some i →
      ∃ job, session.jobs[i]? = some job ∧ job.name = x := by
    intro k hk
    induction k with
    | zero =>
      intro x i hx
      rw [hstart] at hx
      cases hx
    | succ k ih =>
      intro x i hx
      have hjob := List.getElem?_eq_getElem (show k < session.jobs.length by omega)
      have hturn := hstep k _ hjob
      obtain ⟨-, hturn⟩ := require_then_eq_ok.mp hturn
      obtain ⟨-, hturn⟩ := require_then_eq_ok.mp hturn
      obtain ⟨config, -, hturn⟩ := except_bind_eq_ok.mp hturn
      obtain ⟨-, hturn⟩ := require_then_eq_ok.mp hturn
      obtain ⟨inputs, -, hturn⟩ := except_bind_eq_ok.mp hturn
      obtain ⟨out, -, hturn⟩ := except_bind_eq_ok.mp hturn
      rw [← except_pure_eq_ok.mp hturn] at hx
      dsimp only at hx
      by_cases hname : x = (session.jobs)[k].name
      · subst hname
        rw [Function.update_self] at hx
        cases hx
        exact ⟨_, hjob, rfl⟩
      · rw [Function.update_of_ne hname] at hx
        exact ih (by omega) x i hx
  rw [← hend] at houtput
  obtain ⟨job, hjob, hname⟩ := hnames _ le_rfl _ _ houtput
  refine ⟨job, ?_, hname⟩
  rw [← hend, houtput, Option.getD_some]
  exact hjob

/-- A committed result is there, and the others are as before. -/
theorem commit_success (plan : Plan) (s : HostState) (i : ℕ) (out : List ℕ) :
    ∃ s', s.commit plan i (slotSum (plan.slots.getD i [])) out true = .ok s' ∧ s'.available plan i = true ∧
      ∃ versions, s'.producers i = some (versions, out) := by
  refine ⟨_, require_then_eq_ok.mpr ⟨rfl, rfl⟩, ?_, ?_⟩
  · unfold HostState.available
    dsimp only
    rw [Function.update_self]
    simp
  · exact ⟨_, Function.update_self _ _ _⟩

/-- A job whose inputs resolve to `A` and `B` is executed. -/
theorem executeJob_eq (h : PlanOk session plan d) (hjob : session.jobs[i]? = some job)
    (hbad : s.badSource plan i = none)
    (hinputs : (job.inputs.zip (plan.sources.getD i [])).zipIdx.mapM (s.input plan i) = .ok [A, B])
    (hwords : Fold.reference job.region [A, B] = .ok out) :
    ∃ s', executeJob session plan s i = .ok s' ∧ s'.available plan i = true ∧
      ∃ versions, s'.producers i = some (versions, out) := by
  obtain ⟨s', hcommit, hs'⟩ := commit_success plan s i out
  refine ⟨s', ?_, hs'⟩
  have hresolve : s.resolve session plan i = .ok (some ⟨job.name, job.region, [A, B],
      ∑ slot ∈ planReadSlots plan i, 1 <<< slot, slotSum (plan.slots.getD i [])⟩) := by
    unfold HostState.resolve
    rw [hbad, hjob]
    exact except_bind_eq_ok.mpr ⟨_, hinputs, rfl⟩
  refine except_bind_eq_ok.mpr ⟨_, hresolve, require_then_eq_ok.mpr ⟨?_, except_bind_eq_ok.mpr ⟨_, hwords, hcommit⟩⟩⟩
  exact h.references (List.getElem?_eq_some_iff.mp hjob).1

/-- Literal inputs have no source. -/
theorem PlanOk.source_literal (h : PlanOk session plan d) (hjob : session.jobs[i]? = some job) {b : ℕ} {values : List ℕ}
    (hx : job.inputs[b]? = some (.literal values)) : (d i).source b = UINT32_MAX := by
  by_contra hne
  obtain ⟨⟨name, offset, extent, heq⟩, -⟩ := (h.operand i job hjob b _ hx).link hne
  cases heq

theorem PlanOk.source_link (h : PlanOk session plan d) (hv1 : session.schema = SCHEMA_V1) (hjob : session.jobs[1]? = some job)
    {offset extent : Option ℤ} (hx : job.inputs[0]? = some (.link name offset extent)) :
    (d 1).source 0 = 0 ∧ (d 1).start 0 = 0 ∧ cfg (d 1).config 5 = (d 0).cells := by
  have hoperand := h.operand 1 job hjob 0 _ hx
  have hne : (d 1).source 0 ≠ UINT32_MAX := by
    intro hmax
    cases (hoperand.literal hmax).1
  obtain ⟨-, hlt, -, -, hwhole, -⟩ := hoperand.link hne
  have hsource : (d 1).source 0 = 0 := by omega
  have hv2 : decide (session.schema = SCHEMA_V2) = false := by
    rw [hv1]
    rfl
  obtain ⟨hstart, hcount⟩ := hwhole hv2
  rw [hsource] at hcount
  exact ⟨hsource, hstart, hcount⟩

theorem PlanOk.sources_getD (h : PlanOk session plan d) (hi : i < session.jobs.length) :
    plan.sources.getD i [] = [(d i).source 0, (d i).source 1] := by
  rw [h.sources, getD_map_range _ _ hi]
  rfl

/-- A job of literals is executed on them. -/
theorem executeJob_literals (h : PlanOk session plan d)
    (hjob : session.jobs[i]? = some ⟨name, region, [.literal A, .literal B]⟩)
    (hwords : Fold.reference region [A, B] = .ok out) (s : HostState) :
    ∃ s', executeJob session plan s i = .ok s' ∧ s'.available plan i = true ∧
      ∃ versions, s'.producers i = some (versions, out) := by
  have hsources : plan.sources.getD i [] = [UINT32_MAX, UINT32_MAX] := by
    rw [h.sources_getD (List.getElem?_eq_some_iff.mp hjob).1, h.source_literal hjob (b := 0) rfl,
      h.source_literal hjob (b := 1) rfl]
  refine executeJob_eq h hjob ?_ ?_ hwords
  · unfold HostState.badSource
    rw [hsources]
    rfl
  · rw [hsources]
    rfl

/-- A second job whose first input is the result of the first. -/
theorem executeJob_linked (h : PlanOk session plan d) (hv1 : session.schema = SCHEMA_V1) {offset extent : Option ℤ}
    (hjob : session.jobs[1]? = some ⟨name, region, [.link name' offset extent, .literal B]⟩)
    (havailable : s.available plan 0 = true) {versions : List ℕ} (hproducer : s.producers 0 = some (versions, A))
    (hcount : A.length = (d 0).cells) (hwords : Fold.reference region [A, B] = .ok out) :
    ∃ s', executeJob session plan s 1 = .ok s' ∧ s'.available plan 1 = true ∧
      ∃ versions, s'.producers 1 = some (versions, out) := by
  have hi := (List.getElem?_eq_some_iff.mp hjob).1
  obtain ⟨hsource, hstart, hcells⟩ := h.source_link hv1 hjob rfl
  have hsources : plan.sources.getD 1 [] = [0, UINT32_MAX] := by
    rw [h.sources_getD hi, hsource, h.source_literal hjob (b := 1) rfl]
  have hoffset : (plan.offsets.getD 1 []).getD 0 0 = 0 := by
    rw [h.offsets, getD_map_range _ _ hi]
    exact hstart
  have hlength : (plan.lengths.getD 1 []).getD 0 0 = A.length := by
    rw [h.lengths, getD_map_range _ _ hi, hcount]
    exact hcells
  refine executeJob_eq h hjob ?_ ?_ hwords
  · unfold HostState.badSource
    rw [hsources]
    simp [havailable]
  · rw [hsources]
    have hfirst : s.input plan 1 ((Operand.link name' offset extent, 0), 0) = .ok A := by
      unfold HostState.input
      dsimp only
      rw [if_pos (show (0 : ℕ) ≠ UINT32_MAX by unfold UINT32_MAX; decide), hproducer]
      dsimp only
      rw [hoffset, hlength, List.drop_zero, List.take_length]
    exact except_bind_eq_ok.mpr ⟨A, hfirst, rfl⟩

/-- A session of one job that names its own result. -/
theorem execute_single (hplan : compilePlan ⟨SCHEMA_V1, [⟨"result", region, [.literal A, .literal B]⟩], "result"⟩ = .ok plan)
    (hwords : Fold.reference region [A, B] = .ok out) :
    ∃ s, (List.range 1).foldlM (executeJob ⟨SCHEMA_V1, [⟨"result", region, [.literal A, .literal B]⟩], "result"⟩ plan) .init =
      .ok s ∧ s.available plan plan.output = true ∧ ∃ versions, s.producers plan.output = some (versions, out) := by
  obtain ⟨d, hok⟩ := compilePlan_eq_ok hplan
  have houtput : plan.output = 0 := Nat.lt_one_iff.mp hok.output
  obtain ⟨s, hs, hdone⟩ := executeJob_literals hok (i := 0) rfl hwords .init
  rw [houtput]
  exact ⟨s, except_bind_eq_ok.mpr ⟨s, hs, rfl⟩, hdone⟩

/-- A session of two jobs, the second on the result of the first. -/
theorem execute_pair {C : List ℕ} {session : Session} (hsession : session = ⟨SCHEMA_V1, [⟨"reduce", region, [.literal A, .literal B]⟩,
      ⟨"result", post, [.link "reduce" none none, .literal []]⟩], "result"⟩)
    (hplan : compilePlan session = .ok plan) {config : List ℕ} (hconfig : compileRegion region = .ok config)
    (hfirst : Fold.reference region [A, B] = .ok C) (hcount : C.length = cfg config 1 * cfg config 2)
    (hsecond : Fold.reference post [C, []] = .ok out) :
    ∃ s, (List.range 2).foldlM (executeJob session plan) .init = .ok s ∧ s.available plan plan.output = true ∧
      ∃ versions, s.producers plan.output = some (versions, out) := by
  subst hsession
  obtain ⟨d, hok⟩ := compilePlan_eq_ok hplan
  have houtput : plan.output = 1 := by
    obtain ⟨job, hjob, hname⟩ := output_named hplan
    have hlt : plan.output < 2 := hok.output
    by_contra hne
    obtain h0 : plan.output = 0 := by omega
    rw [h0] at hjob
    cases hjob
    exact absurd (show "reduce" = "result" from hname) (by decide)
  have hcells : C.length = (d 0).cells := by
    have hd := hok.compiled 0 _ rfl
    rw [hconfig] at hd
    cases hd
    exact hcount
  obtain ⟨s₁, hs₁, havailable, versions, hproducer⟩ := executeJob_literals hok (i := 0) rfl hfirst .init
  obtain ⟨s₂, hs₂, hdone⟩ := executeJob_linked hok rfl rfl havailable hproducer hcells hsecond
  rw [houtput]
  exact ⟨s₂, except_bind_eq_ok.mpr ⟨s₁, hs₁, except_bind_eq_ok.mpr ⟨s₂, hs₂, rfl⟩⟩, hdone⟩

end Session

end Raveil.Dag

namespace Raveil.Grid
open Lib Fold Dag

section Execution

/-- One tile in `execute_host`. -/
def executeItem (item : Item) : Except String TileOutput := do
  let plan ← compilePlan item.dag
  let state ← (List.range item.dag.jobs.length).foldlM (executeJob item.dag plan) .init
  require (state.available plan plan.output) "AssertionError"
  pure {
    name := item.name
    shape := (item.dag.jobs.getLast?.map fun job => job.region.shape).getD []
    words := ((state.producers plan.output).map Prod.snd).getD [] }

/-- The entry of a tile in `layout`. -/
def Item.layout (item : Item) : LayoutTile where
  name := item.name
  row := item.place.row
  column := item.place.column
  rows := item.place.height
  columns := item.place.width

/-- `execute_host`. -/
def executeHost (l : Lowered) : Except String (List ℕ) := do
  let outputs ← l.items.mapM executeItem
  assemble outputs (l.items.map Item.layout) l.rows l.columns

end Execution

section Places

variable {rows columns tr tc n r k : ℕ}

/-- The cells of the output that a place covers, in its order. -/
def Place.cells (at_ : Place) : List (ℕ × ℕ) :=
  (Tiling.cells at_.height at_.width).map fun cell => (at_.row + cell.1, at_.column + cell.2)

/-- The place with this origin. -/
def placeAt (rows columns tr tc : ℕ) (origin : ℕ × ℕ) : Place :=
  ⟨origin.1, origin.2, min tr (rows - origin.1), min tc (columns - origin.2)⟩

theorem places_eq (rows columns tr tc : ℕ) :
    places rows columns tr tc = (strided rows tr ×ˢ strided columns tc).map (placeAt rows columns tr tc) := by
  change _ = (List.flatMap _ _).map _
  rw [List.map_flatMap]
  simp only [List.map_map]
  rfl

theorem mem_strided (hn : 1 ≤ n) : r ∈ strided rows n ↔ n * (r / n) = r ∧ r < rows := by
  unfold strided tilesOf
  rw [List.mem_map]
  constructor
  · rintro ⟨i, hi, rfl⟩
    rw [List.mem_range, Nat.lt_iff_add_one_le, Nat.le_div_iff_mul_le hn, Nat.add_mul, Nat.one_mul, Nat.mul_comm] at hi
    rw [Nat.mul_div_cancel_left i hn]
    omega
  · rintro ⟨hmul, hlt⟩
    refine ⟨r / n, ?_, hmul⟩
    rw [List.mem_range, Nat.lt_iff_add_one_le, Nat.le_div_iff_mul_le hn, Nat.add_mul, Nat.one_mul, Nat.mul_comm, hmul]
    omega

theorem nodup_strided (hn : 1 ≤ n) : (strided rows n).Nodup :=
  List.nodup_range.map fun _ _ h => Nat.eq_of_mul_eq_mul_left hn h

theorem mem_placeCells {at_ : Place} : (r, k) ∈ at_.cells ↔
    (at_.row ≤ r ∧ r < at_.row + at_.height) ∧ at_.column ≤ k ∧ k < at_.column + at_.width := by
  unfold Place.cells
  rw [List.mem_map]
  constructor
  · rintro ⟨⟨i, j⟩, hmem, heq⟩
    rw [Tiling.mem_cells] at hmem
    cases heq
    omega
  · rintro ⟨⟨hr, hr'⟩, hk, hk'⟩
    refine ⟨(r - at_.row, k - at_.column), Tiling.mem_cells.mpr ⟨by omega, by omega⟩, ?_⟩
    exact Prod.ext (Nat.add_sub_cancel' hr) (Nat.add_sub_cancel' hk)

theorem nodup_placeCells (at_ : Place) : at_.cells.Nodup := by
  apply Tiling.nodup_cells.map
  intro x y (h : (at_.row + x.1, at_.column + x.2) = (at_.row + y.1, at_.column + y.2))
  rw [Prod.mk.injEq] at h
  exact Prod.ext (by omega) (by omega)

/-- The origin below a place is the last multiple of the size. -/
theorem origin_eq {origin : ℕ} (ho : n * (origin / n) = origin) (hle : origin ≤ r) (hlt : r < origin + n) :
    origin = n * (r / n) := by
  have hdiv : r / n = origin / n := by
    apply Nat.div_eq_of_lt_le
    · rw [Nat.mul_comm, ho]
      exact hle
    · rw [Nat.succ_mul, Nat.mul_comm, ho]
      exact hlt
  rw [hdiv, ho]

/-- A cell of a tile tells the origin of the tile. -/
theorem placeAt_unique {origin : ℕ × ℕ} (hr : 1 ≤ tr) (hc : 1 ≤ tc) (ho : origin ∈ strided rows tr ×ˢ strided columns tc)
    (h : (r, k) ∈ (placeAt rows columns tr tc origin).cells) : origin = (tr * (r / tr), tc * (k / tc)) := by
  obtain ⟨row, column⟩ := origin
  rw [List.mem_product, mem_strided hr, mem_strided hc] at ho
  obtain ⟨⟨hrow, hrow'⟩, hcolumn, hcolumn'⟩ := mem_placeCells.mp h
  dsimp only [placeAt] at hrow hrow' hcolumn hcolumn'
  exact Prod.ext (origin_eq ho.1.1 hrow (by omega)) (origin_eq ho.2.1 hcolumn (by omega))

/-- The places cover every cell of the output, and none twice. -/
theorem places_perm (hr : 1 ≤ tr) (hc : 1 ≤ tc) :
    ((places rows columns tr tc).flatMap Place.cells).Perm (Tiling.cells rows columns) := by
  rw [places_eq, List.flatMap_map]
  have hnodup : ((strided rows tr ×ˢ strided columns tc).flatMap
      fun origin => (placeAt rows columns tr tc origin).cells).Nodup := by
    rw [List.nodup_flatMap]
    refine ⟨fun _ _ => nodup_placeCells _, ((nodup_strided hr).product (nodup_strided hc)).pairwise_of_forall_ne ?_⟩
    intro a ha b hb hne
    rw [Function.onFun, List.disjoint_left]
    intro ⟨r, k⟩ hra hrb
    exact hne ((placeAt_unique hr hc ha hra).trans (placeAt_unique hr hc hb hrb).symm)
  rw [List.perm_ext_iff_of_nodup hnodup Tiling.nodup_cells]
  intro ⟨r, k⟩
  rw [List.mem_flatMap, Tiling.mem_cells]
  constructor
  · rintro ⟨⟨row, column⟩, ho, hmem⟩
    rw [List.mem_product, mem_strided hr, mem_strided hc] at ho
    obtain ⟨⟨-, hr'⟩, -, hk'⟩ := mem_placeCells.mp hmem
    dsimp only [placeAt] at hr' hk'
    omega
  · rintro ⟨hr', hk'⟩
    have hrow := Nat.mul_div_le r tr
    have hcolumn := Nat.mul_div_le k tc
    have hrow' := Nat.lt_mul_div_succ r hr
    have hcolumn' := Nat.lt_mul_div_succ k hc
    rw [Nat.mul_add, Nat.mul_one] at hrow' hcolumn'
    refine ⟨(tr * (r / tr), tc * (k / tc)), ?_, mem_placeCells.mpr ?_⟩
    · rw [List.mem_product, mem_strided hr, mem_strided hc, Nat.mul_div_cancel_left _ hr, Nat.mul_div_cancel_left _ hc]
      omega
    · dsimp only [placeAt]
      omega

end Places

section Tiles

variable {value : Source} {a : Admitted} {at_ : Place} {nodes : List Node} {result : String} {post : Option Post}
  {entry : Place × ℕ} {item : Item} {buffers : List (List ℕ)} {config A B : List ℕ} {l l' : Lowered} {p : Post}

theorem bufferOf_lt {index : ℕ} {b : List ℕ} (h : bufferOf a at_ index = .ok b) : ∀ w ∈ b, w < 2 ^ 32 := by
  unfold bufferOf at h
  split at h
  · cases h
    simp
  · cases h
  · obtain ⟨-, h⟩ := require_then_eq_ok.mp h
    rw [mapM_eq_map fun _ _ => Tiling.sample_eq] at h
    cases h
    intro w hw
    obtain ⟨cell, -, rfl⟩ := List.mem_map.mp hw
    exact Tiling.wordAt_lt

/-- What a tile folds, in the order of its cells. -/
def accWords (a : Admitted) (value : Source) (at_ : Place) : List ℕ :=
  (Tiling.cells at_.height at_.width).map fun cell => accWord a value (at_.row + cell.1, at_.column + cell.2)

/-- What a tile outputs, in the order of its cells. -/
def cellWords (a : Admitted) (value : Source) (at_ : Place) : List ℕ :=
  (Tiling.cells at_.height at_.width).map fun cell => cellWord a value (at_.row + cell.1, at_.column + cell.2)

/-- The first region of a tile folds the words of the tile's cells. -/
theorem Evaluates.reference_fold (h : Evaluates value a)
    (hnodes : mapNodes value.schema value.kernel.nodes value.kernel.result = .ok nodes)
    (hbuffers : (List.range 2).mapM (bufferOf a at_) = .ok [A, B])
    (hc : compileRegion (regionOf a nodes value.kernel.result at_ [(A.length : ℤ), (B.length : ℤ)]) = .ok config) :
    Fold.reference (regionOf a nodes value.kernel.result at_ [(A.length : ℤ), (B.length : ℤ)]) [A, B] =
      .ok (accWords a value at_) := by
  obtain ⟨t, register, hcompiled⟩ := compileRegion_eq_ok hc
  obtain ⟨A', B', heq, hA, hB⟩ := buffers_eq hbuffers
  cases heq
  refine reference_region (f := fun i j => accWord a value (at_.row + i, at_.column + j)) hc rfl (bufferOf_lt hA)
    (bufferOf_lt hB) rfl fun i hi j hj => ?_
  have hextent : (regionOf a nodes value.kernel.result at_ [(A.length : ℤ), (B.length : ℤ)]).extent.toNat = a.extent :=
    Int.toNat_natCast a.extent
  have hcell := @referenceCell_region (regionOf a nodes value.kernel.result at_ [(A.length : ℤ), (B.length : ℤ)])
    [A, B] i j (kernelWord a value (at_.row + i) (at_.column + j)) (by
      intro k hk
      rw [hextent] at hk
      have hload : ∀ n ∈ nodes, n.op = .load → loadWord (regionOf a nodes value.kernel.result at_
          [(A.length : ℤ), (B.length : ℤ)]) [A, B] i j k n = some (viewWord a (at_.row + i) (at_.column + j) k n) := by
        intro n hn hop
        have hview := view_mem hcompiled.nodes hn hop
        rw [regionOf, Dict.keys_mapValues] at hview
        exact h.source.loadWord_region hbuffers hview hi hj hk
      have hword := mapped_mapNodes hnodes (viewWord a (at_.row + i) (at_.column + j) k)
      rw [(h.kernel.mapped _).1] at hword
      exact (foldNodes_mapped hcompiled.nodes hload value.kernel.result).trans hword)
  rw [hextent] at hcell
  exact hcell

/-- The second region maps the folded words. -/
theorem Evaluates.reference_map (h : Evaluates value a) (hp : value.post = some p)
    (hnodes : mapNodes value.schema p.nodes p.result = .ok nodes)
    (hc : compileRegion (postRegion nodes p.result at_) = .ok config) :
    Fold.reference (postRegion nodes p.result at_) [accWords a value at_, []] = .ok (cellWords a value at_) := by
  obtain ⟨t, register, hcompiled⟩ := compileRegion_eq_ok hc
  have hlen : (accWords a value at_).length = at_.height * at_.width := by
    rw [accWords, List.length_map, Tiling.cells, flatMap_rowMajor, List.length_map, List.length_range]
  refine reference_region (f := fun i j => cellWord a value (at_.row + i, at_.column + j)) hc ?_ ?_ (by simp) rfl
    fun i hi j hj => ?_
  · rw [hlen]
    unfold postRegion
    push_cast
    rfl
  · intro w hw
    obtain ⟨cell, -, rfl⟩ := List.mem_map.mp hw
    exact h.accWord_lt _
  have hlt : i * at_.width + j < at_.height * at_.width := by
    calc i * at_.width + j < (i + 1) * at_.width := by rw [Nat.add_mul]; omega
      _ ≤ at_.height * at_.width := Nat.mul_le_mul_right _ hi
  have hfolded : (accWords a value at_)[i * at_.width + j]? = some (accWord a value (at_.row + i, at_.column + j)) := by
    unfold accWords Tiling.cells
    rw [flatMap_rowMajor, List.map_map, List.getElem?_map, List.getElem?_range hlt, Option.map_some, Function.comp_apply,
      div_row hj, mod_row hj]
  have hload : ∀ n ∈ nodes, n.op = .load → loadWord (postRegion nodes p.result at_) [accWords a value at_, []] i j 0 n =
      some (accWord a value (at_.row + i, at_.column + j)) := by
    intro n hn hop
    have hview : n.view.getD "" = "reduced" := by
      have hmem := view_mem hcompiled.nodes hn hop
      exact List.mem_singleton.mp hmem
    have hindex : (0 : ℤ) + (if 1 < at_.height then (at_.width : ℤ) else 0) * i + (if 1 < at_.width then 1 else 0) * j + 0 * 0 =
        ((i * at_.width + j : ℕ) : ℤ) := by
      rw [stride_mul hi, stride_mul hj]
      push_cast
      ring
    unfold loadWord
    rw [hview]
    change pyGet? (accWords a value at_) _ = _
    rw [← hfolded, ← pyGet?_natCast, ← hindex]
    rfl
  have hword := mapped_mapNodes hnodes fun _ => accWord a value (at_.row + i, at_.column + j)
  rw [((h.post p hp).mapped _).1] at hword
  have hcell := @referenceCell_region (postRegion nodes p.result at_) [accWords a value at_, []] i j
    (fun _ => cellWord a value (at_.row + i, at_.column + j)) (by
      intro k hk
      have hk0 : k = 0 := Nat.lt_one_iff.mp hk
      subst hk0
      refine (foldNodes_mapped hcompiled.nodes hload p.result).trans (hword.trans ?_)
      unfold cellWord
      rw [hp])
  rw [hcell]
  refine congrArg some ?_
  have hlast : cellWord a value (at_.row + i, at_.column + j) < 2 ^ 32 := by
    unfold cellWord
    rw [hp]
    exact ((h.post p hp).mapped _).2
  change (0 + _) % 2 ^ 32 = _
  rw [Nat.zero_add, Nat.mod_eq_of_lt hlast]

/-- The output of a tile. -/
def tileOutput (a : Admitted) (value : Source) (item : Item) : TileOutput :=
  ⟨item.name, [(item.place.height : ℤ), (item.place.width : ℤ)], cellWords a value item.place⟩

/-- The map after the fold, if the source has one, with the nodes that the compiler gets. -/
theorem post_eq_ok (h : value.post.mapM (fun p => do
      let nodes ← mapNodes value.schema p.nodes p.result
      pure (Post.mk nodes p.result)) = (.ok post : Except String (Option Post))) :
    (value.post = none ∧ post = none) ∨
      ∃ p nodes, value.post = some p ∧ mapNodes value.schema p.nodes p.result = .ok nodes ∧ post = some ⟨nodes, p.result⟩ := by
  cases hp : value.post with
  | none =>
    rw [hp] at h
    cases h
    exact Or.inl ⟨rfl, rfl⟩
  | some p =>
    rw [hp] at h
    obtain ⟨q, hq, rfl⟩ := except_map_eq_ok.mp h
    obtain ⟨nodes, hnodes, hq⟩ := except_bind_eq_ok.mp hq
    cases hq
    exact Or.inr ⟨p, nodes, rfl, hnodes, rfl⟩

/-- A lowered tile is executed to the words of its cells. -/
theorem Evaluates.executeItem (h : Evaluates value a)
    (hnodes : mapNodes value.schema value.kernel.nodes value.kernel.result = .ok nodes)
    (hpost : value.post.mapM (fun p => do
      let nodes ← mapNodes value.schema p.nodes p.result
      pure (Post.mk nodes p.result)) = (.ok post : Except String (Option Post)))
    (hitem : tileItem a nodes value.kernel.result post entry = .ok item) :
    executeItem item = .ok (tileOutput a value item) ∧ item.place = entry.1 := by
  obtain ⟨buffers, hbuffers, hitem⟩ := except_bind_eq_ok.mp hitem
  obtain ⟨config, hconfig, hitem⟩ := except_bind_eq_ok.mp hitem
  obtain ⟨configs, hconfigs, hitem⟩ := except_bind_eq_ok.mp hitem
  obtain ⟨plan, hplan, hitem⟩ := except_bind_eq_ok.mp hitem
  obtain ⟨A, B, rfl, -, -⟩ := buffers_eq hbuffers
  cases hitem
  refine ⟨?_, rfl⟩
  have hfold := h.reference_fold hnodes hbuffers hconfig
  rcases post_eq_ok hpost with ⟨hnone, rfl⟩ | ⟨p, pnodes, hp, hpnodes, rfl⟩
  · obtain ⟨s, hrun, havailable, versions, hproducer⟩ := execute_single hplan hfold
    refine except_bind_eq_ok.mpr ⟨plan, hplan, except_bind_eq_ok.mpr ⟨s, hrun, require_then_eq_ok.mpr ⟨havailable, ?_⟩⟩⟩
    have hwords : cellWords a value entry.1 = accWords a value entry.1 := by
      refine List.map_congr_left fun cell _ => ?_
      unfold cellWord
      rw [hnone]
    unfold tileOutput
    rw [hproducer, hwords]
    rfl
  · obtain ⟨pconfig, -, hpconfig⟩ := exists_of_mapM_eq_ok hconfigs (List.mem_singleton_self _)
    have hmap := h.reference_map hp hpnodes hpconfig
    obtain ⟨t, register, hcompiled⟩ := compileRegion_eq_ok hconfig
    have hcount : (accWords a value entry.1).length = cfg config 1 * cfg config 2 := by
      have hshape : [(entry.1.height : ℤ), (entry.1.width : ℤ)] = [(rows config : ℤ), (cols config : ℤ)] := hcompiled.shape
      rw [List.cons.injEq, List.cons.injEq, Nat.cast_inj, Nat.cast_inj] at hshape
      rw [accWords, List.length_map, Tiling.cells, flatMap_rowMajor, List.length_map, List.length_range, hshape.1, hshape.2.1]
      rfl
    obtain ⟨s, hrun, havailable, versions, hproducer⟩ := execute_pair rfl hplan hconfig hfold hcount hmap
    refine except_bind_eq_ok.mpr ⟨plan, hplan, except_bind_eq_ok.mpr ⟨s, hrun, require_then_eq_ok.mpr ⟨havailable, ?_⟩⟩⟩
    unfold tileOutput
    rw [hproducer]
    rfl

/-- The outputs of tiles that partition the output assemble to the words of its cells. -/
theorem assembles_tiles {items : List Item} (hdim : (1 ≤ a.rows ∧ a.rows ≤ 64) ∧ 1 ≤ a.columns ∧ a.columns ≤ 64) {tr tc : ℕ}
    (hr : 1 ≤ tr) (hc : 1 ≤ tc) (hplaces : items.map Item.place = places a.rows a.columns tr tc) :
    Assembles (items.map (tileOutput a value)) (items.map Item.layout) a.rows a.columns
      ((Tiling.cells a.rows a.columns).map (cellWord a value)) := by
  have hinside : ∀ item ∈ items, (1 ≤ item.place.height ∧ item.place.row + item.place.height ≤ a.rows) ∧
      1 ≤ item.place.width ∧ item.place.column + item.place.width ≤ a.columns := by
    intro item hitem
    have hmem : item.place ∈ places a.rows a.columns tr tc := hplaces ▸ List.mem_map_of_mem hitem
    rw [places_eq, List.mem_map] at hmem
    obtain ⟨⟨row, column⟩, ho, hplace⟩ := hmem
    rw [List.mem_product, mem_strided hr, mem_strided hc] at ho
    rw [← hplace]
    dsimp only [placeAt]
    omega
  have hlength (m n : ℕ) (f : ℕ × ℕ → ℕ) : ((Tiling.cells m n).map f).length = m * n := by
    rw [List.length_map, Tiling.cells, flatMap_rowMajor, List.length_map, List.length_range]
  have hword (m n : ℕ) (f : ℕ × ℕ → ℕ) {r c : ℕ} (hr : r < m) (hc : c < n) :
      ((Tiling.cells m n).map f)[r * n + c]? = some (f (r, c)) := by
    have hlt : r * n + c < m * n := by
      calc r * n + c < (r + 1) * n := by rw [Nat.add_mul]; omega
        _ ≤ m * n := Nat.mul_le_mul_right _ hr
    unfold Tiling.cells
    rw [flatMap_rowMajor, List.map_map, List.getElem?_map, List.getElem?_range hlt, Option.map_some, Function.comp_apply,
      div_row hc, mod_row hc]
  constructor
  case dimensions => omega
  case tiles =>
    rw [List.forall₂_map_left_iff, List.forall₂_map_right_iff]
    refine List.forall₂_same.mpr fun item hitem => ?_
    obtain ⟨⟨h₁, h₂⟩, h₃, h₄⟩ := hinside item hitem
    refine ⟨?_, ?_, ⟨rfl, rfl⟩, ?_⟩
    · dsimp only [Item.layout]
      omega
    · dsimp only [Item.layout]
      omega
    · dsimp only [Item.layout, tileOutput, cellWords]
      rw [hlength]
      push_cast
      rfl
  case partition =>
    have hcells : (items.map Item.layout).flatMap LayoutTile.cells = (items.map Item.place).flatMap Place.cells := by
      rw [List.flatMap_map, List.flatMap_map]
      rfl
    rw [hcells, hplaces, Int.toNat_natCast, Int.toNat_natCast]
    exact places_perm hr hc
  case length =>
    rw [hlength, ← Nat.cast_mul, Int.toNat_natCast]
  case placed =>
    have hzip : (items.map (tileOutput a value)).zip (items.map Item.layout) =
        items.map fun item => (tileOutput a value item, item.layout) := List.zip_map'
    rw [hzip]
    intro entry hentry r hr c hc
    obtain ⟨item, hitem, rfl⟩ := List.mem_map.mp hentry
    obtain ⟨⟨h₁, h₂⟩, h₃, h₄⟩ := hinside item hitem
    have hr' : r < item.place.height := hr
    have hc' : c < item.place.width := hc
    refine (hword a.rows a.columns (cellWord a value) (r := item.place.row + r) (c := item.place.column + c)
      (by omega) (by omega)).trans ?_
    exact (hword item.place.height item.place.width
      (fun cell => cellWord a value (item.place.row + cell.1, item.place.column + cell.2)) hr' hc').symm

theorem places_of_executed {places : List (Place × ℕ)} {items : List Item} (h : List.Forall₂
    (fun entry item => executeItem item = .ok (tileOutput a value item) ∧ item.place = entry.1) places items) :
    items.map Item.place = places.map Prod.fst := by
  induction h with
  | nil => rfl
  | cons hone _ ih => rw [List.map_cons, List.map_cons, ih, hone.2]

theorem executed_of_mem {places : List (Place × ℕ)} {items : List Item} (h : List.Forall₂
    (fun entry item => executeItem item = .ok (tileOutput a value item) ∧ item.place = entry.1) places items)
    (hitem : item ∈ items) : executeItem item = .ok (tileOutput a value item) := by
  induction h with
  | nil => cases hitem
  | cons hone _ ih =>
    rcases List.mem_cons.mp hitem with rfl | hitem
    · exact hone.1
    · exact ih hitem

/-- Every source that compiles is executed, tile by tile, to its reference. -/
theorem executeHost_eq (h : compile value = .ok l) : ∃ words, executeHost l = .ok words ∧ reference value = .ok words := by
  obtain ⟨a, ha, heval⟩ := evaluates_of_compile h
  obtain ⟨a', ha', hrest⟩ := except_bind_eq_ok.mp h
  rw [ha] at ha'
  cases ha'
  obtain ⟨nodes, hnodes, hrest⟩ := except_bind_eq_ok.mp hrest
  obtain ⟨post, hpost, hrest⟩ := except_bind_eq_ok.mp hrest
  obtain ⟨items, hitems, hrest⟩ := except_bind_eq_ok.mp hrest
  cases hrest
  obtain ⟨hok, htile⟩ := source_eq_ok.mp ha
  obtain ⟨htr, htc⟩ := checkTile_pos htile
  have hall := mapM_eq_ok_iff.mp hitems
  have hruns : List.Forall₂ (fun entry item => executeItem item = .ok (tileOutput a value item) ∧ item.place = entry.1)
      (places a.rows a.columns (value.tile.getD 0 0).toNat (value.tile.getD 1 0).toNat).zipIdx items :=
    hall.imp fun entry item hitem => heval.executeItem hnodes hpost hitem
  have hplaces : items.map Item.place =
      places a.rows a.columns (value.tile.getD 0 0).toNat (value.tile.getD 1 0).toNat := by
    have hfst := places_of_executed hruns
    rwa [List.zipIdx_map_fst] at hfst
  refine ⟨(Tiling.cells a.rows a.columns).map (cellWord a value), ?_, ?_⟩
  · have houtputs : items.mapM executeItem = .ok (items.map (tileOutput a value)) :=
      mapM_eq_map fun item hitem => executed_of_mem hruns hitem
    exact except_bind_eq_ok.mpr ⟨_, houtputs, (assembles_tiles hok.bounds htr htc hplaces).assembled⟩
  · exact except_bind_eq_ok.mpr ⟨_, h, except_bind_eq_ok.mpr ⟨a, ha, mapM_eq_map fun at_ _ => heval.referenceCell_eq at_⟩⟩

/-- Compiling and executing is the reference, failures included. -/
theorem compile_execute (value : Source) : (compile value >>= executeHost) = reference value := by
  cases h : compile value with
  | error e =>
    unfold reference
    rw [h]
    rfl
  | ok l =>
    obtain ⟨words, hexecuted, hreference⟩ := executeHost_eq h
    rw [hreference]
    exact hexecuted

/-- What is assembled comes from a layout that partitions the output. -/
theorem partition_of_executed {words : List ℕ} (h : executeHost l = .ok words) :
    ((l.items.map Item.layout).flatMap LayoutTile.cells).Perm (Tiling.cells l.rows l.columns) := by
  obtain ⟨outputs, -, h⟩ := except_bind_eq_ok.mp h
  obtain ⟨hdim, hlen, hok, hlength, hperm⟩ := assemble_writes.mp h
  have hassembles := Assembles.of_writes hdim hlen hok hlength hperm
  exact hassembles.partition

/-- The tiles of every source that compiles partition the output, every tile's DAG succeeds on the host, and the
assembled words are the untiled reference; the tile is of no matter. -/
theorem tiled_execution_reference (h : compile value = .ok l) :
    (∃ words, executeHost l = .ok words ∧ reference value = .ok words ∧ words.length = l.rows * l.columns) ∧
      ((l.items.map Item.layout).flatMap LayoutTile.cells).Perm (Tiling.cells l.rows l.columns) ∧
      ∀ tile l', compile (value.retile tile) = .ok l' → executeHost l' = executeHost l := by
  obtain ⟨words, hexecuted, hreference⟩ := executeHost_eq h
  obtain ⟨words', hreference', hlength, -⟩ := reference_total h
  rw [hreference] at hreference'
  cases hreference'
  refine ⟨⟨words, hexecuted, hreference, hlength⟩, partition_of_executed hexecuted, ?_⟩
  intro tile l' h'
  obtain ⟨words', hexecuted', hreference'⟩ := executeHost_eq h'
  obtain ⟨hsame, -, -⟩ := @reference_retile value l value.tile tile l' h h'
  have hkept : reference (value.retile value.tile) = .ok words := hreference
  rw [hreference', hkept] at hsame
  cases hsame
  rw [hexecuted', hexecuted]

/-- Two rows around each cell, added up with a signed map after the fold. -/
def clippedSource : Source where
  schema := SCHEMA_V5
  inputs := [⟨INPUT, 2, 2, [1, 2, 0xffffffff, 4]⟩]
  tile := [1, 2]
  boundary := "zero"
  kernel := {
    extent := 2
    fold := "sum"
    views := ⟨[("x", ⟨0, [-1, 0], [1, 0], some [1, 0], some [0, 1]⟩)], List.nodup_singleton _⟩
    nodes := [{ id := "x", op := .load, view := some "x" }]
    result := "x" }
  shape := some [2, 2]
  post := some ⟨[{ id := "s", op := .load, view := some "reduced" }, { id := "r", op := .reluI32, args := some ["s"] }], "r"⟩

theorem tiled_execution_reference_clipped : ∃ l l', compile clippedSource = .ok l ∧
    compile (clippedSource.retile [2, 1]) = .ok l' ∧ executeHost l' = executeHost l := by
  have hrows : ((compile clippedSource).toOption).isSome = true := by decide +kernel
  have hcolumns : ((compile (clippedSource.retile [2, 1])).toOption).isSome = true := by decide +kernel
  cases h : compile clippedSource with
  | error e =>
    rw [h] at hrows
    cases hrows
  | ok l =>
    cases h' : compile (clippedSource.retile [2, 1]) with
    | error e =>
      rw [h'] at hcolumns
      cases hcolumns
    | ok l' => exact ⟨l, l', rfl, rfl, (tiled_execution_reference h).2.2 [2, 1] l' h'⟩

end Tiles

end Raveil.Grid
