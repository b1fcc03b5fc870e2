import Raveil.Fold.Controller

/-! The controller's header and validate states accept exactly the admissible configurations. -/
namespace Raveil.Fold.Controller
open Raveil.Lib

theorem cfg_lt {c : List ℕ} (hu : ∀ w ∈ c, w < 2 ^ 32) (n : ℕ) : cfg c n < 2 ^ 32 := by
  unfold cfg
  rw [List.getD_eq_getElem?_getD]
  cases h : (c)[n]? with
  | none => norm_num
  | some w => exact hu w (List.mem_of_getElem? h)

theorem slice_op {w : ℕ} (h : w < 2 ^ 32) : slice w 31 28 = opcode w := by
  simp only [slice, opcode, Nat.shiftRight_eq_div_pow]
  omega

theorem slice_dst (w : ℕ) : slice w 27 25 = dst w := (and_seven _).symm

theorem slice_a (w : ℕ) : slice w 24 22 = srcA w := (and_seven _).symm

theorem slice_b (w : ℕ) : slice w 21 19 = srcB w := (and_seven _).symm

theorem slice_immediate (w : ℕ) : slice w 21 0 = imm22 w :=
  (Nat.and_two_pow_sub_one_eq_mod w 22).symm

theorem slice_low (w : ℕ) : slice w 18 0 = w &&& 0x7ffff :=
  (Nat.and_two_pow_sub_one_eq_mod w 19).symm

theorem pred32_eq {x : ℕ} (h1 : 1 ≤ x) (h : x < 2 ^ 32) : pred32 x = x - 1 := by
  unfold pred32
  omega

theorem instAt_eq {s : Regs} (h : s.pc < 16) : instAt s = inst s.cfg s.pc := by
  unfold instAt inst
  rw [Nat.mod_eq_of_lt (by omega)]

theorem bufferLength_eq {c : List ℕ} {b : ℕ} (h : b ≤ 1) : bufferLength c b = cfg c (5 + b) := by
  obtain rfl | rfl : b = 0 ∨ b = 1 := by omega
  · rfl
  · rfl

theorem op_eq {s : Regs} (hu : ∀ w ∈ s.cfg, w < 2 ^ 32) (h : s.pc < 16) :
    slice (instAt s) 31 28 = opcode (inst s.cfg s.pc) := by
  rw [instAt_eq h]
  exact slice_op (cfg_lt hu _)

/-- With the header bounds in force the wide sum is the address of the last point. -/
theorem viewValid_eq_true {c : List ℕ} (hu : ∀ w ∈ c, w < 2 ^ 32) (h : HeaderOk c) {v : ℕ} :
    viewValid c v = true ↔ ViewOk c v := by
  have hr := pred32_eq h.rows.1 (cfg_lt hu 1)
  have hc := pred32_eq h.cols.1 (cfg_lt hu 2)
  have he := pred32_eq h.extent.1 (cfg_lt hu 3)
  unfold viewValid ViewOk
  by_cases hv : nviews c ≤ v
  · rw [if_neg (by omega), if_pos hv]
    simp [view]
  rw [if_pos (by omega), if_neg hv, hr, hc, he, decide_eq_true_iff]
  change (view c v 0 ≤ 1 ∧ view c v 1 ≤ 323 ∧ view c v 2 ≤ 323 ∧ view c v 3 ≤ 323 ∧
    view c v 4 ≤ 323 ∧ address c v (rows c - 1) (cols c - 1) (extent c - 1) % 2 ^ 96 <
    bufferLength c (view c v 0)) ↔ _
  have hlast : view c v 1 ≤ 323 → view c v 2 ≤ 323 → view c v 3 ≤ 323 → view c v 4 ≤ 323 →
      address c v (rows c - 1) (cols c - 1) (extent c - 1) % 2 ^ 96 =
        address c v (rows c - 1) (cols c - 1) (extent c - 1) := by
    intro h1 h2 h3 h4
    have := h.rows
    have := h.cols
    have := h.extent
    have h2' := Nat.mul_le_mul h2 (show rows c - 1 ≤ 15 by omega)
    have h3' := Nat.mul_le_mul h3 (show cols c - 1 ≤ 15 by omega)
    have h4' := Nat.mul_le_mul h4 (show extent c - 1 ≤ 63 by omega)
    apply Nat.mod_eq_of_lt
    unfold address
    omega
  constructor
  · rintro ⟨h0, h1, h2, h3, h4, hl⟩
    rw [hlast h1 h2 h3 h4, bufferLength_eq h0] at hl
    refine ⟨h0, fun n hn h1 => ?_, hl⟩
    interval_cases n <;> assumption
  · rintro ⟨h0, hn, hl⟩
    have h1 := hn 1 (by norm_num) (by norm_num)
    have h2 := hn 2 (by norm_num) (by norm_num)
    have h3 := hn 3 (by norm_num) (by norm_num)
    have h4 := hn 4 (by norm_num) (by norm_num)
    exact ⟨h0, h1, h2, h3, h4, by rwa [hlast h1 h2 h3 h4, bufferLength_eq h0]⟩

theorem headerValid_eq_true {c : List ℕ} (hu : ∀ w ∈ c, w < 2 ^ 32) :
    headerValid c = true ↔
      HeaderOk c ∧ (∀ v, v < 8 → ViewOk c v) ∧ ∀ p, p < 16 → ninst c ≤ p → inst c p = 0 := by
  unfold headerValid
  simp only [Bool.and_eq_true, decide_eq_true_iff, List.all_eq_true, List.mem_range]
  have hunused : (∀ p, p < 16 → p < ninst c ∨ cfg c (49 + p) = 0) ↔
      ∀ p, p < 16 → ninst c ≤ p → inst c p = 0 := by
    refine forall_congr' fun p => imp_congr_right fun _ => ?_
    rw [or_iff_not_imp_left, not_lt]
    rfl
  rw [hunused]
  constructor
  · rintro ⟨⟨⟨hm, hr, hr', hc, hc', he, he', hf, ha, hb, hv, hv', hn, hn'⟩, hviews⟩, hi⟩
    have hh : HeaderOk c := ⟨hm, ⟨hr, hr'⟩, ⟨hc, hc'⟩, ⟨he, he'⟩, hf, ha, hb, ⟨hv, hv'⟩, ⟨hn, hn'⟩⟩
    exact ⟨hh, fun v hv => (viewValid_eq_true hu hh).mp (hviews v hv), hi⟩
  · rintro ⟨hh, hviews, hi⟩
    refine ⟨⟨⟨hh.magic, hh.rows.1, hh.rows.2, hh.cols.1, hh.cols.2, hh.extent.1, hh.extent.2,
      hh.fold, hh.lengthA, hh.lengthB, hh.nviews.1, hh.nviews.2, hh.ninst.1, hh.ninst.2⟩,
      fun v hv => (viewValid_eq_true hu hh).mpr (hviews v hv)⟩, hi⟩

theorem isFinal_eq {s : Regs} (hu : ∀ w ∈ s.cfg, w < 2 ^ 32) (hn : 1 ≤ ninst s.cfg) :
    isFinal s = true ↔ s.pc = ninst s.cfg - 1 := by
  unfold isFinal
  rw [pred32_eq hn (cfg_lt hu 8), decide_eq_true_iff]

theorem instructionValid_eq_true {s : Regs} (hu : ∀ w ∈ s.cfg, w < 2 ^ 32) (hh : HeaderOk s.cfg)
    (hpc : s.pc < ninst s.cfg) (hd : s.defined = definedMask s.cfg s.pc) :
    instructionValid s = true ↔ InstOk s.cfg s.pc := by
  have hn := hh.ninst
  have hdef : ∀ r, s.defined.testBit r = true ↔ r ∈ definedAt s.cfg s.pc := by
    intro r
    rw [hd, testBit_definedMask, definedBefore_of_lt hpc]
  have hop : slice (inst s.cfg s.pc) 31 28 = opcode (inst s.cfg s.pc) := slice_op (cfg_lt hu _)
  unfold instructionValid InstOk
  rw [if_neg (show ¬ ninst s.cfg ≤ s.pc by omega)]
  simp only [hop, instAt_eq (show s.pc < 16 by omega), slice_dst, slice_a, slice_b,
    slice_immediate, slice_low, hdef]
  by_cases hf : s.pc = ninst s.cfg - 1
  · rw [if_pos ((isFinal_eq hu (by omega)).mpr hf), if_pos hf, decide_eq_true_iff]
  · rw [if_neg (fun h => hf ((isFinal_eq hu (by omega)).mp h)), if_neg hf, decide_eq_true_iff]

/-- The part of admissibility that the header state has established. -/
structure Checked (c : List ℕ) : Prop where
  header : HeaderOk c
  views : ∀ v, v < 8 → ViewOk c v
  unused : ∀ p, p < 16 → ninst c ≤ p → inst c p = 0

theorem Checked.admissible {c : List ℕ} (h : Checked c)
    (hi : ∀ q, q < ninst c → InstOk c q) : Admissible c := by
  refine ⟨h.header, h.views, fun pc hpc => ?_⟩
  by_cases hn : pc < ninst c
  · exact hi pc hn
  · unfold InstOk
    rw [if_pos (by omega)]
    exact h.unused pc hpc (by omega)

/-- What the registers say about a memory request while it is offered or outstanding. -/
def Requested (s : Regs) : Prop :=
  (s.reqWrite = false ∧ s.pc < ninst s.cfg - 1 ∧ opcode (inst s.cfg s.pc) = 1 ∧
    s.reqAddress = 324 * view s.cfg (srcA (inst s.cfg s.pc)) 0 +
      address s.cfg (srcA (inst s.cfg s.pc)) s.i s.j s.k ∧
    s.loadDestination = dst (inst s.cfg s.pc)) ∨
  (s.reqWrite = true ∧ s.pc = ninst s.cfg - 1 ∧ s.k + 1 = extent s.cfg ∧
    s.reqAddress = 648 + s.i * cols s.cfg + s.j)

/-- The control invariant: counters stay inside the iteration space of an admissible
configuration from the first executed instruction on. -/
def Control (s : Regs) : Prop :=
  (s.state ≠ .idle → ∀ w ∈ s.cfg, w < 2 ^ 32) ∧
  match s.state with
  | .idle => True
  | .header => s.pc = 0 ∧ s.defined = 0 ∧ s.i = 0 ∧ s.j = 0 ∧ s.k = 0
  | .validate => Checked s.cfg ∧ s.pc < ninst s.cfg ∧ (∀ q, q < s.pc → InstOk s.cfg q) ∧
      s.defined = definedMask s.cfg s.pc ∧ s.i = 0 ∧ s.j = 0 ∧ s.k = 0
  | .execute => Admissible s.cfg ∧ s.pc < ninst s.cfg ∧
      s.i < rows s.cfg ∧ s.j < cols s.cfg ∧ s.k < extent s.cfg
  | .request | .response => Admissible s.cfg ∧
      s.i < rows s.cfg ∧ s.j < cols s.cfg ∧ s.k < extent s.cfg ∧ Requested s

theorem loadBuffer_eq {s : Regs} (h : Admissible s.cfg) (hpc : s.pc < ninst s.cfg) :
    loadBuffer s = view s.cfg (srcA (inst s.cfg s.pc)) 0 := by
  have hn := h.header.ninst
  have ha := srcA_lt (inst s.cfg s.pc)
  unfold loadBuffer view
  rw [instAt_eq (by omega), slice_a, Nat.mod_eq_of_lt (by omega)]
  congr 1
  omega

theorem loadAddress_eq {s : Regs} (h : Admissible s.cfg) (hpc : s.pc < ninst s.cfg)
    (ha : address s.cfg (srcA (inst s.cfg s.pc)) s.i s.j s.k < 2 ^ 71) :
    loadAddress s = address s.cfg (srcA (inst s.cfg s.pc)) s.i s.j s.k := by
  have hn := h.header.ninst
  have ha8 := srcA_lt (inst s.cfg s.pc)
  have hview : ∀ n, n < 5 → cfg s.cfg (((9 + srcA (inst s.cfg s.pc) * 5) % 2 ^ 7 + n) % 2 ^ 7) =
      view s.cfg (srcA (inst s.cfg s.pc)) n := by
    intro n hn
    unfold view
    congr 1
    omega
  unfold loadAddress
  simp only [instAt_eq (show s.pc < 16 by omega), slice_a]
  rw [hview 1 (by norm_num), hview 2 (by norm_num), hview 3 (by norm_num), hview 4 (by norm_num)]
  exact Nat.mod_eq_of_lt ha

/-- An executing load always names a used view: only the last instruction yields. -/
theorem load_view {c : List ℕ} (h : Admissible c) {pc : ℕ} (hpc : pc < ninst c)
    (ho : opcode (inst c pc) = 1) : pc < ninst c - 1 ∧ srcA (inst c pc) < nviews c := by
  have hlast : pc ≠ ninst c - 1 := by
    rintro rfl
    have := (inst_yields h).1
    omega
  refine ⟨by omega, ?_⟩
  obtain ⟨-, hv, -⟩ | ⟨h2, -⟩ | ⟨h6, -⟩ := inst_computes h (show pc < ninst c - 1 by omega)
  · exact hv
  · omega
  · omega

/-- The controller's own load-address fault branch is never taken. -/
theorem loadFaults_eq_false {s : Regs} (h : Control s) (hs : s.state = .execute)
    (ho : slice (instAt s) 31 28 = 1) : loadFaults s = false := by
  obtain ⟨hu, hc⟩ := h
  replace hu := hu (by simp [hs])
  simp only [hs] at hc
  obtain ⟨hadm, hpc, hi, hj, hk⟩ := hc
  have hn := hadm.header.ninst
  rw [op_eq hu (by omega)] at ho
  have hv := (load_view hadm hpc ho).2
  have ha := address_lt hadm hv hi hj hk
  have ha' := address_lt_324 hadm hv hi hj hk
  unfold loadFaults
  rw [loadAddress_eq hadm hpc (by omega), loadBuffer_eq hadm hpc,
    bufferLength_eq (view_le hadm hv).1]
  simpa using ha

theorem nextAcc_eq {s : Regs} (h : s.pc < 16) :
    nextAcc s = combine s.cfg s.acc (s.values (srcA (inst s.cfg s.pc))) := by
  simp only [nextAcc, combine, instAt_eq h, slice_a]
  split
  · rfl
  · split <;> omega

/-- A computing instruction other than a load does what `execute` does, whatever the memory. -/
theorem mapResult_eq {s : Regs} (hu : ∀ w ∈ s.cfg, w < 2 ^ 32) (h : Admissible s.cfg)
    (hpc : s.pc < ninst s.cfg - 1) (ho : opcode (inst s.cfg s.pc) ≠ 1) (inputs : List ℕ) :
    Function.update s.values (dst (inst s.cfg s.pc)) (mapResult s) =
      execute s.cfg inputs s.i s.j s.k s.values s.pc := by
  have hn := h.header.ninst
  unfold mapResult execute executeWord
  simp only [op_eq hu (show s.pc < 16 by omega)]
  simp only [instAt_eq (show s.pc < 16 by omega), slice_a, slice_b, slice_immediate]
  obtain ⟨h1, -⟩ | ⟨h2 | h2 | h2, -⟩ | ⟨h6 | h6, -⟩ := inst_computes h hpc
  · exact absurd h1 ho
  · simp only [h2]
  · simp only [h2]
    congr 1
    split <;> omega
  · simp only [h2]
  · simp only [h6]
  · simp only [h6, ge_iff_le]

/-- Everything one executed instruction can do. -/
theorem stepExecute_cases {s : Regs} (h : Control s) (hs : s.state = .execute) (inputs : List ℕ) :
    (s.pc < ninst s.cfg - 1 ∧ opcode (inst s.cfg s.pc) = 1 ∧ stepExecute s = { s with
      reqAddress := 324 * view s.cfg (srcA (inst s.cfg s.pc)) 0 +
        address s.cfg (srcA (inst s.cfg s.pc)) s.i s.j s.k
      reqData := 0
      reqWrite := false
      loadDestination := dst (inst s.cfg s.pc)
      state := .request }) ∨
    (s.pc = ninst s.cfg - 1 ∧ s.k + 1 = extent s.cfg ∧ stepExecute s = { s with
      reqAddress := 648 + s.i * cols s.cfg + s.j
      reqData := combine s.cfg s.acc (s.values (srcA (inst s.cfg s.pc)))
      reqWrite := true
      state := .request }) ∨
    (s.pc = ninst s.cfg - 1 ∧ s.k + 1 < extent s.cfg ∧ stepExecute s = { s with
      acc := combine s.cfg s.acc (s.values (srcA (inst s.cfg s.pc)))
      k := s.k + 1
      pc := 0
      values := fun _ => 0 }) ∨
    (s.pc < ninst s.cfg - 1 ∧ stepExecute s = { s with
      values := execute s.cfg inputs s.i s.j s.k s.values s.pc
      pc := s.pc + 1 }) := by
  have hfault := loadFaults_eq_false h hs
  obtain ⟨hu, hc⟩ := h
  replace hu := hu (by simp [hs])
  simp only [hs] at hc
  obtain ⟨hadm, hpc, hi, hj, hk⟩ := hc
  have hn := hadm.header.ninst
  have he := hadm.header.extent
  have hop := op_eq hu (show s.pc < 16 by omega)
  have hinst := instAt_eq (show s.pc < 16 by omega)
  unfold stepExecute
  by_cases h1 : opcode (inst s.cfg s.pc) = 1
  · left
    obtain ⟨hlast, hv⟩ := load_view hadm hpc h1
    have ha := address_lt_324 hadm hv hi hj hk
    have hb := (view_le hadm hv).1
    refine ⟨hlast, h1, ?_⟩
    rw [if_pos (hop.trans h1), if_neg (by simp [hfault (hop.trans h1)]), loadAddress_eq hadm hpc
      (by omega), loadBuffer_eq hadm hpc, hinst, slice_dst]
    congr 1
    split <;> omega
  right
  rw [if_neg (fun h => h1 (hop.symm.trans h))]
  by_cases hlast : s.pc = ninst s.cfg - 1
  · have h3 : opcode (inst s.cfg s.pc) = 3 := by
      rw [hlast]
      exact (inst_yields hadm).1
    rw [if_pos (hop.trans h3), nextAcc_eq (by omega)]
    by_cases hke : s.k + 1 = extent s.cfg
    · left
      refine ⟨hlast, hke, ?_⟩
      have hcells : s.i * cols s.cfg + s.j < 256 := by
        have hr := hadm.header.rows
        have hc := hadm.header.cols
        have := Nat.mul_le_mul (show s.i ≤ 15 by omega) hc.2
        omega
      rw [if_pos (by omega), Nat.mod_eq_of_lt (by omega)]
    · right
      left
      refine ⟨hlast, by omega, ?_⟩
      rw [if_neg (by omega), Nat.mod_eq_of_lt (by omega)]
  · right
    right
    have h3 : opcode (inst s.cfg s.pc) ≠ 3 := by
      obtain ⟨h', -⟩ | ⟨h2, -⟩ | ⟨h6, -⟩ := inst_computes hadm (show s.pc < ninst s.cfg - 1 by omega)
      all_goals omega
    refine ⟨by omega, ?_⟩
    rw [if_neg (fun h => h3 (hop.symm.trans h)), hinst, slice_dst,
      mapResult_eq hu hadm (by omega) h1 inputs, Nat.mod_eq_of_lt (by omega)]

/-- Everything an accepted response can do. -/
theorem stepResponse_cases {s : Regs} (hadm : Admissible s.cfg) (hi : s.i < rows s.cfg)
    (hj : s.j < cols s.cfg) (hr : Requested s) (data : ℕ) :
    (s.reqWrite = false ∧ s.pc < ninst s.cfg - 1 ∧ stepResponse s data = { s with
      values := Function.update s.values (dst (inst s.cfg s.pc)) data
      pc := s.pc + 1
      state := .execute }) ∨
    (s.reqWrite = true ∧ s.i + 1 = rows s.cfg ∧ s.j + 1 = cols s.cfg ∧
      stepResponse s data = finish s true false false) ∨
    (s.reqWrite = true ∧ ∃ i j, i < rows s.cfg ∧ j < cols s.cfg ∧
      i * cols s.cfg + j = s.i * cols s.cfg + s.j + 1 ∧ stepResponse s data = { s with
        i := i
        j := j
        k := 0
        pc := 0
        acc := 0
        values := fun _ => 0
        state := .execute }) := by
  have hrows := hadm.header.rows
  have hcols := hadm.header.cols
  have hn := hadm.header.ninst
  unfold stepResponse
  obtain ⟨hw, hpc, -, -, hd⟩ | ⟨hw, -⟩ := hr
  · left
    refine ⟨hw, hpc, ?_⟩
    rw [if_pos (by simp [hw]), hd, Nat.mod_eq_of_lt (by omega)]
  right
  rw [if_neg (by simp [hw])]
  rw [Nat.mod_eq_of_lt (show s.i + 1 < 2 ^ 5 by omega), Nat.mod_eq_of_lt (show s.j + 1 < 2 ^ 5 by omega)]
  by_cases hlast : s.i + 1 = rows s.cfg ∧ s.j + 1 = cols s.cfg
  · left
    exact ⟨hw, hlast.1, hlast.2, by rw [if_pos hlast]⟩
  · right
    rw [if_neg hlast]
    by_cases hrow : s.j + 1 = cols s.cfg
    · refine ⟨hw, s.i + 1, 0, by omega, by omega, ?_, by rw [if_pos hrow, if_pos hrow]⟩
      rw [← hrow, Nat.succ_mul]
      omega
    · exact ⟨hw, s.i, s.j + 1, hi, by omega, by omega, by rw [if_neg hrow, if_neg hrow]⟩

/-- Validating an instruction before the last one extends the mask of written registers. -/
theorem defined_succ {s : Regs} (hu : ∀ w ∈ s.cfg, w < 2 ^ 32) (hh : HeaderOk s.cfg)
    (hpc : s.pc < ninst s.cfg) (hf : ¬ isFinal s = true)
    (hd : s.defined = definedMask s.cfg s.pc) :
    s.pc + 1 < ninst s.cfg ∧
      (s.defined ||| (1 <<< slice (instAt s) 27 25)) % 2 ^ 8 = definedMask s.cfg (s.pc + 1) := by
  have hn := hh.ninst
  rw [isFinal_eq hu (by omega)] at hf
  refine ⟨by omega, ?_⟩
  rw [instAt_eq (by omega), slice_dst, hd, ← definedMask_succ (by omega)]
  exact Nat.mod_eq_of_lt (definedMask_lt _ _)

theorem latch_eq {s : Regs} {x : Inputs} (ha : abort s x = false) : latch s x = s := by
  obtain ⟨hp, hx⟩ := Bool.or_eq_false_iff.mp ha
  simp [latch, hx]

/-- A latched cancel only shows in `pendingCancel`. -/
theorem latch_busy {s : Regs} {x : Inputs} (hs : s.state ≠ .idle) :
    latch s x = { s with pendingCancel := abort s x } := by
  unfold latch abort
  cases hx : x.cancel <;> simp [hs]

/-- Outside the memory handshake a pending cancel ends the run at once. -/
theorem step_abort {s : Regs} {x : Inputs}
    (hs : s.state = .header ∨ s.state = .validate ∨ s.state = .execute) (ha : abort s x = true) :
    step s x = finish (latch s x) false false true := by
  unfold step
  rcases hs with h | h | h <;> simp [h, ha]

theorem step_header {s : Regs} {x : Inputs} (hs : s.state = .header) (ha : abort s x = false) :
    step s x = if headerValid s.cfg then { s with state := .validate }
      else finish s false true false := by
  simp only [step, hs, ha, latch_eq ha]
  cases headerValid s.cfg <;> simp

theorem step_validate {s : Regs} {x : Inputs} (hs : s.state = .validate) (ha : abort s x = false) :
    step s x = if !instructionValid s then finish s false true false
      else if isFinal s then { s with pc := 0, state := .execute }
      else { s with
        defined := (s.defined ||| (1 <<< slice (instAt s) 27 25)) % 2 ^ 8
        pc := (s.pc + 1) % 2 ^ 5 } := by
  simp [step, hs, ha, latch_eq ha]

theorem step_execute {s : Regs} {x : Inputs} (hs : s.state = .execute) (ha : abort s x = false) :
    step s x = stepExecute s := by
  simp [step, hs, ha, latch_eq ha]

theorem step_request {s : Regs} {x : Inputs} (hs : s.state = .request) :
    step s x = if x.reqReady then { latch s x with state := .response } else latch s x := by
  simp only [step, hs]

theorem step_response {s : Regs} {x : Inputs} (hs : s.state = .response) :
    step s x = if x.respValid then
      if abort s x ∨ x.respError then finish (latch s x) false x.respError (abort s x)
      else stepResponse (latch s x) x.respData
    else latch s x := by
  simp only [step, hs]

theorem control_idle {s : Regs} (hs : s.state = .idle) : Control s := by
  simp [Control, hs]

theorem control_latch {s : Regs} {x : Inputs} (h : Control s) : Control (latch s x) := by
  unfold latch
  split
  · exact h
  · exact h

theorem control_header {s : Regs} {x : Inputs} (h : Control s) (hs : s.state = .header)
    (ha : abort s x = false) : Control (step s x) := by
  obtain ⟨hu, hc⟩ := h
  replace hu := hu (by simp [hs])
  simp only [hs] at hc
  obtain ⟨hpc, hd, hi, hj, hk⟩ := hc
  rw [step_header hs ha]
  split
  · rename_i hv
    obtain ⟨hh, hviews, hunused⟩ := (headerValid_eq_true hu).mp hv
    have hn := hh.ninst
    refine ⟨fun _ => hu, ⟨hh, hviews, hunused⟩, by simp only [hpc]; omega, ?_, ?_, hi, hj, hk⟩
    · intro q hq
      simp only [hpc] at hq
      omega
    · simp [hpc, hd, definedMask]
  · exact control_idle rfl

theorem control_validate {s : Regs} {x : Inputs} (h : Control s) (hs : s.state = .validate)
    (ha : abort s x = false) : Control (step s x) := by
  obtain ⟨hu, hc⟩ := h
  replace hu := hu (by simp [hs])
  simp only [hs] at hc
  obtain ⟨hch, hpc, hok, hd, hi, hj, hk⟩ := hc
  have hh := hch.header
  have hn := hh.ninst
  rw [step_validate hs ha]
  cases hv : instructionValid s with
  | false => exact control_idle rfl
  | true =>
    rw [instructionValid_eq_true hu hh hpc hd] at hv
    have hok' : ∀ q, q < s.pc + 1 → InstOk s.cfg q := by
      intro q hq
      obtain hq | rfl : q < s.pc ∨ q = s.pc := by omega
      · exact hok q hq
      · exact hv
    by_cases hf : isFinal s = true
    · simp only [hf, Bool.not_true, Bool.false_eq_true, ↓reduceIte]
      rw [isFinal_eq hu (by omega)] at hf
      refine ⟨fun _ => hu, hch.admissible fun q hq => hok' q (by omega), ?_, ?_, ?_, ?_⟩
      · simp only
        omega
      · simp only [hi]
        exact hh.rows.1
      · simp only [hj]
        exact hh.cols.1
      · simp only [hk]
        exact hh.extent.1
    · obtain ⟨hlt, hmask⟩ := defined_succ hu hh hpc hf hd
      simp only [hf, Bool.not_true, Bool.false_eq_true, ↓reduceIte]
      rw [hmask, Nat.mod_eq_of_lt (by omega)]
      refine ⟨fun _ => hu, ?_⟩
      simp only [hs]
      exact ⟨hch, hlt, hok', trivial, hi, hj, hk⟩

theorem control_execute {s : Regs} {x : Inputs} (h : Control s) (hs : s.state = .execute)
    (ha : abort s x = false) : Control (step s x) := by
  have hcases := stepExecute_cases h hs []
  obtain ⟨hu, hc⟩ := h
  replace hu := hu (by simp [hs])
  simp only [hs] at hc
  obtain ⟨hadm, hpc, hi, hj, hk⟩ := hc
  have hn := hadm.header.ninst
  rw [step_execute hs ha]
  obtain ⟨hlast, h1, he⟩ | ⟨hlast, hke, he⟩ | ⟨hlast, hke, he⟩ | ⟨hlast, he⟩ := hcases
  · rw [he]
    exact ⟨fun _ => hu, hadm, hi, hj, hk, Or.inl ⟨rfl, hlast, h1, rfl, rfl⟩⟩
  · rw [he]
    exact ⟨fun _ => hu, hadm, hi, hj, hk, Or.inr ⟨rfl, hlast, hke, rfl⟩⟩
  · rw [he]
    refine ⟨fun _ => hu, ?_⟩
    simp only [hs]
    exact ⟨hadm, by omega, hi, hj, hke⟩
  · rw [he]
    refine ⟨fun _ => hu, ?_⟩
    simp only [hs]
    exact ⟨hadm, by omega, hi, hj, hk⟩

theorem control_response {s : Regs} (h : Control s) (hs : s.state = .response) (data : ℕ) :
    Control (stepResponse s data) := by
  obtain ⟨hu, hc⟩ := h
  replace hu := hu (by simp [hs])
  simp only [hs] at hc
  obtain ⟨hadm, hi, hj, hk, hr⟩ := hc
  have hn := hadm.header.ninst
  obtain ⟨-, hpc, he⟩ | ⟨-, -, -, he⟩ | ⟨-, i, j, hi', hj', -, he⟩ :=
    stepResponse_cases hadm hi hj hr data
  · rw [he]
    exact ⟨fun _ => hu, hadm, by simp only; omega, hi, hj, hk⟩
  · rw [he]
    exact control_idle rfl
  · rw [he]
    exact ⟨fun _ => hu, hadm, by simp only; omega, hi', hj', hadm.header.extent.1⟩

theorem control_step {s : Regs} (x : Inputs) (h : Control s) : Control (step s x) := by
  have hl : Control (latch s x) := control_latch h
  cases hs : s.state with
  | idle =>
    unfold step
    simp only [hs]
    split
    · exact ⟨fun _ => x.cfg_word, rfl, rfl, rfl, rfl, rfl⟩
    · exact hl
  | header =>
    cases ha : abort s x with
    | true =>
      rw [step_abort (Or.inl hs) ha]
      exact control_idle rfl
    | false => exact control_header h hs ha
  | validate =>
    cases ha : abort s x with
    | true =>
      rw [step_abort (Or.inr (Or.inl hs)) ha]
      exact control_idle rfl
    | false => exact control_validate h hs ha
  | execute =>
    cases ha : abort s x with
    | true =>
      rw [step_abort (Or.inr (Or.inr hs)) ha]
      exact control_idle rfl
    | false => exact control_execute h hs ha
  | request =>
    rw [step_request hs]
    split
    · rw [latch_busy (by simp [hs])] at hl ⊢
      simp only [Control, hs] at hl
      exact ⟨fun _ => hl.1 (by simp), hl.2⟩
    · exact hl
  | response =>
    rw [step_response hs]
    split
    · split
      · exact control_idle rfl
      · refine control_response hl ?_ _
        rw [latch_busy (by simp [hs])]
        exact hs
    · exact hl

theorem control_run {s : Regs} (h : Control s) (x : ℕ → Inputs) (n : ℕ) : Control (run s x n) := by
  induction n with
  | zero => exact h
  | succ n ih => exact control_step (x n) ih

end Raveil.Fold.Controller
