import Mathlib.Tactic.IntervalCases
import Raveil.Fold.Config

/-! The Python and the C configuration validators accept exactly the admissible configurations. -/
namespace Raveil.Fold
open Raveil.Lib

/-- `_int`: a range check on a Python integer. -/
def int (x low high : ℤ) : Except String Unit :=
  require (low ≤ x ∧ x ≤ high) s!"expected integer in [{low}, {high}], got {x}"

theorem int_eq_ok {x low high : ℤ} {u : Unit} :
    int x low high = .ok u ↔ low ≤ x ∧ x ≤ high := require_eq_ok

/-- The body of `for v in range(8)` in `validate_config`. -/
def validateView (c : List ℕ) (v : ℕ) : Except String Unit :=
  if nviews c ≤ v then
    require (∀ n ∈ List.range 5, view c v n = 0) "nonzero unused view"
  else do
    int (view c v 0) 0 1
    [1, 2, 3, 4].forM fun n => int (view c v n) 0 323
    let last := view c v 1 + view c v 2 * (rows c - 1) + view c v 3 * (cols c - 1) +
      view c v 4 * (extent c - 1)
    require (last < cfg c (5 + view c v 0)) "affine view exceeds input extent"

/-- The body of `for pc, w in enumerate(c[49:])` in `validate_config`. -/
def validateInst (c : List ℕ) (defined : Finset ℕ) (pc : ℕ) : Except String (Finset ℕ) :=
  let w := inst c pc
  let op := w >>> 28
  let d := (w >>> 25) &&& 7
  let a := (w >>> 22) &&& 7
  let b := (w >>> 19) &&& 7
  if ninst c ≤ pc then do
    require (w = 0) "nonzero unused instruction"
    pure defined
  else if pc = ninst c - 1 then do
    require (op = 3 ∧ d = 0 ∧ w &&& ((1 <<< 22) - 1) = 0 ∧ a ∈ defined)
      "final instruction must yield a defined value"
    pure defined
  else if op = 1 then do
    require (a < nviews c ∧ w &&& ((1 <<< 22) - 1) = 0) "invalid load"
    pure (insert d defined)
  else if op = 2 ∨ op = 4 ∨ op = 5 then do
    require (a ∈ defined ∧ b ∈ defined ∧ w &&& ((1 <<< 19) - 1) = 0) "invalid binary operation"
    pure (insert d defined)
  else if op = 6 ∨ op = 7 then do
    require (a ∈ defined) "undefined operand"
    pure (insert d defined)
  else .error "unsupported instruction"

/-- `validate_config`. Once every word passed `_int` it is handled as a natural. -/
def validateConfig (words : List ℤ) : Except String (List ℕ) := do
  require (words.length = 65) "configuration must contain exactly 65 words"
  words.forM fun word => int word 0 MASK
  let c := words.map Int.toNat
  require (cfg c 0 = MAGIC) "unsupported affine-fold ABI"
  [rows c, cols c].forM fun n => int n 1 16
  int (extent c) 1 64
  int (cfg c 4) 0 1
  [cfg c 5, cfg c 6].forM fun n => int n 0 324
  int (nviews c) 1 8
  int (ninst c) 2 16
  (List.range 8).forM (validateView c)
  let _ ← (List.range 16).foldlM (validateInst c) ∅
  pure c

/-- The view loop body of `raveil_fold_validate`. -/
def viewAccepted (c : List ℕ) (v : ℕ) : Bool :=
  if v ≥ cfg c 7 then (List.range 5).all fun j => view c v j = 0
  else if view c v 0 > 1 ∨ view c v 1 > 323 ∨ view c v 2 > 323 ∨ view c v 3 > 323 ∨
      view c v 4 > 323 then false
  else
    let last := (view c v 1 + view c v 2 * (cfg c 1 - 1) + view c v 3 * (cfg c 2 - 1) +
      view c v 4 * (cfg c 3 - 1)) % 2 ^ 64
    !(last ≥ cfg c (5 + view c v 0))

/-- The instruction loop body of `raveil_fold_validate`; `none` is `return false`. -/
def instAccepted (c : List ℕ) (defined pc : ℕ) : Option ℕ :=
  let w := cfg c (49 + pc)
  let op := w >>> 28
  let d := (w >>> 25) &&& 7
  let a := (w >>> 22) &&& 7
  let b := (w >>> 19) &&& 7
  if pc ≥ cfg c 8 then
    if w ≠ 0 then none else some defined
  else if pc = cfg c 8 - 1 then
    if op ≠ 3 ∨ d ≠ 0 ∨ w &&& 0x3fffff ≠ 0 ∨ ¬ defined &&& (1 <<< a) ≠ 0 then none
    else some defined
  else if op = 1 then
    if a ≥ cfg c 7 ∨ w &&& 0x3fffff ≠ 0 then none else some (defined ||| (1 <<< d))
  else if op = 2 ∨ op = 4 ∨ op = 5 then
    if ¬ defined &&& (1 <<< a) ≠ 0 ∨ ¬ defined &&& (1 <<< b) ≠ 0 ∨ w &&& 0x7ffff ≠ 0 then none
    else some (defined ||| (1 <<< d))
  else if op = 6 ∨ op = 7 then
    if ¬ defined &&& (1 <<< a) ≠ 0 then none else some (defined ||| (1 <<< d))
  else none

/-- `raveil_fold_validate`. -/
def raveilFoldValidate (c : List ℕ) : Bool :=
  if cfg c 0 ≠ 0x4d463031 ∨ cfg c 1 < 1 ∨ cfg c 1 > 16 ∨ cfg c 2 < 1 ∨ cfg c 2 > 16 ∨
      cfg c 3 < 1 ∨ cfg c 3 > 64 ∨ cfg c 4 > 1 ∨ cfg c 5 > 324 ∨ cfg c 6 > 324 ∨
      cfg c 7 < 1 ∨ cfg c 7 > 8 ∨ cfg c 8 < 2 ∨ cfg c 8 > 16 then false
  else (List.range 8).all (viewAccepted c) &&
    ((List.range 16).foldlM (instAccepted c) 0).isSome

theorem validateView_eq_ok {c : List ℕ} {v : ℕ} {u : Unit} :
    validateView c v = .ok u ↔ ViewOk c v := by
  unfold validateView ViewOk
  split
  · simp
  · simp only [except_bind_eq_ok, int_eq_ok, forM_eq_ok, require_eq_ok, address]
    constructor
    · rintro ⟨_, h0, _, h, hl⟩
      refine ⟨by omega, ?_, hl⟩
      intro n hn h1
      have := h n (by interval_cases n <;> simp)
      omega
    · rintro ⟨h0, h, hl⟩
      refine ⟨(), by omega, (), ?_, hl⟩
      intro n hn
      have := h n (by simp at hn; omega) (by simp at hn; omega)
      omega

/-- What is defined before `pc`: the yield and unused instructions define nothing. -/
def definedBefore (c : List ℕ) (pc : ℕ) : Finset ℕ := definedAt c (min pc (ninst c - 1))

theorem definedBefore_of_lt {c : List ℕ} {pc : ℕ} (h : pc < ninst c) :
    definedBefore c pc = definedAt c pc := by
  rw [definedBefore, min_eq_left (by omega)]

theorem definedBefore_of_le {c : List ℕ} {pc : ℕ} (h : ninst c - 1 ≤ pc) :
    definedBefore c pc = definedAt c (ninst c - 1) := by
  rw [definedBefore, min_eq_right h]

theorem validateInst_eq_ok {c : List ℕ} {pc : ℕ} {t : Finset ℕ} :
    validateInst c (definedBefore c pc) pc = .ok t ↔
      InstOk c pc ∧ t = definedBefore c (pc + 1) := by
  unfold validateInst InstOk
  rw [eq_comm (a := t)]
  change (if _ then _ else if _ then _ else if opcode (inst c pc) = 1 then _
    else if opcode (inst c pc) = 2 ∨ opcode (inst c pc) = 4 ∨ opcode (inst c pc) = 5 then _
    else if opcode (inst c pc) = 6 ∨ opcode (inst c pc) = 7 then _ else _) = _ ↔ _
  by_cases hu : ninst c ≤ pc
  · simp only [if_pos hu, definedBefore_of_le (show ninst c - 1 ≤ pc by omega),
      definedBefore_of_le (show ninst c - 1 ≤ pc + 1 by omega), require_then_eq_ok,
      except_pure_eq_ok]
  by_cases hf : pc = ninst c - 1
  · rw [if_neg hu, if_neg hu, if_pos hf, if_pos hf, definedBefore_of_lt (by omega),
      definedBefore_of_le (by omega), ← hf, require_then_eq_ok, except_pure_eq_ok]
    rfl
  rw [if_neg hu, if_neg hu, if_neg hf, if_neg hf, definedBefore_of_lt (by omega),
    definedBefore_of_lt (by omega), definedAt_succ]
  by_cases h1 : opcode (inst c pc) = 1
  · rw [if_pos h1, require_then_eq_ok, except_pure_eq_ok]
    simp only [h1, true_and, Nat.reduceEqDiff, or_self, false_and, or_false]
    rfl
  by_cases h2 : opcode (inst c pc) = 2 ∨ opcode (inst c pc) = 4 ∨ opcode (inst c pc) = 5
  · have h6 : ¬ (opcode (inst c pc) = 6 ∨ opcode (inst c pc) = 7) := by omega
    rw [if_neg h1, if_pos h2, require_then_eq_ok, except_pure_eq_ok]
    simp only [h1, h2, h6, true_and, false_and, false_or, or_false]
    rfl
  by_cases h6 : opcode (inst c pc) = 6 ∨ opcode (inst c pc) = 7
  · rw [if_neg h1, if_neg h2, if_pos h6, require_then_eq_ok, except_pure_eq_ok]
    simp only [h1, h2, h6, true_and, false_and, false_or]
    rfl
  · simp [h1, h2, h6]

theorem validateProgram_eq_ok {c : List ℕ} {t : Finset ℕ} :
    (List.range 16).foldlM (validateInst c) ∅ = .ok t ↔
      (∀ pc, pc < 16 → InstOk c pc) ∧ t = definedBefore c 16 :=
  foldlM_range_ok_iff (g := definedBefore c) fun _ _ _ => validateInst_eq_ok

/-- `validate_config` accepts exactly 65 words of 32 bits that are admissible. -/
theorem validateConfig_eq_ok {words : List ℤ} {c : List ℕ} :
    validateConfig words = .ok c ↔
      words.length = 65 ∧ (∀ w ∈ words, 0 ≤ w ∧ w ≤ MASK) ∧ c = words.map Int.toNat ∧
        Admissible c := by
  unfold validateConfig
  simp only [check_then_eq_ok, require_eq_ok, forM_eq_ok, int_eq_ok, validateView_eq_ok,
    List.forall_mem_cons, List.not_mem_nil, List.mem_range]
  simp only [except_bind_eq_ok, validateProgram_eq_ok, except_pure_eq_ok]
  constructor
  · rintro ⟨hlen, hw, hm, ⟨hr, hc, -⟩, he, hf, ⟨ha, hb, -⟩, hv, hn, hviews, t, ⟨hi, -⟩, rfl⟩
    refine ⟨hlen, hw, rfl, ⟨⟨hm, ?_, ?_, ?_, ?_, ?_, ?_, ?_, ?_⟩, hviews, hi⟩⟩ <;> omega
  · rintro ⟨hlen, hw, rfl, ⟨⟨hm, hr, hc, he, hf, ha, hb, hv, hn⟩, hviews, hi⟩⟩
    refine ⟨hlen, hw, hm, ⟨by omega, by omega, by simp⟩, by omega, by omega,
      ⟨by omega, by omega, by simp⟩, by omega, by omega, hviews, _, ⟨hi, rfl⟩, rfl⟩

/-- The C bit mask of the registers written before `pc`. -/
def definedMask (c : List ℕ) (pc : ℕ) : ℕ :=
  (List.range (min pc (ninst c - 1))).foldl (fun mask q => mask ||| (1 <<< dst (inst c q))) 0

theorem testBit_definedMask (c : List ℕ) (pc r : ℕ) :
    (definedMask c pc).testBit r = true ↔ r ∈ definedBefore c pc := by
  unfold definedMask definedBefore
  induction min pc (ninst c - 1) with
  | zero => simp [definedAt_zero]
  | succ n ih =>
    rw [List.range_succ, List.foldl_append, List.foldl_cons, List.foldl_nil, mask_insert,
      definedAt_succ, Bool.or_eq_true, ih]
    simp [or_comm]

theorem definedMask_lt (c : List ℕ) (pc : ℕ) : definedMask c pc < 2 ^ 8 := by
  unfold definedMask
  induction min pc (ninst c - 1) with
  | zero => simp
  | succ n ih =>
    rw [List.range_succ, List.foldl_append, List.foldl_cons, List.foldl_nil]
    refine Nat.or_lt_two_pow ih ?_
    rw [Nat.one_shiftLeft]
    exact Nat.pow_lt_pow_right (by norm_num) (dst_lt _)

theorem definedMask_of_le {c : List ℕ} {pc : ℕ} (h : ninst c - 1 ≤ pc) :
    definedMask c (pc + 1) = definedMask c pc := by
  rw [definedMask, definedMask, min_eq_right h, min_eq_right (by omega)]

theorem definedMask_succ {c : List ℕ} {pc : ℕ} (h : pc < ninst c - 1) :
    definedMask c (pc + 1) = definedMask c pc ||| (1 <<< dst (inst c pc)) := by
  rw [definedMask, definedMask, min_eq_left h.le, min_eq_left h, List.range_succ,
    List.foldl_append, List.foldl_cons, List.foldl_nil]

theorem definedMask_test (c : List ℕ) (pc r : ℕ) :
    definedMask c pc &&& (1 <<< r) ≠ 0 ↔ r ∈ definedBefore c pc :=
  (mask_test _ _).trans (testBit_definedMask c pc r)

theorem ite_none_eq_some {α : Type} {p : Prop} [Decidable p] {x t : α} :
    (if p then none else some x) = some t ↔ ¬ p ∧ x = t := by
  by_cases hp : p <;> simp [hp]

theorem instAccepted_eq_some {c : List ℕ} {pc t : ℕ} :
    instAccepted c (definedMask c pc) pc = some t ↔
      InstOk c pc ∧ t = definedMask c (pc + 1) := by
  unfold instAccepted InstOk
  rw [eq_comm (a := t)]
  change (if ninst c ≤ pc then _ else if pc = ninst c - 1 then _ else if opcode (inst c pc) = 1 then _
    else if opcode (inst c pc) = 2 ∨ opcode (inst c pc) = 4 ∨ opcode (inst c pc) = 5 then _
    else if opcode (inst c pc) = 6 ∨ opcode (inst c pc) = 7 then _ else _) = _ ↔ _
  by_cases hu : ninst c ≤ pc
  · rw [if_pos hu, if_pos hu, definedMask_of_le (by omega), ite_none_eq_some, not_not]
    rfl
  have hmask : ∀ r, definedMask c pc &&& (1 <<< r) ≠ 0 ↔ r ∈ definedAt c pc := by
    intro r
    rw [definedMask_test, definedBefore_of_lt (by omega)]
  rw [if_neg hu, if_neg hu]
  by_cases hf : pc = ninst c - 1
  · rw [if_pos hf, if_pos hf, definedMask_of_le (by omega), ite_none_eq_some, hmask]
    simp only [not_or, not_not]
    rfl
  rw [if_neg hf, if_neg hf, definedMask_succ (by omega)]
  by_cases h1 : opcode (inst c pc) = 1
  · rw [if_pos h1, ite_none_eq_some]
    simp only [h1, true_and, Nat.reduceEqDiff, or_self, false_and, or_false, not_or, not_le, not_not]
    rfl
  by_cases h2 : opcode (inst c pc) = 2 ∨ opcode (inst c pc) = 4 ∨ opcode (inst c pc) = 5
  · have h6 : ¬ (opcode (inst c pc) = 6 ∨ opcode (inst c pc) = 7) := by omega
    rw [if_neg h1, if_pos h2, ite_none_eq_some, hmask, hmask]
    simp only [h1, h2, h6, true_and, false_and, false_or, or_false, not_or, not_not]
    rfl
  by_cases h6 : opcode (inst c pc) = 6 ∨ opcode (inst c pc) = 7
  · rw [if_neg h1, if_neg h2, if_pos h6, ite_none_eq_some, hmask]
    simp only [h1, h2, h6, true_and, false_and, false_or, not_not]
    rfl
  · simp [h1, h2, h6]

/-- The C sum cannot wrap: every factor has passed its own bound. -/
theorem viewAccepted_eq_true {c : List ℕ} {v : ℕ} (h : HeaderOk c) :
    viewAccepted c v = true ↔ ViewOk c v := by
  unfold viewAccepted ViewOk
  by_cases hu : nviews c ≤ v
  · simp [hu, show v ≥ cfg c 7 from hu]
  rw [if_neg hu, if_neg (show ¬ v ≥ cfg c 7 from hu)]
  by_cases hb : view c v 0 > 1 ∨ view c v 1 > 323 ∨ view c v 2 > 323 ∨ view c v 3 > 323 ∨
      view c v 4 > 323
  · rw [if_pos hb]
    simp only [Bool.false_eq_true, false_iff, not_and]
    intro h0 hn
    have h1 := hn 1
    have h2 := hn 2
    have h3 := hn 3
    have h4 := hn 4
    omega
  rw [if_neg hb]
  have hr := h.rows
  have hc := h.cols
  have he := h.extent
  have h2 := Nat.mul_le_mul (show view c v 2 ≤ 323 by omega) (show rows c - 1 ≤ 15 by omega)
  have h3 := Nat.mul_le_mul (show view c v 3 ≤ 323 by omega) (show cols c - 1 ≤ 15 by omega)
  have h4 := Nat.mul_le_mul (show view c v 4 ≤ 323 by omega) (show extent c - 1 ≤ 63 by omega)
  have hlast : (view c v 1 + view c v 2 * (cfg c 1 - 1) + view c v 3 * (cfg c 2 - 1) +
      view c v 4 * (cfg c 3 - 1)) % 2 ^ 64 = address c v (rows c - 1) (cols c - 1) (extent c - 1) := by
    change address c v (rows c - 1) (cols c - 1) (extent c - 1) % 2 ^ 64 = _
    apply Nat.mod_eq_of_lt
    unfold address
    omega
  rw [hlast]
  simp only [ge_iff_le, Bool.not_eq_true', decide_eq_false_iff_not, not_le]
  constructor
  · intro hl
    refine ⟨by omega, fun n hn h1 => ?_, hl⟩
    interval_cases n <;> omega
  · exact fun hl => hl.2.2

theorem raveilFoldValidate_eq_true {c : List ℕ} :
    raveilFoldValidate c = true ↔ Admissible c := by
  unfold raveilFoldValidate
  constructor
  · intro h
    split at h
    · simp at h
    rename_i hh
    have hheader : HeaderOk c := by
      refine ⟨?_, ?_, ?_, ?_, ?_, ?_, ?_, ?_, ?_⟩ <;>
        (try simp only [MAGIC, rows, cols, extent, nviews, ninst]) <;> omega
    rw [Bool.and_eq_true, Option.isSome_iff_exists] at h
    obtain ⟨hv, t, ht⟩ := h
    refine ⟨hheader, fun v hv8 => ?_, ?_⟩
    · exact (viewAccepted_eq_true hheader).mp (List.all_eq_true.mp hv v (by simpa using hv8))
    · exact ((foldlM_range_some_iff (g := definedMask c)
        fun _ _ _ => instAccepted_eq_some).mp ht).1
  · rintro ⟨hh, hv, hi⟩
    have hm := hh.magic
    have := hh.rows
    have := hh.cols
    have := hh.extent
    have := hh.fold
    have := hh.lengthA
    have := hh.lengthB
    have := hh.nviews
    have := hh.ninst
    simp only [MAGIC, rows, cols, extent, nviews, ninst] at *
    rw [if_neg (by omega), Bool.and_eq_true, Option.isSome_iff_exists]
    refine ⟨List.all_eq_true.mpr fun v hv8 => ?_, definedMask c 16, ?_⟩
    · exact (viewAccepted_eq_true hh).mpr (hv v (by simpa using hv8))
    · exact (foldlM_range_some_iff (g := definedMask c)
        fun _ _ _ => instAccepted_eq_some).mpr ⟨hi, rfl⟩

end Raveil.Fold
