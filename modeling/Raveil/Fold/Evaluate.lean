import Raveil.Fold.Validate
import Raveil.Lib.RowMajor

/-! The C evaluator `raveil_fold_evaluate` and the words it writes. -/
namespace Raveil.Fold
open Raveil.Lib

/-- `struct raveil_fold_request`. -/
structure Request where
  requestId : ℕ
  config : List ℕ
  inputs : List ℕ
  deriving DecidableEq, Repr

/-- The body of the `pc` loop; the state is `values` with `acc`, and `none` is `return false`. -/
def evaluateInst (r : Request) (i j k : ℕ) (s : (ℕ → ℕ) × ℕ) (pc : ℕ) :
    Option ((ℕ → ℕ) × ℕ) :=
  let c := r.config
  let (values, acc) := s
  let w := cfg c (49 + pc)
  let op := w >>> 28
  let d := (w >>> 25) &&& 7
  let a := (w >>> 22) &&& 7
  let b := (w >>> 19) &&& 7
  let imm := w &&& 0x3fffff
  match op with
  | 1 =>
    let address := (view c a 1 + view c a 2 * i + view c a 3 * j + view c a 4 * k) % 2 ^ 32
    some (Function.update values d (r.inputs.getD ((324 * view c a 0 + address) % 2 ^ 32) 0), acc)
  | 2 => some (Function.update values d ((values a + values b) % 2 ^ 32), acc)
  | 3 => some (values, if cfg c 4 ≠ 0 then (if acc > values a then acc else values a)
      else (acc + values a) % 2 ^ 32)
  | 4 => some (Function.update values d (if values a > values b then values a else values b), acc)
  | 5 => some (Function.update values d (values a * values b % 2 ^ 64 % 2 ^ 32), acc)
  | 6 => some (Function.update values d ((values a + imm) % 2 ^ 32), acc)
  | 7 => some (Function.update values d (if values a ≥ imm then 1 else 0), acc)
  | _ => none

/-- The two inner loops: the accumulator of cell `(i, j)`. -/
def evaluateCell (r : Request) (i j : ℕ) : Option ℕ :=
  (List.range (cfg r.config 3)).foldlM (fun acc k => do
    let s ← (List.range (cfg r.config 8)).foldlM (evaluateInst r i j k) (fun _ => 0, acc)
    pure s.2) 0

/-- `raveil_fold_evaluate`: the output array after the call, or `none` when it returns false. -/
def raveilFoldEvaluate (r : Request) (output : List ℕ) : Option (List ℕ) :=
  if raveilFoldValidate r.config then
    (List.range (cfg r.config 1)).foldlM (fun output i =>
      (List.range (cfg r.config 2)).foldlM (fun output j => do
        let acc ← evaluateCell r i j
        pure (output.set (i * cfg r.config 2 + j) acc)) output) output
  else none

theorem max_eq_ite (x y : ℕ) : (if x > y then x else y) = max x y := by
  split <;> omega

/-- Before the yield an instruction of an admissible program is one step of `execute`. -/
theorem evaluateInst_computes {r : Request} (h : Admissible r.config) {i j k pc : ℕ}
    (hi : i < rows r.config) (hj : j < cols r.config) (hk : k < extent r.config)
    (hpc : pc < ninst r.config - 1) (values : ℕ → ℕ) (acc : ℕ) :
    evaluateInst r i j k (values, acc) pc =
      some (execute r.config r.inputs i j k values pc, acc) := by
  unfold evaluateInst execute executeWord
  change (match opcode (inst r.config pc) with | 1 => _ | 2 => _ | 3 => _ | 4 => _ | 5 => _ | 6 => _ | 7 => _ | _ => _) = _
  obtain ⟨h1, hv, -⟩ | ⟨h2 | h2 | h2, -⟩ | ⟨h6 | h6, -⟩ := inst_computes h hpc
  · have ha := address_lt_324 h hv hi hj hk
    have hb := (view_le h hv).1
    simp only [h1]
    change some (Function.update values _ (r.inputs.getD ((324 * view r.config (srcA (inst r.config pc)) 0 +
      address r.config (srcA (inst r.config pc)) i j k % 2 ^ 32) % 2 ^ 32) 0), acc) = _
    rw [Nat.mod_eq_of_lt (show address r.config (srcA (inst r.config pc)) i j k < 2 ^ 32 by omega),
      Nat.mod_eq_of_lt (by omega)]
    rfl
  · simp only [h2]
    rfl
  · simp only [h2, max_eq_ite]
    rfl
  · simp only [h2]
    rw [Nat.mod_mod_of_dvd _ (by norm_num)]
    rfl
  · simp only [h6]
    rfl
  · simp only [h6]
    rfl

theorem evaluateInst_yields {r : Request} (h : Admissible r.config) {i j k : ℕ}
    (values : ℕ → ℕ) (acc : ℕ) :
    evaluateInst r i j k (values, acc) (ninst r.config - 1) =
      some (values, combine r.config acc (values (srcA (inst r.config (ninst r.config - 1))))) := by
  have hy := (inst_yields h).1
  unfold evaluateInst combine
  change (match opcode (inst r.config (ninst r.config - 1)) with | 1 => _ | 2 => _ | 3 => _ | 4 => _ | 5 => _ | 6 => _ | 7 => _ | _ => _) = _
  simp only [hy, max_eq_ite, ite_not]
  rfl

theorem evaluateProgram_eq {r : Request} (h : Admissible r.config) {i j k : ℕ}
    (hi : i < rows r.config) (hj : j < cols r.config) (hk : k < extent r.config) (acc : ℕ) :
    (List.range (ninst r.config)).foldlM (evaluateInst r i j k) (fun _ => 0, acc) =
      some (regsAt r.config r.inputs i j k (ninst r.config - 1),
        combine r.config acc (mapValue r.config r.inputs i j k)) := by
  have hn := h.header.ninst
  rw [show ninst r.config = ninst r.config - 1 + 1 by omega, List.range_succ, List.foldlM_append]
  have hrun : (List.range (ninst r.config - 1)).foldlM (evaluateInst r i j k) (fun _ => 0, acc) =
      some (regsAt r.config r.inputs i j k (ninst r.config - 1), acc) := by
    refine foldlM_range_pure (m := Option)
      (g := fun pc => (regsAt r.config r.inputs i j k pc, acc)) fun pc hpc => ?_
    rw [evaluateInst_computes h hi hj hk hpc, regsAt_succ]
    rfl
  rw [hrun]
  simp only [Option.bind_eq_bind, Option.bind_some, List.foldlM_cons, List.foldlM_nil]
  rw [evaluateInst_yields h]
  rfl

theorem evaluateCell_eq {r : Request} (h : Admissible r.config) {i j : ℕ}
    (hi : i < rows r.config) (hj : j < cols r.config) :
    evaluateCell r i j = some (cellValue r.config r.inputs i j) := by
  refine foldlM_range_pure (m := Option) (g := accAt r.config r.inputs i j) fun k hk => ?_
  rw [show cfg r.config 8 = ninst r.config from rfl, evaluateProgram_eq h hi hj hk, accAt_succ]
  rfl

theorem cells_le {c : List ℕ} (h : Admissible c) : rows c * cols c ≤ 256 := by
  have hr := h.header.rows
  have hc := h.header.cols
  calc rows c * cols c ≤ 16 * 16 := Nat.mul_le_mul hr.2 hc.2
    _ = 256 := rfl

theorem div_cols_lt {c : List ℕ} {n : ℕ} (hn : n < rows c * cols c) : n / cols c < rows c :=
  Nat.div_lt_of_lt_mul (by rwa [Nat.mul_comm])

theorem mod_cols_lt {c : List ℕ} (h : Admissible c) (n : ℕ) : n % cols c < cols c :=
  Nat.mod_lt _ h.header.cols.1

/-- On an admissible configuration the evaluator succeeds and writes exactly the cells. -/
theorem raveilFoldEvaluate_eq {r : Request} (h : Admissible r.config) {output : List ℕ}
    (ho : output.length = 256) :
    raveilFoldEvaluate r output =
      some (outputWords r.config r.inputs ++ output.drop (rows r.config * cols r.config)) := by
  unfold raveilFoldEvaluate
  rw [if_pos (raveilFoldValidate_eq_true.mpr h),
    foldlM_rowMajor fun (output : List ℕ) i j => (do
      let acc ← evaluateCell r i j
      pure (output.set (i * cfg r.config 2 + j) acc) : Option (List ℕ))]
  refine foldlM_range_pure (m := Option)
    (g := fun n => (List.range n).map (fun n => cellValue r.config r.inputs (n / cols r.config)
      (n % cols r.config)) ++ output.drop n) fun n hn => ?_
  have hle := cells_le h
  have hn' : n < rows r.config * cols r.config := hn
  change (do
    let acc ← evaluateCell r (n / cols r.config) (n % cols r.config)
    pure (List.set _ (n / cols r.config * cols r.config + n % cols r.config) acc)) = _
  rw [evaluateCell_eq h (div_cols_lt hn') (mod_cols_lt h n), Nat.div_add_mod']
  exact congrArg some (set_written
    (fun n => cellValue r.config r.inputs (n / cols r.config) (n % cols r.config)) output (by omega))

end Raveil.Fold
