import Raveil.Lib.Hash
import Raveil.Native.Execute
import Mathlib.Algebra.Order.BigOperators.Group.Finset
import Mathlib.Algebra.Order.Ring.Abs
import Mathlib.Data.Nat.Digits.Defs

/-! The native benchmark program: its arguments, its arrays, which stay small, and its report. -/
namespace Raveil.Native

open Lib

section Arguments

/-- The bytes of a literal of the source; a C string is the bytes before its end. -/
def bytes (s : String) : List UInt8 := s.toList.map fun c => UInt8.ofNat c.toNat

/-- `isspace` of the C locale. -/
def isSpace (c : UInt8) : Bool := c == 32 || (9 ≤ c && c ≤ 13)

def isDigit (c : UInt8) : Bool := 48 ≤ c && c ≤ 57

/-- `strtoull(text, &end, 10)`: the value, whether `errno` was set, and the text from `end` on. -/
def strtoull (text : List UInt8) : ℕ × Bool × List UInt8 :=
  let rest := text.dropWhile isSpace
  let negative := rest.head? = some 45
  let rest := if rest.head? = some 45 ∨ rest.head? = some 43 then rest.tail else rest
  let digits := rest.takeWhile isDigit
  let magnitude := digits.foldl (fun value c => 10 * value + (c.toNat - 48)) 0
  if digits = [] then (0, false, text)
  else if 2 ^ 64 ≤ magnitude then (2 ^ 64 - 1, true, rest.dropWhile isDigit)
  else (if negative then (2 ^ 64 - magnitude) % 2 ^ 64 else magnitude, false, rest.dropWhile isDigit)

def parseBoundedSize (text : List UInt8) (maximum : ℕ) : Option ℕ :=
  let (parsed, errno, rest) := strtoull text
  if errno ∨ rest = text ∨ rest ≠ [] ∨ parsed = 0 ∨ parsed > maximum then none else some parsed

def parseFamily (text : List UInt8) : Option Family :=
  if text = bytes "gemm" then some .gemm
  else if text = bytes "gemm_bias_relu" then some .gemmBiasRelu
  else if text = bytes "mlp2" then some .mlp2
  else none

def parseLoopOrder (text : List UInt8) : Option LoopOrder :=
  if text = bytes "ijk" then some .ijk
  else if text = bytes "ikj" then some .ikj
  else if text = bytes "tiled" then some .tiled
  else none

def parseMaterialization (text : List UInt8) : Option Materialization :=
  if text = bytes "fused" then some .fused
  else if text = bytes "materialized" then some .materialized
  else none

def parseTile (text : List UInt8) : Option ℕ :=
  if text = bytes "0" then some 0 else parseBoundedSize text 64

/-- `parse_options`. -/
def parseOptions (argv : List (List UInt8)) : Option Options :=
  match argv with
  | [_, family, m, n, k, loopOrder, tile, materialization, warmups, iterations] => do
    let m ← parseBoundedSize m 512
    let n ← parseBoundedSize n 512
    let k ← parseBoundedSize k 512
    let warmups ← parseBoundedSize warmups 1000
    let iterations ← parseBoundedSize iterations 1000000
    let tile ← parseTile tile
    let family ← parseFamily family
    let loopOrder ← parseLoopOrder loopOrder
    let materialization ← parseMaterialization materialization
    if (loopOrder == .tiled) == (tile != 0) then
      some { family, m, n, k, loopOrder, tile, materialization, warmups, iterations }
    else none
  | _ => none

end Arguments

section Data

def fillFrom (state : UInt32) : ℕ → List ℤ
  | 0 => []
  | count + 1 =>
    let state := state * 1664525 + 1013904223
    ((((state >>> 16) % 7).toNat : ℤ) - 3) :: fillFrom state count

/-- `fill_i32`. -/
def fillI32 (count : ℕ) (salt : UInt32) : List ℤ := fillFrom (0x9e3779b9 ^^^ salt) count

/-- The bias of `main`. -/
def fillBias (n : ℕ) : List ℤ := (List.range n).map fun j => ((j % 11 : ℕ) : ℤ) - 5

def checksum (values : List ℤ) (count : ℕ) : Option UInt64 :=
  if count ≤ values.length then some ((values.take count).foldl hashWord 1469598103934665603) else none

/-- `checked_count`. -/
def checkedCount (a b : ℕ) : Option ℕ := if a ≠ 0 ∧ b > (2 ^ 64 - 1) / a then none else some (a * b)

end Data

/-- The text `%016x` of a value. -/
def hex016 (value : ℕ) : String :=
  let digits := Nat.toDigits 16 value
  String.ofList (List.replicate (16 - digits.length) '0' ++ digits)

/-- What the program prints, less the latency, and its exit code. -/
structure Report where
  checksum : String
  referenceChecksum : String
  semanticValid : Bool
  failure : String
  exitCode : ℕ
  deriving DecidableEq

inductive Outcome where
  | invalidArguments
  | dimensionOverflow
  | undefined
  | reported (report : Report)
  deriving DecidableEq

/-- The arrays a run writes and `checksum_sink`. -/
structure Arena where
  scratch : List ℤ
  output : List ℤ
  sink : UInt64

section Runs

variable (o : Options) (a b b2 bias : List ℤ) (outCount : ℕ)

/-- A turn of the warm-up loop. -/
def warmup (s : Arena) : Option Arena := do
  let (scratch, output) ← execute o a b b2 bias s.scratch s.output
  return { scratch, output, sink := s.sink ^^^ (← checksum output outCount) }

/-- A turn of the measured loop. -/
def measure (index : ℕ) (s : Arena) : Option Arena := do
  let (scratch, output) ← execute o a b b2 bias s.scratch s.output
  return { scratch, output, sink := s.sink ^^^ UInt64.ofInt (← output[index % outCount]?) }

/-- `main` from its loops on. -/
def benchmark (hiddenCount : ℕ) : Option Report := do
  let scratch := List.replicate hiddenCount 0
  let size := if hiddenCount > outCount then hiddenCount else outCount
  let (scratch, reference) ← execute o.reference a b b2 bias scratch (List.replicate size 0)
  let expected ← checksum reference outCount
  let arena ← counted 0 o.warmups 1 (fun _ s => warmup o a b b2 bias outCount s)
    { scratch, output := List.replicate size 0, sink := 0 }
  let arena ← counted 0 o.iterations 1 (measure o a b b2 bias outCount) arena
  let actual ← checksum arena.output outCount
  let valid := actual == expected
  return { checksum := hex016 actual.toNat
           referenceChecksum := hex016 expected.toNat
           semanticValid := valid
           failure := if valid then "" else "checksum mismatch"
           exitCode := if valid then 0 else 3 }

end Runs

/-- `main`. -/
def main (argv : List (List UInt8)) : Outcome :=
  match parseOptions argv with
  | none => .invalidArguments
  | some o =>
    match checkedCount o.m o.k, checkedCount o.k o.n, checkedCount o.m o.n with
    | some aCount, some bCount, some hiddenCount =>
      let outCount := if o.family = .mlp2 then aCount else hiddenCount
      let a := fillI32 aCount 1
      let b := fillI32 bCount 2
      let b2 := fillI32 (o.n * o.k) 3
      match benchmark o a b b2 (fillBias o.n) outCount hiddenCount with
      | none => .undefined
      | some report => .reported report
    | _, _, _ => .dimensionOverflow

section Small

/-- The entries lie between a bound and its negation. -/
def Small (bound : ℤ) (l : List ℤ) : Prop := ∀ x ∈ l, |x| ≤ bound

variable {bound : ℤ} {l a b : List ℤ} {o : Options}

theorem Small.getD (h : Small bound l) (hbound : 0 ≤ bound) (i : ℕ) : |l.getD i 0| ≤ bound := by
  rw [List.getD_eq_getElem?_getD]
  rcases hi : l[i]? with _ | x
  · simpa using hbound
  · exact h x (List.mem_of_getElem? hi)

theorem inInt64_of_abs_le {v : ℤ} (hv : |v| ≤ bound) (hbound : bound < 2 ^ 63) : InInt64 v := by
  have := abs_le.mp hv
  constructor <;> omega

theorem inInt32_of_small {v : ℤ} (hv : |v| ≤ 3) : InInt32 v := by
  have := abs_le.mp hv
  constructor <;> omega

theorem length_fillFrom (state : UInt32) (count : ℕ) : (fillFrom state count).length = count := by
  induction count generalizing state with
  | zero => rfl
  | succ count ih => simp only [fillFrom, List.length_cons, ih]

theorem small_fillFrom (state : UInt32) (count : ℕ) : Small 3 (fillFrom state count) := by
  induction count generalizing state with
  | zero =>
    intro x hx
    cases hx
  | succ count ih =>
    intro x hx
    rcases List.mem_cons.mp hx with rfl | hx
    · have : ((state * 1664525 + 1013904223) >>> 16 % 7).toNat < 7 := by
        rw [UInt32.toNat_mod]
        exact Nat.mod_lt _ (by decide)
      rw [abs_le]
      omega
    · exact ih _ x hx

theorem length_fillI32 (count : ℕ) (salt : UInt32) : (fillI32 count salt).length = count := length_fillFrom _ count

theorem small_fillI32 (count : ℕ) (salt : UInt32) : Small 3 (fillI32 count salt) := small_fillFrom _ count

theorem length_fillBias (n : ℕ) : (fillBias n).length = n := by
  rw [fillBias, List.length_map, List.length_range]

theorem small_fillBias (n : ℕ) : Small 5 (fillBias n) := by
  intro x hx
  obtain ⟨j, -, rfl⟩ := List.mem_map.mp hx
  rw [abs_le]
  omega

theorem abs_dot_le {A B : ℤ} (ha : Small A a) (hA : 0 ≤ A) (hb : Small B b) (hB : 0 ≤ B) (n k i j q : ℕ) :
    |dot a b n k i j q| ≤ q * (A * B) := by
  have hterm : ∀ p ∈ Finset.range q, |a.getD (i * k + p) 0 * b.getD (p * n + j) 0| ≤ A * B := by
    intro p _
    rw [abs_mul]
    exact mul_le_mul (ha.getD hA _) (hb.getD hB _) (abs_nonneg _) hA
  calc |dot a b n k i j q| ≤ ∑ p ∈ Finset.range q, |a.getD (i * k + p) 0 * b.getD (p * n + j) 0| :=
        Finset.abs_sum_le_sum_abs _ _
    _ ≤ ∑ _p ∈ Finset.range q, A * B := Finset.sum_le_sum hterm
    _ = q * (A * B) := by simp

theorem abs_relu_le (v : ℤ) : |relu v| ≤ |v| := by
  unfold relu
  split_ifs
  · exact le_rfl
  · simp

theorem small_hiddenWords {bias : List ℤ} (ha : Small 3 a) (hb : Small 3 b) (hbias : Small 5 bias)
    (hk : o.k ≤ 512) : Small 4613 (hiddenWords o a b bias) := by
  intro x hx
  obtain ⟨y, -, rfl⟩ := List.mem_map.mp hx
  refine (abs_relu_le _).trans ((abs_add_le _ _).trans ?_)
  have hdot := abs_dot_le ha (by decide) hb (by decide) o.n o.k (y / o.n) (y % o.n) o.k
  have hentry := hbias.getD (by decide) (y % o.n)
  omega

end Small

/-- The arrays of `main`. -/
theorem arrays_filled (o : Options) :
    Arrays o (fillI32 (o.m * o.k) 1) (fillI32 (o.k * o.n) 2) (fillI32 (o.n * o.k) 3) (fillBias o.n) where
  a_length := length_fillI32 _ _
  b_length := length_fillI32 _ _
  b2_length := length_fillI32 _ _
  bias_length := length_fillBias _
  a_range x hx := inInt32_of_small (small_fillI32 _ _ x hx)
  b_range x hx := inInt32_of_small (small_fillI32 _ _ x hx)
  b2_range x hx := inInt32_of_small (small_fillI32 _ _ x hx)
  bias_range x hx := inInt64_of_abs_le (small_fillBias _ x hx) (by decide)

theorem noOverflow_filled {o : Options} (h : o.Admitted) :
    NoOverflow o (fillI32 (o.m * o.k) 1) (fillI32 (o.k * o.n) 2) (fillI32 (o.n * o.k) 3) (fillBias o.n) := by
  have ha := small_fillI32 (o.m * o.k) 1
  have hb := small_fillI32 (o.k * o.n) 2
  have hb2 := small_fillI32 (o.n * o.k) 3
  have hbias := small_fillBias o.n
  have hhidden := small_hiddenWords ha hb hbias h.k_range.2
  have hk := h.k_range.2
  have hn := h.n_range.2
  constructor
  · intro i _ j _ q hq
    exact inInt64_of_abs_le (abs_dot_le ha (by decide) hb (by decide) o.n o.k i j q) (by omega)
  · intro _ i _ j _
    have hdot := abs_dot_le ha (by decide) hb (by decide) o.n o.k i j o.k
    exact inInt64_of_abs_le ((abs_add_le _ _).trans (add_le_add hdot (hbias.getD (by decide) j))) (by omega)
  · intro _ i _ j _ p _
    have hleft := hhidden.getD (by decide) (i * o.n + p)
    have hright := hb2.getD (by decide) (p * o.k + j)
    refine inInt64_of_abs_le (?_ : _ ≤ (4613 * 3 : ℤ)) (by decide)
    rw [abs_mul]
    exact mul_le_mul hleft hright (abs_nonneg _) (by decide)
  · intro _ i _ j _ q hq
    exact inInt64_of_abs_le (abs_dot_le hhidden (by decide) hb2 (by decide) o.k o.n i j q) (by omega)

end Raveil.Native
