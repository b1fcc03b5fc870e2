import Raveil.Lib.Loops
import Mathlib.Data.List.Basic
import Mathlib.Algebra.BigOperators.Group.Finset.Basic
import Mathlib.Algebra.Order.Ring.Int
import Mathlib.Tactic.Common

/-! The kernels of the native benchmark; `none` is undefined behaviour of the C code. -/
namespace Raveil.Native

open Lib

inductive Family where
  | gemm
  | gemmBiasRelu
  | mlp2
  deriving DecidableEq

inductive LoopOrder where
  | ijk
  | ikj
  | tiled
  deriving DecidableEq

inductive Materialization where
  | fused
  | materialized
  deriving DecidableEq

/-- `options_t`. -/
structure Options where
  family : Family
  m : ℕ
  n : ℕ
  k : ℕ
  loopOrder : LoopOrder
  tile : ℕ
  materialization : Materialization
  warmups : ℕ
  iterations : ℕ
  deriving DecidableEq

section Words

def InInt32 (v : ℤ) : Prop := -2 ^ 31 ≤ v ∧ v < 2 ^ 31

def InInt64 (v : ℤ) : Prop := -2 ^ 63 ≤ v ∧ v < 2 ^ 63

instance (v : ℤ) : Decidable (InInt32 v) := inferInstanceAs (Decidable (_ ∧ _))

instance (v : ℤ) : Decidable (InInt64 v) := inferInstanceAs (Decidable (_ ∧ _))

/-- The result of an `int64_t` operation, which must not overflow. -/
def int64 (v : ℤ) : Option ℤ := if InInt64 v then some v else none

/-- An assignment to an array entry. -/
def store (c : List ℤ) (i : ℕ) (v : ℤ) : Option (List ℤ) := if i < c.length then some (c.set i v) else none

/-- `memset(c, 0, count * sizeof(*c))`. -/
def zero (c : List ℤ) (count : ℕ) : Option (List ℤ) :=
  if count ≤ c.length then some (List.replicate count 0 ++ c.drop count) else none

/-- `memcpy(target, source, count * sizeof(*source))`. -/
def copy (target source : List ℤ) (count : ℕ) : Option (List ℤ) :=
  if count ≤ target.length ∧ count ≤ source.length then some (source.take count ++ target.drop count) else none

/-- `sum += x * y`. -/
def accumulate (sum x y : ℤ) : Option ℤ := do
  let product ← int64 (x * y)
  int64 (sum + product)

end Words

section Gemm

variable (a b : List ℤ) (m n k tile : ℕ)

def gemmReference (c : List ℤ) : Option (List ℤ) := do
  let c ← zero c (m * n)
  counted 0 m 1 (fun i c =>
    counted 0 n 1 (fun j c => do
      let sum ← counted 0 k 1 (fun p sum => do accumulate sum (← a[i * k + p]?) (← b[p * n + j]?)) 0
      store c (i * n + j) sum) c) c

/-- `c[i * n + j] += av * b[p * n + j]` for the columns of a range. -/
def addRow (i p lo hi : ℕ) (av : ℤ) (c : List ℤ) : Option (List ℤ) :=
  counted lo hi 1 (fun j c => do
    let sum ← accumulate (← (c)[i * n + j]?) av (← b[p * n + j]?)
    store c (i * n + j) sum) c

def gemmIkj (c : List ℤ) : Option (List ℤ) := do
  let c ← zero c (m * n)
  counted 0 m 1 (fun i c => counted 0 k 1 (fun p c => do addRow b n i p 0 n (← a[i * k + p]?) c) c) c

def gemmTiled (c : List ℤ) : Option (List ℤ) := do
  let c ← zero c (m * n)
  counted 0 m tile (fun ii c =>
    counted 0 k tile (fun pp c =>
      counted 0 n tile (fun jj c =>
        counted ii (min (ii + tile) m) 1 (fun i c =>
          counted pp (min (pp + tile) k) 1 (fun p c => do
            addRow b n i p jj (min (jj + tile) n) (← a[i * k + p]?) c) c) c) c) c) c

end Gemm

variable (o : Options)

/-- `gemm_candidate`. -/
def gemmCandidate (a b c : List ℤ) : Option (List ℤ) :=
  match o.loopOrder with
  | .ijk => gemmReference a b o.m o.n o.k c
  | .ikj => gemmIkj a b o.m o.n o.k c
  | .tiled => gemmTiled a b o.m o.n o.k o.tile c

def relu (v : ℤ) : ℤ := if v > 0 then v else 0

def biasRelu (bias : List ℤ) (m n : ℕ) (values : List ℤ) : Option (List ℤ) :=
  counted 0 m 1 (fun i values =>
    counted 0 n 1 (fun j values => do
      let value ← int64 ((← values[i * n + j]?) + (← bias[j]?))
      store values (i * n + j) (relu value)) values) values

/-- `gemm_bias_relu_fused`. -/
def gemmBiasReluFused (a b bias output : List ℤ) : Option (List ℤ) :=
  counted 0 o.m 1 (fun i output =>
    counted 0 o.n 1 (fun j output => do
      let step := if o.loopOrder = .tiled then o.tile else o.k
      let sum ← counted 0 o.k step (fun pp sum =>
        counted pp (min (pp + step) o.k) 1 (fun p sum => do
          accumulate sum (← a[i * o.k + p]?) (← b[p * o.n + j]?)) sum) 0
      let sum ← int64 (sum + (← bias[j]?))
      store output (i * o.n + j) (relu sum)) output) output

/-- `gemm_i64_i32`. -/
def gemmI64I32 (a b : List ℤ) (m n k : ℕ) (c : List ℤ) : Option (List ℤ) :=
  if o.loopOrder = .ijk then gemmReference a b m n k c
  else do
    let c ← zero c (m * n)
    let tile := if o.loopOrder = .tiled then o.tile else k
    counted 0 k tile (fun pp c =>
      counted 0 m 1 (fun i c =>
        counted pp (min (pp + tile) k) 1 (fun p c => do addRow b n i p 0 n (← a[i * k + p]?) c) c) c) c

/-- The branch of `execute` on the materialization. -/
def firstLayer (a b bias output : List ℤ) : Option (List ℤ) :=
  if o.materialization = .fused then gemmBiasReluFused o a b bias output
  else do biasRelu bias o.m o.n (← gemmCandidate o a b output)

/-- `execute`: the scratch and the output after it. -/
def execute (a b b2 bias scratch output : List ℤ) : Option (List ℤ × List ℤ) :=
  if o.family = .gemm then do
    let output ← gemmCandidate o a b output
    return (scratch, output)
  else do
    let output ← firstLayer o a b bias output
    if o.family = .gemmBiasRelu then return (scratch, output)
    let scratch ← copy scratch output (o.m * o.n)
    let output ← gemmI64I32 o scratch b2 o.m o.k o.n output
    return (scratch, output)

end Raveil.Native
