import Mathlib.Data.Finset.Image
import Mathlib.Data.Finset.Range
import Mathlib.Logic.Function.Basic
import Raveil.Lib.Loops
import Raveil.Lib.Bits

/-! MF01 configuration words: their fields, what an admissible configuration is, and what it
computes. The three validators and the two evaluators are compared with these definitions. -/
namespace Raveil.Fold

def MAGIC : ℕ := 0x4D463031

def MASK : ℕ := 2 ^ 32 - 1

/-- The C array read `c[n]`. -/
def cfg (c : List ℕ) (n : ℕ) : ℕ := c.getD n 0

def rows (c : List ℕ) : ℕ := cfg c 1
def cols (c : List ℕ) : ℕ := cfg c 2
def extent (c : List ℕ) : ℕ := cfg c 3
def nviews (c : List ℕ) : ℕ := cfg c 7
def ninst (c : List ℕ) : ℕ := cfg c 8

/-- Word `n` of view `v`: buffer, offset, i stride, j stride, k stride. -/
def view (c : List ℕ) (v n : ℕ) : ℕ := cfg c (9 + 5 * v + n)

def inst (c : List ℕ) (pc : ℕ) : ℕ := cfg c (49 + pc)

def opcode (w : ℕ) : ℕ := w >>> 28
def dst (w : ℕ) : ℕ := (w >>> 25) &&& 7
def srcA (w : ℕ) : ℕ := (w >>> 22) &&& 7
def srcB (w : ℕ) : ℕ := (w >>> 19) &&& 7
def imm22 (w : ℕ) : ℕ := w &&& 0x3fffff

theorem dst_lt (w : ℕ) : dst w < 8 := Lib.and_seven_lt _
theorem srcA_lt (w : ℕ) : srcA w < 8 := Lib.and_seven_lt _
/-- The registers that the first `pc` instructions write. -/
def definedAt (c : List ℕ) (pc : ℕ) : Finset ℕ :=
  (Finset.range pc).image fun q => dst (inst c q)

theorem definedAt_zero (c : List ℕ) : definedAt c 0 = ∅ := rfl

theorem definedAt_succ (c : List ℕ) (pc : ℕ) :
    definedAt c (pc + 1) = insert (dst (inst c pc)) (definedAt c pc) := by
  simp [definedAt, Finset.range_add_one, Finset.image_insert]

theorem mem_definedAt {c : List ℕ} {pc r : ℕ} :
    r ∈ definedAt c pc ↔ ∃ q, q < pc ∧ dst (inst c q) = r := by
  simp [definedAt]

/-- The address view `v` reads at one point of the iteration space, as an exact integer. -/
def address (c : List ℕ) (v i j k : ℕ) : ℕ :=
  view c v 1 + view c v 2 * i + view c v 3 * j + view c v 4 * k

structure HeaderOk (c : List ℕ) : Prop where
  magic : cfg c 0 = MAGIC
  rows : 1 ≤ rows c ∧ rows c ≤ 16
  cols : 1 ≤ cols c ∧ cols c ≤ 16
  extent : 1 ≤ extent c ∧ extent c ≤ 64
  fold : cfg c 4 ≤ 1
  lengthA : cfg c 5 ≤ 324
  lengthB : cfg c 6 ≤ 324
  nviews : 1 ≤ nviews c ∧ nviews c ≤ 8
  ninst : 2 ≤ ninst c ∧ ninst c ≤ 16

/-- An unused view is all zero; a used one stays inside its buffer at the last point. -/
def ViewOk (c : List ℕ) (v : ℕ) : Prop :=
  if nviews c ≤ v then ∀ n, n < 5 → view c v n = 0
  else view c v 0 ≤ 1 ∧ (∀ n, n < 5 → 1 ≤ n → view c v n ≤ 323) ∧
    address c v (rows c - 1) (cols c - 1) (extent c - 1) < cfg c (5 + view c v 0)

/-- An unused instruction is zero, the last used one yields, the others compute. -/
def InstOk (c : List ℕ) (pc : ℕ) : Prop :=
  let w := inst c pc
  if ninst c ≤ pc then w = 0
  else if pc = ninst c - 1 then
    opcode w = 3 ∧ dst w = 0 ∧ imm22 w = 0 ∧ srcA w ∈ definedAt c pc
  else
    (opcode w = 1 ∧ srcA w < nviews c ∧ imm22 w = 0) ∨
    ((opcode w = 2 ∨ opcode w = 4 ∨ opcode w = 5) ∧ srcA w ∈ definedAt c pc ∧
      srcB w ∈ definedAt c pc ∧ w &&& 0x7ffff = 0) ∨
    ((opcode w = 6 ∨ opcode w = 7) ∧ srcA w ∈ definedAt c pc)

structure Admissible (c : List ℕ) : Prop where
  header : HeaderOk c
  views : ∀ v, v < 8 → ViewOk c v
  insts : ∀ pc, pc < 16 → InstOk c pc

/-- One map instruction word on the registers; a yield leaves them alone. -/
def executeWord (c inputs : List ℕ) (i j k : ℕ) (values : ℕ → ℕ) (w : ℕ) : ℕ → ℕ :=
  let x := values (srcA w)
  let y := values (srcB w)
  match opcode w with
  | 1 => Function.update values (dst w)
      (inputs.getD (324 * view c (srcA w) 0 + address c (srcA w) i j k) 0)
  | 2 => Function.update values (dst w) ((x + y) % 2 ^ 32)
  | 4 => Function.update values (dst w) (max x y)
  | 5 => Function.update values (dst w) (x * y % 2 ^ 32)
  | 6 => Function.update values (dst w) ((x + imm22 w) % 2 ^ 32)
  | 7 => Function.update values (dst w) (if imm22 w ≤ x then 1 else 0)
  | _ => values

def execute (c inputs : List ℕ) (i j k : ℕ) (values : ℕ → ℕ) (pc : ℕ) : ℕ → ℕ :=
  executeWord c inputs i j k values (inst c pc)

/-- The registers before instruction `pc` of one iteration. -/
def regsAt (c inputs : List ℕ) (i j k pc : ℕ) : ℕ → ℕ :=
  (List.range pc).foldl (execute c inputs i j k) fun _ => 0

/-- The value yielded by one iteration. -/
def mapValue (c inputs : List ℕ) (i j k : ℕ) : ℕ :=
  regsAt c inputs i j k (ninst c - 1) (srcA (inst c (ninst c - 1)))

def combine (c : List ℕ) (acc v : ℕ) : ℕ :=
  if cfg c 4 = 0 then (acc + v) % 2 ^ 32 else max acc v

/-- The accumulator before iteration `k` of one cell. -/
def accAt (c inputs : List ℕ) (i j k : ℕ) : ℕ :=
  (List.range k).foldl (fun acc k => combine c acc (mapValue c inputs i j k)) 0

def cellValue (c inputs : List ℕ) (i j : ℕ) : ℕ := accAt c inputs i j (extent c)

/-- Every cell of the output, row by row. -/
def outputWords (c inputs : List ℕ) : List ℕ :=
  (List.range (rows c * cols c)).map fun n => cellValue c inputs (n / cols c) (n % cols c)

theorem regsAt_zero (c inputs : List ℕ) (i j k : ℕ) :
    regsAt c inputs i j k 0 = fun _ => 0 := rfl

theorem regsAt_succ (c inputs : List ℕ) (i j k pc : ℕ) :
    regsAt c inputs i j k (pc + 1) =
      execute c inputs i j k (regsAt c inputs i j k pc) pc := by
  simp [regsAt, List.range_succ]

theorem accAt_zero (c inputs : List ℕ) (i j : ℕ) : accAt c inputs i j 0 = 0 := rfl

theorem accAt_succ (c inputs : List ℕ) (i j k : ℕ) :
    accAt c inputs i j (k + 1) =
      combine c (accAt c inputs i j k) (mapValue c inputs i j k) := by
  simp [accAt, List.range_succ]

theorem outputWords_length (c inputs : List ℕ) :
    (outputWords c inputs).length = rows c * cols c := by
  simp [outputWords]

/-- Inside the iteration space every used view stays below its declared length. -/
theorem address_lt {c : List ℕ} (h : Admissible c) {v i j k : ℕ} (hv : v < nviews c)
    (hi : i < rows c) (hj : j < cols c) (hk : k < extent c) :
    address c v i j k < cfg c (5 + view c v 0) := by
  have hn := h.header.nviews
  have hview := h.views v (by omega)
  unfold ViewOk at hview
  rw [if_neg (by omega)] at hview
  refine lt_of_le_of_lt ?_ hview.2.2
  unfold address
  have h2 := Nat.mul_le_mul_left (view c v 2) (show i ≤ rows c - 1 by omega)
  have h3 := Nat.mul_le_mul_left (view c v 3) (show j ≤ cols c - 1 by omega)
  have h4 := Nat.mul_le_mul_left (view c v 4) (show k ≤ extent c - 1 by omega)
  omega

theorem view_le {c : List ℕ} (h : Admissible c) {v : ℕ} (hv : v < nviews c) :
    view c v 0 ≤ 1 ∧ ∀ n, n < 5 → view c v n ≤ 323 := by
  have hn := h.header.nviews
  have hview := h.views v (by omega)
  unfold ViewOk at hview
  rw [if_neg (by omega)] at hview
  refine ⟨hview.1, fun n hn => ?_⟩
  by_cases h1 : 1 ≤ n
  · exact hview.2.1 n hn h1
  · obtain rfl : n = 0 := by omega
    have := hview.1
    omega

theorem length_le {c : List ℕ} (h : Admissible c) {b : ℕ} (hb : b ≤ 1) : cfg c (5 + b) ≤ 324 := by
  obtain rfl | rfl : b = 0 ∨ b = 1 := by omega
  · exact h.header.lengthA
  · exact h.header.lengthB

theorem address_lt_324 {c : List ℕ} (h : Admissible c) {v i j k : ℕ} (hv : v < nviews c)
    (hi : i < rows c) (hj : j < cols c) (hk : k < extent c) :
    address c v i j k < 324 :=
  lt_of_lt_of_le (address_lt h hv hi hj hk) (length_le h (view_le h hv).1)

/-- Before the last instruction an admissible program only computes. -/
theorem inst_computes {c : List ℕ} (h : Admissible c) {pc : ℕ} (hpc : pc < ninst c - 1) :
    (opcode (inst c pc) = 1 ∧ srcA (inst c pc) < nviews c ∧ imm22 (inst c pc) = 0) ∨
    ((opcode (inst c pc) = 2 ∨ opcode (inst c pc) = 4 ∨ opcode (inst c pc) = 5) ∧
      srcA (inst c pc) ∈ definedAt c pc ∧ srcB (inst c pc) ∈ definedAt c pc ∧
      inst c pc &&& 0x7ffff = 0) ∨
    ((opcode (inst c pc) = 6 ∨ opcode (inst c pc) = 7) ∧ srcA (inst c pc) ∈ definedAt c pc) := by
  have hn := h.header.ninst
  have hi := h.insts pc (by omega)
  simp only [InstOk] at hi
  rwa [if_neg (by omega), if_neg (by omega)] at hi

theorem inst_yields {c : List ℕ} (h : Admissible c) :
    opcode (inst c (ninst c - 1)) = 3 ∧ dst (inst c (ninst c - 1)) = 0 ∧
      imm22 (inst c (ninst c - 1)) = 0 ∧
      srcA (inst c (ninst c - 1)) ∈ definedAt c (ninst c - 1) := by
  have hn := h.header.ninst
  have hi := h.insts (ninst c - 1) (by omega)
  unfold InstOk at hi
  rwa [if_neg (by omega), if_pos rfl] at hi

section Words

variable {c inputs : List ℕ} (hin : ∀ w ∈ inputs, w < 2 ^ 32)

include hin

theorem getD_lt (n : ℕ) : inputs.getD n 0 < 2 ^ 32 := by
  rw [List.getD_eq_getElem?_getD]
  cases hn : inputs[n]? with
  | none => simp
  | some w => exact hin w (List.mem_of_getElem? hn)

theorem executeWord_cases {i j k w : ℕ} {values : ℕ → ℕ} (hv : ∀ r, values r < 2 ^ 32) :
    executeWord c inputs i j k values w = values ∨
      ∃ x, x < 2 ^ 32 ∧ executeWord c inputs i j k values w = Function.update values (dst w) x := by
  have hbit : (if imm22 w ≤ values (srcA w) then 1 else 0) < 2 ^ 32 := by
    split <;> decide
  unfold executeWord
  split
  · exact Or.inr ⟨_, getD_lt hin _, rfl⟩
  · exact Or.inr ⟨_, Nat.mod_lt _ (by decide), rfl⟩
  · exact Or.inr ⟨_, max_lt (hv _) (hv _), rfl⟩
  · exact Or.inr ⟨_, Nat.mod_lt _ (by decide), rfl⟩
  · exact Or.inr ⟨_, Nat.mod_lt _ (by decide), rfl⟩
  · exact Or.inr ⟨_, hbit, rfl⟩
  · exact Or.inl rfl

theorem executeWord_lt {i j k w : ℕ} {values : ℕ → ℕ} (hv : ∀ r, values r < 2 ^ 32) (r : ℕ) :
    executeWord c inputs i j k values w r < 2 ^ 32 := by
  obtain he | ⟨x, hx, he⟩ := executeWord_cases (c := c) (i := i) (j := j) (k := k) (w := w) hin hv
  · rw [he]
    exact hv r
  · rw [he]
    by_cases hr : r = dst w
    · rw [hr, Function.update_self]
      exact hx
    · rw [Function.update_of_ne hr]
      exact hv r

theorem regsAt_lt (i j k pc r : ℕ) : regsAt c inputs i j k pc r < 2 ^ 32 := by
  induction pc generalizing r with
  | zero => exact Nat.two_pow_pos 32
  | succ pc ih =>
    rw [regsAt_succ]
    exact executeWord_lt hin ih r

theorem accAt_lt (i j k : ℕ) : accAt c inputs i j k < 2 ^ 32 := by
  induction k with
  | zero => exact Nat.two_pow_pos 32
  | succ k ih =>
    rw [accAt_succ, combine]
    split
    · exact Nat.mod_lt _ (by decide)
    · exact max_lt ih (regsAt_lt hin i j k _ _)

/-- Words in give words out. -/
theorem outputWords_lt : ∀ w ∈ outputWords c inputs, w < 2 ^ 32 := by
  intro w hw
  obtain ⟨n, -, rfl⟩ := List.mem_map.mp hw
  exact accAt_lt hin _ _ _

end Words

/-- One cell that copies one word. -/
def copyConfig : List ℕ :=
  [MAGIC, 1, 1, 1, 0, 1, 0, 1, 2] ++ List.replicate 40 0 ++ [0x10000000, 0x30000000] ++
    List.replicate 14 0

end Raveil.Fold
