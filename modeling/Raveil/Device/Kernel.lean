import Raveil.Lib.RowMajor
import Raveil.Graph.Correct
import Raveil.Device.Config

/-! What a program computes at each cell, and the transactions that the host expects of it. -/
namespace Raveil.Device
open Raveil.Lib Raveil.Graph

def Shape.affine (shape : Shape) : Affine :=
  ⟨shape.rows.toNat, shape.columns.toNat, shape.inputStride.toNat, shape.outputStride.toNat⟩

/-- The two shapes by their numbers. -/
theorem Shape.cases {shape : Shape} (h : shape = baseline ∨ shape = compact) :
    (shape.rows.toNat = 16 ∧ shape.columns.toNat = 16 ∧ shape.inputStride.toNat = 18 ∧
      shape.outputStride.toNat = 16 ∧ shape.activeOutputs.toNat = 256) ∨
    (shape.rows.toNat = 8 ∧ shape.columns.toNat = 8 ∧ shape.inputStride.toNat = 10 ∧
      shape.outputStride.toNat = 8 ∧ shape.activeOutputs.toNat = 64) := by
  rcases h with rfl | rfl
  · left
    decide
  · right
    decide

section Cell

variable (version : ℕ) (shape : Shape) (words : List ℕ) (cell : ℕ)

/-- The input index of a load at a cell. -/
def loadIndex (instruction : ℕ) : ℕ :=
  ((loadAddress version
    (centerOf shape.affine (cell / shape.columns.toNat) (cell % shape.columns.toNat))
    shape.affine.inputStride instruction).getD 0).toNat

/-- The word that an instruction leaves in its destination. -/
def result (values : ℕ → ℕ) (instruction : ℕ) : ℕ :=
  let left := values (leftOf instruction)
  let right := values (rightOf instruction)
  let immediate := instruction &&& MAX_IMMEDIATE
  if opcodeOf instruction = 1 then words.getD (loadIndex version shape cell instruction) 0
  else if opcodeOf instruction = 2 then (left + right) % 2 ^ 32
  else if opcodeOf instruction = 4 then max left right
  else if opcodeOf instruction = 5 then left * right % 2 ^ 32
  else if opcodeOf instruction = 6 then (left + immediate) % 2 ^ 32
  else if left ≥ immediate then 1 else 0

def advance (values : ℕ → ℕ) (instruction : ℕ) : ℕ → ℕ :=
  Function.update values (destinationOf instruction) (result version shape words cell values instruction)

/-- The registers after some instructions at a cell. -/
def registers (instructions : List ℕ) : ℕ → ℕ :=
  instructions.foldl (advance version shape words cell) fun _ => 0

/-- The word that a program stores at a cell. -/
def cellWord (instructions : List ℕ) : ℕ :=
  registers version shape words cell instructions.dropLast (destinationOf (instructions.getLastD 0))

variable {version shape words cell}

/-- Words stay words. -/
theorem registers_lt (h : ∀ i, words.getD i 0 < 2 ^ 32) (instructions : List ℕ) (r : ℕ) :
    registers version shape words cell instructions r < 2 ^ 32 := by
  induction instructions using List.reverseRecOn generalizing r with
  | nil => exact Nat.two_pow_pos 32
  | append_singleton instructions w ih =>
    rw [registers, List.foldl_append]
    change advance version shape words cell (registers version shape words cell instructions) w r < _
    unfold advance
    by_cases hr : r = destinationOf w
    · rw [hr, Function.update_self]
      unfold result
      dsimp only
      split_ifs
      · exact h _
      · exact Nat.mod_lt _ (Nat.two_pow_pos 32)
      · exact max_lt (ih _) (ih _)
      · exact Nat.mod_lt _ (Nat.two_pow_pos 32)
      · exact Nat.mod_lt _ (Nat.two_pow_pos 32)
      · omega
      · omega
    · rw [Function.update_of_ne hr]
      exact ih r

theorem cellWord_lt (h : ∀ i, words.getD i 0 < 2 ^ 32) (instructions : List ℕ) :
    cellWord version shape words cell instructions < 2 ^ 32 := registers_lt h _ _

end Cell

/-- The words that a program leaves, with zero where it does not store. -/
def outputWords (version : ℕ) (shape : Shape) (words instructions : List ℕ) : List ℕ :=
  (List.range 256).map fun k =>
    if k < shape.activeOutputs.toNat then cellWord version shape words k instructions else 0

section Program

variable {version : ℕ} {defined : Finset ℕ} {l : List ℕ}

/-- A program is a body that defines registers, and a store. -/
theorem ProgramOk.split (h : ProgramOk version defined l) : ∃ body last, l = body ++ [last] ∧
    opcodeOf last = 3 ∧ ∀ w ∈ body, ∃ d, Produces version d w := by
  induction l generalizing defined with
  | nil => exact h.elim
  | cons w l ih =>
    cases l with
    | nil => exact ⟨[], w, rfl, h.opcode, fun x hx => by cases hx⟩
    | cons next rest =>
      obtain ⟨hw, hrest⟩ := h
      obtain ⟨body, last, heq, hlast, hbody⟩ := ih hrest
      refine ⟨w :: body, last, by rw [heq]; rfl, hlast, fun x hx => ?_⟩
      rcases List.mem_cons.mp hx with rfl | hx
      · exact ⟨defined, hw⟩
      · exact hbody x hx

end Program

section Loads

variable {version : ℕ} {shape : Shape} {cell w : ℕ} {d : Finset ℕ}

theorem signedFive_of_unit {x : ℕ} (h : SignedUnit (x &&& 31)) :
    signedFive x = -1 ∨ signedFive x = 0 ∨ signedFive x = 1 := by
  have := signedFive_mem.mpr h
  simpa using this

/-- Every load of a program stays in the input. -/
theorem loadAddress_eq (hs : shape = baseline ∨ shape = compact) (hc : cell < shape.activeOutputs.toNat)
    (hw : Produces version d w) (ho : opcodeOf w = 1) :
    loadAddress version (centerOf shape.affine (cell / shape.columns.toNat) (cell % shape.columns.toNat))
        shape.affine.inputStride w = some (loadIndex version shape cell w : ℤ) ∧
      loadIndex version shape cell w < 324 := by
  suffices hsuff : ∃ index : ℤ, 0 ≤ index ∧ index < 324 ∧ loadAddress version
      (centerOf shape.affine (cell / shape.columns.toNat) (cell % shape.columns.toNat))
      shape.affine.inputStride w = some index by
    obtain ⟨index, h0, h1, heq⟩ := hsuff
    have hindex : (loadIndex version shape cell w : ℤ) = index := by
      rw [loadIndex, heq]
      exact Int.toNat_of_nonneg h0
    rw [heq, ← hindex]
    exact ⟨rfl, by omega⟩
  have hnum := Shape.cases hs
  rcases (produces_load ho).mp hw with ⟨hv, hsel, -⟩ | ⟨hv, hr, hcol, -⟩
  · have hno : ¬ version ≥ 3 := by omega
    unfold loadAddress
    rw [if_neg hno]
    simp only [centerOf, Shape.affine]
    generalize leftOf w = selector at hsel
    obtain rfl | rfl | rfl | rfl | rfl : selector = 0 ∨ selector = 1 ∨ selector = 2 ∨ selector = 3 ∨
      selector = 4 := by omega
    all_goals
      refine ⟨_, ?_, ?_, rfl⟩
      all_goals
        rcases hnum with ⟨-, h2, h3, -, h5⟩ | ⟨-, h2, h3, -, h5⟩ <;> rw [h2, h3] <;> rw [h5] at hc <;> omega
  · have hyes : version ≥ 3 := hv
    refine ⟨_, ?_, ?_, if_pos hyes⟩
    all_goals
      simp only [relativeLoad, centerOf, Shape.affine]
      rcases signedFive_of_unit hr with h | h | h <;> rcases signedFive_of_unit hcol with g | g | g <;>
        rw [h, g] <;> rcases hnum with ⟨-, h2, h3, -, h5⟩ | ⟨-, h2, h3, -, h5⟩ <;> rw [h2, h3] <;>
        rw [h5] at hc <;> omega

end Loads

section Fallback

variable {version : ℕ} {shape : Shape} {words output l : List ℕ} {cell w : ℕ} {d : Finset ℕ} {values : ℕ → ℕ}

theorem executeInstruction_produces (hs : shape = baseline ∨ shape = compact)
    (hc : cell < shape.activeOutputs.toNat) (hlen : words.length = 324) (hw : Produces version d w) :
    executeInstruction version shape.affine words (cell / shape.columns.toNat) (cell % shape.columns.toNat)
      (values, output) w = .ok (advance version shape words cell values w, output) := by
  unfold executeInstruction advance result
  dsimp only
  by_cases h1 : opcodeOf w = 1
  · obtain ⟨haddress, hlt⟩ := loadAddress_eq hs hc hw h1
    rw [if_pos (show opcodeOf w = LOAD_U32 from h1), haddress, if_pos h1]
    dsimp only
    rw [readWord, pyGet?_natCast, List.getElem?_eq_getElem (by omega), List.getD_eq_getElem _ _ (by omega)]
    rfl
  rw [if_neg (show ¬ opcodeOf w = LOAD_U32 from h1), if_neg h1]
  by_cases h2 : opcodeOf w = 2
  · rw [if_pos (show opcodeOf w = ADD_U32 from h2), if_pos h2]
    rfl
  rw [if_neg (show ¬ opcodeOf w = ADD_U32 from h2), if_neg h2]
  by_cases h4 : opcodeOf w = 4
  · rw [if_pos (show opcodeOf w = MAX_U32 from h4), if_pos h4]
    rfl
  rw [if_neg (show ¬ opcodeOf w = MAX_U32 from h4), if_neg h4]
  by_cases h5 : opcodeOf w = 5
  · rw [if_pos (show opcodeOf w = MUL_U32 from h5), if_pos h5]
    rfl
  rw [if_neg (show ¬ opcodeOf w = MUL_U32 from h5), if_neg h5]
  by_cases h6 : opcodeOf w = 6
  · rw [if_pos (show opcodeOf w = ADD_IMM_U32 from h6), if_pos h6]
    rfl
  have h7 : opcodeOf w = 7 := by
    have := hw.opcode
    omega
  rw [if_neg (show ¬ opcodeOf w = ADD_IMM_U32 from h6), if_neg h6,
    if_pos (show opcodeOf w = GE_IMM_U32 from h7)]
  rfl

theorem executeInstructions_body (hs : shape = baseline ∨ shape = compact)
    (hc : cell < shape.activeOutputs.toNat) (hlen : words.length = 324) {body : List ℕ}
    (hbody : ∀ w ∈ body, ∃ d, Produces version d w) :
    body.foldlM (executeInstruction version shape.affine words (cell / shape.columns.toNat)
      (cell % shape.columns.toNat)) (values, output) =
      .ok (body.foldl (advance version shape words cell) values, output) := by
  induction body generalizing values with
  | nil => rfl
  | cons w body ih =>
    obtain ⟨d, hw⟩ := hbody w (by simp)
    rw [List.foldlM_cons, executeInstruction_produces hs hc hlen hw]
    exact ih fun x hx => hbody x (by simp [hx])

/-- The row and the column of a cell, and where it is stored. -/
theorem Shape.storeIndex (hs : shape = baseline ∨ shape = compact) :
    ((cell / shape.columns.toNat : ℕ) : ℤ) * shape.affine.outputStride + (cell % shape.columns.toNat : ℕ) =
      (cell : ℤ) := by
  simp only [Shape.affine]
  rcases Shape.cases hs with ⟨-, h2, -, h4, -⟩ | ⟨-, h2, -, h4, -⟩
  · rw [h2, h4]
    omega
  · rw [h2, h4]
    omega

theorem activeOutputs_le (hs : shape = baseline ∨ shape = compact) : shape.activeOutputs.toNat ≤ 256 := by
  rcases Shape.cases hs with ⟨-, -, -, -, h5⟩ | ⟨-, -, -, -, h5⟩ <;> omega

theorem activeOutputs_eq (hs : shape = baseline ∨ shape = compact) :
    shape.rows.toNat * shape.columns.toNat = shape.activeOutputs.toNat := by
  rcases Shape.cases hs with ⟨h1, h2, -, -, h5⟩ | ⟨h1, h2, -, -, h5⟩ <;> rw [h1, h2, h5]

theorem fallbackCell_eq (hs : shape = baseline ∨ shape = compact) (hc : cell < shape.activeOutputs.toNat)
    (hlen : words.length = 324) (hout : output.length = 256) (h : ProgramOk version d l) :
    fallbackCell version shape.affine words l output (cell / shape.columns.toNat) (cell % shape.columns.toNat) =
      .ok (output.set cell (cellWord version shape words cell l)) := by
  obtain ⟨body, last, rfl, hlast, hbody⟩ := ProgramOk.split h
  have hcell : cell < output.length := by
    have := activeOutputs_le hs
    omega
  have hstore : executeInstruction version shape.affine words (cell / shape.columns.toNat)
      (cell % shape.columns.toNat) (registers version shape words cell body, output) last =
      .ok (registers version shape words cell body,
        output.set cell (registers version shape words cell body (destinationOf last))) := by
    unfold executeInstruction
    dsimp only
    simp only [LOAD_U32, ADD_U32, MAX_U32, MUL_U32, ADD_IMM_U32, GE_IMM_U32, STORE_U32, hlast, if_true,
      reduceIte, Nat.reduceEqDiff]
    rw [Shape.storeIndex hs, writeWord, pySet?_natCast hcell]
    rfl
  rw [fallbackCell, List.foldlM_append, executeInstructions_body hs hc hlen hbody]
  change (([last].foldlM _ (registers version shape words cell body, output)) >>= fun s =>
    pure s.2 : Except String (List ℕ)) = _
  rw [List.foldlM_cons, hstore]
  simp [cellWord, List.foldlM_nil]

theorem length_written (f : ℕ → ℕ) (n : ℕ) (hn : n ≤ 256) :
    ((List.range n).map f ++ (List.replicate 256 0).drop n).length = 256 := by
  rw [List.length_append, List.length_map, List.length_range, List.length_drop, List.length_replicate]
  omega

/-- The host's fallback computes the words of the kernel. -/
theorem softwareFallback_eq {sha256 : List UInt8 → Digest} {program : Image}
    (hs : shape = baseline ∨ shape = compact) (hlen : words.length = 324)
    (h : validateFallbackProgram sha256 program = .ok l) (ha : program.affine = shape.affine) :
    softwareFallback sha256 program words =
      .ok (outputWords (program.payload.getD 1 0) shape words l) := by
  obtain ⟨hok, hl⟩ := validateFallbackProgram_eq_ok.mp h
  have hprogram : ProgramOk (program.payload.getD 1 0) ∅ l := by
    rw [hl]
    exact hok.program
  have hle := activeOutputs_le hs
  have hloop := foldlM_range_pure (m := Except String) (n := shape.activeOutputs.toNat)
    (f := fun output cell => fallbackCell (program.payload.getD 1 0) shape.affine words l output
      (cell / shape.columns.toNat) (cell % shape.columns.toNat))
    (g := fun n => (List.range n).map (fun k => cellWord (program.payload.getD 1 0) shape words k l) ++
      (List.replicate 256 0).drop n) fun k hk => by
        have hk' : k < 256 := by omega
        rw [fallbackCell_eq hs hk hlen (length_written _ _ hk'.le) hprogram,
          set_written _ _ (by rw [List.length_replicate]; exact hk')]
        rfl
  have hwords : (List.range shape.activeOutputs.toNat).map
        (fun k => cellWord (program.payload.getD 1 0) shape words k l) ++
      (List.replicate 256 0).drop shape.activeOutputs.toNat =
      outputWords (program.payload.getD 1 0) shape words l := by
    unfold outputWords
    conv_rhs => rw [show 256 = shape.activeOutputs.toNat + (256 - shape.activeOutputs.toNat) by omega,
      List.range_add, List.map_append, List.map_map]
    congr 1
    · refine List.map_congr_left fun k hk => ?_
      rw [if_pos (List.mem_range.mp hk)]
    · rw [List.drop_replicate]
      refine (List.eq_replicate_iff.mpr ⟨by simp, fun x hx => ?_⟩).symm
      obtain ⟨k, -, rfl⟩ := List.mem_map.mp hx
      exact if_neg (by simp)
  unfold softwareFallback
  rw [h, ha]
  change (require (words.length = 324) _ >>= fun _ => _) = _
  rw [require_of hlen]
  change (List.range shape.affine.rows.toNat).foldlM (fun output row =>
    (List.range shape.affine.columns.toNat).foldlM (fun output column =>
      fallbackCell (program.payload.getD 1 0) shape.affine words l output row column) output)
      (List.replicate 256 0) = _
  rw [foldlM_rowMajor (M := Except String)]
  change (List.range (shape.rows.toNat * shape.columns.toNat)).foldlM _ (List.replicate 256 0) = _
  rw [activeOutputs_eq hs, ← hwords]
  exact hloop

end Fallback

section Transactions

/-- An access to the memory as the host lists it; a read carries no data. -/
structure Transaction where
  write : Bool
  address : ℤ
  data : ℕ
  deriving DecidableEq

/-- The body of the instruction loop of `expected_transactions`, with what it appends. -/
def instructionTransactions (program : Image) (oracle : List ℕ) (row column : ℕ) (instruction : ℕ) :
    Except String (List Transaction) :=
  let opcode := opcodeOf instruction
  let outputIndex : ℤ := row * program.affine.outputStride + column
  if opcode = LOAD_U32 then
    match loadAddress (program.payload.getD 1 0) (centerOf program.affine row column)
      program.affine.inputStride instruction with
    | none => .error "KeyError"
    | some address => pure [⟨false, address, 0⟩]
  else if opcode = STORE_U32 then
    match pyGet? oracle outputIndex with
    | none => .error "IndexError"
    | some data => pure [⟨true, 324 + outputIndex, data⟩]
  else if opcode ∈ [ADD_U32, MAX_U32, MUL_U32, ADD_IMM_U32, GE_IMM_U32] then pure []
  else .error "program contains an unknown opcode"

def expectedTransactions (sha256 : List UInt8 → Digest) (program : Image) (words : List ℕ) :
    Except String (List Transaction) := do
  let oracle ← softwareFallback sha256 program words
  (List.range program.affine.rows.toNat).foldlM (fun result row =>
    (List.range program.affine.columns.toNat).foldlM (fun result column =>
      program.instructions.foldlM (fun result instruction => do
        let appended ← instructionTransactions program oracle row column instruction
        pure (result ++ appended)) result) result) []

/-- The accesses of one instruction at a cell. -/
def access (version : ℕ) (shape : Shape) (words l : List ℕ) (cell instruction : ℕ) : List Transaction :=
  if opcodeOf instruction = 1 then [⟨false, loadIndex version shape cell instruction, 0⟩]
  else if opcodeOf instruction = 3 then [⟨true, 324 + cell, cellWord version shape words cell l⟩]
  else []

/-- The accesses of the first instructions of a program at a cell. -/
def cellAccesses (version : ℕ) (shape : Shape) (words l : List ℕ) (cell n : ℕ) : List Transaction :=
  (l.take n).flatMap (access version shape words l cell)

/-- The accesses of whole cells, and of the first instructions at the next one. -/
def accesses (version : ℕ) (shape : Shape) (words l : List ℕ) (cell n : ℕ) : List Transaction :=
  (List.range cell).flatMap (fun k => cellAccesses version shape words l k l.length) ++
    cellAccesses version shape words l cell n

variable {version : ℕ} {shape : Shape} {words l : List ℕ} {cell : ℕ}

/-- Before the first instruction of a cell: the accesses of the cells before it. -/
theorem accesses_zero : accesses version shape words l cell 0 =
    (List.range cell).flatMap fun i => cellAccesses version shape words l i l.length := List.append_nil _

theorem cellAccesses_succ {n : ℕ} (h : n < l.length) : cellAccesses version shape words l cell (n + 1) =
    cellAccesses version shape words l cell n ++ access version shape words l cell (l.getD n 0) := by
  rw [cellAccesses, List.take_succ_eq_append_getElem h, List.flatMap_append, List.getD_eq_getElem _ _ h]
  simp [cellAccesses]

theorem accesses_succ {n : ℕ} (h : n < l.length) : accesses version shape words l cell (n + 1) =
    accesses version shape words l cell n ++ access version shape words l cell (l.getD n 0) := by
  rw [accesses, cellAccesses_succ h, ← List.append_assoc, accesses]

/-- A finished cell is the start of the next one. -/
theorem accesses_cell : accesses version shape words l (cell + 1) 0 =
    accesses version shape words l cell l.length := by
  rw [accesses_zero, List.range_succ, List.flatMap_append, List.flatMap_singleton]
  rfl

theorem foldlM_appends {α β : Type} (f : α → Except String (List β)) (g : α → List β) {xs : List α} {r : List β}
    (h : ∀ x ∈ xs, f x = .ok (g x)) :
    xs.foldlM (fun r x => do
      let appended ← f x
      pure (r ++ appended)) r = .ok (r ++ xs.flatMap g) := by
  induction xs generalizing r with
  | nil => simp [pure, Except.pure]
  | cons x xs ih =>
    rw [List.foldlM_cons, h x (by simp)]
    change xs.foldlM _ (r ++ g x) = _
    rw [ih fun y hy => h y (by simp [hy])]
    simp

/-- The host expects the accesses of every cell, in order. -/
theorem expectedTransactions_eq {sha256 : List UInt8 → Digest} {program : Image}
    (hs : shape = baseline ∨ shape = compact) (hlen : words.length = 324)
    (h : validateFallbackProgram sha256 program = .ok l) (ha : program.affine = shape.affine) :
    expectedTransactions sha256 program words =
      .ok (accesses (program.payload.getD 1 0) shape words l shape.activeOutputs.toNat 0) := by
  obtain ⟨hok, rfl⟩ := validateFallbackProgram_eq_ok.mp h
  obtain ⟨body, last, hl, hlast, hbody⟩ := ProgramOk.split hok.program
  have hle := activeOutputs_le hs
  have hcell : ∀ cell, cell < shape.activeOutputs.toNat → ∀ w ∈ program.instructions,
      instructionTransactions program (outputWords (program.payload.getD 1 0) shape words program.instructions)
        (cell / shape.columns.toNat) (cell % shape.columns.toNat) w =
      .ok (access (program.payload.getD 1 0) shape words program.instructions cell w) := by
    intro cell hc w hw
    unfold instructionTransactions access
    rw [ha, Shape.storeIndex hs]
    rw [hl] at hw
    rcases List.mem_append.mp hw with hw | hw
    · obtain ⟨d, hp⟩ := hbody w hw
      have hop := hp.opcode
      by_cases h1 : opcodeOf w = 1
      · obtain ⟨haddress, -⟩ := loadAddress_eq hs hc hp h1
        rw [if_pos (show opcodeOf w = LOAD_U32 from h1), if_pos h1, haddress]
        rfl
      · rw [if_neg (show ¬ opcodeOf w = LOAD_U32 from h1), if_neg h1,
          if_neg (show ¬ opcodeOf w = STORE_U32 by simp only [STORE_U32]; omega),
          if_neg (show ¬ opcodeOf w = 3 by omega), if_pos]
        · rfl
        · simp only [ADD_U32, MAX_U32, MUL_U32, ADD_IMM_U32, GE_IMM_U32, List.mem_cons, List.not_mem_nil, or_false]
          omega
    · obtain rfl := List.mem_singleton.mp hw
      have h256 : cell < 256 := by omega
      rw [if_neg (show ¬ opcodeOf w = LOAD_U32 by simp only [LOAD_U32]; omega),
        if_neg (show ¬ opcodeOf w = 1 by omega), if_pos (show opcodeOf w = STORE_U32 from hlast), if_pos hlast, pyGet?_natCast]
      simp [outputWords, h256, hc, pure, Except.pure]
  unfold expectedTransactions
  rw [softwareFallback_eq hs hlen h ha]
  change (List.range program.affine.rows.toNat).foldlM (fun result row =>
    (List.range program.affine.columns.toNat).foldlM (fun result column =>
      program.instructions.foldlM (fun result instruction => do
        let appended ← instructionTransactions program
          (outputWords (program.payload.getD 1 0) shape words program.instructions) row column instruction
        pure (result ++ appended)) result) result) [] = _
  rw [foldlM_rowMajor (M := Except String), ha]
  change (List.range (shape.rows.toNat * shape.columns.toNat)).foldlM _ [] = _
  rw [activeOutputs_eq hs]
  have hloop := foldlM_range_pure (m := Except String) (n := shape.activeOutputs.toNat)
    (f := fun result cell => program.instructions.foldlM (fun result instruction => do
      let appended ← instructionTransactions program
        (outputWords (program.payload.getD 1 0) shape words program.instructions)
        (cell / shape.columns.toNat) (cell % shape.columns.toNat) instruction
      pure (result ++ appended)) result)
    (g := fun cell => accesses (program.payload.getD 1 0) shape words program.instructions cell 0) fun cell hc => by
      rw [foldlM_appends _ _ (hcell cell hc), accesses_cell]
      simp [accesses, cellAccesses, pure, Except.pure]
  exact hloop

end Transactions

end Raveil.Device
