import Mathlib.Tactic.NormNum
import Raveil.Lib.Bits
import Raveil.Lib.Words
import Raveil.Graph.Descriptor

/-! Program words of the graph device, and the standalone check of a fallback program. -/
namespace Raveil.Graph
open Raveil.Lib

def MAGIC : ℕ := 0x52504731
def PROGRAM_WORDS : ℕ := 32
def VALUE_REGISTERS : ℕ := 8
def LOAD_U32 : ℕ := 1
def ADD_U32 : ℕ := 2
def STORE_U32 : ℕ := 3
def MAX_U32 : ℕ := 4
def MUL_U32 : ℕ := 5
def ADD_IMM_U32 : ℕ := 6
def GE_IMM_U32 : ℕ := 7

/-- A SHA-256 digest. -/
def Digest : Type := Fin 32 → UInt8

instance : DecidableEq Digest := inferInstanceAs (DecidableEq (Fin 32 → UInt8))

/-- `struct.unpack("<8I", bytes.fromhex(digest))`. -/
def digestWords (digest : Digest) : List ℕ :=
  (List.range 8).map fun i => word (List.ofFn digest) (4 * i)

/-- `_word_bytes`. -/
def wordBytes (words : List ℕ) : List UInt8 := packWords (words.map fun word => word &&& 0xffffffff)

section Encoding

def encodeLoad (destination : ℕ) : Address → ℕ
  | .selector name => LOAD_U32 <<< 28 ||| destination <<< 25 ||| SELECTORS name <<< 22
  | .relative row column =>
    LOAD_U32 <<< 28 ||| destination <<< 25 ||| (row % 32).toNat <<< 20 ||| (column % 32).toNat <<< 15

/-- `encode_add`, `encode_max` and `encode_mul`, which differ in the opcode. -/
def encodeBinary (opcode destination sourceA sourceB : ℕ) : ℕ :=
  opcode <<< 28 ||| destination <<< 25 ||| sourceA <<< 22 ||| sourceB <<< 19

def encodeAdd : ℕ → ℕ → ℕ → ℕ := encodeBinary ADD_U32
def encodeMax : ℕ → ℕ → ℕ → ℕ := encodeBinary MAX_U32
def encodeMul : ℕ → ℕ → ℕ → ℕ := encodeBinary MUL_U32

def encodeStore (source : ℕ) : ℕ := STORE_U32 <<< 28 ||| source <<< 25

/-- `encode_add_immediate` and `encode_ge_immediate`, which differ in the opcode. -/
def encodeImmediate (opcode destination source immediate : ℕ) : ℕ :=
  opcode <<< 28 ||| destination <<< 25 ||| source <<< 22 ||| immediate

def encodeAddImmediate : ℕ → ℕ → ℕ → ℕ := encodeImmediate ADD_IMM_U32
def encodeGeImmediate : ℕ → ℕ → ℕ → ℕ := encodeImmediate GE_IMM_U32

def opcodeOf (word : ℕ) : ℕ := word >>> 28
def destinationOf (word : ℕ) : ℕ := word >>> 25 &&& 7
def leftOf (word : ℕ) : ℕ := word >>> 22 &&& 7
def rightOf (word : ℕ) : ℕ := word >>> 19 &&& 7

/-- `_signed_five`. -/
def signedFive (value : ℕ) : ℤ :=
  let value := value &&& 0x1f
  if value &&& 0x10 ≠ 0 then (value : ℤ) - 32 else value

/-- `_relative_load`. -/
def relativeLoad (word : ℕ) : ℤ × ℤ := (signedFive (word >>> 20), signedFive (word >>> 15))

end Encoding

/-- The fields of a program dictionary that the fallback reads. -/
structure Image where
  affine : Affine
  instructionCount : ℕ
  instructions : List ℕ
  programSha256 : Digest
  payload : List ℕ

/-- The body of the instruction loop of `_validate_fallback_program`; the state is `defined` with
`stores`. -/
def checkInstruction (version count : ℕ) (s : Finset ℕ × ℕ) (entry : ℕ × ℕ) :
    Except String (Finset ℕ × ℕ) :=
  let word := entry.1
  let index := entry.2
  let opcode := opcodeOf word
  let destination := destinationOf word
  if opcode = LOAD_U32 then do
    let rowDelta := (relativeLoad word).1
    let columnDelta := (relativeLoad word).2
    let legacyInvalid := version < 3 ∧ (leftOf word > 4 ∨ word &&& (2 ^ 22 - 1) ≠ 0)
    let relativeInvalid := version ≥ 3 ∧ (word &&& 0x7fff ≠ 0 ∨ rowDelta ∉ [-1, 0, 1] ∨
      columnDelta ∉ [-1, 0, 1])
    require (¬ (index = count - 1 ∨ legacyInvalid ∨ relativeInvalid)) "fallback load instruction is invalid"
    pure (insert destination s.1, s.2)
  else if opcode ∈ [ADD_U32, MAX_U32, MUL_U32] then do
    require (¬ (index = count - 1 ∨ word &&& (2 ^ 19 - 1) ≠ 0 ∨ leftOf word ∉ s.1 ∨ rightOf word ∉ s.1 ∨
      (opcode = MAX_U32 ∧ version ∉ [2, 3, 4, 5, 6]) ∨ (opcode = MUL_U32 ∧ version ∉ [4, 5, 6])))
      "fallback arithmetic instruction is invalid"
    pure (insert destination s.1, s.2)
  else if opcode ∈ [ADD_IMM_U32, GE_IMM_U32] then do
    let allowed := if opcode = GE_IMM_U32 then [6] else [5, 6]
    require (¬ (version ∉ allowed ∨ index = count - 1 ∨ leftOf word ∉ s.1))
      "fallback immediate instruction is invalid"
    pure (insert destination s.1, s.2)
  else if opcode = STORE_U32 then do
    require (¬ (index ≠ count - 1 ∨ word &&& (2 ^ 25 - 1) ≠ 0 ∨ destination ∉ s.1))
      "fallback store instruction is invalid"
    pure (s.1, s.2 + 1)
  else .error "fallback program contains an unknown opcode"

/-- The check of count and padding in `_validate_fallback_program`. -/
def countOk (program : Image) (count : ℕ) : Prop :=
  2 ≤ count ∧ count ≤ PROGRAM_CAPACITY ∧ program.instructionCount = count ∧
    program.instructions = (program.payload.drop 12).take count ∧
    ∀ pad ∈ program.payload.drop (12 + count), pad = 0

instance (program : Image) (count : ℕ) : Decidable (countOk program count) := by
  unfold countOk
  infer_instance

/-- `_validate_fallback_program`. -/
def validateFallbackProgram (sha256 : List UInt8 → Digest) (program : Image) : Except String (List ℕ) := do
  let payload := program.payload
  require (payload.length = PROGRAM_WORDS ∧ ∀ word ∈ payload, word ≤ 0xffffffff)
    "fallback program payload is invalid"
  require (payload.getD 0 0 = MAGIC ∧ payload.getD 1 0 ∈ [1, 2, 3, 4, 5, 6] ∧
    payload.getD 3 0 = VALUE_REGISTERS) "fallback program header is invalid"
  let count := payload.getD 2 0
  require (countOk program count) "fallback program count or padding is invalid"
  let digest := sha256 (wordBytes (count :: program.instructions))
  require (program.programSha256 = digest ∧ (payload.drop 4).take 8 = digestWords digest)
    "fallback program digest is invalid"
  let (_, stores) ← program.instructions.zipIdx.foldlM (checkInstruction (payload.getD 1 0) count) (∅, 0)
  require (stores = 1) "fallback program must have one final store"
  pure program.instructions

section Rules

/-- The row and column bits of a relative load are a signed unit. -/
def SignedUnit (bits : ℕ) : Prop := bits = 0 ∨ bits = 1 ∨ bits = 31

instance (bits : ℕ) : Decidable (SignedUnit bits) := inferInstanceAs (Decidable (_ ∨ _ ∨ _))

/-- An instruction that defines its destination register. -/
inductive Produces (version : ℕ) (defined : Finset ℕ) (word : ℕ) : Prop
  | legacyLoad (ho : opcodeOf word = 1) (hv : version < 3) (hs : leftOf word ≤ 4)
      (hz : word &&& 0x3fffff = 0)
  | relativeLoad (ho : opcodeOf word = 1) (hv : 3 ≤ version) (hr : SignedUnit (word >>> 20 &&& 31))
      (hc : SignedUnit (word >>> 15 &&& 31)) (hz : word &&& 0x7fff = 0)
  | binary (ho : opcodeOf word = 2 ∨ opcodeOf word = 4 ∧ 2 ≤ version ∨ opcodeOf word = 5 ∧ 4 ≤ version)
      (hz : word &&& 0x7ffff = 0) (hl : leftOf word ∈ defined) (hr : rightOf word ∈ defined)
  | immediate (ho : opcodeOf word = 6 ∧ 5 ≤ version ∨ opcodeOf word = 7 ∧ 6 ≤ version)
      (hl : leftOf word ∈ defined)

/-- The store that ends a program. -/
structure Stores (defined : Finset ℕ) (word : ℕ) : Prop where
  opcode : opcodeOf word = 3
  zero : word &&& 0x1ffffff = 0
  defined : destinationOf word ∈ defined

/-- The rules that the validators share: every instruction but the last defines a register from
defined ones, and the last one stores. -/
def ProgramOk (version : ℕ) : Finset ℕ → List ℕ → Prop
  | _, [] => False
  | defined, [word] => Stores defined word
  | defined, word :: next :: rest =>
    Produces version defined word ∧ ProgramOk version (insert (destinationOf word) defined) (next :: rest)

theorem signedFive_mem {x : ℕ} : signedFive x ∈ [(-1 : ℤ), 0, 1] ↔ SignedUnit (x &&& 31) := by
  have hlt : x &&& 31 < 32 := Nat.and_lt_two_pow x (show 31 < 2 ^ 5 by norm_num)
  unfold signedFive SignedUnit
  generalize x &&& 0x1f = b at hlt ⊢
  revert b
  decide

end Rules

section Loop

variable {version count index w k : ℕ} {s t : Finset ℕ × ℕ} {l : List ℕ} {defined : Finset ℕ}

theorem produces_load (ho : opcodeOf w = 1) : Produces version defined w ↔
    (version < 3 ∧ leftOf w ≤ 4 ∧ w &&& 0x3fffff = 0) ∨
    (3 ≤ version ∧ SignedUnit (w >>> 20 &&& 31) ∧ SignedUnit (w >>> 15 &&& 31) ∧ w &&& 0x7fff = 0) := by
  constructor
  · intro h
    cases h with
    | legacyLoad _ hv hs hz => exact Or.inl ⟨hv, hs, hz⟩
    | relativeLoad _ hv hr hc hz => exact Or.inr ⟨hv, hr, hc, hz⟩
    | binary hb => omega
    | immediate hb => omega
  · rintro (⟨hv, hs, hz⟩ | ⟨hv, hr, hc, hz⟩)
    · exact .legacyLoad ho hv hs hz
    · exact .relativeLoad ho hv hr hc hz

theorem produces_binary (ho : opcodeOf w = 2 ∨ opcodeOf w = 4 ∨ opcodeOf w = 5) :
    Produces version defined w ↔ (opcodeOf w = 4 → 2 ≤ version) ∧ (opcodeOf w = 5 → 4 ≤ version) ∧
      w &&& 0x7ffff = 0 ∧ leftOf w ∈ defined ∧ rightOf w ∈ defined := by
  constructor
  · intro h
    cases h with
    | legacyLoad hl => omega
    | relativeLoad hl => omega
    | binary hb hz hl hr => exact ⟨by omega, by omega, hz, hl, hr⟩
    | immediate hb => omega
  · rintro ⟨h4, h5, hz, hl, hr⟩
    exact .binary (by omega) hz hl hr

theorem produces_immediate (ho : opcodeOf w = 6 ∨ opcodeOf w = 7) :
    Produces version defined w ↔ 5 ≤ version ∧ (opcodeOf w = 7 → 6 ≤ version) ∧ leftOf w ∈ defined := by
  constructor
  · intro h
    cases h with
    | legacyLoad hl => omega
    | relativeLoad hl => omega
    | binary hb => omega
    | immediate hb hl => exact ⟨by omega, by omega, hl⟩
  · rintro ⟨h5, h7, hl⟩
    exact .immediate (by omega) hl

theorem Produces.opcode (h : Produces version defined w) :
    opcodeOf w = 1 ∨ opcodeOf w = 2 ∨ opcodeOf w = 4 ∨ opcodeOf w = 5 ∨ opcodeOf w = 6 ∨
      opcodeOf w = 7 := by
  cases h <;> omega

/-- A check of one instruction that defines a register. -/
theorem produce_eq_ok {p : Prop} [Decidable p] {message : String} (hno : ¬ Stores s.1 w)
    (hp : p ↔ index ≠ count - 1 ∧ Produces version s.1 w) :
    (do require p message; pure (insert (destinationOf w) s.1, s.2) :
      Except String (Finset ℕ × ℕ)) = .ok t ↔
      (index ≠ count - 1 ∧ Produces version s.1 w ∧ t = (insert (destinationOf w) s.1, s.2)) ∨
      (index = count - 1 ∧ Stores s.1 w ∧ t = (s.1, s.2 + 1)) := by
  rw [require_then_eq_ok, except_pure_eq_ok, hp, eq_comm]
  tauto

theorem checkInstruction_eq_ok (hv : version ∈ [1, 2, 3, 4, 5, 6]) :
    checkInstruction version count s (w, index) = .ok t ↔
      (index ≠ count - 1 ∧ Produces version s.1 w ∧ t = (insert (destinationOf w) s.1, s.2)) ∨
      (index = count - 1 ∧ Stores s.1 w ∧ t = (s.1, s.2 + 1)) := by
  have hno : opcodeOf w ≠ 3 → ¬ Stores s.1 w := fun hne h => hne h.opcode
  have hmax : version ∈ [2, 3, 4, 5, 6] ↔ 2 ≤ version := by simp at hv ⊢; omega
  have hmul : version ∈ [4, 5, 6] ↔ 4 ≤ version := by simp at hv ⊢; omega
  have himm : version ∈ [5, 6] ↔ 5 ≤ version := by simp at hv ⊢; omega
  have hge : version ∈ [6] ↔ 6 ≤ version := by simp at hv ⊢; omega
  unfold checkInstruction
  dsimp only
  by_cases h1 : opcodeOf w = LOAD_U32
  · rw [if_pos h1]
    have h1' : opcodeOf w = 1 := h1
    refine produce_eq_ok (hno (by omega)) ?_
    rw [produces_load h1']
    simp only [relativeLoad, signedFive_mem, Nat.reducePow, Nat.reduceSub]
    by_cases hlast : index = count - 1
    · simp [hlast]
    · by_cases h3 : version < 3
      · simp [hlast, h3, show ¬ 3 ≤ version by omega]
      · simp [hlast, h3, show 3 ≤ version by omega]
        tauto
  rw [if_neg h1]
  by_cases h2 : opcodeOf w ∈ [ADD_U32, MAX_U32, MUL_U32]
  · rw [if_pos h2]
    have h2' : opcodeOf w = 2 ∨ opcodeOf w = 4 ∨ opcodeOf w = 5 := by
      simpa [ADD_U32, MAX_U32, MUL_U32] using h2
    refine produce_eq_ok (hno (by omega)) ?_
    rw [produces_binary h2', hmax, hmul]
    simp only [Nat.reducePow, Nat.reduceSub, MAX_U32, MUL_U32, not_or, not_and, not_not, ne_eq]
    constructor
    · rintro ⟨hlast, hz, hl, hr, h4, h5⟩
      exact ⟨hlast, h4, h5, hz, hl, hr⟩
    · rintro ⟨hlast, h4, h5, hz, hl, hr⟩
      exact ⟨hlast, hz, hl, hr, h4, h5⟩
  rw [if_neg h2]
  by_cases h6 : opcodeOf w ∈ [ADD_IMM_U32, GE_IMM_U32]
  · rw [if_pos h6]
    have h6' : opcodeOf w = 6 ∨ opcodeOf w = 7 := by simpa [ADD_IMM_U32, GE_IMM_U32] using h6
    refine produce_eq_ok (hno (by omega)) ?_
    rw [produces_immediate h6']
    rcases h6' with h | h
    · have hne : opcodeOf w ≠ GE_IMM_U32 := by simp [h, GE_IMM_U32]
      rw [if_neg hne, himm]
      simp only [not_or, not_not]
      constructor
      · rintro ⟨h5, hlast, hl⟩
        exact ⟨hlast, h5, by omega, hl⟩
      · rintro ⟨hlast, h5, -, hl⟩
        exact ⟨h5, hlast, hl⟩
    · have heq : opcodeOf w = GE_IMM_U32 := h
      rw [if_pos heq, hge]
      simp only [not_or, not_not]
      constructor
      · rintro ⟨h6, hlast, hl⟩
        exact ⟨hlast, by omega, fun _ => h6, hl⟩
      · rintro ⟨hlast, -, h6, hl⟩
        exact ⟨h6 h, hlast, hl⟩
  rw [if_neg h6]
  have hnot : ¬ Produces version s.1 w := by
    intro h
    have := h.opcode
    simp only [List.mem_cons, List.not_mem_nil, or_false, LOAD_U32, ADD_U32, MAX_U32, MUL_U32,
      ADD_IMM_U32, GE_IMM_U32] at h1 h2 h6
    omega
  by_cases h3 : opcodeOf w = STORE_U32
  · rw [if_pos h3, require_then_eq_ok, except_pure_eq_ok, eq_comm]
    have hst : Stores s.1 w ↔ w &&& 0x1ffffff = 0 ∧ destinationOf w ∈ s.1 :=
      ⟨fun h => ⟨h.zero, h.defined⟩, fun h => ⟨h3, h.1, h.2⟩⟩
    simp only [hst, Nat.reducePow, Nat.reduceSub, hnot, false_and, and_false, false_or, not_or, not_not,
      ne_eq, and_assoc]
  · rw [if_neg h3]
    simp [hnot, hno h3]

/-- The instruction loop follows the shared rules and counts one store. -/
theorem checkInstructions_eq_ok (hv : version ∈ [1, 2, 3, 4, 5, 6]) (hl : l ≠ [])
    (hk : k + l.length = count) {n m : ℕ} :
    (∃ d, (l.zipIdx k).foldlM (checkInstruction version count) (defined, n) = .ok (d, m)) ↔
      ProgramOk version defined l ∧ m = n + 1 := by
  induction l generalizing k defined n with
  | nil => exact absurd rfl hl
  | cons w l ih =>
    simp only [List.zipIdx_cons, List.foldlM_cons, except_bind_eq_ok, checkInstruction_eq_ok hv]
    cases l with
    | nil =>
      have hlast : k = count - 1 := by simp at hk; omega
      simp only [hlast, ProgramOk, ne_eq, not_true_eq_false, false_and, false_or, true_and,
        List.zipIdx_nil, List.foldlM_nil, except_pure_eq_ok]
      constructor
      · rintro ⟨d, a, ⟨hst, rfl⟩, ha⟩
        exact ⟨hst, (congrArg Prod.snd ha).symm⟩
      · rintro ⟨hst, rfl⟩
        exact ⟨defined, _, ⟨hst, rfl⟩, rfl⟩
    | cons next rest =>
      have hlast : k ≠ count - 1 := by simp at hk; omega
      have hrec : (∃ d, ((next :: rest).zipIdx (k + 1)).foldlM (checkInstruction version count)
          (insert (destinationOf w) defined, n) = .ok (d, m)) ↔
          ProgramOk version (insert (destinationOf w) defined) (next :: rest) ∧ m = n + 1 :=
        ih (by simp) (by simp at hk ⊢; omega)
      rw [ProgramOk, and_assoc, ← hrec]
      simp [hlast]

end Loop

/-- What an accepted program satisfies. -/
structure FallbackOk (sha256 : List UInt8 → Digest) (program : Image) : Prop where
  length : program.payload.length = 32
  words : ∀ word ∈ program.payload, word ≤ 0xffffffff
  magic : program.payload.getD 0 0 = MAGIC
  version : program.payload.getD 1 0 ∈ [1, 2, 3, 4, 5, 6]
  registers : program.payload.getD 3 0 = 8
  count : countOk program (program.payload.getD 2 0)
  sha : program.programSha256 = sha256 (wordBytes (program.payload.getD 2 0 :: program.instructions))
  digest : (program.payload.drop 4).take 8 =
    digestWords (sha256 (wordBytes (program.payload.getD 2 0 :: program.instructions)))
  program : ProgramOk (program.payload.getD 1 0) ∅ program.instructions

theorem validateFallbackProgram_eq_ok {sha256 : List UInt8 → Digest} {program : Image} {l : List ℕ} :
    validateFallbackProgram sha256 program = .ok l ↔ FallbackOk sha256 program ∧ l = program.instructions := by
  have hloop : ∀ version count, program.payload.length = 32 → version ∈ [1, 2, 3, 4, 5, 6] →
      countOk program count → ∀ m, (∃ d, program.instructions.zipIdx.foldlM
        (checkInstruction version count) (∅, 0) = .ok (d, m)) ↔
        ProgramOk version ∅ program.instructions ∧ m = 1 := by
    intro version count hlen hv hc m
    obtain ⟨h2, h16, -, hins, -⟩ := hc
    have hcount : program.instructions.length = count := by
      rw [hins, List.length_take, List.length_drop, hlen]
      simp only [PROGRAM_CAPACITY] at h16
      omega
    refine checkInstructions_eq_ok hv (fun hnil => ?_) (by omega)
    simp [hnil] at hcount
    omega
  unfold validateFallbackProgram
  constructor
  · intro h
    obtain ⟨⟨hlen, hwords⟩, h⟩ := require_then_eq_ok.mp h
    obtain ⟨⟨hmagic, hversion, hregisters⟩, h⟩ := require_then_eq_ok.mp h
    obtain ⟨hcount, h⟩ := require_then_eq_ok.mp h
    obtain ⟨⟨hsha, hdigest⟩, h⟩ := require_then_eq_ok.mp h
    obtain ⟨⟨d, stores⟩, hfold, h⟩ := except_bind_eq_ok.mp h
    obtain ⟨-, h⟩ := require_then_eq_ok.mp h
    refine ⟨⟨hlen, hwords, hmagic, hversion, hregisters, hcount, hsha, hdigest, ?_⟩,
      (except_pure_eq_ok.mp h).symm⟩
    exact ((hloop _ _ hlen hversion hcount stores).mp ⟨d, hfold⟩).1
  · rintro ⟨h, rfl⟩
    refine require_then_eq_ok.mpr ⟨⟨h.length, h.words⟩, require_then_eq_ok.mpr
      ⟨⟨h.magic, h.version, h.registers⟩, require_then_eq_ok.mpr ⟨h.count, require_then_eq_ok.mpr
      ⟨⟨h.sha, h.digest⟩, ?_⟩⟩⟩⟩
    obtain ⟨d, hfold⟩ := (hloop _ _ h.length h.version h.count 1).mpr ⟨h.program, rfl⟩
    exact except_bind_eq_ok.mpr ⟨(d, 1), hfold, require_then_eq_ok.mpr ⟨rfl, rfl⟩⟩

end Raveil.Graph
