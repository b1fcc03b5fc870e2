import Raveil.Graph.Program

/-! The payload validators of the host runtime and of the request reader, against one set of rules. -/
namespace Raveil.Graph
open Raveil.Lib

/-- A program payload: 32 unsigned words. -/
structure Payload where
  words : List ℕ
  length : words.length = 32
  lt : ∀ w ∈ words, w < 2 ^ 32

def Payload.word (payload : Payload) (index : ℕ) : ℕ := payload.words.getD index 0

theorem Payload.word_lt (payload : Payload) (index : ℕ) : payload.word index < 2 ^ 32 := by
  rw [Payload.word, List.getD_eq_getElem?_getD]
  cases h : payload.words[index]? with
  | none => simp
  | some w => exact payload.lt w (List.mem_of_getElem? h)

theorem Payload.slice (payload : Payload) {start n : ℕ} (h : start + n ≤ 32) :
    (payload.words.drop start).take n = (List.range n).map fun i => payload.word (start + i) := by
  apply List.ext_getElem
  · simp [payload.length]
    omega
  · intro i h1 h2
    have hi : start + i < payload.words.length := by
      simp at h2
      rw [payload.length]
      omega
    simp [Payload.word, List.getD_eq_getElem?_getD, List.getElem?_eq_getElem hi]

/-- What the validators ask of a payload whose instruction count is `count`. -/
structure PayloadOk (payload : Payload) (count : ℕ) : Prop where
  magic : payload.word 0 = MAGIC
  version : payload.word 1 ∈ [1, 2, 3, 4, 5, 6]
  two_le : 2 ≤ count
  le_capacity : count ≤ 16
  registers : payload.word 3 = VALUE_REGISTERS
  program : ProgramOk (payload.word 1) ∅ ((List.range count).map fun i => payload.word (12 + i))
  padding : ∀ i, 12 + count ≤ i → i < 32 → payload.word i = 0

section Scan

variable {version count : ℕ} {word : ℕ → ℕ} {defined : Finset ℕ}

/-- What is left of an instruction loop after `k` of its words, `m` words before its end. -/
def Scan (version count : ℕ) (word : ℕ → ℕ) : ℕ → ℕ → Finset ℕ → ℕ → Prop
  | 0, _, _, stores => stores = 1
  | m + 1, k, defined, stores =>
    (k < count ∧ Produces version defined (word k) ∧
      Scan version count word m (k + 1) (insert (destinationOf (word k)) defined) stores) ∨
    (k + 1 = count ∧ Stores defined (word k) ∧ Scan version count word m (k + 1) defined (stores + 1)) ∨
    (count ≤ k ∧ word k = 0 ∧ Scan version count word m (k + 1) defined stores)

theorem scan_padding {m k stores : ℕ} (h : count ≤ k) :
    Scan version count word m k defined stores ↔ stores = 1 ∧ ∀ i, k ≤ i → i < k + m → word i = 0 := by
  induction m generalizing k with
  | zero =>
    simp only [Scan]
    exact ⟨fun hs => ⟨hs, fun i _ _ => by omega⟩, And.left⟩
  | succ m ih =>
    simp only [Scan, ih (show count ≤ k + 1 by omega), show ¬ k < count by omega, show k + 1 ≠ count by omega,
      h, false_and, false_or, true_and]
    constructor
    · rintro ⟨hk, hs, hrest⟩
      refine ⟨hs, fun i h1 h2 => ?_⟩
      rcases Nat.eq_or_lt_of_le h1 with rfl | hlt
      · exact hk
      · exact hrest i hlt (by omega)
    · rintro ⟨hs, hall⟩
      exact ⟨hall k (by omega) (by omega), hs, fun i h1 h2 => hall i (by omega) (by omega)⟩

/-- A loop that counts one store has followed the rules up to `count` and found zeros after it. -/
theorem scan_iff {m k : ℕ} (hk : k < count) (hm : count ≤ k + m) :
    Scan version count word m k defined 0 ↔
      ProgramOk version defined ((List.range' k (count - k)).map word) ∧
        ∀ i, count ≤ i → i < k + m → word i = 0 := by
  induction m generalizing k defined with
  | zero => omega
  | succ m ih =>
    simp only [Scan, hk, show ¬ count ≤ k by omega, true_and, false_and, or_false]
    by_cases hlast : k + 1 = count
    · have hone : count - k = 1 := by omega
      simp only [hlast, scan_padding (Nat.le_refl count), hone, List.range'_one, List.map_cons,
        List.map_nil, ProgramOk, true_and, Nat.zero_ne_one, false_and, and_false, false_or, Nat.zero_add]
      refine and_congr_right fun _ => forall_congr' fun i => ?_
      rw [show k + (m + 1) = count + m by omega]
    · obtain ⟨n, hn⟩ : ∃ n, count - k = n + 2 := ⟨count - k - 2, by omega⟩
      simp only [hlast, false_and, or_false, ih (show k + 1 < count by omega) (by omega)]
      rw [hn, show count - (k + 1) = n + 1 by omega]
      simp only [List.range'_succ, List.map_cons, ProgramOk, and_assoc]
      rw [show k + 1 + m = k + (m + 1) by omega]

end Scan

section Flags

/-- The flags of the instructions that write a register. The runtime asks each of them to stand before
the last instruction (`placed`), the request reader does not. -/
def writesValue (version : ℕ) (defined : Finset ℕ) (instruction : ℕ) (placed : Bool) : Bool :=
  let opcode := instruction >>> 28
  let left := instruction >>> 22 &&& 7
  let right := instruction >>> 19 &&& 7
  let rowBits := instruction >>> 20 &&& 31
  let columnBits := instruction >>> 15 &&& 31
  let signedUnitRow := rowBits == 0 || rowBits == 1 || rowBits == 31
  let signedUnitColumn := columnBits == 0 || columnBits == 1 || columnBits == 31
  let legacyLoad := version < 3 && left ≤ 4 && instruction &&& 0x003fffff == 0
  let relativeLoad := version ≥ 3 && version ≤ 6 && signedUnitRow && signedUnitColumn &&
    instruction &&& 0x00007fff == 0
  let load := opcode == 1 && placed && (legacyLoad || relativeLoad)
  let add := opcode == 2 && placed && instruction &&& 0x0007ffff == 0 && left ∈ defined && right ∈ defined
  let maxU32 := opcode == 4 && version ≥ 2 && version ≤ 6 && placed && instruction &&& 0x0007ffff == 0 &&
    left ∈ defined && right ∈ defined
  let mulU32 := opcode == 5 && (version == 4 || version == 5 || version == 6) && placed &&
    instruction &&& 0x0007ffff == 0 && left ∈ defined && right ∈ defined
  let immediate := opcode == 6 && (version == 5 || version == 6) && placed && left ∈ defined
  let comparison := opcode == 7 && version == 6 && placed && left ∈ defined
  load || add || maxU32 || mulU32 || immediate || comparison

/-- The flag of the store; `placed` says that it is the last instruction. -/
def storesValue (defined : Finset ℕ) (instruction : ℕ) (placed : Bool) : Bool :=
  instruction >>> 28 == 3 && placed && instruction &&& 0x01ffffff == 0 &&
    instruction >>> 25 &&& 7 ∈ defined

variable {version w : ℕ} {defined : Finset ℕ} {placed : Bool}

theorem writesValue_iff (hv : version ∈ [1, 2, 3, 4, 5, 6]) :
    writesValue version defined w placed = true ↔ placed = true ∧ Produces version defined w := by
  simp only [List.mem_cons, List.not_mem_nil, or_false] at hv
  simp only [writesValue, Bool.or_eq_true, Bool.and_eq_true, beq_iff_eq, decide_eq_true_eq]
  constructor
  · rintro (((((⟨⟨ho, hp⟩, ⟨⟨hv3, hs⟩, hz⟩ | ⟨⟨⟨⟨hv3, -⟩, hr⟩, hc⟩, hz⟩⟩ | ⟨⟨⟨⟨ho, hp⟩, hz⟩, hl⟩, hr⟩) |
      ⟨⟨⟨⟨⟨⟨ho, hv2⟩, -⟩, hp⟩, hz⟩, hl⟩, hr⟩) | ⟨⟨⟨⟨⟨ho, hv4⟩, hp⟩, hz⟩, hl⟩, hr⟩) | ⟨⟨⟨ho, hv5⟩, hp⟩, hl⟩) |
      ⟨⟨⟨ho, hv6⟩, hp⟩, hl⟩)
    · exact ⟨hp, .legacyLoad ho hv3 hs hz⟩
    · exact ⟨hp, .relativeLoad ho hv3 (or_assoc.mp hr) (or_assoc.mp hc) hz⟩
    · exact ⟨hp, .binary (Or.inl ho) hz hl hr⟩
    · exact ⟨hp, .binary (Or.inr (Or.inl ⟨ho, hv2⟩)) hz hl hr⟩
    · exact ⟨hp, .binary (Or.inr (Or.inr ⟨ho, by omega⟩)) hz hl hr⟩
    · exact ⟨hp, .immediate (Or.inl ⟨ho, by omega⟩) hl⟩
    · exact ⟨hp, .immediate (Or.inr ⟨ho, by omega⟩) hl⟩
  · rintro ⟨hp, h⟩
    cases h with
    | legacyLoad ho hv3 hs hz =>
      exact Or.inl (Or.inl (Or.inl (Or.inl (Or.inl ⟨⟨ho, hp⟩, Or.inl ⟨⟨hv3, hs⟩, hz⟩⟩))))
    | relativeLoad ho hv3 hr hc hz =>
      exact Or.inl (Or.inl (Or.inl (Or.inl (Or.inl
        ⟨⟨ho, hp⟩, Or.inr ⟨⟨⟨⟨hv3, by omega⟩, or_assoc.mpr hr⟩, or_assoc.mpr hc⟩, hz⟩⟩))))
    | binary ho hz hl hr =>
      rcases ho with ho | ⟨ho, hv2⟩ | ⟨ho, hv4⟩
      · exact Or.inl (Or.inl (Or.inl (Or.inl (Or.inr ⟨⟨⟨⟨ho, hp⟩, hz⟩, hl⟩, hr⟩))))
      · exact Or.inl (Or.inl (Or.inl (Or.inr ⟨⟨⟨⟨⟨⟨ho, hv2⟩, by omega⟩, hp⟩, hz⟩, hl⟩, hr⟩)))
      · exact Or.inl (Or.inl (Or.inr ⟨⟨⟨⟨⟨ho, by omega⟩, hp⟩, hz⟩, hl⟩, hr⟩))
    | immediate ho hl =>
      rcases ho with ⟨ho, hv5⟩ | ⟨ho, hv6⟩
      · exact Or.inl (Or.inr ⟨⟨⟨ho, by omega⟩, hp⟩, hl⟩)
      · exact Or.inr ⟨⟨⟨ho, by omega⟩, hp⟩, hl⟩

theorem storesValue_iff : storesValue defined w placed = true ↔ placed = true ∧ Stores defined w := by
  simp only [storesValue, Bool.and_eq_true, beq_iff_eq, decide_eq_true_eq]
  constructor
  · rintro ⟨⟨⟨ho, hp⟩, hz⟩, hd⟩
    exact ⟨hp, ho, hz, hd⟩
  · rintro ⟨hp, h⟩
    exact ⟨⟨⟨h.opcode, hp⟩, h.zero⟩, h.defined⟩

theorem Produces.not_stores (h : Produces version defined w) : ¬ Stores defined w := by
  intro hs
  have := h.opcode
  have := hs.opcode
  omega

end Flags

section Runtime

variable {payload : Payload} {s t : Finset ℕ × ℕ} {defined : Finset ℕ} {index : ℕ}

/-- The body of the instruction loop of `valid_fallback_program`; the state is `defined` with `stores`. -/
def validFallbackInstruction (payload : Payload) (s : Finset ℕ × ℕ) (index : ℕ) :
    Option (Finset ℕ × ℕ) :=
  let instruction := payload.word (12 + index)
  let active := index < payload.word 2
  if ¬ active then if instruction ≠ 0 then none else some s
  else
    let writes := writesValue (payload.word 1) s.1 instruction (index + 1 < payload.word 2)
    let store := storesValue s.1 instruction (index + 1 == payload.word 2)
    if !(writes || store) then none
    else some (if writes then insert (instruction >>> 25 &&& 7) s.1 else s.1, if store then s.2 + 1 else s.2)

/-- `valid_fallback_program`. -/
def validFallbackProgram (payload : Payload) : Bool :=
  if payload.word 0 ≠ 0x52504731 ∨ (payload.word 1 < 1 ∨ payload.word 1 > 6) ∨ payload.word 2 < 2 ∨
      payload.word 2 > 16 ∨ payload.word 3 ≠ 8 then false
  else match (List.range 16).foldlM (validFallbackInstruction payload) (∅, 0) with
    | none => false
    | some s => if ∃ index ∈ List.range' 28 4, payload.word index ≠ 0 then false else s.2 == 1

theorem validFallbackInstruction_eq_some (hv : payload.word 1 ∈ [1, 2, 3, 4, 5, 6]) :
    validFallbackInstruction payload s index = some t ↔
      (index + 1 < payload.word 2 ∧ Produces (payload.word 1) s.1 (payload.word (12 + index)) ∧
        t = (insert (destinationOf (payload.word (12 + index))) s.1, s.2)) ∨
      (index + 1 = payload.word 2 ∧ Stores s.1 (payload.word (12 + index)) ∧ t = (s.1, s.2 + 1)) ∨
      (payload.word 2 ≤ index ∧ payload.word (12 + index) = 0 ∧ t = s) := by
  have hwrites := @writesValue_iff (payload.word 1) (payload.word (12 + index)) s.1
    (index + 1 < payload.word 2) hv
  have hstores := @storesValue_iff (payload.word (12 + index)) s.1 (index + 1 == payload.word 2)
  rw [decide_eq_true_eq] at hwrites
  rw [beq_iff_eq] at hstores
  unfold validFallbackInstruction
  dsimp only
  generalize payload.word (12 + index) = w at *
  by_cases hactive : index < payload.word 2
  · rw [if_neg (not_not.mpr hactive)]
    generalize writesValue (payload.word 1) s.1 w (index + 1 < payload.word 2) = writes at *
    generalize storesValue s.1 w (index + 1 == payload.word 2) = store at *
    cases writes with
    | true =>
      obtain ⟨hbefore, hp⟩ := hwrites.mp rfl
      have hstore : store = false := by
        rw [Bool.eq_false_iff, ne_eq, hstores]
        omega
      simp only [hstore, hbefore, hp, destinationOf, show ¬ index + 1 = payload.word 2 by omega,
        show ¬ payload.word 2 ≤ index by omega]
      simp [eq_comm]
    | false =>
      have hno : ¬ (index + 1 < payload.word 2 ∧ Produces (payload.word 1) s.1 w) := by
        rw [← hwrites]
        simp
      cases store with
      | true =>
        obtain ⟨hlast, hst⟩ := hstores.mp rfl
        simp [hlast, hst, eq_comm (b := t), show ¬ payload.word 2 ≤ index by omega]
      | false =>
        have hns : ¬ (index + 1 = payload.word 2 ∧ Stores s.1 w) := by
          rw [← hstores]
          simp
        simp only [Bool.or_self, Bool.not_false, if_true, ← and_assoc, hno, hns, false_and, false_or]
        simp [show ¬ payload.word 2 ≤ index by omega]
  · rw [if_pos hactive]
    by_cases hw : w = 0
    · simp [hw, eq_comm (b := t), show ¬ index + 1 < payload.word 2 by omega,
        show ¬ index + 1 = payload.word 2 by omega, show payload.word 2 ≤ index by omega]
    · simp [hw, show ¬ index + 1 < payload.word 2 by omega, show ¬ index + 1 = payload.word 2 by omega]

/-- The loop of the runtime, from index `k` on. -/
theorem runtime_scan (hv : payload.word 1 ∈ [1, 2, 3, 4, 5, 6]) {m k stores : ℕ}
    (hs : k < payload.word 2 → stores = 0) :
    (∃ t, (List.range' k m).foldlM (validFallbackInstruction payload) (defined, stores) = some t ∧ t.2 = 1) ↔
      Scan (payload.word 1) (payload.word 2) (fun i => payload.word (12 + i)) m k defined stores := by
  induction m generalizing k defined stores with
  | zero => simp [Scan]
  | succ m ih =>
    simp only [List.range'_succ, List.foldlM_cons, Option.bind_eq_bind, Option.bind_eq_some_iff,
      validFallbackInstruction_eq_some hv, Scan]
    constructor
    · rintro ⟨t, ⟨u, ⟨hk, hp, rfl⟩ | ⟨hk, hst, rfl⟩ | ⟨hk, hw, rfl⟩, hrun⟩, ht⟩
      · exact Or.inl ⟨by omega, hp, (ih fun _ => hs (by omega)).mp ⟨t, hrun, ht⟩⟩
      · exact Or.inr (Or.inl ⟨hk, hst, (ih fun _ => by omega).mp ⟨t, hrun, ht⟩⟩)
      · exact Or.inr (Or.inr ⟨hk, hw, (ih fun _ => by omega).mp ⟨t, hrun, ht⟩⟩)
    · rintro (⟨hk, hp, hrest⟩ | ⟨hk, hst, hrest⟩ | ⟨hk, hw, hrest⟩)
      · by_cases hlast : k + 1 < payload.word 2
        · obtain ⟨t, hrun, ht⟩ := (ih fun _ => hs hk).mpr hrest
          exact ⟨t, ⟨_, Or.inl ⟨hlast, hp, rfl⟩, hrun⟩, ht⟩
        · -- A program that ends in a write has no store left to count.
          have := ((scan_padding (by omega)).mp hrest).1
          have := hs hk
          omega
      · obtain ⟨t, hrun, ht⟩ := (ih fun _ => by omega).mpr hrest
        exact ⟨t, ⟨_, Or.inr (Or.inl ⟨hk, hst, rfl⟩), hrun⟩, ht⟩
      · obtain ⟨t, hrun, ht⟩ := (ih fun _ => by omega).mpr hrest
        exact ⟨t, ⟨_, Or.inr (Or.inr ⟨hk, hw, rfl⟩), hrun⟩, ht⟩

theorem mem_versions {version : ℕ} : version ∈ [1, 2, 3, 4, 5, 6] ↔ 1 ≤ version ∧ version ≤ 6 := by
  simp only [List.mem_cons, List.not_mem_nil, or_false]
  omega

/-- The rules for a payload, from its header, one loop over the sixteen instruction words and the
reserved words. -/
theorem payloadOk_iff {count : ℕ} : PayloadOk payload count ↔
    (payload.word 0 = MAGIC ∧ payload.word 1 ∈ [1, 2, 3, 4, 5, 6] ∧ 2 ≤ count ∧ count ≤ 16 ∧
      payload.word 3 = VALUE_REGISTERS) ∧
    Scan (payload.word 1) count (fun i => payload.word (12 + i)) 16 0 ∅ 0 ∧
    ∀ index ∈ List.range' 28 4, payload.word index = 0 := by
  constructor
  · intro h
    have htwo := h.two_le
    have hle := h.le_capacity
    refine ⟨⟨h.magic, h.version, htwo, hle, h.registers⟩, ?_, fun index hi => ?_⟩
    · rw [scan_iff (by omega) (by omega), Nat.sub_zero, ← List.range_eq_range']
      exact ⟨h.program, fun i h1 h2 => h.padding (12 + i) (by omega) (by omega)⟩
    · rw [List.mem_range'_1] at hi
      exact h.padding index (by omega) (by omega)
  · rintro ⟨⟨hmagic, hversion, htwo, hle, hregisters⟩, hscan, hreserved⟩
    rw [scan_iff (by omega) (by omega), Nat.sub_zero, ← List.range_eq_range'] at hscan
    refine ⟨hmagic, hversion, htwo, hle, hregisters, hscan.1, fun i h1 h2 => ?_⟩
    by_cases hi : i < 28
    · have := hscan.2 (i - 12) (by omega) (by omega)
      rwa [show 12 + (i - 12) = i by omega] at this
    · exact hreserved i (by rw [List.mem_range'_1]; omega)

theorem validFallbackProgram_iff : validFallbackProgram payload = true ↔ PayloadOk payload (payload.word 2) := by
  rw [payloadOk_iff]
  unfold validFallbackProgram
  by_cases hheader : payload.word 0 = MAGIC ∧ payload.word 1 ∈ [1, 2, 3, 4, 5, 6] ∧ 2 ≤ payload.word 2 ∧
      payload.word 2 ≤ 16 ∧ payload.word 3 = VALUE_REGISTERS
  · obtain ⟨hmagic, hv, htwo, hle, hregisters⟩ := hheader
    have hrange := mem_versions.mp hv
    have hscan := @runtime_scan payload ∅ hv 16 0 0 fun _ => rfl
    rw [← List.range_eq_range'] at hscan
    rw [← hscan, if_neg (by rw [hmagic, hregisters]; simp only [MAGIC, VALUE_REGISTERS]; omega)]
    cases (List.range 16).foldlM (validFallbackInstruction payload) (∅, 0) with
    | none => simp
    | some t =>
      simp [hmagic, hv, htwo, hle, hregisters]
      tauto
  · have hbad : payload.word 0 ≠ 0x52504731 ∨ (payload.word 1 < 1 ∨ payload.word 1 > 6) ∨
        payload.word 2 < 2 ∨ payload.word 2 > 16 ∨ payload.word 3 ≠ 8 := by
      rw [mem_versions] at hheader
      simp only [MAGIC, VALUE_REGISTERS] at hheader
      omega
    rw [if_pos hbad]
    exact ⟨fun h => absurd h (by simp), fun h => absurd h.1 hheader⟩

end Runtime

section Reader

variable {payload : Payload} {s t : Finset ℕ × ℕ} {defined : Finset ℕ} {index : ℕ}

/-- The words under the digest of a payload, in the order that every side hashes them. -/
def Payload.hashed (payload : Payload) : List ℕ :=
  payload.word 2 :: (payload.words.drop 12).take (payload.word 2)

/-- Words 4 to 11 are the digest of the count and the instructions. -/
def Payload.Sealed (sha256 : List UInt8 → Digest) (payload : Payload) : Prop :=
  (payload.words.drop 4).take 8 = digestWords (sha256 (wordBytes payload.hashed))

/-- The body of the instruction loop of `validate_program`; the state is `defined` with `stores`. -/
def validateProgramInstruction (payload : Payload) (s : Finset ℕ × ℕ) (index : ℕ) :
    Except String (Finset ℕ × ℕ) := do
  let instruction := payload.word (12 + index)
  let active : Bool := index < payload.word 2
  let writes := writesValue (payload.word 1) s.1 instruction true
  let store := storesValue s.1 instruction (index == payload.word 2 - 1)
  require ((active && !(writes || store)) = false) "dynamic program instruction is invalid"
  require ((!active && instruction != 0) = false) "dynamic program padding is nonzero"
  pure (if writes then insert (instruction >>> 25 &&& 7) s.1 else s.1, if store then s.2 + 1 else s.2)

/-- The program versions that a request version carries. -/
def carries (requestVersion programVersion : ℕ) : Prop :=
  if requestVersion = 5 then ¬ (programVersion < 1 ∨ programVersion > 4)
  else if requestVersion = 6 then programVersion = 5
  else if requestVersion = 7 then programVersion = 6
  else programVersion = requestVersion

instance (requestVersion programVersion : ℕ) : Decidable (carries requestVersion programVersion) := by
  unfold carries
  infer_instance

/-- `validate_program`. -/
def validateProgram (sha256 : List UInt8 → Digest) (payload : Payload) (requestVersion : ℕ) :
    Except String Unit := do
  require (payload.word 0 = 0x52504731 ∧ carries requestVersion (payload.word 1) ∧ ¬ payload.word 2 < 2 ∧
    ¬ payload.word 2 > 16 ∧ payload.word 3 = 8) "dynamic program header is invalid"
  let digestInput := (List.range (payload.word 2 + 1)).map fun index =>
    if index = 0 then payload.word 2 else payload.word (11 + index)
  let digest := sha256 (wordBytes digestInput)
  require (∀ index ∈ List.range 8, payload.word (4 + index) = word (List.ofFn digest) (4 * index))
    "dynamic program digest is invalid"
  let (_, stores) ← (List.range 16).foldlM (validateProgramInstruction payload) (∅, 0)
  require (∀ index ∈ List.range' 28 4, payload.word index = 0) "dynamic program reserved words are nonzero"
  require (stores = 1) "dynamic program must have one final store"

theorem validateProgramInstruction_eq_ok (hv : payload.word 1 ∈ [1, 2, 3, 4, 5, 6])
    (htwo : 2 ≤ payload.word 2) : validateProgramInstruction payload s index = .ok t ↔
      (index < payload.word 2 ∧ Produces (payload.word 1) s.1 (payload.word (12 + index)) ∧
        t = (insert (destinationOf (payload.word (12 + index))) s.1, s.2)) ∨
      (index + 1 = payload.word 2 ∧ Stores s.1 (payload.word (12 + index)) ∧ t = (s.1, s.2 + 1)) ∨
      (payload.word 2 ≤ index ∧ payload.word (12 + index) = 0 ∧ t = s) := by
  have hwrites := @writesValue_iff (payload.word 1) (payload.word (12 + index)) s.1 true hv
  have hstores := @storesValue_iff (payload.word (12 + index)) s.1 (index == payload.word 2 - 1)
  rw [beq_iff_eq, show index = payload.word 2 - 1 ↔ index + 1 = payload.word 2 by omega] at hstores
  simp only [true_and] at hwrites
  unfold validateProgramInstruction
  dsimp only
  rw [require_then_eq_ok, require_then_eq_ok, except_pure_eq_ok]
  generalize payload.word (12 + index) = w at *
  generalize writesValue (payload.word 1) s.1 w true = writes at *
  generalize storesValue s.1 w (index == payload.word 2 - 1) = store at *
  by_cases hactive : index < payload.word 2
  · have hge : ¬ payload.word 2 ≤ index := by omega
    cases writes with
    | true =>
      have hp := hwrites.mp rfl
      have hstore : store = false := by
        rw [Bool.eq_false_iff, ne_eq, hstores]
        exact fun h => hp.not_stores h.2
      simp only [hstore, hactive, hp, hp.not_stores, hge, destinationOf]
      simp [eq_comm]
    | false =>
      have hno : ¬ Produces (payload.word 1) s.1 w := by
        rw [← hwrites]
        simp
      cases store with
      | true =>
        obtain ⟨hlast, hst⟩ := hstores.mp rfl
        simp only [hactive, hno, hlast, hst, hge]
        simp [eq_comm]
      | false =>
        have hns : ¬ (index + 1 = payload.word 2 ∧ Stores s.1 w) := by
          rw [← hstores]
          simp
        simp only [← and_assoc, hns, hno, hactive, hge]
        simp
  · have hge : payload.word 2 ≤ index := by omega
    have hne : ¬ index + 1 = payload.word 2 := by omega
    have hst : store = false := by
      rw [Bool.eq_false_iff, ne_eq, hstores]
      exact fun h => hne h.1
    by_cases hw : w = 0
    · have hwr : writes = false := by
        rw [Bool.eq_false_iff, ne_eq, hwrites]
        intro h
        have := h.opcode
        simp [hw, opcodeOf] at this
      simp only [hactive, hge, hne, hst, hw, hwr]
      simp [eq_comm]
    · simp only [hactive, hge, hne, hw]
      simp [hw]

/-- The loop of the request reader, from index `k` on. -/
theorem reader_scan (hv : payload.word 1 ∈ [1, 2, 3, 4, 5, 6]) (htwo : 2 ≤ payload.word 2)
    {m k stores : ℕ} :
    (∃ d, (List.range' k m).foldlM (validateProgramInstruction payload) (defined, stores) = .ok (d, 1)) ↔
      Scan (payload.word 1) (payload.word 2) (fun i => payload.word (12 + i)) m k defined stores := by
  induction m generalizing k defined stores with
  | zero => simp [Scan, pure, Except.pure]
  | succ m ih =>
    simp only [List.range'_succ, List.foldlM_cons, except_bind_eq_ok, validateProgramInstruction_eq_ok hv htwo,
      Scan, ← ih]
    constructor
    · rintro ⟨d, u, ⟨hk, hp, rfl⟩ | ⟨hk, hst, rfl⟩ | ⟨hk, hw, rfl⟩, hrun⟩
      · exact Or.inl ⟨hk, hp, d, hrun⟩
      · exact Or.inr (Or.inl ⟨hk, hst, d, hrun⟩)
      · exact Or.inr (Or.inr ⟨hk, hw, d, hrun⟩)
    · rintro (⟨hk, hp, d, hrun⟩ | ⟨hk, hst, d, hrun⟩ | ⟨hk, hw, d, hrun⟩)
      · exact ⟨d, _, Or.inl ⟨hk, hp, rfl⟩, hrun⟩
      · exact ⟨d, _, Or.inr (Or.inl ⟨hk, hst, rfl⟩), hrun⟩
      · exact ⟨d, _, Or.inr (Or.inr ⟨hk, hw, rfl⟩), hrun⟩

/-- Some request version carries exactly the program versions 1 to 6. -/
theorem exists_carries {version : ℕ} :
    (∃ request ∈ List.range' 1 7, carries request version) ↔ version ∈ [1, 2, 3, 4, 5, 6] := by
  rw [mem_versions]
  constructor
  · rintro ⟨request, hr, hc⟩
    rw [List.mem_range'_1] at hr
    unfold carries at hc
    split at hc
    · omega
    · split at hc
      · omega
      · split at hc <;> omega
  · rintro ⟨h1, h6⟩
    obtain h | rfl | rfl : version ≤ 4 ∨ version = 5 ∨ version = 6 := by omega
    · refine ⟨version, by rw [List.mem_range'_1]; omega, ?_⟩
      simp [carries, show version ≠ 5 by omega, show version ≠ 6 by omega, show version ≠ 7 by omega]
    · exact ⟨6, by decide, by decide⟩
    · exact ⟨7, by decide, by decide⟩

/-- The reader hashes the words that are sealed. -/
theorem reader_digest {sha256 : List UInt8 → Digest} (hle : payload.word 2 ≤ 16)
    (hsealed : payload.Sealed sha256) : ∀ index ∈ List.range 8, payload.word (4 + index) =
      word (List.ofFn (sha256 (wordBytes ((List.range (payload.word 2 + 1)).map fun index =>
        if index = 0 then payload.word 2 else payload.word (11 + index))))) (4 * index) := by
  have hinput : ((List.range (payload.word 2 + 1)).map fun index =>
      if index = 0 then payload.word 2 else payload.word (11 + index)) = payload.hashed := by
    rw [Payload.hashed, payload.slice (by omega), List.range_succ_eq_map, List.map_cons, List.map_map]
    simp only [if_true, List.cons.injEq, true_and]
    refine List.map_congr_left fun i _ => ?_
    simp only [Function.comp_apply, Nat.succ_ne_zero, if_false]
    rw [show 11 + (i + 1) = 12 + i by omega]
  rw [hinput]
  rw [Payload.Sealed, payload.slice (by omega), digestWords] at hsealed
  exact List.map_inj_left.mp hsealed

/-- A sealed payload that follows the rules passes under every request version that carries it. -/
theorem validateProgram_of_carries {sha256 : List UInt8 → Digest} {request : ℕ} (hsealed : payload.Sealed sha256)
    (h : PayloadOk payload (payload.word 2)) (hc : carries request (payload.word 1)) :
    validateProgram sha256 payload request = .ok () := by
  obtain ⟨⟨hmagic, hv, htwo, hle, hregisters⟩, hscan, hreserved⟩ := payloadOk_iff.mp h
  obtain ⟨d, hrun⟩ := (reader_scan hv htwo).mpr hscan
  rw [← List.range_eq_range'] at hrun
  exact require_then_eq_ok.mpr ⟨⟨hmagic, hc, by omega, by omega, hregisters⟩,
    require_then_eq_ok.mpr ⟨reader_digest hle hsealed, except_bind_eq_ok.mpr ⟨(d, 1), hrun,
    require_then_eq_ok.mpr ⟨hreserved, require_eq_ok.mpr rfl⟩⟩⟩⟩

theorem validateProgram_iff {sha256 : List UInt8 → Digest} (hsealed : payload.Sealed sha256) :
    (∃ request ∈ List.range' 1 7, validateProgram sha256 payload request = .ok ()) ↔
      PayloadOk payload (payload.word 2) := by
  constructor
  · rintro ⟨request, hr, h⟩
    obtain ⟨⟨hmagic, hc, htwo, hle, hregisters⟩, h⟩ := require_then_eq_ok.mp h
    obtain ⟨-, h⟩ := require_then_eq_ok.mp h
    obtain ⟨⟨d, stores⟩, hrun, h⟩ := except_bind_eq_ok.mp h
    obtain ⟨hreserved, h⟩ := require_then_eq_ok.mp h
    obtain rfl : stores = 1 := require_eq_ok.mp h
    have hv := exists_carries.mp ⟨request, hr, hc⟩
    rw [List.range_eq_range'] at hrun
    exact payloadOk_iff.mpr ⟨⟨hmagic, hv, by omega, by omega, hregisters⟩,
      (reader_scan hv (by omega)).mp ⟨d, hrun⟩, hreserved⟩
  · intro h
    obtain ⟨request, hr, hc⟩ := exists_carries.mpr h.version
    exact ⟨request, hr, validateProgram_of_carries hsealed h hc⟩

end Reader

section Fallback

/-- The program dictionary that carries a payload. -/
def Payload.image (sha256 : List UInt8 → Digest) (payload : Payload) (affine : Affine) : Image where
  affine := affine
  instructionCount := payload.word 2
  instructions := (payload.words.drop 12).take (payload.word 2)
  programSha256 := sha256 (wordBytes payload.hashed)
  payload := payload.words

theorem validateFallback_iff {sha256 : List UInt8 → Digest} {payload : Payload} (affine : Affine)
    (hsealed : payload.Sealed sha256) :
    (∃ l, validateFallbackProgram sha256 (payload.image sha256 affine) = .ok l) ↔
      PayloadOk payload (payload.word 2) := by
  constructor
  · rintro ⟨l, hl⟩
    obtain ⟨h, -⟩ := validateFallbackProgram_eq_ok.mp hl
    obtain ⟨htwo, hle, -, -, hpad⟩ := h.count
    have hle : payload.word 2 ≤ 16 := hle
    have hprogram : ProgramOk (payload.word 1) ∅ ((payload.words.drop 12).take (payload.word 2)) := h.program
    rw [payload.slice (by omega)] at hprogram
    refine ⟨h.magic, h.version, htwo, hle, h.registers, hprogram, fun i h1 h2 => ?_⟩
    refine hpad _ (List.mem_iff_getElem?.mpr ⟨i - (12 + payload.word 2), ?_⟩)
    change (payload.words.drop (12 + payload.word 2))[i - (12 + payload.word 2)]? = _
    have hi : i < payload.words.length := by
      rw [payload.length]
      exact h2
    rw [List.getElem?_drop, Nat.add_sub_cancel' h1, Payload.word, List.getD_eq_getElem?_getD,
      List.getElem?_eq_getElem hi]
    rfl
  · intro h
    have hle := h.le_capacity
    refine ⟨_, validateFallbackProgram_eq_ok.mpr ⟨⟨payload.length, fun w hw => ?_, h.magic, h.version,
      h.registers, ⟨h.two_le, hle, rfl, rfl, fun pad hpad => ?_⟩, rfl, hsealed, ?_⟩, rfl⟩⟩
    · have := payload.lt w hw
      omega
    · obtain ⟨i, hi⟩ := List.mem_iff_getElem?.mp hpad
      change (payload.words.drop (12 + payload.word 2))[i]? = _ at hi
      rw [List.getElem?_drop] at hi
      have hlt := (List.getElem?_eq_some_iff.mp hi).1
      rw [payload.length] at hlt
      have := h.padding (12 + payload.word 2 + i) (by omega) hlt
      rwa [Payload.word, List.getD_eq_getElem?_getD, hi] at this
    · have hprogram := h.program
      rwa [← payload.slice (by omega)] at hprogram

end Fallback

end Raveil.Graph
