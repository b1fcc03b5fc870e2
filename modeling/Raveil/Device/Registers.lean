import Raveil.Device.Shell

/-! The register map of the shell: what a write asks for, and when it is accepted. -/
namespace Raveil.Device

/-- What a write can do to the core. -/
inductive Operation
  | reset | start | cancel
  | configClear | configWrite (address : BitVec 5) (data : BitVec 32) | configCommit
  | programClear | programWrite (address : BitVec 6) (data : BitVec 32) | programCommit
  | stage (address : BitVec 9) (data : BitVec 32)
  deriving DecidableEq

section Map

/-- The map of the registers: what a write asks for. -/
def operation (address data : BitVec 32) : Option Operation :=
  let a := address.toNat
  if a = 0x0010 then
    if data = 4 then some .reset else if data = 1 then some .start else if data = 2 then some .cancel else none
  else if 0x0400 ≤ a ∧ a < 0x0910 then some (.stage (BitVec.ofNat 9 ((a - 0x0400) / 4)) data)
  else if a = 0x2010 then if data = 1 then some .configClear else if data = 2 then some .configCommit else none
  else if 0x2400 ≤ a ∧ a < 0x2440 then some (.configWrite (BitVec.ofNat 5 ((a - 0x2400) / 4)) data)
  else if a = 0x3010 then if data = 1 then some .programClear else if data = 2 then some .programCommit else none
  else if 0x3400 ≤ a ∧ a < 0x3480 then some (.programWrite (BitVec.ofNat 6 ((a - 0x3400) / 4)) data)
  else none

/-- What a mutation does on the wires of the core. -/
def Mutation.operation (address : BitVec 9) (data : BitVec 32) : Mutation → Option Operation
  | .none => Option.none
  | .configClear => some .configClear
  | .configWrite => some (.configWrite (address.extractLsb 4 0) data)
  | .configCommit => some .configCommit
  | .programClear => some .programClear
  | .programWrite => some (.programWrite (address.extractLsb 5 0) data)
  | .programCommit => some .programCommit
  | .inputStage => some (.stage address data)
  | .start => some .start
  | .cancel => some .cancel

theorem wordOf_toNat (a : BitVec 32) :
    (wordOf a).toNat = if a.toNat < 8192 then a.toNat / 4 else a.toNat / 4 % 1024 := by
  have he : execution a = decide (a.toNat < 8192) := rfl
  rw [wordOf, he]
  by_cases h : a.toNat < 8192
  · rw [if_pos (decide_eq_true h), if_pos h, BitVec.extractLsb_toNat, Nat.shiftRight_eq_div_pow]
    omega
  · rw [if_neg (by rw [decide_eq_false h]; exact Bool.false_ne_true), if_neg h, BitVec.toNat_setWidth,
      BitVec.extractLsb_toNat, Nat.shiftRight_eq_div_pow]
    omega

theorem aligned_iff (a : BitVec 32) : aligned a = true ↔ a.toNat % 4 = 0 := by
  rw [aligned, beq_iff_eq, ← BitVec.toNat_inj, BitVec.extractLsb_toNat, Nat.shiftRight_zero]
  rfl

/-- The index of a payload word, as the shell cuts it out. -/
theorem wordIndex_toNat (a : BitVec 32) (h : 256 ≤ (wordOf a).toNat) :
    ((wordOf a - 256).extractLsb 8 0).toNat = ((wordOf a).toNat - 256) % 512 := by
  have hlt := (wordOf a).isLt
  rw [BitVec.extractLsb_toNat, BitVec.toNat_sub, Nat.shiftRight_zero]
  simp only [BitVec.reduceToNat]
  omega

variable {s : Shell}

theorem word_range {a : BitVec 32} {n : ℕ} (hn : n < 2048) : (wordOf a ≥ 256 && wordOf a < BitVec.ofNat 11 n) = true ↔
    256 ≤ (wordOf a).toNat ∧ (wordOf a).toNat < n := by
  rw [Bool.and_eq_true, decide_eq_true_iff, decide_eq_true_iff, ge_iff_le, BitVec.le_def, BitVec.lt_def,
    BitVec.toNat_ofNat, Nat.mod_eq_of_lt hn]
  rfl

theorem execution_iff {a : BitVec 32} : execution a = true ↔ a.toNat < 8192 := by
  rw [execution, decide_eq_true_iff, BitVec.lt_def]
  rfl

theorem configuration_iff {a : BitVec 32} : configuration a = true ↔ 8192 ≤ a.toNat ∧ a.toNat < 12288 := by
  rw [configuration, Bool.and_eq_true, decide_eq_true_iff, decide_eq_true_iff, ge_iff_le, BitVec.le_def, BitVec.lt_def]
  rfl

theorem programming_iff {a : BitVec 32} : programming a = true ↔ 12288 ≤ a.toNat ∧ a.toNat < 16384 := by
  rw [programming, Bool.and_eq_true, decide_eq_true_iff, decide_eq_true_iff, ge_iff_le, BitVec.le_def, BitVec.lt_def]
  rfl

/-- The control word of a window. -/
theorem control_iff {a : BitVec 32} {base : ℕ} (hb : base = 0 ∨ base = 8192 ∨ base = 12288)
    (ha : base ≤ a.toNat ∧ a.toNat < base + 4096) (haligned : a.toNat % 4 = 0) :
    (wordOf a == 4) = true ↔ a.toNat = base + 16 := by
  have hword := wordOf_toNat a
  rw [beq_iff_eq, ← BitVec.toNat_inj]
  change _ = 4 ↔ _
  split at hword <;> omega

/-- What an accepted mutation is, with what the shell checks of it. -/
inductive Decoded (s : Shell) : Mutation → Prop
  | configClear (ha : s.savedAw.toNat = 0x2010) (hd : s.savedW = 1) : Decoded s .configClear
  | configWrite (hl : 0x2400 ≤ s.savedAw.toNat) (hu : s.savedAw.toNat < 0x2440) : Decoded s .configWrite
  | configCommit (ha : s.savedAw.toNat = 0x2010) (hd : s.savedW = 2) : Decoded s .configCommit
  | programClear (ha : s.savedAw.toNat = 0x3010) (hd : s.savedW = 1) : Decoded s .programClear
  | programWrite (hl : 0x3400 ≤ s.savedAw.toNat) (hu : s.savedAw.toNat < 0x3480) : Decoded s .programWrite
  | programCommit (ha : s.savedAw.toNat = 0x3010) (hd : s.savedW = 2) : Decoded s .programCommit
  | inputStage (hl : 0x0400 ≤ s.savedAw.toNat) (hu : s.savedAw.toNat < 0x0910)
      (hi : (s.savedAw.toNat - 0x0400) / 4 = s.stagedWords.toNat) (hb : s.device.core.busy = false) :
      Decoded s .inputStage
  | start (ha : s.savedAw.toNat = 0x0010) (hd : s.savedW = 1) (hw : s.stagedWords = 324)
      (hb : s.device.core.busy = false) (hc : s.device.configReady = true) (hl : s.device.config.loading = false)
      (hp : s.device.programReady = true) (hq : programLoading s.device.program = false) : Decoded s .start
  | cancel (ha : s.savedAw.toNat = 0x0010) (hd : s.savedW = 2) (hb : s.device.core.busy = true) : Decoded s .cancel

theorem decoded_of_accepted (h : s.acceptedMutation = true) : Decoded s s.decodedKind := by
  simp only [Shell.acceptedMutation, Bool.and_eq_true, aligned_iff] at h
  obtain ⟨⟨haligned, -⟩, hmutation⟩ := h
  have hword := wordOf_toNat s.savedAw
  unfold Shell.decodedKind
  by_cases h1 : s.configControl = true
  · rw [if_pos h1]
    simp only [Shell.configControl, Bool.and_eq_true, configuration_iff, Bool.or_eq_true, beq_iff_eq] at h1
    obtain ⟨⟨hrange, hfour⟩, hdata⟩ := h1
    have haddress := (control_iff (Or.inr (Or.inl rfl)) hrange haligned).mp (beq_iff_eq.mpr hfour)
    rcases hdata with hd | hd
    · rw [if_pos (beq_iff_eq.mpr hd)]
      exact .configClear haddress hd
    · rw [if_neg (by rw [hd]; decide)]
      exact .configCommit haddress hd
  rw [if_neg h1]
  by_cases h2 : s.configPayload = true
  · rw [if_pos h2]
    rw [Shell.configPayload, Bool.and_assoc, Bool.and_eq_true, configuration_iff] at h2
    obtain ⟨hrange, hwords⟩ := h2
    obtain ⟨hl, hu⟩ := (word_range (n := 272) (by decide)).mp hwords
    rw [if_neg (by omega)] at hword
    exact .configWrite (by omega) (by omega)
  rw [if_neg h2]
  by_cases h3 : s.programControl = true
  · rw [if_pos h3]
    simp only [Shell.programControl, Bool.and_eq_true, programming_iff, Bool.or_eq_true, beq_iff_eq] at h3
    obtain ⟨⟨hrange, hfour⟩, hdata⟩ := h3
    have haddress := (control_iff (Or.inr (Or.inr rfl)) hrange haligned).mp (beq_iff_eq.mpr hfour)
    rcases hdata with hd | hd
    · rw [if_pos (beq_iff_eq.mpr hd)]
      exact .programClear haddress hd
    · rw [if_neg (by rw [hd]; decide)]
      exact .programCommit haddress hd
  rw [if_neg h3]
  by_cases h4 : s.programPayload = true
  · rw [if_pos h4]
    rw [Shell.programPayload, Bool.and_assoc, Bool.and_eq_true, programming_iff] at h4
    obtain ⟨hrange, hwords⟩ := h4
    obtain ⟨hl, hu⟩ := (word_range (n := 288) (by decide)).mp hwords
    rw [if_neg (by omega)] at hword
    exact .programWrite (by omega) (by omega)
  rw [if_neg h4]
  by_cases h5 : s.inputPayload = true
  · rw [if_pos h5]
    rw [Shell.inputPayload, Bool.and_eq_true, Bool.and_eq_true, Bool.and_assoc, Bool.and_eq_true, execution_iff,
      Bool.not_eq_true', beq_iff_eq, ← BitVec.toNat_inj] at h5
    obtain ⟨⟨⟨hrange, hwords⟩, hindex⟩, hb⟩ := h5
    obtain ⟨hl, hu⟩ := (word_range (n := 580) (by decide)).mp hwords
    rw [if_pos hrange] at hword
    refine .inputStage (by omega) (by omega) ?_ hb
    have hsub : (wordOf s.savedAw - 256).toNat = (wordOf s.savedAw).toNat - 256 := by
      rw [BitVec.toNat_sub]
      simp only [BitVec.reduceToNat]
      omega
    have hlt := s.stagedWords.isLt
    rw [hsub, BitVec.toNat_setWidth, Nat.mod_eq_of_lt (by omega)] at hindex
    omega
  rw [if_neg h5]
  by_cases h6 : s.executionStart = true
  · rw [if_pos h6]
    simp only [Shell.executionStart, Bool.and_eq_true, beq_iff_eq, Bool.not_eq_true'] at h6
    obtain ⟨⟨⟨⟨⟨⟨⟨⟨⟨⟨hexec, hfour⟩, hd⟩, hstaged⟩, hb⟩, hci⟩, hcl⟩, hcf⟩, hpi⟩, hpl⟩, hpf⟩ := h6
    rw [execution_iff] at hexec
    rw [hfour, if_pos hexec] at hword
    have haddress : s.savedAw.toNat = 0x0010 := by
      change 4 = _ at hword
      omega
    exact .start haddress hd hstaged hb (by rw [Region.configReady, hci, hcf]; rfl) hcl
      (by rw [Region.programReady, hpi, hpf]; rfl) hpl
  rw [if_neg h6]
  have h7 : s.executionCancel = true := by
    rw [Shell.mutation, Bool.and_eq_true] at hmutation
    simpa [h1, h2, h3, h4, h5, h6] using hmutation.2
  simp only [Shell.executionCancel, Bool.and_eq_true, beq_iff_eq] at h7
  obtain ⟨⟨⟨hexec, hfour⟩, hd⟩, hb⟩ := h7
  rw [execution_iff] at hexec
  rw [hfour, if_pos hexec] at hword
  have haddress : s.savedAw.toNat = 0x0010 := by
    change 4 = _ at hword
    omega
  exact .cancel haddress hd hb

/-- A write that is accepted does what the map says. -/
theorem operation_of_accepted (h : s.acceptedMutation = true) :
    s.decodedKind.operation ((wordOf s.savedAw - 256).extractLsb 8 0) s.savedW =
      operation s.savedAw s.savedW := by
  have hdecoded := decoded_of_accepted h
  have hword := wordOf_toNat s.savedAw
  have hindex := wordIndex_toNat s.savedAw
  generalize s.decodedKind = kind at hdecoded
  cases hdecoded with
  | configClear ha hd => simp [operation, Mutation.operation, ha, hd]
  | configCommit ha hd => simp [operation, Mutation.operation, ha, hd]
  | programClear ha hd => simp [operation, Mutation.operation, ha, hd]
  | programCommit ha hd => simp [operation, Mutation.operation, ha, hd]
  | start ha hd => simp [operation, Mutation.operation, ha, hd]
  | cancel ha hd => simp [operation, Mutation.operation, ha, hd]
  | configWrite hl hu =>
    rw [if_neg (by omega)] at hword
    have hi := hindex (by omega)
    rw [operation, if_neg (by omega), if_neg (by omega), if_neg (by omega), if_pos ⟨hl, hu⟩, Mutation.operation]
    congr 2
    apply BitVec.eq_of_toNat_eq
    rw [BitVec.extractLsb_toNat, hi, BitVec.toNat_ofNat, Nat.shiftRight_zero]
    omega
  | programWrite hl hu =>
    rw [if_neg (by omega)] at hword
    have hi := hindex (by omega)
    rw [operation, if_neg (by omega), if_neg (by omega), if_neg (by omega), if_neg (by omega), if_neg (by omega),
      if_pos ⟨hl, hu⟩, Mutation.operation]
    congr 2
    apply BitVec.eq_of_toNat_eq
    rw [BitVec.extractLsb_toNat, hi, BitVec.toNat_ofNat, Nat.shiftRight_zero]
    omega
  | inputStage hl hu =>
    rw [if_pos (by omega)] at hword
    have hi := hindex (by omega)
    rw [operation, if_neg (by omega), if_pos ⟨hl, hu⟩, Mutation.operation]
    congr 2
    apply BitVec.eq_of_toNat_eq
    rw [hi, BitVec.toNat_ofNat]
    omega

/-- An accepted reset is a write of 4 to the control word. -/
theorem operation_of_reset (h : s.acceptedReset = true) : operation s.savedAw s.savedW = some .reset := by
  simp only [Shell.acceptedReset, Shell.resetWrite, Bool.and_eq_true, beq_iff_eq] at h
  obtain ⟨-, ⟨ha, hd⟩, -⟩ := h
  rw [ha, hd]
  rfl

/-- OKAY is for what is accepted. -/
theorem writeResponse_okay : s.writeResponse = .okay ↔ (s.acceptedReset || s.acceptedMutation) = true := by
  rw [Shell.writeResponse]
  cases ha : aligned s.savedAw with
  | false => simp [Shell.acceptedReset, Shell.acceptedMutation, ha]
  | true =>
    cases hi : s.writeInAperture with
    | false => simp [Shell.acceptedReset, Shell.acceptedMutation, hi]
    | true => cases s.acceptedReset <;> cases s.acceptedMutation <;> simp

/-- The address of an output word. -/
def outputAddress (k : ℕ) : BitVec 32 := BitVec.ofNat 32 (4096 + 4 * k)

theorem outputAddress_word {k : ℕ} (hk : k < 256) : aligned (outputAddress k) = true ∧
    Shell.outputWord (outputAddress k) = true ∧ ((wordOf (outputAddress k) - 1024).extractLsb 7 0).toNat = k := by
  have haddress : (outputAddress k).toNat = 4096 + 4 * k := by
    rw [outputAddress, BitVec.toNat_ofNat, Nat.mod_eq_of_lt (by omega)]
  have hword : (wordOf (outputAddress k)).toNat = 1024 + k := by
    rw [wordOf_toNat, haddress, if_pos (by omega)]
    omega
  refine ⟨?_, ?_, ?_⟩
  · rw [aligned_iff, haddress]
    omega
  · simp only [Shell.outputWord, Bool.and_eq_true, execution_iff, decide_eq_true_eq, ge_iff_le, BitVec.le_def,
      BitVec.lt_def, haddress, hword, BitVec.reduceToNat]
    omega
  · rw [BitVec.extractLsb_toNat, BitVec.toNat_sub, hword, Nat.shiftRight_zero]
    simp only [BitVec.reduceToNat]
    omega

/-- The next input word is taken. -/
theorem accepted_stage (ha : s.savedAw.toNat = 1024 + 4 * n) (hn : n < 324) (hstrb : s.savedStrb = 0xf)
    (hwords : s.stagedWords.toNat = n) (hb : s.device.core.busy = false) :
    s.acceptedMutation = true ∧ s.decodedKind = .inputStage := by
  have hexecution : execution s.savedAw = true := execution_iff.mpr (by omega)
  have hconfig : configuration s.savedAw = false := by
    rw [← Bool.not_eq_true, configuration_iff]
    omega
  have hprogram : programming s.savedAw = false := by
    rw [← Bool.not_eq_true, programming_iff]
    omega
  have hword : (wordOf s.savedAw).toNat = 256 + n := by
    rw [wordOf_toNat, if_pos (by omega)]
    omega
  have hpayload : s.inputPayload = true := by
    have hnext : wordOf s.savedAw - 256 == s.stagedWords.setWidth 11 := by
      rw [beq_iff_eq, ← BitVec.toNat_inj, BitVec.toNat_sub, hword, BitVec.toNat_setWidth, hwords]
      simp only [BitVec.reduceToNat]
      omega
    have hrange := (@word_range s.savedAw 580 (by decide)).mpr (by omega)
    rw [Shell.inputPayload, hexecution, Bool.true_and, hnext, hb]
    simpa using hrange
  have haligned : aligned s.savedAw = true := (aligned_iff _).mpr (by omega)
  have haperture : s.writeInAperture = true := by
    rw [Shell.writeInAperture, decide_eq_true_iff, BitVec.lt_def]
    simp only [BitVec.reduceToNat]
    omega
  constructor
  · simp [Shell.acceptedMutation, Shell.mutation, Shell.full, haligned, haperture, hpayload, hstrb]
  · simp [Shell.decodedKind, Shell.configControl, Shell.configPayload, Shell.programControl, Shell.programPayload,
      hconfig, hprogram, hpayload]

/-- A start is taken once all words are there. -/
theorem accepted_start (ha : s.savedAw = 0x10) (hw : s.savedW = 1) (hstrb : s.savedStrb = 0xf)
    (hwords : s.stagedWords = 324) (hb : s.device.core.busy = false) (hconfig : s.device.config = .reset)
    (hprogram : s.device.program = .reset) : s.acceptedMutation = true ∧ s.decodedKind = .start := by
  have hstart : s.executionStart = true := by
    rw [Shell.executionStart, ha, hw, hwords, hb, hconfig, hprogram]
    decide
  have haddress : aligned 0x10#32 = true ∧ configuration 0x10#32 = false ∧ programming 0x10#32 = false ∧
      ¬ 256#11 ≤ wordOf 0x10#32 := by decide
  obtain ⟨h1, h2, h3, h4⟩ := haddress
  have haperture : s.writeInAperture = true := by
    rw [Shell.writeInAperture, ha]
    decide
  constructor
  · simp [Shell.acceptedMutation, Shell.mutation, Shell.full, haperture, hstart, hstrb, ha, h1]
  · simp [Shell.decodedKind, Shell.configControl, Shell.configPayload, Shell.programControl, Shell.programPayload,
      Shell.inputPayload, hstart, ha, h2, h3, h4]

end Map

end Raveil.Device
