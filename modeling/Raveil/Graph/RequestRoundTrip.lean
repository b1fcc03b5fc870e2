import Raveil.Graph.Request

/-! What the host writes for a dynamic request is what the device side reads. -/
namespace Raveil.Graph
open Raveil.Lib

section Identity

variable {c : Char} {graphId : String}

/-- The characters of an identifier. -/
def IdChar (c : Char) : Prop := c.isAlphanum = true ∨ c = '.' ∨ c = '_' ∨ c = '-'

theorem isAlphanum_iff : c.isAlphanum = true ↔
    (65 ≤ c.toNat ∧ c.toNat ≤ 90) ∨ (97 ≤ c.toNat ∧ c.toNat ≤ 122) ∨ (48 ≤ c.toNat ∧ c.toNat ≤ 57) := by
  have hclasses : c.isAlphanum = ((decide (c.val ≥ 'A'.val ∧ c.val ≤ 'Z'.val) ||
      (decide (c.val ≥ 'a'.val) && decide (c.val ≤ 'z'.val))) ||
      (decide (c.val ≥ '0'.val) && decide (c.val ≤ '9'.val))) := rfl
  simp only [hclasses, Char.toNat, Bool.or_eq_true, Bool.and_eq_true, decide_eq_true_eq, ge_iff_le,
    UInt32.le_iff_toNat_le]
  exact or_assoc

theorem IdChar.bounds (h : IdChar c) : 0 < c.toNat ∧ c.toNat < 128 := by
  rcases h with h | rfl | rfl | rfl
  · rw [isAlphanum_iff] at h
    omega
  · decide
  · decide
  · decide

theorem alphanumeric_ofNat {n : ℕ} (h : n < 256) : alphanumeric (UInt8.ofNat n) = true ↔
    (65 ≤ n ∧ n ≤ 90) ∨ (97 ≤ n ∧ n ≤ 122) ∨ (48 ≤ n ∧ n ≤ 57) := by
  simp only [alphanumeric, Bool.or_eq_true, Bool.and_eq_true, decide_eq_true_eq, UInt8.le_iff_toNat_le,
    UInt8.toNat_ofNat', Nat.mod_eq_of_lt h, UInt8.reduceToNat]
  exact or_assoc

/-- The byte of an identifier's character is one that the reader takes. -/
theorem IdChar.byte (h : IdChar c) : (alphanumeric (UInt8.ofNat c.toNat) || UInt8.ofNat c.toNat == 0x2e ||
    UInt8.ofNat c.toNat == 0x5f || UInt8.ofNat c.toNat == 0x2d) = true := by
  have hlt := h.bounds.2
  rcases h with h | rfl | rfl | rfl
  · have := (alphanumeric_ofNat (by omega)).mpr (isAlphanum_iff.mp h)
    simp [this]
  · decide
  · decide
  · decide

theorem IdChar.toNat_byte (h : IdChar c) : (UInt8.ofNat c.toNat).toNat = c.toNat := by
  have := h.bounds
  rw [UInt8.toNat_ofNat', Nat.mod_eq_of_lt (by omega)]

theorem IdChar.ne_zero (h : IdChar c) : UInt8.ofNat c.toNat ≠ 0 := by
  intro h0
  have hbyte := h.toNat_byte
  have hpos := h.bounds.1
  rw [h0] at hbyte
  simp only [UInt8.toNat_zero] at hbyte
  omega

theorem identifier_eq_true (h : identifier graphId = true) : ∃ first rest, graphId.toList = first :: rest ∧
    first.isAlphanum = true ∧ rest.length ≤ 30 ∧ ∀ c ∈ first :: rest, IdChar c := by
  unfold identifier at h
  cases hs : graphId.toList with
  | nil => simp [hs] at h
  | cons first rest =>
    simp only [hs, Bool.and_eq_true, decide_eq_true_eq, List.all_eq_true, Bool.or_eq_true, beq_iff_eq] at h
    obtain ⟨⟨hfirst, hlen⟩, hrest⟩ := h
    refine ⟨first, rest, rfl, hfirst, hlen, fun c hc => ?_⟩
    rcases List.mem_cons.mp hc with rfl | hc
    · exact Or.inl hfirst
    · rcases hrest c hc with ((h | h) | h) | h
      · exact Or.inl h
      · exact Or.inr (Or.inl h)
      · exact Or.inr (Or.inr (Or.inl h))
      · exact Or.inr (Or.inr (Or.inr h))

theorem length_graphIdBytes (h : identifier graphId = true) : (graphIdBytes graphId).length = 32 := by
  obtain ⟨first, rest, hs, -, hlen, -⟩ := identifier_eq_true h
  simp [graphIdBytes, hs, GRAPH_ID_BYTES]
  omega

/-- The identity field of an admitted identifier is read back. -/
theorem readGraphId_graphIdBytes (h : identifier graphId = true) :
    readGraphId (graphIdBytes graphId) = .ok graphId := by
  obtain ⟨first, rest, hs, hfirst, hlen, hchars⟩ := identifier_eq_true h
  obtain ⟨bytes, hbytes⟩ : ∃ bytes, bytes = graphId.toList.map fun c => UInt8.ofNat c.toNat := ⟨_, rfl⟩
  have hblen : bytes.length = rest.length + 1 := by simp [hbytes, hs]
  have hvalid : ∀ value ∈ bytes, value ≠ 0 ∧
      (alphanumeric value || value == 0x2e || value == 0x5f || value == 0x2d) = true := by
    intro value hvalue
    rw [hbytes, hs] at hvalue
    obtain ⟨c, hc, rfl⟩ := List.mem_map.mp hvalue
    exact ⟨(hchars c hc).ne_zero, (hchars c hc).byte⟩
  obtain ⟨k, hfield⟩ : ∃ k, graphIdBytes graphId = bytes ++ 0 :: List.replicate k 0 := by
    refine ⟨GRAPH_ID_BYTES - (bytes ++ [0]).length, ?_⟩
    rw [graphIdBytes, ← hbytes]
    simp
  have htext : (graphIdBytes graphId).takeWhile (· ≠ 0) = bytes := by
    rw [hfield, List.takeWhile_append_of_pos fun value hv => by simpa using (hvalid value hv).1]
    simp
  have hback : bytes.map (fun value => Char.ofNat value.toNat) = graphId.toList := by
    rw [hbytes, List.map_map, hs]
    conv_rhs => rw [← List.map_id (first :: rest)]
    refine List.map_congr_left fun c hc => ?_
    rw [Function.comp_apply, (hchars c hc).toNat_byte, Char.ofNat_toNat]
    rfl
  unfold readGraphId
  simp only [htext]
  refine require_then_eq_ok.mpr ⟨List.all_eq_true.mpr fun value hv => (hvalid value hv).2, require_then_eq_ok.mpr ⟨?_,
    require_then_eq_ok.mpr ⟨?_, require_then_eq_ok.mpr ⟨?_, ?_⟩⟩⟩⟩
  · rw [hfield]
    simp [hblen]
    omega
  · rw [hfield]
    simp
  · rw [hfield, hbytes, hs]
    have := (hchars first (by simp)).bounds.2
    simpa using (alphanumeric_ofNat (by omega)).mpr (isAlphanum_iff.mp hfirst)
  · rw [hback, String.ofList_toList]
    rfl

end Identity

section Input

variable {seed : ℕ} {words : List ℕ}

theorem mask32 (n : ℕ) : n &&& 0xFFFFFFFF = n % 2 ^ 32 := Nat.and_two_pow_sub_one_eq_mod n 32

/-- The masked sum of Python is the wrapping one of the reader. -/
theorem expectedWord_toNat (hs : seed < 2 ^ 32) {index : ℕ} (hi : index < 324) :
    (((index + 1) * (seed * 2654435761 &&& 0xFFFFFFFF)) ^^^ index <<< (seed &&& 7) ^^^ seed * 17) &&&
      0xFFFFFFFF = (expectedWord (UInt32.ofNat seed) index).toNat := by
  have hshift : seed &&& 7 < 8 := and_seven_lt seed
  rw [mask32, mask32, Nat.xor_mod_two_pow, Nat.xor_mod_two_pow]
  unfold expectedWord
  simp only [UInt32.toNat_xor, UInt32.toNat_mul, UInt32.toNat_shiftLeft, UInt32.toNat_and, UInt32.toNat_ofNat',
    UInt32.reduceToNat, Nat.mod_eq_of_lt hs, Nat.mod_eq_of_lt (show index < 2 ^ 32 by omega),
    Nat.mod_eq_of_lt (show index + 1 < 2 ^ 32 by omega), Nat.mod_eq_of_lt (show seed &&& 7 < 32 by omega)]

theorem inputWords_eq (hs : seed < 2 ^ 32) : inputWords seed =
    .ok ((List.range 324).map fun index => (expectedWord (UInt32.ofNat seed) index).toNat) := by
  have hrange : ¬ ((seed : ℤ) < 0 ∨ (seed : ℤ) > 0xFFFFFFFF) := by omega
  refine require_then_eq_ok.mpr ⟨hrange, except_pure_eq_ok.mpr ?_⟩
  apply List.map_congr_left
  intro index hi
  simp only [Int.toNat_natCast]
  exact expectedWord_toNat hs (List.mem_range.mp hi)

theorem getD_map_range {n : ℕ} (f : ℕ → ℕ) {index : ℕ} (hi : index ∈ List.range n) :
    ((List.range n).map f).getD index 0 = f index := by
  rw [List.getD_eq_getElem?_getD, List.getElem?_map, List.getElem?_range (List.mem_range.mp hi)]
  rfl

theorem inputWords_eq_ok (h : inputWords seed = .ok words) : words.length = 324 ∧ (∀ w ∈ words, w < 2 ^ 32) ∧
    validateInput words seed = .ok () := by
  have hs : seed < 2 ^ 32 := by
    unfold inputWords at h
    obtain ⟨hs, -⟩ := require_then_eq_ok.mp h
    omega
  rw [inputWords_eq hs] at h
  obtain rfl := Except.ok.inj h
  refine ⟨by simp, fun w hw => ?_, require_eq_ok.mpr fun index hi => getD_map_range _ hi⟩
  obtain ⟨index, -, rfl⟩ := List.mem_map.mp hw
  exact UInt32.toNat_lt _

end Input

section Words

variable {n : ℕ} {ws : List ℕ} {bytes rest : List UInt8}

theorem wordBytes_eq (h : ∀ w ∈ ws, w < 2 ^ 32) : wordBytes ws = packWords ws := by
  have hmap : ws.map (fun w => w &&& 0xffffffff) = ws.map id := by
    refine List.map_congr_left fun w hw => ?_
    rw [mask32, Nat.mod_eq_of_lt (h w hw), id_eq]
  rw [wordBytes, hmap, List.map_id]

theorem length_wordBytes (ws : List ℕ) : (wordBytes ws).length = 4 * ws.length := by
  rw [wordBytes, length_packWords, List.length_map]

theorem unpackWords_packWords (hn : ws.length = n) (h : ∀ w ∈ ws, w < 2 ^ 32) (rest : List UInt8) :
    unpackWords n (packWords ws ++ rest) = ws := by
  apply List.ext_getElem
  · simp [unpackWords, hn]
  · intro i h1 h2
    simp only [unpackWords, List.getElem_map, List.getElem_range]
    exact word_packWords_append rest (List.getElem?_eq_getElem h2) (h _ (List.getElem_mem h2))

end Words

section Profiles

variable {sha256 : List UInt8 → Digest} {affine : Affine} {profile : Profile}

/-- The profile of a name and its base. -/
def profileOf (sha256 : List UInt8 → Digest) (name : String) (base : ProfileBase) : Profile :=
  { base with name := name, configurationSha256 := sha256 (canonicalProfile name base) }

def baselineProfile (sha256 : List UInt8 → Digest) : Profile :=
  profileOf sha256 "baseline" ⟨16, 16, 18, 16, 256, 6⟩

def compactProfile (sha256 : List UInt8 → Digest) : Profile := profileOf sha256 "compact" ⟨8, 8, 10, 8, 64, 6⟩

theorem profiles_eq (sha256 : List UInt8 → Digest) : profiles sha256 = [baselineProfile sha256, compactProfile sha256] := rfl

theorem find_baseline : (profiles sha256).find? (fun item => item.name = "baseline") = some (baselineProfile sha256) := by
  rw [profiles_eq, List.find?_cons_of_pos (by simp [baselineProfile, profileOf])]

theorem find_compact : (profiles sha256).find? (fun item => item.name = "compact") = some (compactProfile sha256) := by
  rw [profiles_eq, List.find?_cons_of_neg (by simp [baselineProfile, profileOf]),
    List.find?_cons_of_pos (by simp [compactProfile, profileOf])]

/-- Every generated payload is the one the request writer makes. -/
theorem generatedProfiles_eq (sha256 : List UInt8 → Digest) : generatedProfiles sha256 =
    .ok [profilePayload (baselineProfile sha256), profilePayload (compactProfile sha256)] := by
  have hbaseline : configWords sha256 (baselineProfile sha256) = .ok (profilePayload (baselineProfile sha256)) := by
    have hname : (baselineProfile sha256).name = "baseline" := rfl
    unfold configWords
    rw [hname, find_baseline]
    refine check_then_eq_ok.mpr ⟨?_, require_then_eq_ok.mpr ⟨⟨rfl, rfl, rfl, rfl, rfl, rfl, rfl⟩, rfl⟩⟩
    simp [validateProfile, baselineProfile, profileOf, require_of]
  have hcompact : configWords sha256 (compactProfile sha256) = .ok (profilePayload (compactProfile sha256)) := by
    have hname : (compactProfile sha256).name = "compact" := rfl
    unfold configWords
    rw [hname, find_compact]
    refine check_then_eq_ok.mpr ⟨?_, require_then_eq_ok.mpr ⟨⟨rfl, rfl, rfl, rfl, rfl, rfl, rfl⟩, rfl⟩⟩
    simp [validateProfile, compactProfile, profileOf, require_of]
  rw [generatedProfiles, profiles_eq, List.mapM_cons, hbaseline, List.mapM_cons, hcompact]
  rfl

/-- The two shapes that have a profile. -/
theorem profileFor_eq_ok : profileFor sha256 affine = .ok profile ↔
    (affine = ⟨16, 16, 18, 16⟩ ∧ profile = baselineProfile sha256) ∨
      (affine = ⟨8, 8, 10, 8⟩ ∧ profile = compactProfile sha256) := by
  obtain ⟨rows, columns, inputStride, outputStride⟩ := affine
  unfold profileFor PROFILE_BY_SHAPE
  by_cases hb : rows = 16 ∧ columns = 16
  · obtain ⟨rfl, rfl⟩ := hb
    by_cases hs : inputStride = 18 ∧ outputStride = 16
    · obtain ⟨rfl, rfl⟩ := hs
      simp [find_baseline]
      exact eq_comm
    · have : inputStride ≠ 18 ∨ outputStride ≠ 16 := by omega
      simp [this]
      omega
  · by_cases hc : rows = 8 ∧ columns = 8
    · obtain ⟨rfl, rfl⟩ := hc
      by_cases hs : inputStride = 10 ∧ outputStride = 8
      · obtain ⟨rfl, rfl⟩ := hs
        simp [find_compact]
        exact eq_comm
      · have : inputStride ≠ 10 ∨ outputStride ≠ 8 := by omega
        simp [this]
        omega
    · simp [hb, hc]
      omega

theorem profilePayload_lt (h : profile = baselineProfile sha256 ∨ profile = compactProfile sha256) :
    (profilePayload profile).length = 16 ∧ ∀ w ∈ profilePayload profile, w < 2 ^ 32 := by
  have hdigest : ∀ digest : Digest, ∀ w ∈ digestWords digest, w < 2 ^ 32 := by
    intro digest w hw
    obtain ⟨i, -, rfl⟩ := List.mem_map.mp hw
    exact word_lt _ _
  refine ⟨by simp [profilePayload, length_digestWords], fun w hw => ?_⟩
  rw [profilePayload, List.mem_append] at hw
  rcases hw with hw | hw
  · rcases h with rfl | rfl <;> simp [baselineProfile, compactProfile, profileOf] at hw <;> omega
  · exact hdigest _ w hw

end Profiles

section Files

variable {files files' : Files} {name : String} {payload selected request : List UInt8} {directory : Directory}
  {seed : ℤ} {inputBytes : Option (List UInt8)} {descriptor : Descriptor}

/-- A new file is found under its name, and hides no other. -/
theorem writeNew_eq_ok (h : writeNew files name payload = .ok files') : files'.lookup name = some payload ∧
    ∀ other content, files.lookup other = some content → files'.lookup other = some content := by
  obtain ⟨hfree, h⟩ := require_then_eq_ok.mp h
  obtain rfl := except_pure_eq_ok.mp h
  refine ⟨?_, fun other content hother => ?_⟩
  · rw [List.lookup_append, hfree, Option.none_or, List.lookup_cons_self]
  · rw [List.lookup_append, hother, Option.some_or]

/-- The files that the reader opens. -/
structure Written (directory : Directory) (seed : ℕ) (request selected : List UInt8) : Prop where
  request : directory.files.lookup "request.bin" = some request
  input : directory.files.lookup "request-input.bin" = some selected
  inputs : ∃ inputs seedOne, directory.inputs = some inputs ∧ inputs.lookup (seedFile seed) = some selected ∧
    inputs.lookup "seed-1.bin" = some (wordBytes seedOne) ∧ inputWords 1 = .ok seedOne

theorem writeRequest_eq_ok (hseed : inputBytes.isSome = true → seed = 0)
    (h : writeRequest descriptor seed inputBytes request = .ok directory) :
    ∃ selected, selectedInput seed inputBytes = .ok selected ∧ Written directory seed.toNat request selected := by
  obtain ⟨files₁, h₁, h⟩ := except_bind_eq_ok.mp h
  obtain ⟨selected, hselected, h⟩ := except_bind_eq_ok.mp h
  obtain ⟨files₂, h₂, h⟩ := except_bind_eq_ok.mp h
  obtain ⟨seedOne, hone, h⟩ := except_bind_eq_ok.mp h
  obtain ⟨inputs₁, h₃, h⟩ := except_bind_eq_ok.mp h
  obtain ⟨inputs, h₄, h⟩ := except_bind_eq_ok.mp h
  obtain ⟨oracle, -, h⟩ := except_bind_eq_ok.mp h
  obtain ⟨files, h₅, h⟩ := except_bind_eq_ok.mp h
  obtain rfl := except_pure_eq_ok.mp h
  obtain ⟨hrequest, -⟩ := writeNew_eq_ok h₁
  obtain ⟨hinput, hkeep₂⟩ := writeNew_eq_ok h₂
  obtain ⟨hseedOne, -⟩ := writeNew_eq_ok h₃
  obtain ⟨-, hkeep₅⟩ := writeNew_eq_ok h₅
  refine ⟨selected, hselected, hkeep₅ _ _ (hkeep₂ _ _ hrequest), hkeep₅ _ _ hinput, inputs, seedOne, rfl, ?_⟩
  unfold writeSeedInput at h₄
  split at h₄
  · rename_i hsome
    obtain ⟨hlook, hkeep⟩ := writeNew_eq_ok h₄
    rw [hseed hsome]
    exact ⟨hlook, hkeep _ _ hseedOne, hone⟩
  · rename_i hnone
    split at h₄
    · obtain ⟨hlook, hkeep⟩ := writeNew_eq_ok h₄
      exact ⟨hlook, hkeep _ _ hseedOne, hone⟩
    · rename_i heq
      obtain rfl := except_pure_eq_ok.mp h₄
      obtain rfl : seed = 1 := not_not.mp heq
      -- seed one has its file already, with the same words
      have hsame : selected = wordBytes seedOne := by
        cases inputBytes with
        | some bytes => simp at hnone
        | none =>
          rw [selectedInput, hone] at hselected
          exact (Except.ok.inj hselected).symm
      rw [hsame]
      exact ⟨hseedOne, hseedOne, hone⟩

end Files


section Layout

variable {program : Program} {profile : Profile} {seed : ℤ} {inputBytes : Option (List UInt8)}
  {bytes selected : List UInt8}

/-- The parts of a request, at the offsets of the reader. -/
structure RequestLayout (bytes : List UInt8) (program : Program) (profile : Profile) (seed version : ℕ)
    (selected : List UInt8) : Prop where
  length : bytes.length = kRequestBytes
  magic : word bytes 0 = 0x52445731
  versionWord : word bytes 4 = version
  header : word bytes 8 = 64
  profileWord : word bytes 12 = if profile.name = "baseline" then 0 else 1
  seedWord : word bytes 16 = seed
  counts : word bytes 20 = 32 ∧ word bytes 24 = 16 ∧ word bytes 28 = 324
  reserved : ∀ index ∈ List.range' 32 32, bytes.getD index 0 = 0
  graphId : (bytes.drop 64).take 32 = graphIdBytes program.graphId
  programWords : unpackWords 32 (bytes.drop 96) = program.payload
  configuration : unpackWords 16 (bytes.drop 224) = profilePayload profile
  input : bytes.drop 288 = selected

/-- What `_request_bytes` has checked when it returns. -/
structure Admitted (program : Program) (seed : ℤ) (inputBytes : Option (List UInt8)) : Prop where
  graphId : identifier program.graphId = true
  range : 0 ≤ seed ∧ seed ≤ 0xFFFFFFFF
  explicit : ∀ bytes ∈ inputBytes, seed = 0 ∧ bytes.length = 324 * 4
  supported : program.payload.getD 1 0 ∈ [1, 2, 3, 4, 5, 6]
  snapshot : program.payload.getD 1 0 ≥ 5 → inputBytes.isSome = true

theorem requestBytes_eq_ok (h : requestBytes program profile seed inputBytes = .ok bytes) :
    Admitted program seed inputBytes ∧ ∃ selected, selectedInput seed inputBytes = .ok selected ∧
      bytes = packWords [0x52445731, requestVersion (program.payload.getD 1 0) inputBytes.isSome, 64,
        if profile.name = "baseline" then 0 else 1, seed.toNat, 32, 16, 324] ++ (List.replicate 32 0 ++
        (graphIdBytes program.graphId ++ (wordBytes program.payload ++
        (wordBytes (profilePayload profile) ++ selected)))) := by
  obtain ⟨hid, h⟩ := require_then_eq_ok.mp h
  obtain ⟨hseed, h⟩ := require_then_eq_ok.mp h
  obtain ⟨hexplicit, h⟩ := require_then_eq_ok.mp h
  obtain ⟨-, h⟩ := require_then_eq_ok.mp h
  obtain ⟨hversion, h⟩ := require_then_eq_ok.mp h
  obtain ⟨hsnapshot, h⟩ := require_then_eq_ok.mp h
  obtain ⟨selected, hselected, h⟩ := except_bind_eq_ok.mp h
  refine ⟨⟨hid, hseed, fun b hb => ?_, hversion, fun hv => ?_⟩, selected, hselected,
    (except_pure_eq_ok.mp h).symm⟩
  · have := hexplicit b hb
    simp only [INPUT_WORDS] at this
    omega
  · cases inputBytes with
    | some b => rfl
    | none => exact absurd ⟨hv, rfl⟩ hsnapshot

theorem Admitted.length_selected (h : Admitted program seed inputBytes)
    (hs : selectedInput seed inputBytes = .ok selected) : selected.length = 324 * 4 := by
  cases inputBytes with
  | some b =>
    obtain rfl := Except.ok.inj hs
    exact (h.explicit b rfl).2
  | none =>
    obtain ⟨words, hwords, rfl⟩ := except_map_eq_ok.mp hs
    have hcast : ((seed.toNat : ℕ) : ℤ) = seed := Int.toNat_of_nonneg h.range.1
    rw [← hcast] at hwords
    rw [length_wordBytes, (inputWords_eq_ok hwords).1]

theorem Admitted.requestVersion_le (h : Admitted program seed inputBytes) :
    requestVersion (program.payload.getD 1 0) inputBytes.isSome ∈ List.range' 1 7 := by
  have hversion := mem_versions.mp h.supported
  rw [List.mem_range'_1]
  unfold requestVersion
  split
  · split <;> omega
  · omega

/-- The writer pairs request and program versions as the reader does. -/
theorem Admitted.carries (h : Admitted program seed inputBytes) :
    carries (requestVersion (program.payload.getD 1 0) inputBytes.isSome) (program.payload.getD 1 0) := by
  have hversion := mem_versions.mp h.supported
  have hsnapshot := h.snapshot
  generalize program.payload.getD 1 0 = version at *
  unfold Graph.carries requestVersion
  cases inputBytes with
  | none =>
    have : ¬ version ≥ 5 := fun hv => by simpa using hsnapshot hv
    simp [show version ≠ 5 by omega, show version ≠ 6 by omega, show version ≠ 7 by omega]
  | some b =>
    obtain hv | rfl | rfl : version < 5 ∨ version = 5 ∨ version = 6 := by omega
    · simp [show ¬ 5 ≤ version by omega]
      omega
    · simp
    · simp

theorem requestLayout (hpayload : program.payload.length = 32 ∧ ∀ w ∈ program.payload, w < 2 ^ 32)
    (hprofile : (profilePayload profile).length = 16 ∧ ∀ w ∈ profilePayload profile, w < 2 ^ 32)
    (h : requestBytes program profile seed inputBytes = .ok bytes) :
    Admitted program seed inputBytes ∧ ∃ selected, selectedInput seed inputBytes = .ok selected ∧
      RequestLayout bytes program profile seed.toNat
        (requestVersion (program.payload.getD 1 0) inputBytes.isSome) selected := by
  obtain ⟨hadmitted, selected, hselected, hbytes⟩ := requestBytes_eq_ok h
  refine ⟨hadmitted, selected, hselected, ?_⟩
  have hlen := hadmitted.length_selected hselected
  have hid := length_graphIdBytes hadmitted.graphId
  have hseed := hadmitted.range
  have hversion := hadmitted.requestVersion_le
  rw [List.mem_range'_1] at hversion
  rw [wordBytes_eq hpayload.2, wordBytes_eq hprofile.2] at hbytes
  generalize requestVersion (program.payload.getD 1 0) inputBytes.isSome = version at *
  have h64 : bytes.drop 64 = graphIdBytes program.graphId ++ (packWords program.payload ++
      (packWords (profilePayload profile) ++ selected)) := by
    rw [hbytes, ← List.append_assoc]
    exact List.drop_left' (by simp)
  have h96 : bytes.drop 96 = packWords program.payload ++ (packWords (profilePayload profile) ++ selected) := by
    rw [show 96 = 64 + 32 from rfl, ← List.drop_drop, h64]
    exact List.drop_left' hid
  have h224 : bytes.drop 224 = packWords (profilePayload profile) ++ selected := by
    rw [show 224 = 96 + 128 from rfl, ← List.drop_drop, h96]
    exact List.drop_left' (by rw [length_packWords, hpayload.1])
  have h288 : bytes.drop 288 = selected := by
    rw [show 288 = 224 + 64 from rfl, ← List.drop_drop, h224]
    exact List.drop_left' (by rw [length_packWords, hprofile.1])
  have hheader : ∀ k w, [0x52445731, version, 64, if profile.name = "baseline" then 0 else 1, seed.toNat, 32,
      16, 324][k]? = some w → w < 2 ^ 32 → word bytes (4 * k) = w := by
    intro k w hk hw
    rw [hbytes]
    exact word_packWords_append _ hk hw
  refine ⟨?_, hheader 0 _ rfl (by norm_num), hheader 1 _ rfl (by omega), hheader 2 _ rfl (by norm_num),
    hheader 3 _ rfl (by split <;> norm_num), hheader 4 _ rfl (by omega), ⟨hheader 5 _ rfl (by norm_num),
    hheader 6 _ rfl (by norm_num), hheader 7 _ rfl (by norm_num)⟩, fun index hi => ?_, ?_, ?_, ?_, h288⟩
  · rw [hbytes]
    simp only [List.length_append, length_packWords, List.length_cons, List.length_nil, List.length_replicate,
      hid, hpayload.1, hprofile.1, hlen, kRequestBytes]
  · rw [List.mem_range'_1] at hi
    rw [hbytes, List.getD_append_right _ _ _ _ (by simp; omega), List.getD_append _ _ _ _ (by simp; omega),
      List.getD_replicate _ (by simp; omega)]
  · rw [h64]
    exact List.take_left' hid
  · rw [h96]
    exact unpackWords_packWords hpayload.1 hpayload.2 _
  · rw [h224]
    exact unpackWords_packWords hprofile.1 hprofile.2 _

end Layout

end Raveil.Graph
