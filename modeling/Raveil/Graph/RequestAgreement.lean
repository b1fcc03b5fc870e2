import Raveil.Lib.Fresh
import Raveil.Graph.Safety
import Raveil.Graph.RequestRoundTrip

/-! The host's request directory and the device's reader agree on every admitted descriptor. -/
namespace Raveil.Graph
open Raveil.Lib

section Agreement

variable {sha256 : List UInt8 → Digest} {value : Descriptor} {program : Program} {kProfiles : List (List ℕ)}
  {output : Option Directory} {seed : ℤ} {inputBytes : Option (List UInt8)} {prepared : Prepared}
  {selected : List UInt8}

/-- The payload of an accepted program is sealed and follows the rules. -/
theorem FallbackOk.payload {image : Image} {payload : Payload} (h : FallbackOk sha256 image)
    (hwords : payload.words = image.payload) : payload.Sealed sha256 ∧ PayloadOk payload (payload.word 2) := by
  have hcount : image.payload.getD 2 0 = payload.word 2 := by rw [Payload.word, hwords]
  obtain ⟨-, -, hins, hslice, -⟩ := h.count
  rw [hcount, ← hwords] at hslice
  rw [hcount] at hins
  have hsha := h.sha
  have hdigest := h.digest
  rw [hcount, hslice] at hsha hdigest
  have hsealed : payload.Sealed sha256 := by
    rw [Payload.Sealed, hwords]
    exact hdigest
  refine ⟨hsealed, (validateFallback_iff image.affine hsealed).mp ⟨image.instructions, ?_⟩⟩
  have himage : payload.image sha256 image.affine = image := by
    rw [Payload.image, Image.mk.injEq]
    exact ⟨rfl, hins.symm, hslice.symm, hsha.symm, hwords⟩
  rw [himage]
  exact validateFallbackProgram_eq_ok.mpr ⟨h, rfl⟩

/-- The input words of a request: the explicit ones, or those of the seed. -/
def requestInput (seed : ℤ) (inputBytes : Option (List UInt8)) : Except String (List ℕ) :=
  match inputBytes with
  | some bytes => .ok (unpackWords 324 bytes)
  | none => inputWords seed

theorem Admitted.requestInput (h : Admitted program seed inputBytes)
    (hs : selectedInput seed inputBytes = .ok selected) :
    Graph.requestInput seed inputBytes = .ok (unpackWords 324 selected) ∧
      validateSeededInput (requestVersion (program.payload.getD 1 0) inputBytes.isSome)
        (unpackWords 324 selected) seed.toNat = .ok () := by
  cases inputBytes with
  | some b =>
    obtain rfl := Except.ok.inj hs
    have hv := mem_versions.mp h.supported
    refine ⟨rfl, ?_⟩
    have hexplicit : explicitVersion (requestVersion (program.payload.getD 1 0) (some b).isSome) = true := by
      simp only [explicitVersion, requestVersion, Option.isSome_some, if_true, Bool.or_eq_true, beq_iff_eq]
      split <;> omega
    rw [validateSeededInput, hexplicit]
    rfl
  | none =>
    obtain ⟨words, hwords, rfl⟩ := except_map_eq_ok.mp hs
    have hcast : ((seed.toNat : ℕ) : ℤ) = seed := Int.toNat_of_nonneg h.range.1
    have hcopy := hwords
    rw [← hcast] at hcopy
    obtain ⟨hlen, hlt, hvalid⟩ := inputWords_eq_ok hcopy
    have hunpack : unpackWords 324 (wordBytes words) = words := by
      have := unpackWords_packWords hlen hlt []
      rwa [List.append_nil, ← wordBytes_eq hlt] at this
    have hsnapshot := h.snapshot
    rw [hunpack]
    refine ⟨hwords, ?_⟩
    unfold validateSeededInput
    split
    · exact hvalid
    · rfl

theorem readInputFile_eq_ok {files : Files} {name : String} (h : files.lookup name = some selected)
    (hlen : selected.length = 324 * 4) : readInputFile files name = .ok (unpackWords 324 selected) := by
  rw [readInputFile, h]
  exact require_then_eq_ok.mpr ⟨hlen, rfl⟩

theorem compactProfile_name_ne : ¬ (compactProfile sha256).name = "baseline" := by
  change ¬ "compact" = "baseline"
  decide

/-- The reader takes the directory that was written, and returns what went into the request. -/
theorem read_written {directory : Directory} {profile : Profile} {request : List UInt8} {payload : Payload}
    (hprofile : profile = baselineProfile sha256 ∨ profile = compactProfile sha256)
    (hk : kProfiles = [profilePayload (baselineProfile sha256), profilePayload (compactProfile sha256)])
    (ha : Admitted program seed inputBytes) (hs : selectedInput seed inputBytes = .ok selected)
    (hl : RequestLayout request program profile seed.toNat
      (requestVersion (program.payload.getD 1 0) inputBytes.isSome) selected)
    (hw : Written directory seed.toNat request selected) (hwords : payload.words = program.payload)
    (hsealed : payload.Sealed sha256) (hok : PayloadOk payload (payload.word 2)) :
    readDynamicGraphDeviceRequest sha256 kProfiles directory = .ok
      ⟨program.graphId, profile.name, seed.toNat, program.payload, profilePayload profile,
        unpackWords 324 selected⟩ := by
  obtain ⟨inputs, seedOne, hinputs, hseedFile, hseedOne, hone⟩ := hw.inputs
  obtain ⟨honeLength, honeLt, honeValid⟩ := @inputWords_eq_ok 1 _ hone
  obtain ⟨-, hseeded⟩ := ha.requestInput hs
  have hlen := ha.length_selected hs
  have hversion := ha.requestVersion_le
  have hcarries := ha.carries
  have hread : readRequest directory = .ok request := by
    rw [readRequest, hw.request]
    exact require_then_eq_ok.mpr ⟨hl.length, rfl⟩
  have hprogram : programWords request = payload := by
    rw [programWords, Payload.mk.injEq, hl.programWords, hwords]
  have hword : payload.word 1 = program.payload.getD 1 0 := by rw [Payload.word, hwords]
  have hname : (if (if profile.name = "baseline" then 0 else 1) = 0 then "baseline" else "compact") = profile.name := by
    rcases hprofile with rfl | rfl
    · exact if_pos (if_pos rfl)
    · rw [if_neg compactProfile_name_ne]
      rfl
  have hcanonical : (if profile.name = "baseline" then kProfiles.getD 0 [] else kProfiles.getD 1 []) =
      profilePayload profile := by
    rw [hk]
    rcases hprofile with rfl | rfl
    · exact if_pos rfl
    · exact if_neg compactProfile_name_ne
  have hbit : ¬ (if profile.name = "baseline" then 0 else 1) > 1 := by split <;> omega
  have hslot : ¬ (explicitVersion (requestVersion (program.payload.getD 1 0) inputBytes.isSome) = true ∧
      seed.toNat ≠ 0) := by
    rintro ⟨hexplicit, hne⟩
    cases inputBytes with
    | some b =>
      have := (ha.explicit b rfl).1
      omega
    | none =>
      have hsnapshot := ha.snapshot
      simp only [explicitVersion, requestVersion, Option.isSome_none, Bool.or_eq_true, beq_iff_eq] at hexplicit hsnapshot
      simp at hexplicit hsnapshot
      omega
  have hfirst : unpackWords 324 (wordBytes seedOne) = seedOne := by
    have := unpackWords_packWords honeLength honeLt []
    rwa [List.append_nil, ← wordBytes_eq honeLt] at this
  generalize requestVersion (program.payload.getD 1 0) inputBytes.isSome = version at *
  unfold readDynamicGraphDeviceRequest
  refine except_bind_eq_ok.mpr ⟨request, hread, ?_⟩
  simp only [hinputs, hl.magic, hl.versionWord, hl.header, hl.profileWord, hl.seedWord, hl.counts, hl.graphId,
    readGraphId_graphIdBytes ha.graphId, hl.configuration, hl.input, hprogram, hname, hcanonical]
  refine require_then_eq_ok.mpr ⟨⟨trivial, hversion, trivial, trivial, trivial, trivial⟩,
    require_then_eq_ok.mpr ⟨hbit, require_then_eq_ok.mpr ⟨hl.reserved, except_bind_eq_ok.mpr
    ⟨_, rfl, require_then_eq_ok.mpr ⟨fun _ _ => trivial, check_then_eq_ok.mpr
    ⟨validateProgram_of_carries hsealed hok (hword ▸ hcarries), require_then_eq_ok.mpr ⟨hslot,
    check_then_eq_ok.mpr ⟨hseeded, except_bind_eq_ok.mpr ⟨_, readInputFile_eq_ok hw.input hlen,
    except_bind_eq_ok.mpr ⟨_, readInputFile_eq_ok hseedFile hlen, except_bind_eq_ok.mpr
    ⟨_, readInputFile_eq_ok hseedOne (by rw [length_wordBytes, honeLength]), require_then_eq_ok.mpr
    ⟨⟨rfl, rfl⟩, check_then_eq_ok.mpr ⟨?_, ?_⟩⟩⟩⟩⟩⟩⟩⟩⟩⟩⟩⟩⟩
  · rw [hfirst]
    exact honeValid
  · rw [hwords]
    rfl

theorem compileDescriptor_graphId (h : compileDescriptor sha256 value = .ok program) :
    validateDescriptor value = .ok () ∧ program.graphId = value.graphId := by
  obtain ⟨hv, h⟩ := check_then_eq_ok.mp h
  obtain ⟨nodes, -, h⟩ := except_bind_eq_ok.mp h
  obtain ⟨s, -, h⟩ := except_bind_eq_ok.mp h
  obtain ⟨-, h⟩ := require_then_eq_ok.mp h
  obtain ⟨trace, -, h⟩ := except_bind_eq_ok.mp h
  obtain ⟨-, h⟩ := check_then_eq_ok.mp h
  obtain rfl := except_pure_eq_ok.mp h
  exact ⟨hv, rfl⟩

theorem compileDescriptor_fallbackOk (h : compileDescriptor sha256 value = .ok program) :
    FallbackOk sha256 program.toImage := by
  obtain ⟨hv, -⟩ := compileDescriptor_graphId h
  obtain ⟨body, id, x, hvalid⟩ := validateDescriptor_eq_ok hv
  obtain ⟨t, ws, r, hc⟩ := compiled_of_eq_ok hvalid hv h
  exact hc.fallbackOk hvalid

theorem mapError_eq_ok {α : Type} {x : Except String α} {f : String → String} {a : α} :
    x.mapError f = .ok a ↔ x = .ok a := by
  cases x <;> simp [Except.mapError]

/-- The request codec: both sides generate the same input for a seed, the writer's request version is one
that the reader pairs with the program's, and a prepared directory is read back as what went in. -/
theorem dynamicRequests_agree (sha256 : List UInt8 → Digest) (kProfiles : List (List ℕ))
    (hk : generatedProfiles sha256 = .ok kProfiles) :
    (∀ seed : ℕ, seed < 2 ^ 32 → inputWords seed =
      .ok ((List.range 324).map fun index => (expectedWord (UInt32.ofNat seed) index).toNat)) ∧
    (∀ program profile seed inputBytes bytes, requestBytes program profile seed inputBytes = .ok bytes →
      carries (word bytes 4) (program.payload.getD 1 0)) ∧
    ∀ output descriptor seed inputBytes prepared,
      prepareRequest sha256 output descriptor seed inputBytes = .ok prepared →
      compileDescriptor sha256 descriptor = .ok prepared.program ∧
      ∃ input, requestInput seed inputBytes = .ok input ∧
        readDynamicGraphDeviceRequest sha256 kProfiles prepared.directory = .ok
          ⟨descriptor.graphId, prepared.profile.name, seed.toNat, prepared.program.payload,
            profilePayload prepared.profile, input⟩ := by
  refine ⟨fun seed hs => inputWords_eq hs, fun program profile seed inputBytes bytes h => ?_,
    fun output descriptor seed inputBytes prepared h => ?_⟩
  · obtain ⟨ha, selected, -, rfl⟩ := requestBytes_eq_ok h
    have hversion := ha.requestVersion_le
    rw [List.mem_range'_1] at hversion
    rw [show 4 = 4 * 1 from rfl, word_packWords_append _ rfl (by omega)]
    exact ha.carries
  · obtain ⟨-, h⟩ := require_then_eq_ok.mp h
    obtain ⟨program, hprogram, h⟩ := except_bind_eq_ok.mp h
    obtain ⟨profile, hprofile, h⟩ := except_bind_eq_ok.mp h
    obtain ⟨-, h⟩ := require_then_eq_ok.mp h
    obtain ⟨request, hrequest, h⟩ := except_bind_eq_ok.mp h
    obtain ⟨directory, hdirectory, h⟩ := except_bind_eq_ok.mp h
    obtain rfl := except_pure_eq_ok.mp h
    obtain ⟨-, hcompile⟩ := check_then_eq_ok.mp (mapError_eq_ok.mp hprogram)
    have hfallback := compileDescriptor_fallbackOk hcompile
    have hlt : ∀ w ∈ program.payload, w < 2 ^ 32 := fun w hw => Nat.lt_succ_of_le (hfallback.words w hw)
    let payload : Payload := ⟨program.payload, hfallback.length, hlt⟩
    obtain ⟨hsealed, hok⟩ : payload.Sealed sha256 ∧ PayloadOk payload (payload.word 2) := hfallback.payload rfl
    have hname : profile = baselineProfile sha256 ∨ profile = compactProfile sha256 :=
      (profileFor_eq_ok.mp hprofile).imp And.right And.right
    obtain ⟨ha, selected, hselected, hlayout⟩ :=
      requestLayout ⟨hfallback.length, hlt⟩ (profilePayload_lt hname) hrequest
    have hzero : inputBytes.isSome = true → seed = 0 := by
      intro hsome
      obtain ⟨b, hb⟩ := Option.isSome_iff_exists.mp hsome
      exact (ha.explicit b hb).1
    obtain ⟨selected', hselected', hwritten⟩ := writeRequest_eq_ok hzero hdirectory
    obtain rfl : selected' = selected := Except.ok.inj (hselected'.symm.trans hselected)
    rw [generatedProfiles_eq] at hk
    refine ⟨hcompile, _, (ha.requestInput hselected).1, ?_⟩
    rw [← (compileDescriptor_graphId hcompile).2]
    exact read_written hname (Except.ok.inj hk).symm ha hselected hlayout hwritten rfl hsealed hok

end Agreement

section Total

variable {sha256 : List UInt8 → Digest} {value : Descriptor} {program : Program}

/-- In the two shapes every load stays inside the input window. -/
theorem oracleReads_lt (hv : validateDescriptor value = .ok ())
    (hshape : value.affine = ⟨16, 16, 18, 16⟩ ∨ value.affine = ⟨8, 8, 10, 8⟩) :
    ∀ index, OracleReads value index → index < 324 := by
  obtain ⟨body, id, x, h⟩ := validateDescriptor_eq_ok hv
  have hcorner : ¬ MissedCorner value := by
    rintro ⟨hlast, -⟩
    rcases hshape with hshape | hshape
    · simp [hshape] at hlast
    · simp [hshape] at hlast
  exact fun index hi => (oracleReads_mem h hcorner hi).2

theorem writeNew_of_lookup {files : Files} {name : String} {payload : List UInt8} (h : files.lookup name = none) :
    writeNew files name payload = .ok (files ++ [(name, payload)]) :=
  require_then_eq_ok.mpr ⟨h, rfl⟩

theorem lookup_append_of_ne {files : Files} {name other : String} {payload : List UInt8} (hne : name ≠ other)
    (h : files.lookup name = none) : (files ++ [(other, payload)]).lookup name = none := by
  have hbeq : (name == other) = false := beq_eq_false_iff_ne.mpr hne
  rw [List.lookup_append, h, Option.none_or, List.lookup_cons, hbeq]
  rfl

theorem seedFile_injective : Function.Injective seedFile := by
  intro a b h
  have hlist := congrArg String.toList h
  simp only [seedFile, String.toList_append] at hlist
  rw [← ofDigitChars_toString a, ← ofDigitChars_toString b, List.append_cancel_left (List.append_cancel_right hlist)]

/-- Every descriptor that compiles in one of the two shapes can be requested, with any seed or input. -/
theorem prepareRequest_total {seed : ℤ} {inputBytes : Option (List UInt8)}
    (hc : compileDescriptor sha256 value = .ok program)
    (hshape : value.affine = ⟨16, 16, 18, 16⟩ ∨ value.affine = ⟨8, 8, 10, 8⟩)
    (hseed : 0 ≤ seed ∧ seed ≤ 0xFFFFFFFF)
    (hexplicit : ∀ bytes ∈ inputBytes, seed = 0 ∧ bytes.length = 324 * 4)
    (hsnapshot : programVersion value ≥ 5 → inputBytes.isSome = true) :
    ∃ prepared, prepareRequest sha256 none value seed inputBytes = .ok prepared := by
  obtain ⟨hv, hid⟩ := compileDescriptor_graphId hc
  obtain ⟨hidentifier, -⟩ := require_then_eq_ok.mp hv
  obtain ⟨body, id, x, hvalid⟩ := validateDescriptor_eq_ok hv
  obtain ⟨t, ws, r, hcompiled⟩ := compiled_of_eq_ok hvalid hv hc
  have hversion := hcompiled.version
  obtain ⟨profile, hprofile⟩ : ∃ profile, profileFor sha256 program.affine = .ok profile := by
    rw [hcompiled.affine]
    rcases hshape with h | h
    · exact ⟨_, profileFor_eq_ok.mpr (Or.inl ⟨h, rfl⟩)⟩
    · exact ⟨_, profileFor_eq_ok.mpr (Or.inr ⟨h, rfl⟩)⟩
  have hadmitted : Admitted program seed inputBytes :=
    ⟨hid ▸ hidentifier, hseed, hexplicit, hversion ▸ programVersion_mem value, hversion ▸ hsnapshot⟩
  have hcast : ((seed.toNat : ℕ) : ℤ) = seed := Int.toNat_of_nonneg hseed.1
  obtain ⟨selected, hselected⟩ : ∃ selected, selectedInput seed inputBytes = .ok selected := by
    cases inputBytes with
    | some b => exact ⟨b, rfl⟩
    | none =>
      rw [selectedInput, ← hcast, inputWords_eq (by omega)]
      exact ⟨_, rfl⟩
  obtain ⟨request, hrequest⟩ : ∃ request, requestBytes program profile seed inputBytes = .ok request := by
    refine ⟨_, require_then_eq_ok.mpr ⟨hadmitted.graphId, require_then_eq_ok.mpr ⟨hseed, require_then_eq_ok.mpr
      ⟨fun b hb => ?_, require_then_eq_ok.mpr ⟨length_graphIdBytes hadmitted.graphId, require_then_eq_ok.mpr
      ⟨hadmitted.supported, require_then_eq_ok.mpr ⟨?_, except_bind_eq_ok.mpr ⟨selected, hselected, rfl⟩⟩⟩⟩⟩⟩⟩⟩
    · have := hexplicit b hb
      simp only [INPUT_WORDS]
      omega
    · rintro ⟨hv5, hnone⟩
      have := hadmitted.snapshot hv5
      simp [hnone] at this
  obtain ⟨directory, hdirectory⟩ : ∃ directory, writeRequest value seed inputBytes request = .ok directory := by
    obtain ⟨body, store, hcorrect⟩ := compileDescriptor_correct sha256 value hv
    obtain ⟨oracle, horacle, -⟩ := hcorrect.computes program hc (unpackWords 324 selected) (by simp [unpackWords])
      (fun w hw => by obtain ⟨i, -, rfl⟩ := List.mem_map.mp hw; exact word_lt _ _) (oracleReads_lt hv hshape)
    obtain ⟨inputs, hinputs⟩ : ∃ inputs, writeSeedInput [("seed-1.bin", wordBytes (List.map
        (fun index => (expectedWord (UInt32.ofNat 1) index).toNat) (List.range 324)))] seed inputBytes selected =
        .ok inputs := by
      unfold writeSeedInput
      split
      · exact ⟨_, writeNew_of_lookup (by decide)⟩
      · split
        · rename_i hne
          refine ⟨_, writeNew_of_lookup ?_⟩
          have hname : seedFile seed.toNat ≠ "seed-1.bin" := fun h => hne (by
            have hone : seed.toNat = 1 := seedFile_injective h
            omega)
          exact lookup_append_of_ne hname (List.lookup_nil)
        · exact ⟨_, rfl⟩
    refine ⟨_, except_bind_eq_ok.mpr ⟨_, writeNew_of_lookup rfl, except_bind_eq_ok.mpr ⟨selected, hselected,
      except_bind_eq_ok.mpr ⟨_, writeNew_of_lookup (lookup_append_of_ne (by decide) rfl), except_bind_eq_ok.mpr ⟨_, inputWords_eq (by norm_num),
      except_bind_eq_ok.mpr ⟨_, writeNew_of_lookup rfl, except_bind_eq_ok.mpr ⟨inputs, hinputs,
      except_bind_eq_ok.mpr ⟨oracle, horacle, except_bind_eq_ok.mpr ⟨_, writeNew_of_lookup
      (lookup_append_of_ne (by decide) (lookup_append_of_ne (by decide) rfl)), rfl⟩⟩⟩⟩⟩⟩⟩⟩⟩
  refine ⟨_, require_then_eq_ok.mpr ⟨by simp, except_bind_eq_ok.mpr ⟨program,
    mapError_eq_ok.mpr (check_then_eq_ok.mpr ⟨hv, hc⟩), except_bind_eq_ok.mpr ⟨profile, hprofile,
    require_then_eq_ok.mpr ⟨fun b hb => (hexplicit b hb).2, except_bind_eq_ok.mpr ⟨request, hrequest,
    except_bind_eq_ok.mpr ⟨directory, hdirectory, rfl⟩⟩⟩⟩⟩⟩⟩

/-- A copy of the input, in the compact shape. -/
def compactGraph : Descriptor where
  schema := .v1
  graphId := "copy-8"
  affine := ⟨8, 8, 10, 8⟩
  nodes := [⟨"here", .load (.selector .center)⟩, ⟨"out", .store "here"⟩]

/-- Its request for seed seven comes back from the directory. -/
theorem dynamicRequests_agree_compactGraph : ∃ kProfiles prepared input,
    generatedProfiles Sha256.digest = .ok kProfiles ∧
    prepareRequest Sha256.digest none compactGraph 7 none = .ok prepared ∧ inputWords 7 = .ok input ∧
    readDynamicGraphDeviceRequest Sha256.digest kProfiles prepared.directory = .ok
      ⟨"copy-8", prepared.profile.name, 7, prepared.program.payload, profilePayload prepared.profile, input⟩ := by
  have hc : (compileDescriptor Sha256.digest compactGraph).toOption.isSome = true := by decide +kernel
  obtain ⟨program, hprogram⟩ := Option.isSome_iff_exists.mp hc
  have hok : compileDescriptor Sha256.digest compactGraph = .ok program := by
    cases hcompile : compileDescriptor Sha256.digest compactGraph with
    | error message => simp [hcompile, Except.toOption] at hprogram
    | ok other =>
      rw [hcompile] at hprogram
      exact congrArg Except.ok (Option.some.inj hprogram)
  obtain ⟨prepared, hprepared⟩ : ∃ prepared,
      prepareRequest Sha256.digest none compactGraph 7 none = .ok prepared :=
    prepareRequest_total hok (Or.inr rfl) (by norm_num) (by simp) (by decide)
  have hk := generatedProfiles_eq Sha256.digest
  obtain ⟨-, input, hinput, hread⟩ :=
    (dynamicRequests_agree Sha256.digest _ hk).2.2 none compactGraph 7 none prepared hprepared
  exact ⟨_, prepared, input, hk, hprepared, hinput, hread⟩

end Total

end Raveil.Graph
