import Raveil.Native.Oracle

/-! The candidates of the benchmark agree, and its report is valid. -/
namespace Raveil.Native

open Lib

section Accepted

variable {text : List UInt8} {maximum value : ℕ} {argv : List (List UInt8)} {o : Options}

theorem parseBoundedSize_range (h : parseBoundedSize text maximum = some value) : 1 ≤ value ∧ value ≤ maximum := by
  unfold parseBoundedSize at h
  rcases strtoull text with ⟨parsed, errno, rest⟩
  simp only [Option.ite_none_left_eq_some, Option.some.injEq, not_or] at h
  omega

theorem parseTile_range (h : parseTile text = some value) : value ≤ 64 := by
  unfold parseTile at h
  split_ifs at h
  · cases h
    exact Nat.zero_le 64
  · exact (parseBoundedSize_range h).2

theorem parseOptions_admitted (h : parseOptions argv = some o) : o.Admitted := by
  unfold parseOptions at h
  split at h
  · simp only [Option.bind_eq_bind, Option.bind_eq_some_iff, Option.ite_none_right_eq_some, Option.some.injEq] at h
    obtain ⟨m, hm, n, hn, k, hk, warmups, hwarmups, iterations, hiterations, tile, htile, family, -, loopOrder, -,
      materialization, -, hpaired, rfl⟩ := h
    refine ⟨parseBoundedSize_range hm, parseBoundedSize_range hn, parseBoundedSize_range hk, parseTile_range htile,
      ?_, parseBoundedSize_range hwarmups, parseBoundedSize_range hiterations⟩
    have hiff := Bool.eq_iff_iff.mp (beq_iff_eq.mp hpaired)
    rwa [beq_iff_eq, bne_iff_ne] at hiff
  · cases h

theorem Options.Admitted.reference (h : o.Admitted) : o.reference.Admitted where
  m_range := h.m_range
  n_range := h.n_range
  k_range := h.k_range
  tile_range := Nat.zero_le 64
  tile_iff := by simp [Options.reference]
  warmups_range := h.warmups_range
  iterations_range := h.iterations_range

end Accepted

section Runs

variable {o : Options} {a b b2 bias : List ℤ}

/-- The arrays of an arena at their sizes. -/
structure Arena.Sized (o : Options) (s : Arena) : Prop where
  scratch : s.scratch.length = o.m * o.n
  output : s.output.length = o.outputSize

variable (hadmitted : o.Admitted)
include hadmitted

theorem outCount_pos : 0 < o.outCount := by
  have hm := hadmitted.m_range.1
  have hn := hadmitted.n_range.1
  have hk := hadmitted.k_range.1
  unfold Options.outCount
  split_ifs <;> positivity

variable (harrays : Arrays o a b b2 bias) (hno : NoOverflow o a b b2 bias)
include harrays hno

/-- The reference is one of the candidates. -/
theorem reference_result {scratch output : List ℤ} (hscratch : scratch.length = o.m * o.n)
    (houtput : output.length = o.outputSize) :
    ∃ scratch' output', execute o.reference a b b2 bias scratch output = some (scratch', output') ∧
      scratch'.length = o.m * o.n ∧ output'.length = o.outputSize ∧ Result o a b b2 bias output' := by
  have harrays' : Arrays o.reference a b b2 bias :=
    ⟨harrays.a_length, harrays.b_length, harrays.b2_length, harrays.bias_length, harrays.a_range, harrays.b_range,
      harrays.b2_range, harrays.bias_range⟩
  have hno' : NoOverflow o.reference a b b2 bias := ⟨hno.first, hno.biased, hno.product, hno.second⟩
  exact execute_result harrays' hno' hadmitted.reference hscratch houtput

theorem warmup_spec {s : Arena} (hs : s.Sized o) :
    ∃ t, warmup o a b b2 bias o.outCount s = some t ∧ t.Sized o := by
  obtain ⟨scratch, output, hrun, hscratch, houtput, -⟩ :=
    execute_result harrays hno hadmitted hs.scratch hs.output
  obtain ⟨hash, hhash, -⟩ := Oracle.checksum_eq output o.outCount (houtput ▸ out_count_le o)
  refine ⟨⟨scratch, output, s.sink ^^^ hash⟩, ?_, hscratch, houtput⟩
  simp only [warmup, hrun, hhash, Option.bind_eq_bind, Option.bind_some, Option.pure_def]

theorem measure_spec (index : ℕ) {s : Arena} (hs : s.Sized o) :
    ∃ t, measure o a b b2 bias o.outCount index s = some t ∧ t.Sized o ∧ Result o a b b2 bias t.output := by
  obtain ⟨scratch, output, hrun, hscratch, houtput, hresult⟩ :=
    execute_result harrays hno hadmitted hs.scratch hs.output
  have hindex : index % o.outCount < output.length := by
    have hlt := Nat.mod_lt index (outCount_pos hadmitted)
    have hle := out_count_le o
    omega
  refine ⟨⟨scratch, output, s.sink ^^^ UInt64.ofInt output[index % o.outCount]⟩, ?_, ⟨hscratch, houtput⟩, hresult⟩
  simp only [measure, hrun, List.getElem?_eq_getElem hindex, Option.bind_eq_bind, Option.bind_some, Option.pure_def]

/-- The program reports the checksum of the result, twice. -/
theorem benchmark_report :
    ∃ report c, benchmark o a b b2 bias o.outCount (o.m * o.n) = some report ∧ Result o a b b2 bias c ∧
      report.checksum = Oracle.checksum (c.take o.outCount) ∧ report.referenceChecksum = report.checksum ∧
      report.semanticValid = true := by
  have hhidden : (List.replicate (o.m * o.n) (0 : ℤ)).length = o.m * o.n := List.length_replicate
  have hzeros : (List.replicate o.outputSize (0 : ℤ)).length = o.outputSize := List.length_replicate
  obtain ⟨scratch, reference, hreference, hscratch, hlength, hresult⟩ :=
    reference_result hadmitted harrays hno hhidden hzeros
  obtain ⟨expected, hexpected, -⟩ := Oracle.checksum_eq reference o.outCount (hlength ▸ out_count_le o)
  obtain ⟨warm, hwarm, hsized⟩ : ∃ t, counted 0 o.warmups 1 (fun _ s => warmup o a b b2 bias o.outCount s)
      ⟨scratch, List.replicate o.outputSize 0, 0⟩ = some t ∧ t.Sized o := by
    apply counted_one_spec (fun _ s => s.Sized o) (Nat.zero_le _) ⟨hscratch, hzeros⟩
    · intro _ s _ _ hs
      exact warmup_spec hadmitted harrays hno hs
    · intro t ht
      exact ht
  -- the measured loop is entered, so its last turn leaves a result
  obtain ⟨last, hlast, hsized', hresult'⟩ : ∃ t, counted 0 o.iterations 1 (measure o a b b2 bias o.outCount) warm =
      some t ∧ t.Sized o ∧ Result o a b b2 bias t.output := by
    apply counted_one_spec (fun index s => s.Sized o ∧ (0 < index → Result o a b b2 bias s.output)) (Nat.zero_le _)
      ⟨hsized, fun h => absurd h (Nat.lt_irrefl 0)⟩
    · intro index s _ _ hs
      obtain ⟨t, ht, htsized, htresult⟩ := measure_spec hadmitted harrays hno index hs.1
      exact ⟨t, ht, htsized, fun _ => htresult⟩
    · intro t ht
      exact ⟨ht.1, ht.2 hadmitted.iterations_range.1⟩
  obtain ⟨actual, hactual, htext⟩ := Oracle.checksum_eq last.output o.outCount (hsized'.output ▸ out_count_le o)
  have hwords : last.output.take o.outCount = reference.take o.outCount := hresult'.take_eq hresult
  have hsame : actual = expected := by
    rw [checksum, if_pos (hsized'.output ▸ out_count_le o), hwords] at hactual
    rw [checksum, if_pos (hlength ▸ out_count_le o)] at hexpected
    exact Option.some.inj (hactual.symm.trans hexpected)
  subst hsame
  refine ⟨⟨hex016 actual.toNat, hex016 actual.toNat, true, "", 0⟩, last.output, ?_, hresult', htext, rfl, rfl⟩
  rw [Options.outputSize] at hreference hwarm
  simp only [benchmark, hreference, hexpected, hwarm, hlast, hactual, Option.bind_eq_bind, Option.bind_some,
    Option.pure_def, beq_self_eq_true, if_true]

end Runs

theorem checkedCount_eq {a b : ℕ} (ha : a ≤ 512) (hb : b ≤ 512) : checkedCount a b = some (a * b) := by
  refine if_neg ?_
  rintro ⟨hpos, hlt⟩
  rw [gt_iff_lt, Nat.div_lt_iff_lt_mul (Nat.pos_of_ne_zero hpos)] at hlt
  have : b * a ≤ 512 * 512 := Nat.mul_le_mul hb ha
  omega

theorem main_eq {argv : List (List UInt8)} {o : Options} (h : parseOptions argv = some o) {report : Report}
    (hreport : benchmark o (fillI32 (o.m * o.k) 1) (fillI32 (o.k * o.n) 2) (fillI32 (o.n * o.k) 3) (fillBias o.n)
      o.outCount (o.m * o.n) = some report) : main argv = .reported report := by
  have hadmitted := parseOptions_admitted h
  have hm := hadmitted.m_range.2
  have hn := hadmitted.n_range.2
  have hk := hadmitted.k_range.2
  rw [Options.outCount] at hreport
  simp only [main, h, checkedCount_eq hm hk, checkedCount_eq hk hn, checkedCount_eq hm hn, hreport]

/-- For all accepted arguments: every candidate computes the words of the reference without undefined
behaviour, the arrays the program fills meet the conditions, and the report is valid with the checksum of the
oracle. -/
theorem candidates_agree {argv : List (List UInt8)} {o : Options} (h : parseOptions argv = some o) :
    (∀ a b b2 bias, Arrays o a b b2 bias → NoOverflow o a b b2 bias →
      ∀ scratch output scratch₀ output₀, scratch.length = o.m * o.n → output.length = o.outputSize →
        scratch₀.length = o.m * o.n → output₀.length = o.outputSize →
        ∃ s t s₀ t₀, execute o a b b2 bias scratch output = some (s, t) ∧
          execute o.reference a b b2 bias scratch₀ output₀ = some (s₀, t₀) ∧
          o.outCount ≤ t.length ∧ t.take o.outCount = t₀.take o.outCount) ∧
    Arrays o (fillI32 (o.m * o.k) 1) (fillI32 (o.k * o.n) 2) (fillI32 (o.n * o.k) 3) (fillBias o.n) ∧
    NoOverflow o (fillI32 (o.m * o.k) 1) (fillI32 (o.k * o.n) 2) (fillI32 (o.n * o.k) 3) (fillBias o.n) ∧
    ∃ report, main argv = .reported report ∧ report.checksum = report.referenceChecksum ∧
      report.semanticValid = true ∧
      ∀ program : GraphProgram, program.family = o.family → program.m = o.m → program.n = o.n → program.k = o.k →
        report.checksum = Oracle.expectedChecksum program := by
  have hadmitted := parseOptions_admitted h
  have harrays := arrays_filled o
  have hno := noOverflow_filled hadmitted
  obtain ⟨report, c, hreport, hresult, hchecksum, hreference, hvalid⟩ := benchmark_report hadmitted harrays hno
  refine ⟨?_, harrays, hno, report, main_eq h hreport, hreference.symm, hvalid, ?_⟩
  · intro a b b2 bias harrays hno scratch output scratch₀ output₀ hscratch houtput hscratch₀ houtput₀
    obtain ⟨s, t, hrun, -, hlength, hresult⟩ := execute_result harrays hno hadmitted hscratch houtput
    obtain ⟨s₀, t₀, hrun₀, -, -, hresult₀⟩ := reference_result hadmitted harrays hno hscratch₀ houtput₀
    exact ⟨s, t, s₀, t₀, hrun, hrun₀, hlength ▸ out_count_le o, hresult.take_eq hresult₀⟩
  · intro program hfamily hm hn hk
    rw [hchecksum, Oracle.output_eq hfamily hm hn hk hresult]
    rfl

/-- A fused candidate with tiles that do not divide the dimensions. -/
def tiledArguments : List (List UInt8) :=
  ["benchmark", "gemm_bias_relu", "3", "5", "4", "tiled", "3", "fused", "1", "2"].map bytes

theorem candidates_agree_tiled :
    ∃ report, main tiledArguments = .reported report ∧ report.semanticValid = true ∧
      report.checksum = Oracle.expectedChecksum ⟨.gemmBiasRelu, 3, 5, 4, by decide, by decide⟩ := by
  have hoptions : parseOptions tiledArguments = some ⟨.gemmBiasRelu, 3, 5, 4, .tiled, 3, .fused, 1, 2⟩ := by
    decide +kernel
  obtain ⟨-, -, -, report, hmain, -, hvalid, horacle⟩ := candidates_agree hoptions
  exact ⟨report, hmain, hvalid, horacle _ rfl rfl rfl rfl⟩

end Raveil.Native
