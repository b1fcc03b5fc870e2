import Raveil.Native.Gemm

/-! Every candidate of the native benchmark writes the words of the reference. -/
namespace Raveil.Native

open Lib

/-- `out_count` of `main`. -/
def Options.outCount (o : Options) : ℕ := if o.family = .mlp2 then o.m * o.k else o.m * o.n

/-- The entries `main` allocates for the output: `hidden_count > out_count ? hidden_count : out_count`. -/
def Options.outputSize (o : Options) : ℕ := if o.m * o.n > o.outCount then o.m * o.n else o.outCount

/-- `reference_options` of `main`. -/
def Options.reference (o : Options) : Options :=
  { o with loopOrder := .ijk, tile := 0, materialization := .materialized }

/-- What `parse_options` promises of the options. -/
structure Options.Admitted (o : Options) : Prop where
  m_range : 1 ≤ o.m ∧ o.m ≤ 512
  n_range : 1 ≤ o.n ∧ o.n ≤ 512
  k_range : 1 ≤ o.k ∧ o.k ≤ 512
  tile_range : o.tile ≤ 64
  tile_iff : o.loopOrder = .tiled ↔ o.tile ≠ 0
  warmups_range : 1 ≤ o.warmups ∧ o.warmups ≤ 1000
  iterations_range : 1 ≤ o.iterations ∧ o.iterations ≤ 1000000

/-- The arrays `a`, `b`, `b2` and `bias` at their sizes and types. -/
structure Arrays (o : Options) (a b b2 bias : List ℤ) : Prop where
  a_length : a.length = o.m * o.k
  b_length : b.length = o.k * o.n
  b2_length : b2.length = o.n * o.k
  bias_length : bias.length = o.n
  a_range : ∀ x ∈ a, InInt32 x
  b_range : ∀ x ∈ b, InInt32 x
  b2_range : ∀ x ∈ b2, InInt32 x
  bias_range : ∀ x ∈ bias, InInt64 x

section Words

variable (o : Options) (a b b2 bias : List ℤ)

/-- An entry after the bias and the cut at zero. -/
def hidden (i j : ℕ) : ℤ := relu (dot a b o.n o.k i j o.k + bias.getD j 0)

/-- The first layer, row after row. -/
def hiddenWords : List ℤ := (List.range (o.m * o.n)).map fun x => hidden o a b bias (x / o.n) (x % o.n)

/-- No sum of the mathematical result leaves the 64-bit range, nor a product of a hidden word. -/
structure NoOverflow : Prop where
  first : ∀ i < o.m, ∀ j < o.n, ∀ q ≤ o.k, InInt64 (dot a b o.n o.k i j q)
  biased : o.family ≠ .gemm → ∀ i < o.m, ∀ j < o.n, InInt64 (dot a b o.n o.k i j o.k + bias.getD j 0)
  product : o.family = .mlp2 → ∀ i < o.m, ∀ j < o.k, ∀ p < o.n,
    InInt64 ((hiddenWords o a b bias).getD (i * o.n + p) 0 * b2.getD (p * o.k + j) 0)
  second : o.family = .mlp2 → ∀ i < o.m, ∀ j < o.k, ∀ q ≤ o.n,
    InInt64 (dot (hiddenWords o a b bias) b2 o.k o.n i j q)

/-- The words every candidate leaves in the front of the output. -/
def Result (c : List ℤ) : Prop :=
  match o.family with
  | .gemm => Holds o.m o.n o.outputSize c fun i j => some (dot a b o.n o.k i j o.k)
  | .gemmBiasRelu => Holds o.m o.n o.outputSize c fun i j => some (hidden o a b bias i j)
  | .mlp2 => Holds o.m o.k o.outputSize c fun i j => some (dot (hiddenWords o a b bias) b2 o.k o.n i j o.n)

end Words

variable {o : Options} {a b b2 bias : List ℤ} {c : List ℤ} {size : ℕ}

section Sizes

theorem hidden_count_le (o : Options) : o.m * o.n ≤ o.outputSize := by
  unfold Options.outputSize
  split_ifs <;> omega

theorem out_count_le (o : Options) : o.outCount ≤ o.outputSize := by
  unfold Options.outputSize
  split_ifs <;> omega

theorem length_hiddenWords : (hiddenWords o a b bias).length = o.m * o.n := by
  rw [hiddenWords, List.length_map, List.length_range]

theorem getElem?_hiddenWords {x : ℕ} (hx : x < o.m * o.n) :
    (hiddenWords o a b bias)[x]? = some (hidden o a b bias (x / o.n) (x % o.n)) := by
  rw [hiddenWords, List.getElem?_map, List.getElem?_range hx, Option.map_some]

/-- An array that holds all its entries is known to its last word. -/
theorem Holds.take_eq {m n : ℕ} {c c' : List ℤ} {v : ℕ → ℕ → ℤ} (h : Holds m n size c fun i j => some (v i j))
    (h' : ∀ x < m * n, c'[x]? = some (v (x / n) (x % n))) (hlength : c'.length = m * n) : c.take (m * n) = c' := by
  apply List.ext_getElem?
  intro x
  by_cases hx : x < m * n
  · have hn : 0 < n := by
      apply Nat.pos_of_ne_zero
      rintro rfl
      omega
    have hi : x / n < m := (Nat.div_lt_iff_lt_mul hn).mpr hx
    have hentry := h.entry (x / n) hi (x % n) (Nat.mod_lt x hn) _ rfl
    rw [Nat.div_add_mod'] at hentry
    rw [List.getElem?_take, if_pos hx, hentry, h' x hx]
  · rw [List.getElem?_eq_none (by rw [List.length_take]; omega), List.getElem?_eq_none (by omega)]

/-- Two arrays that hold the same entries have the same words in front. -/
theorem Holds.take_eq_take {m n : ℕ} {c c' : List ℤ} {v : ℕ → ℕ → ℤ} (h : Holds m n size c fun i j => some (v i j))
    (h' : Holds m n size c' fun i j => some (v i j)) : c.take (m * n) = c'.take (m * n) := by
  have hwords : ∀ x < m * n, ((List.range (m * n)).map fun x => v (x / n) (x % n))[x]? = some (v (x / n) (x % n)) := by
    intro x hx
    rw [List.getElem?_map, List.getElem?_range hx, Option.map_some]
  rw [h.take_eq hwords (by simp), h'.take_eq hwords (by simp)]

end Sizes

section Candidates

variable (harrays : Arrays o a b b2 bias) (hno : NoOverflow o a b b2 bias)

theorem InInt32.mul {x y : ℤ} (hx : InInt32 x) (hy : InInt32 y) : InInt64 (x * y) := by
  obtain ⟨hx₁, hx₂⟩ := hx
  obtain ⟨hy₁, hy₂⟩ := hy
  constructor <;> nlinarith

theorem inInt32_getD {l : List ℤ} (hl : ∀ x ∈ l, InInt32 x) (i : ℕ) : InInt32 (l.getD i 0) := by
  rw [List.getD_eq_getElem?_getD]
  rcases hi : l[i]? with _ | x
  · exact ⟨by decide, by decide⟩
  · exact hl x (List.mem_of_getElem? hi)

include harrays hno

theorem bounded_first : Bounded a b o.m o.n o.k where
  left := harrays.a_length
  right := harrays.b_length
  product _ _ _ _ _ _ := InInt32.mul (inInt32_getD harrays.a_range _) (inInt32_getD harrays.b_range _)
  sum := hno.first

theorem bounded_second (hfamily : o.family = .mlp2) : Bounded (hiddenWords o a b bias) b2 o.m o.k o.n where
  left := length_hiddenWords
  right := harrays.b2_length
  product := hno.product hfamily
  sum := hno.second hfamily

end Candidates

section Steps

variable (hadmitted : o.Admitted)
include hadmitted

theorem tile_pos (htiled : o.loopOrder = .tiled) : 0 < o.tile :=
  Nat.pos_of_ne_zero (hadmitted.tile_iff.mp htiled)

theorem step_pos {k : ℕ} (hk : 0 < k) : 0 < if o.loopOrder = .tiled then o.tile else k := by
  split_ifs with htiled
  · exact tile_pos hadmitted htiled
  · exact hk

theorem gemmCandidate_progress (h : Bounded a b o.m o.n o.k) (hsize : c.length = size) (hroom : o.m * o.n ≤ size) :
    ∃ c', gemmCandidate o a b c = some c' ∧ Progress a b o.m o.n o.k size c' fun _ _ => o.k := by
  unfold gemmCandidate
  rcases horder : o.loopOrder with _ | _ | _
  · exact gemmReference_progress h hsize hroom
  · exact gemmIkj_progress h hsize hroom
  · exact gemmTiled_progress h hsize hroom (tile_pos hadmitted horder)

/-- The second product, of any sizes. -/
theorem gemmI64I32_progress {m n k : ℕ} (hk : 0 < k) (h : Bounded a b m n k) (hsize : c.length = size)
    (hroom : m * n ≤ size) :
    ∃ c', gemmI64I32 o a b m n k c = some c' ∧ Progress a b m n k size c' fun _ _ => k := by
  unfold gemmI64I32
  by_cases horder : o.loopOrder = .ijk
  · rw [if_pos horder]
    exact gemmReference_progress h hsize hroom
  rw [if_neg horder]
  have hstep := step_pos hadmitted hk
  generalize (if o.loopOrder = .tiled then o.tile else k) = tile at hstep ⊢
  obtain ⟨c₀, hzero, h₀⟩ : ∃ c₀, zero c (m * n) = some c₀ ∧ Progress a b m n k size c₀ fun _ _ => 0 :=
    Progress.zero hsize hroom
  rw [hzero, Option.bind_eq_bind, Option.bind_some]
  refine counted_spec (fun pp c => Progress a b m n k size c fun _ _ => pp) hstep (Nat.zero_le k) h₀
    (fun pp c _ hpp hI => ?_) fun c hI => hI
  apply block_progress h hI (Nat.zero_le m) le_rfl (by omega) (by omega) (Nat.zero_le n) le_rfl
  · intro i' _ _ j' _ _
    rfl
  · intro i' hi j' hj
    rw [if_pos (by omega)]

end Steps

section Layers

variable (harrays : Arrays o a b b2 bias)
include harrays

theorem bias_entry {j : ℕ} (hj : j < o.n) : bias[j]? = some (bias.getD j 0) := by
  have hlt : j < bias.length := harrays.bias_length ▸ hj
  simp [List.getElem?_eq_getElem hlt]

variable (hno : NoOverflow o a b b2 bias)
include hno

theorem biasRelu_holds (hfamily : o.family ≠ .gemm)
    (h : Holds o.m o.n size c fun i j => some (dot a b o.n o.k i j o.k)) :
    ∃ c', biasRelu bias o.m o.n c = some c' ∧ Holds o.m o.n size c' fun i j => some (hidden o a b bias i j) := by
  refine Holds.each h fun i hi j hj c u hc hu => ?_
  obtain ⟨c', hstore, -⟩ := hc.store hi hj (hidden o a b bias i j)
  have hentry := hc.entry i hi j hj _ hu
  have hbiased := hno.biased hfamily i hi j hj
  refine ⟨_, c', rfl, ?_, hstore⟩
  simp only [hentry, bias_entry harrays hj, int64, Option.bind_eq_bind, Option.bind_some, if_pos hbiased]
  exact hstore

/-- The inner product of the fused loop, taken in chunks. -/
theorem chunked_sum {i j step : ℕ} (hstep : 0 < step) (hi : i < o.m) (hj : j < o.n) :
    ∃ sum, counted 0 o.k step (fun pp sum =>
        counted pp (min (pp + step) o.k) 1 (fun p sum => do
          accumulate sum (← a[i * o.k + p]?) (← b[p * o.n + j]?)) sum) 0 = some sum ∧
      sum = dot a b o.n o.k i j o.k := by
  have hempty : dot a b o.n o.k i j 0 = 0 := Finset.sum_range_zero _
  refine counted_spec (fun pp sum => sum = dot a b o.n o.k i j pp) hstep (Nat.zero_le o.k) hempty.symm
    (fun pp sum _ hpp hI => ?_) fun _ hI => hI
  subst hI
  exact sum_dot (bounded_first harrays hno) hi hj (by omega) (by omega)

theorem gemmBiasReluFused_holds (hadmitted : o.Admitted) (hfamily : o.family ≠ .gemm) (hsize : c.length = size)
    (hroom : o.m * o.n ≤ size) :
    ∃ c', gemmBiasReluFused o a b bias c = some c' ∧
      Holds o.m o.n size c' fun i j => some (hidden o a b bias i j) := by
  have hk : 0 < o.k := hadmitted.k_range.1
  have hstart : Holds o.m o.n size c fun _ _ => none := ⟨hsize, hroom, fun _ _ _ _ w hw => by cases hw⟩
  refine Holds.each hstart fun i hi j hj c u hc _ => ?_
  obtain ⟨c', hstore, -⟩ := hc.store hi hj (hidden o a b bias i j)
  obtain ⟨sum, hsum, rfl⟩ := chunked_sum harrays hno (step_pos hadmitted hk) hi hj
  have hbiased := hno.biased hfamily i hi j hj
  refine ⟨_, c', rfl, ?_, hstore⟩
  dsimp only
  rw [hsum, Option.bind_eq_bind, Option.bind_some]
  simp only [bias_entry harrays hj, int64, Option.bind_some, if_pos hbiased]
  exact hstore

/-- Both ways to the first layer of a family with a bias. -/
theorem firstLayer_holds (hadmitted : o.Admitted) (hfamily : o.family ≠ .gemm) (hsize : c.length = size)
    (hroom : o.m * o.n ≤ size) :
    ∃ c', firstLayer o a b bias c = some c' ∧
      Holds o.m o.n size c' fun i j => some (hidden o a b bias i j) := by
  unfold firstLayer
  split_ifs with hfused
  · exact gemmBiasReluFused_holds harrays hno hadmitted hfamily hsize hroom
  · obtain ⟨c₁, hproduct, h₁⟩ := gemmCandidate_progress hadmitted (bounded_first harrays hno) hsize hroom
    rw [hproduct, Option.bind_eq_bind, Option.bind_some]
    exact biasRelu_holds harrays hno hfamily h₁

/-- A run of a candidate has defined behaviour and leaves the words of the result, whatever the arrays it
writes held before. -/
theorem execute_result (hadmitted : o.Admitted) {scratch output : List ℤ} (hscratch : scratch.length = o.m * o.n)
    (houtput : output.length = o.outputSize) :
    ∃ scratch' output', execute o a b b2 bias scratch output = some (scratch', output') ∧
      scratch'.length = o.m * o.n ∧ output'.length = o.outputSize ∧ Result o a b b2 bias output' := by
  have hroom := hidden_count_le o
  unfold execute Result
  rcases hfamily : o.family with _ | _ | _
  · obtain ⟨c, hproduct, hc⟩ :=
      gemmCandidate_progress hadmitted (bounded_first harrays hno) houtput hroom
    refine ⟨scratch, c, ?_, hscratch, hc.length, hc⟩
    rw [if_pos rfl, hproduct]
    rfl
  · obtain ⟨c, hlayer, hc⟩ :=
      firstLayer_holds harrays hno hadmitted (by rw [hfamily]; decide) houtput hroom
    refine ⟨scratch, c, ?_, hscratch, hc.length, hc⟩
    rw [if_neg (by decide), hlayer]
    rfl
  · obtain ⟨c, hlayer, hc⟩ :=
      firstLayer_holds harrays hno hadmitted (by rw [hfamily]; decide) houtput hroom
    have htake : c.take (o.m * o.n) = hiddenWords o a b bias :=
      hc.take_eq (fun x hx => getElem?_hiddenWords hx) length_hiddenWords
    have hcopy : copy scratch c (o.m * o.n) = some (hiddenWords o a b bias) := by
      rw [copy, if_pos ⟨by omega, by rw [hc.length]; exact hroom⟩, htake, List.drop_eq_nil_of_le (by omega),
        List.append_nil]
    have hout : o.m * o.k ≤ o.outputSize := by
      have := out_count_le o
      rwa [Options.outCount, if_pos hfamily] at this
    obtain ⟨c₂, hproduct, hc₂⟩ :=
      gemmI64I32_progress hadmitted hadmitted.n_range.1 (bounded_second harrays hno hfamily) hc.length hout
    refine ⟨hiddenWords o a b bias, c₂, ?_, length_hiddenWords, hc₂.length, hc₂⟩
    rw [if_neg (by decide), hlayer]
    simp only [Option.bind_eq_bind, Option.bind_some, hcopy, hproduct]
    rfl

end Layers

/-- The result does not depend on the candidate. -/
theorem Result.take_eq {c c' : List ℤ} (h : Result o a b b2 bias c) (h' : Result o a b b2 bias c') :
    c.take o.outCount = c'.take o.outCount := by
  unfold Result at h h'
  unfold Options.outCount
  rcases hfamily : o.family with _ | _ | _ <;> rw [hfamily] at h h'
  · exact Holds.take_eq_take h h'
  · exact Holds.take_eq_take h h'
  · exact Holds.take_eq_take h h'

end Raveil.Native
