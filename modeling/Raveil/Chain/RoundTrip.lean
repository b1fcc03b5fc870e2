import Raveil.Fold.Bridge
import Raveil.Session.RoundTrip
import Raveil.Chain.Facts

/-! The guest decodes every chain the host encodes, links included. -/
namespace Raveil.Chain
open Raveil.Lib Raveil.Fold

variable {session : Session} {d : ℕ → JobData} {epoch i : ℕ} {ids : List ℕ} {job : Job}

/-- The request of job `i` as it goes on the wire. -/
def wireChild (d : ℕ → JobData) (ids : List ℕ) (i : ℕ) : Child :=
  ⟨(d i).config, (d i).values 0, (d i).values 1, ids.getD i 0⟩

/-- The envelope of a chain. -/
def chainEnvelope (epoch n : ℕ) (d : ℕ → JobData) (ids : List ℕ) : Sealed :=
  ⟨RAVEIL_FOLD_CHAIN_MAGIC, RAVEIL_FOLD_CHAIN_END, epoch,
    (List.range n).map fun i => [(d i).source, (d i).mask] ++ (wireChild d ids i).record⟩

/-- The request identities `encode` accepts. -/
structure IdsOk (session : Session) (ids : List ℕ) : Prop where
  length : ids.length = session.jobs.length
  range : ∀ i ∈ ids, 0 < i ∧ i < 2 ^ 64
  nodup : ids.Nodup

section Host

variable (h : ChainOk session d)

include h

/-- Both operands of a job, as `validate` left them. -/
theorem ChainOk.operands (hj : session.jobs[i]? = some job) :
    ∃ x y, job.inputs = [x, y] ∧ JobOperand session d i 0 x ∧ JobOperand session d i 1 y := by
  obtain ⟨x, y, hxy⟩ := List.length_eq_two.mp (h.two i job hj)
  exact ⟨x, y, hxy, h.operand i job hj 0 x (by rw [hxy]; rfl), h.operand i job hj 1 y (by rw [hxy]; rfl)⟩

omit h in
theorem linkOperand_eq {b : ℕ} {x : Operand} (hx : JobOperand session d i b x) (s : ℕ × ℕ) :
    linkOperand session s (x, b) = .ok (((d i).link b).getD s.1,
      if ((d i).link b).isSome then s.2 ||| 1 <<< b else s.2) := by
  cases hx with
  | literal hlink =>
    rw [hlink]
    rfl
  | link name source hlink hname =>
    rw [hlink]
    simp only [linkOperand, hname]
    rfl

theorem ChainOk.links_eq (hj : session.jobs[i]? = some job) :
    links session i = .ok ((d i).source, (d i).mask) := by
  obtain ⟨x, y, hxy, hx, hy⟩ := h.operands hj
  have hzip : job.inputs.zipIdx = [(x, 0), (y, 1)] := by rw [hxy]; rfl
  rw [links, hj]
  dsimp only
  rw [hzip, List.foldlM_cons, linkOperand_eq hx]
  change linkOperand session _ (y, 1) >>= pure = _
  rw [linkOperand_eq hy, bind_pure]
  refine congrArg Except.ok (Prod.ext rfl ?_)
  unfold JobData.mask
  cases (d i).link 0 <;> cases (d i).link 1 <;> simp

theorem ChainOk.wireInputs_eq (hj : session.jobs[i]? = some job) :
    wireInputs (d i).config (d i).mask job = [(d i).values 0, (d i).values 1] := by
  have hvalue : ∀ b, b < 2 → (if (d i).mask &&& 1 <<< b ≠ 0 then List.replicate (cfg (d i).config (5 + b)) 0
      else literalValues job.inputs[b]?) = (d i).values b := by
    intro b hb
    obtain ⟨x, hx⟩ : ∃ x, job.inputs[b]? = some x :=
      ⟨_, List.getElem?_eq_getElem (show b < job.inputs.length by rw [h.two i job hj]; exact hb)⟩
    have hop := h.operand i job hj b x hx
    rw [hx]
    cases hop with
    | literal hlink =>
      rw [if_neg (by rw [JobData.mask_bit hb, hlink]; decide)]
      rfl
    | link name source hlink hname hlt hlength hvalues =>
      rw [if_pos (by rw [JobData.mask_bit hb, hlink]; rfl), hvalues]
  rw [wireInputs, List.map_congr_left fun b hb => hvalue b (List.mem_range.mp hb)]
  rfl

theorem ChainOk.wireChild_ok (hids : IdsOk session ids) (hi : i < session.jobs.length) :
    (wireChild d ids i).Ok := by
  have hj := List.getElem?_eq_getElem hi
  obtain ⟨out, hout⟩ := h.admitted i _ hj
  have hid : ids.getD i 0 ∈ ids := by
    rw [List.getD_eq_getElem _ _ (by rw [hids.length]; exact hi)]
    exact List.getElem_mem _
  exact RequestOk.of_reference (h.compiled i _ hj) hout (hids.range _ hid)

theorem ChainOk.encode_eq (hvalid : validate session = .ok session) (hids : IdsOk session ids)
    (hepoch : 0 < epoch ∧ epoch < 2 ^ 64) :
    encode session epoch ids = .ok ((chainEnvelope epoch session.jobs.length d ids).bytes,
      (List.range session.jobs.length).map fun i => (wireChild d ids i).bytes) := by
  have hlen : (session.jobs.zip ids).length = session.jobs.length := by
    rw [List.length_zip, hids.length, Nat.min_self]
  have hpayload : ∀ k, ((List.range k).map fun i =>
      packWords [(d i).source, (d i).mask] ++ (wireChild d ids i).bytes).flatten =
      packWords (chainEnvelope epoch k d ids).records.flatten := by
    intro k
    rw [chainEnvelope, packWords_flatten, List.map_map]
    refine congrArg List.flatten (List.map_congr_left fun i _ => ?_)
    exact (packWords_append _ _).symm
  have hloop : (session.jobs.zip ids).zipIdx.foldlM
      (fun (s : List (List UInt8) × List UInt8) job => do
        let config ← compileRegion job.1.1.region
        let link ← links session job.2
        let child ← requestBytes config (wireInputs config link.2 job.1.1) job.1.2
        pure (s.1 ++ [child], s.2 ++ (packWords [link.1, link.2] ++ child))) ([], []) =
      .ok ((List.range session.jobs.length).map (fun i => (wireChild d ids i).bytes),
        packWords (chainEnvelope epoch session.jobs.length d ids).records.flatten) := by
    refine foldlM_zipIdx_eq_ok.mpr ⟨fun k => ((List.range k).map (fun i => (wireChild d ids i).bytes),
      ((List.range k).map fun i =>
        packWords [(d i).source, (d i).mask] ++ (wireChild d ids i).bytes).flatten), rfl, ?_, ?_⟩
    · rw [hlen]
      exact Prod.ext rfl (hpayload _)
    · rintro k ⟨job, id⟩ hk
      obtain ⟨hjob, hid⟩ := List.getElem?_zip_eq_some.mp hk
      have hlt := (List.getElem?_eq_some_iff.mp hjob).1
      obtain rfl : ids.getD k 0 = id := by rw [List.getD_eq_getElem?_getD, hid, Option.getD_some]
      refine except_bind_eq_ok.mpr ⟨_, h.compiled k _ hjob, except_bind_eq_ok.mpr ⟨_, h.links_eq hjob, ?_⟩⟩
      refine except_bind_eq_ok.mpr ⟨(wireChild d ids k).bytes, ?_, ?_⟩
      · rw [h.wireInputs_eq hjob]
        exact requestBytes_eq_ok.mpr ⟨h.wireChild_ok hids hlt, rfl⟩
      · dsimp only
        rw [except_pure_eq_ok, List.range_succ, List.map_append, List.map_append, List.flatten_append]
        simp
  unfold encode
  refine except_bind_eq_ok.mpr ⟨_, hvalid, ?_⟩
  refine require_then_eq_ok.mpr ⟨hepoch, require_then_eq_ok.mpr ⟨⟨hids.length, hids.range, hids.nodup⟩, ?_⟩⟩
  refine except_bind_eq_ok.mpr ⟨_, hloop, ?_⟩
  rw [except_pure_eq_ok, Prod.mk.injEq]
  refine ⟨?_, rfl⟩
  rw [← Sealed.bytes_eq rfl]
  simp only [chainEnvelope, List.length_map, List.length_range]

end Host

section Links

variable (h : ChainOk session d)

include h

theorem ChainOk.jobOperand (hi : i < session.jobs.length) {b : ℕ} (hb : b < 2) :
    ∃ x, JobOperand session d i b x := by
  have hj := List.getElem?_eq_getElem hi
  have htwo := h.two i _ hj
  exact ⟨_, h.operand i _ hj b _ (List.getElem?_eq_getElem (by omega))⟩

theorem ChainOk.link_facts (hi : i < session.jobs.length) {b s : ℕ} (hb : b < 2)
    (hs : (d i).link b = some s) : s = (d i).source ∧ s < i ∧ cfg (d i).config (5 + b) = (d s).cells ∧
      (d i).values b = List.replicate (cfg (d i).config (5 + b)) 0 := by
  obtain ⟨x, hx⟩ := h.jobOperand hi hb
  cases hx with
  | literal hlink =>
    rw [hlink] at hs
    cases hs
  | link name source hlink hname hlt hlength hvalues =>
    obtain rfl := Option.some.inj (hs.symm.trans hlink)
    refine ⟨?_, hlt, hlength, hvalues⟩
    unfold JobData.source
    obtain rfl | rfl : b = 0 ∨ b = 1 := by omega
    · cases h1 : (d i).link 1 with
      | none => rw [hlink, Option.getD_none, Option.getD_some]
      | some y => exact h.one i _ (List.getElem?_eq_getElem hi) s y hlink h1
    · rw [hlink, Option.getD_some]

/-- A linked job has its producer before it. -/
theorem ChainOk.source_lt (hi : i < session.jobs.length) (hm : (d i).mask ≠ 0) : (d i).source < i := by
  cases h0 : (d i).link 0 with
  | some s =>
    obtain ⟨hs, hlt, -⟩ := h.link_facts hi (by omega) h0
    omega
  | none =>
    cases h1 : (d i).link 1 with
    | some s =>
      obtain ⟨hs, hlt, -⟩ := h.link_facts hi (by omega) h1
      omega
    | none => exact absurd (JobData.mask_eq_zero.mpr ⟨h0, h1⟩) hm

omit h in
theorem source_of_mask (hm : (d i).mask = 0) : (d i).source = UINT32_MAX := by
  obtain ⟨h0, h1⟩ := JobData.mask_eq_zero.mp hm
  rw [JobData.source, h0, h1]
  rfl

theorem ChainOk.source_u32 (hi : i < session.jobs.length) : (d i).source < 2 ^ 32 := by
  by_cases hm : (d i).mask = 0
  · rw [source_of_mask hm]
    decide
  · have := h.source_lt hi hm
    have := h.count
    omega

end Links

section Guest

variable (h : ChainOk session d) (hids : IdsOk session ids)

include h hids

theorem ChainOk.chainEnvelope_ok (hepoch : 0 < epoch ∧ epoch < 2 ^ 64) :
    (chainEnvelope epoch session.jobs.length d ids).Ok ∧
    340 ≤ (chainEnvelope epoch session.jobs.length d ids).bytes.length ∧
    (chainEnvelope epoch session.jobs.length d ids).bytes.length ≤ RAVEIL_FOLD_CHAIN_MAX_BYTES := by
  have hrecord : ∀ r ∈ (chainEnvelope epoch session.jobs.length d ids).records,
      77 ≤ r.length ∧ r.length ≤ 725 := by
    intro r hr
    obtain ⟨i, hi, rfl⟩ := List.mem_map.mp hr
    have hk := h.wireChild_ok hids (List.mem_range.mp hi)
    have hlengths := RequestOk.lengths hk
    rw [List.length_append, hk.length_record]
    simp only [List.length_cons, List.length_nil]
    omega
  have hmagic : RAVEIL_FOLD_CHAIN_MAGIC < 2 ^ 32 := by decide
  have hsentinel : RAVEIL_FOLD_CHAIN_END < 2 ^ 32 := by decide
  exact Sealed.ok_of_records hmagic hsentinel hepoch (by simpa [chainEnvelope] using h.count)
    (fun r hr => (hrecord r hr).1) (fun r hr => (hrecord r hr).2) (by decide)

/-- Where the guest finds the links and the request of job `i`. -/
theorem ChainOk.chainAt (epoch : ℕ) (hi : i < session.jobs.length) :
    word (chainEnvelope epoch session.jobs.length d ids).bytes
      ((chainEnvelope epoch session.jobs.length d ids).offset i) = (d i).source ∧
    word (chainEnvelope epoch session.jobs.length d ids).bytes
      ((chainEnvelope epoch session.jobs.length d ids).offset i + 4) = (d i).mask ∧
    Sealed.ChildAt (chainEnvelope epoch session.jobs.length d ids) (wireChild d ids i)
      ((chainEnvelope epoch session.jobs.length d ids).offset i + 8) ∧
    (chainEnvelope epoch session.jobs.length d ids).offset (i + 1) =
      (chainEnvelope epoch session.jobs.length d ids).offset i + 8 + (wireChild d ids i).bytes.length := by
  have hr : (chainEnvelope epoch session.jobs.length d ids).records[i]? =
      some ([(d i).source, (d i).mask] ++ (wireChild d ids i).record) := by
    simp [chainEnvelope, hi]
  have hmask := JobData.mask_le (d i)
  obtain ⟨hchild, hnext⟩ := Sealed.childAt (h.wireChild_ok hids hi) hr
  refine ⟨?_, ?_, hchild, hnext⟩
  · exact word_record (k := 0) hr rfl (h.source_u32 hi)
  · exact word_record (k := 1) hr rfl (by omega)

/-- The loop state before job `k`. -/
def loopAt (epoch n : ℕ) (d : ℕ → JobData) (ids : List ℕ) (k : ℕ) : ChainLoop where
  admitted :=
    { jobs :=
        { epoch := epoch
          count := n
          offsets := fun i => if i < k then (chainEnvelope epoch n d ids).offset i + 8 else 0
          lengths := fun i => if i < k then (wireChild d ids i).bytes.length else 0 }
      sources := fun i => if i < k then (d i).source else 0
      masks := fun i => if i < k then (d i).mask else 0 }
  ids := fun i => if i < k then ids.getD i 0 else 0
  counts := fun i => if i < k then (d i).cells else 0
  offset := (chainEnvelope epoch n d ids).offset k

/-- A linked input is as long as its producer's output, and zero on the wire. -/
theorem ChainOk.chainInput_eq (epoch : ℕ) (hi : i < session.jobs.length) :
    (List.range 2).all (chainInput (wireChild d ids i).request (loopAt epoch session.jobs.length d ids i).counts
      (d i).source (d i).mask) = true := by
  rw [List.all_eq_true]
  intro b hb
  have hb2 := List.mem_range.mp hb
  have hok := h.wireChild_ok hids hi
  have hlengths := RequestOk.lengths hok
  unfold chainInput
  split
  · rename_i hbit
    obtain ⟨s, hs⟩ := Option.isSome_iff_exists.mp ((JobData.mask_bit hb2).mp hbit)
    obtain ⟨hsource, hlt, hlength, hvalues⟩ := h.link_facts hi hb2 hs
    have hcount : (loopAt epoch session.jobs.length d ids i).counts (d i).source = (d s).cells := by
      rw [← hsource]
      exact if_pos hlt
    rw [if_neg (by rw [hcount]; exact not_not.mpr hlength), List.all_eq_true]
    intro k hk
    have hk' : k < cfg (d i).config (5 + b) := List.mem_range.mp hk
    have hget : ((d i).values b)[k]? = some 0 := by
      rw [hvalues, List.getElem?_replicate, if_pos hk']
    have hlen : k < ((d i).values b).length := by rwa [hvalues, List.length_replicate]
    rw [decide_eq_true_iff, List.getD_eq_getElem?_getD]
    obtain rfl | rfl : b = 0 ∨ b = 1 := by omega
    · change ((placed ((d i).values 0) ((d i).values 1))[324 * 0 + k]?).getD 0 = 0
      rw [Nat.mul_zero, Nat.zero_add, placed_left hlen, hget, Option.getD_some]
    · change ((placed ((d i).values 0) ((d i).values 1))[324 * 1 + k]?).getD 0 = 0
      rw [Nat.mul_one, placed_right (show ((d i).values 0).length ≤ 324 from hlengths.1) hlen, hget,
        Option.getD_some]
  · rfl

theorem ChainOk.chainJob_eq (epoch : ℕ) (hi : i < session.jobs.length) :
    chainJob (chainEnvelope epoch session.jobs.length d ids).bytes
      (chainEnvelope epoch session.jobs.length d ids).bytes.length
      (loopAt epoch session.jobs.length d ids i) i = some (loopAt epoch session.jobs.length d ids (i + 1)) := by
  obtain ⟨hsource, hmask, hchild, hnext⟩ := h.chainAt hids epoch hi
  have hinputs := h.chainInput_eq hids epoch hi
  have hok := h.wireChild_ok hids hi
  have hsize := hok.length_bytes
  have hlengths := RequestOk.lengths hok
  have hfits := hchild.fits
  have hlen := hids.length
  have hany : ((List.range i).any fun j => (loopAt epoch session.jobs.length d ids i).ids j =
      (wireChild d ids i).request.requestId) = false := by
    rw [List.any_eq_false]
    intro j hj he
    have hji := List.mem_range.mp hj
    simp only [loopAt, hji, if_true, decide_eq_true_iff] at he
    change ids.getD j 0 = ids.getD i 0 at he
    rw [List.getD_eq_getElem _ _ (by omega), List.getD_eq_getElem _ _ (by omega)] at he
    have := hids.nodup.getElem_inj_iff.mp he
    omega
  have hlink : ¬ ((d i).mask > 3 ∨ (if (d i).mask = 0 then (d i).source ≠ UINT32_MAX else (d i).source ≥ i)) := by
    have hle := JobData.mask_le (d i)
    rintro (h3 | h3)
    · omega
    · by_cases hm : (d i).mask = 0
      · rw [if_pos hm] at h3
        exact h3 (source_of_mask hm)
      · rw [if_neg hm] at h3
        have := h.source_lt hi hm
        omega
  unfold chainJob
  simp only [loopAt] at hany hinputs ⊢
  simp only [hsource, hmask, hchild.length, hchild.request, hany, hinputs]
  rw [if_neg, if_neg, if_neg (by decide), if_neg hlink, if_neg (by decide)]
  · rw [hnext, ← update_below (fun i => ids.getD i 0),
      ← update_below (fun i => (d i).cells),
      ← update_below (fun i => (d i).source),
      ← update_below (fun i => (d i).mask),
      ← update_below (fun i => (chainEnvelope epoch session.jobs.length d ids).offset i + 8),
      ← update_below (fun i => (wireChild d ids i).bytes.length)]
    rfl
  · rw [hchild.magic]
    unfold RAVEIL_FOLD_MAX_BYTES
    omega
  · omega

theorem ChainOk.raveilFoldChainDecode_eq (hepoch : 0 < epoch ∧ epoch < 2 ^ 64) :
    raveilFoldChainDecode (chainEnvelope epoch session.jobs.length d ids).bytes
      (chainEnvelope epoch session.jobs.length d ids).bytes.length =
      some (loopAt epoch session.jobs.length d ids session.jobs.length).admitted := by
  obtain ⟨henvelope, hmin, hmax⟩ := h.chainEnvelope_ok hids hepoch
  have hcount := h.count
  have hloop : (List.range session.jobs.length).foldlM
      (chainJob (chainEnvelope epoch session.jobs.length d ids).bytes
        (chainEnvelope epoch session.jobs.length d ids).bytes.length)
      (loopAt epoch session.jobs.length d ids 0) =
      some (loopAt epoch session.jobs.length d ids session.jobs.length) :=
    foldlM_range_pure fun k hk => h.chainJob_eq hids epoch hk
  set e := chainEnvelope epoch session.jobs.length d ids with he
  have hn : e.records.length = session.jobs.length := by simp [he, chainEnvelope]
  have hstart : (⟨⟨⟨epoch, session.jobs.length, fun _ => 0, fun _ => 0⟩, fun _ => 0, fun _ => 0⟩, fun _ => 0,
      fun _ => 0, 24⟩ : ChainLoop) = loopAt epoch session.jobs.length d ids 0 := by
    simp only [loopAt, Nat.not_lt_zero, if_false, Sealed.offset_zero]
  have hoffset : (loopAt epoch session.jobs.length d ids session.jobs.length).offset = e.bytes.length - 8 := by
    rw [← Sealed.offset_count, hn]
    rfl
  unfold raveilFoldChainDecode
  rw [if_neg]
  · dsimp only
    rw [Sealed.word_epoch henvelope, Sealed.word_count henvelope, hn, show e.epoch = epoch from rfl,
      if_neg hepoch.1.ne', hstart, hloop]
    exact if_neg (not_not.mpr hoffset)
  · rw [Sealed.word_magic henvelope, Sealed.word_version, Sealed.word_size henvelope,
      Sealed.word_count henvelope, Sealed.word_sentinel henvelope, ← Sealed.word_crc, hn,
      show e.magic = RAVEIL_FOLD_CHAIN_MAGIC from rfl, show e.sentinel = RAVEIL_FOLD_CHAIN_END from rfl]
    omega

theorem ChainOk.chainEnvelope_offset (epoch : ℕ) (hi : i ≤ session.jobs.length) :
    (chainEnvelope epoch session.jobs.length d ids).offset i =
      24 + ((List.range i).map fun j => 8 + (wireChild d ids j).bytes.length).sum := by
  induction i with
  | zero => exact Sealed.offset_zero
  | succ i ih =>
    rw [(h.chainAt hids epoch hi).2.2.2, ih (by omega), List.range_succ, List.map_append, List.sum_append,
      List.map_singleton, List.sum_singleton]
    omega

end Guest

/-- What the guest knows of job `i` after decoding. -/
structure ChainSpan (session : Session) (ids : List ℕ) (bytes : List UInt8) (children : List (List UInt8))
    (c : FoldChain) (i : ℕ) (job : Job) : Prop where
  links : links session i = .ok (c.sources i, c.masks i)
  offset : c.jobs.offsets i = 24 + ((children.take i).map fun child => 8 + child.length).sum + 8
  span : children[i]? = some ((bytes.drop (c.jobs.offsets i)).take (c.jobs.lengths i))
  length : (children[i]?).map List.length = some (c.jobs.lengths i)
  request : ∃ config a b id, compileRegion job.region = .ok config ∧
    wireInputs config (c.masks i) job = [a, b] ∧ ids[i]? = some id ∧
    raveilFoldDecode (bytes.drop (c.jobs.offsets i)) (c.jobs.lengths i) = some ⟨id, config, placed a b⟩

/-- The guest decodes what the host encoded. -/
theorem chain_round_trip (hvalid : validate session = .ok session) (hepoch : 0 < epoch ∧ epoch < 2 ^ 64)
    (hids : IdsOk session ids) :
    ∃ bytes children c, encode session epoch ids = .ok (bytes, children) ∧
      raveilFoldChainDecode bytes bytes.length = some c ∧ c.jobs.epoch = epoch ∧
      c.jobs.count = session.jobs.length ∧
      ∀ i job, session.jobs[i]? = some job → ChainSpan session ids bytes children c i job := by
  obtain ⟨d, h⟩ := validate_eq_ok hvalid
  refine ⟨_, _, _, h.encode_eq hvalid hids hepoch, h.raveilFoldChainDecode_eq hids hepoch, rfl, rfl,
    fun i job hj => ?_⟩
  have hi := (List.getElem?_eq_some_iff.mp hj).1
  obtain ⟨-, -, hchild, -⟩ := h.chainAt hids epoch hi
  have hget : ((List.range session.jobs.length).map fun i => (wireChild d ids i).bytes)[i]? =
      some (wireChild d ids i).bytes := by
    rw [List.getElem?_map, List.getElem?_range hi, Option.map_some]
  have hoffset : (loopAt epoch session.jobs.length d ids session.jobs.length).admitted.jobs.offsets i =
      (chainEnvelope epoch session.jobs.length d ids).offset i + 8 := if_pos hi
  have hlength : (loopAt epoch session.jobs.length d ids session.jobs.length).admitted.jobs.lengths i =
      (wireChild d ids i).bytes.length := if_pos hi
  have hsource : (loopAt epoch session.jobs.length d ids session.jobs.length).admitted.sources i =
      (d i).source := if_pos hi
  have hmask : (loopAt epoch session.jobs.length d ids session.jobs.length).admitted.masks i =
      (d i).mask := if_pos hi
  have hid : ids[i]? = some (ids.getD i 0) := by
    have hlt : i < ids.length := by rw [hids.length]; exact hi
    rw [List.getD_eq_getElem _ _ hlt, List.getElem?_eq_getElem hlt]
  refine ⟨?_, ?_, ?_, ?_, (d i).config, (d i).values 0, (d i).values 1, ids.getD i 0, h.compiled i job hj, ?_,
    hid, ?_⟩
  · rw [hsource, hmask]
    exact h.links_eq hj
  · rw [hoffset, h.chainEnvelope_offset hids epoch hi.le, ← List.map_take, List.take_range, Nat.min_eq_left hi.le,
      List.map_map]
    rfl
  · rw [hget, hoffset, hlength, hchild.span]
  · rw [hget, hlength, Option.map_some]
  · rw [hmask]
    exact h.wireInputs_eq hj
  · rw [hoffset, hlength, hchild.request]
    rfl

/-- Requests, sessions and chains survive the wire in both directions. -/
theorem wire_round_trips :
    (∀ config a b requestId c, validateConfig (config.map Int.ofNat) = .ok c → a.length = cfg config 5 →
      b.length = cfg config 6 → (∀ w ∈ a, w < 2 ^ 32) → (∀ w ∈ b, w < 2 ^ 32) →
      0 < requestId ∧ requestId < 2 ^ 64 →
      ∃ bytes, requestBytes config [a, b] requestId = .ok bytes ∧
        (∀ capacity, bytes.length ≤ capacity →
          raveilFoldBridgeEncode ⟨requestId, config, placed a b⟩ capacity = some bytes) ∧
        raveilFoldDecode bytes bytes.length = some ⟨requestId, config, placed a b⟩) ∧
    (∀ bytes r capacity, raveilFoldDecode bytes bytes.length = some r →
      word bytes 0 = RAVEIL_FOLD_BRIDGE_MAGIC → bytes.length ≤ capacity →
      raveilFoldBridgeEncode r capacity = some bytes) ∧
    (∀ (session : Session.SessionSource) (epoch : ℕ) (ids : List ℕ), Session.validate session = .ok session →
      0 < epoch ∧ epoch < 2 ^ 64 → ids.length = session.jobs.length → (∀ i ∈ ids, 0 < i ∧ i < 2 ^ 64) →
      ids.Nodup →
      ∃ bytes children s, Session.encode session epoch ids = .ok (bytes, children) ∧
        Session.raveilFoldSessionDecode bytes bytes.length = some s ∧ s.epoch = epoch ∧
        s.count = session.jobs.length ∧
        ∀ i job, session.jobs[i]? = some job → Session.SessionSpan session ids bytes children s i job) ∧
    (∀ (session : Session) (epoch : ℕ) (ids : List ℕ), validate session = .ok session →
      0 < epoch ∧ epoch < 2 ^ 64 → IdsOk session ids →
      ∃ bytes children c, encode session epoch ids = .ok (bytes, children) ∧
        raveilFoldChainDecode bytes bytes.length = some c ∧ c.jobs.epoch = epoch ∧
        c.jobs.count = session.jobs.length ∧
        ∀ i job, session.jobs[i]? = some job → ChainSpan session ids bytes children c i job) := by
  refine ⟨fun config a b requestId c hc ha hb hwa hwb hid => ?_,
    fun bytes r capacity h hmagic hcapacity => raveilFoldBridgeEncode_decode h hmagic hcapacity,
    fun session epoch ids hvalid hepoch hlen hids hnodup =>
      Session.session_round_trip hvalid hepoch hlen hids hnodup,
    fun session epoch ids hvalid hepoch hids => chain_round_trip hvalid hepoch hids⟩
  have hok : (⟨config, a, b, requestId⟩ : Child).Ok := by
    obtain ⟨hlen, hwords, rfl, hadm⟩ := validateConfig_eq_ok.mp hc
    have hnat : (config.map Int.ofNat).map Int.toNat = config := by
      rw [List.map_map]
      exact List.map_id' _
    rw [hnat] at hadm
    refine ⟨by simpa using hlen, hadm, fun w hw => ?_, hid, ha, hb, hwa, hwb⟩
    have := (hwords w (List.mem_map.mpr ⟨w, hw, rfl⟩)).2
    exact le_mask.mp (Int.ofNat_le.mp this)
  have hlen := hok.length_bytes
  refine ⟨(⟨config, a, b, requestId⟩ : Child).bytes, requestBytes_eq_ok.mpr ⟨hok, rfl⟩,
    fun capacity hcapacity => raveilFoldBridgeEncode_eq hok (by rw [← hlen]; exact hcapacity), ?_⟩
  have hdecode := raveilFoldDecode_request hok []
  rw [List.append_nil] at hdecode
  rw [hlen]
  exact hdecode

def addRegion : Region where
  schema := "raveil.affine-fold.v1"
  shape := [1, 1]
  extent := 1
  fold := .sum
  lengths := [1, 1]
  views := ⟨[("v", [0, 0, 0, 0, 0]), ("w", [1, 0, 0, 0, 0])], by decide⟩
  nodes := [{ id := "x", op := .load, view := some "v" }, { id := "y", op := .load, view := some "w" },
    { id := "z", op := .add, args := some ["x", "y"] }]
  result := "z"

/-- Two jobs, the second adding to the word of the first. -/
def addChain : Session where
  schema := "raveil.fold-chain.v1"
  jobs :=
    [{ name := "a", region := addRegion, inputs := [.literal [7], .literal [2]] },
      { name := "b", region := addRegion, inputs := [.link "a", .literal [3]] }]

def addSession : Session.SessionSource where
  schema := "raveil.fold-session.v1"
  jobs := [{ name := "a", region := addRegion, inputs := [[7], [2]] }]

def addConfig : List ℕ :=
  [MAGIC, 1, 1, 1, 0, 1, 1, 2, 4, 0, 0, 0, 0, 0, 1, 0, 0, 0, 0] ++ List.replicate 30 0 ++
    [0x10000000, 0x12400000, 0x20080000, 0x30000000] ++ List.replicate 12 0

theorem wire_round_trips_add :
    (∃ bytes, requestBytes addConfig [[7], [2]] 5 = .ok bytes ∧
      raveilFoldDecode bytes bytes.length = some ⟨5, addConfig, placed [7] [2]⟩ ∧
      raveilFoldBridgeEncode ⟨5, addConfig, placed [7] [2]⟩ RAVEIL_FOLD_MAX_BYTES = some bytes) ∧
    (∃ bytes children s, Session.encode addSession 9 [5] = .ok (bytes, children) ∧
      Session.raveilFoldSessionDecode bytes bytes.length = some s ∧ s.epoch = 9 ∧ s.count = 1) ∧
    ∃ bytes children c, encode addChain 9 [5, 6] = .ok (bytes, children) ∧
      raveilFoldChainDecode bytes bytes.length = some c ∧ c.jobs.epoch = 9 ∧ c.jobs.count = 2 := by
  obtain ⟨hrequest, hbridge, hsession, hchain⟩ := wire_round_trips
  have hconfig : validateConfig (addConfig.map Int.ofNat) = .ok addConfig := by decide
  have hids : IdsOk addChain [5, 6] := ⟨rfl, by decide, by decide⟩
  refine ⟨?_, ?_, ?_⟩
  · obtain ⟨bytes, hbytes, -, hdecode⟩ :=
      hrequest addConfig [7] [2] 5 addConfig hconfig rfl rfl (by decide) (by decide) (by decide)
    have hlen := (requestBytes_eq_ok.mp hbytes).2
    have hmagic : word bytes 0 = RAVEIL_FOLD_BRIDGE_MAGIC := by
      rw [hlen]
      exact word_packWords (k := 0) rfl (by decide)
    have hcapacity : bytes.length ≤ RAVEIL_FOLD_MAX_BYTES := by
      rw [hlen, length_packWords]
      decide
    exact ⟨bytes, hbytes, hdecode, hbridge bytes _ _ hdecode hmagic hcapacity⟩
  · obtain ⟨bytes, children, s, hencode, hdecode, hepoch, hcount, -⟩ :=
      hsession addSession 9 [5] (by decide) (by decide) rfl (by decide) (by decide)
    exact ⟨bytes, children, s, hencode, hdecode, hepoch, hcount⟩
  · obtain ⟨bytes, children, c, hencode, hdecode, hepoch, hcount, -⟩ :=
      hchain addChain 9 [5, 6] (by decide) (by decide) hids
    exact ⟨bytes, children, c, hencode, hdecode, hepoch, hcount⟩


end Raveil.Chain
