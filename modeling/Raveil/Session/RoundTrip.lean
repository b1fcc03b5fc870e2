import Raveil.Session.Wire

/-! The guest decodes every session the host encodes. -/
namespace Raveil.Session
open Raveil.Lib Raveil.Fold

variable {session : SessionSource} {epoch n : ℕ} {ids : List ℕ} {kid : ℕ → Child}

theorem validateJob_eq_ok {names names' : Finset String} {job : Job} (h : validateJob names job = .ok names') :
    ∃ c out, compileRegion job.region = .ok c ∧ reference job.region job.inputs = .ok out := by
  obtain ⟨-, h⟩ := require_then_eq_ok.mp h
  obtain ⟨-, h⟩ := require_then_eq_ok.mp h
  obtain ⟨c, hc, h⟩ := except_bind_eq_ok.mp h
  obtain ⟨out, hout, -⟩ := except_bind_eq_ok.mp h
  exact ⟨c, out, hc, hout⟩

theorem validateJobs {names names' : Finset String} {jobs : List Job}
    (h : jobs.foldlM validateJob names = .ok names') : ∀ job ∈ jobs,
      ∃ c out, compileRegion job.region = .ok c ∧ reference job.region job.inputs = .ok out := by
  induction jobs generalizing names with
  | nil => simp
  | cons job jobs ih =>
    obtain ⟨names'', hjob, hjobs⟩ := except_bind_eq_ok.mp h
    rw [List.forall_mem_cons]
    exact ⟨validateJob_eq_ok hjob, ih hjobs⟩

/-- What `kid` says about the job of a session. -/
structure JobChild (job : Job) (id : ℕ) (k : Child) : Prop where
  compiled : compileRegion job.region = .ok k.config
  inputs : job.inputs = [k.a, k.b]
  id : k.id = id
  ok : k.Ok

theorem exists_jobChild {job : Job} {id : ℕ} {c out : List ℕ} (hc : compileRegion job.region = .ok c)
    (hout : reference job.region job.inputs = .ok out) (hid : 0 < id ∧ id < 2 ^ 64) :
    ∃ k, JobChild job id k := by
  obtain ⟨a, b, hab, -⟩ := reference_inputs hc hout
  rw [hab] at hout
  exact ⟨⟨c, a, b, id⟩, hc, hab, rfl, RequestOk.of_reference hc hout hid⟩

/-- The envelope of a session. -/
def sessionEnvelope (epoch n : ℕ) (kid : ℕ → Child) : Sealed :=
  ⟨RAVEIL_FOLD_SESSION_MAGIC, RAVEIL_FOLD_SESSION_END, epoch, (List.range n).map fun i => (kid i).record⟩

theorem encode_eq (hvalid : validate session = .ok session) (hepoch : 0 < epoch ∧ epoch < 2 ^ 64)
    (hlen : ids.length = session.jobs.length) (hids : ∀ i ∈ ids, 0 < i ∧ i < 2 ^ 64) (hnodup : ids.Nodup)
    (hkid : ∀ i job id, session.jobs[i]? = some job → ids[i]? = some id → JobChild job id (kid i)) :
    encode session epoch ids = .ok ((sessionEnvelope epoch session.jobs.length kid).bytes,
      (List.range session.jobs.length).map fun i => (kid i).bytes) := by
  have hrequests : (session.jobs.zip ids).mapM (fun job => do
      let config ← compileRegion job.1.region
      requestBytes config job.1.inputs job.2) =
      .ok ((List.range session.jobs.length).map fun i => (kid i).bytes) := by
    have hzip : (session.jobs.zip ids).length = session.jobs.length := by
      rw [List.length_zip, hlen, Nat.min_self]
    rw [← hzip]
    refine mapM_eq_ok fun i job hjob => ?_
    obtain ⟨hjob, hid⟩ := List.getElem?_zip_eq_some.mp hjob
    have hk := hkid i _ _ hjob hid
    refine except_bind_eq_ok.mpr ⟨_, hk.compiled, ?_⟩
    rw [hk.inputs, ← hk.id]
    exact requestBytes_eq_ok.mpr ⟨hk.ok, rfl⟩
  unfold encode
  refine except_bind_eq_ok.mpr ⟨_, hvalid, ?_⟩
  refine require_then_eq_ok.mpr ⟨hepoch, require_then_eq_ok.mpr ⟨⟨hlen, hids, hnodup⟩, ?_⟩⟩
  refine except_bind_eq_ok.mpr ⟨_, hrequests, ?_⟩
  rw [except_pure_eq_ok, Prod.mk.injEq]
  refine ⟨?_, rfl⟩
  have hpayload : ((List.range session.jobs.length).map fun i => (kid i).bytes).flatten =
      packWords (sessionEnvelope epoch session.jobs.length kid).records.flatten := by
    rw [sessionEnvelope, packWords_flatten, List.map_map]
    rfl
  rw [← List.length_flatten, List.length_map, List.length_range]
  have hbytes := Sealed.bytes_eq (e := sessionEnvelope epoch session.jobs.length kid) hpayload
  rw [← hbytes]
  simp only [sessionEnvelope, List.length_map, List.length_range]

section Decode

variable (hn : 1 ≤ n ∧ n ≤ 8) (hepoch : 0 < epoch ∧ epoch < 2 ^ 64) (hok : ∀ i, i < n → (kid i).Ok)

include hn hepoch hok

theorem sessionEnvelope_ok : (sessionEnvelope epoch n kid).Ok ∧
    332 ≤ (sessionEnvelope epoch n kid).bytes.length ∧
    (sessionEnvelope epoch n kid).bytes.length ≤ RAVEIL_FOLD_SESSION_MAX_BYTES := by
  have hrecord : ∀ r ∈ (sessionEnvelope epoch n kid).records, 75 ≤ r.length ∧ r.length ≤ 723 := by
    intro r hr
    obtain ⟨i, hi, rfl⟩ := List.mem_map.mp hr
    have hk := hok i (List.mem_range.mp hi)
    have hlengths := RequestOk.lengths hk
    rw [hk.length_record]
    omega
  have hmagic : RAVEIL_FOLD_SESSION_MAGIC < 2 ^ 32 := by decide
  have hsentinel : RAVEIL_FOLD_SESSION_END < 2 ^ 32 := by decide
  exact Sealed.ok_of_records hmagic hsentinel hepoch (by simpa [sessionEnvelope] using hn)
    (fun r hr => (hrecord r hr).1) (fun r hr => (hrecord r hr).2) (by decide)

omit hn hepoch in
theorem sessionEnvelope_childAt (epoch : ℕ) {i : ℕ} (hi : i < n) :
    Sealed.ChildAt (sessionEnvelope epoch n kid) (kid i) ((sessionEnvelope epoch n kid).offset i) ∧
      (sessionEnvelope epoch n kid).offset (i + 1) =
        (sessionEnvelope epoch n kid).offset i + (kid i).bytes.length := by
  have hr : (sessionEnvelope epoch n kid).records[i]? = some ([] ++ (kid i).record) := by
    simp [sessionEnvelope, hi]
  exact Sealed.childAt (hok i hi) hr

/-- The loop state before job `k`. -/
def loopAt (epoch n : ℕ) (kid : ℕ → Child) (k : ℕ) : SessionLoop where
  admitted :=
    { epoch := epoch
      count := n
      offsets := fun i => if i < k then (sessionEnvelope epoch n kid).offset i else 0
      lengths := fun i => if i < k then (kid i).bytes.length else 0 }
  ids := fun i => if i < k then (kid i).id else 0
  offset := (sessionEnvelope epoch n kid).offset k

omit hn hepoch in
theorem sessionJob_eq {k : ℕ} (hk : k < n) (hfresh : ∀ j, j < k → (kid j).id ≠ (kid k).id) :
    sessionJob (sessionEnvelope epoch n kid).bytes (sessionEnvelope epoch n kid).bytes.length
      (loopAt epoch n kid k) k = some (loopAt epoch n kid (k + 1)) := by
  obtain ⟨hchild, hnext⟩ := sessionEnvelope_childAt hok epoch hk
  have hsize := (hok k hk).length_bytes
  have hlengths := RequestOk.lengths (hok k hk)
  have hfits := hchild.fits
  have hany : ((List.range k).any fun j => (loopAt epoch n kid k).ids j = (kid k).request.requestId) = false := by
    rw [List.any_eq_false]
    intro j hj
    have hjk := List.mem_range.mp hj
    simpa [loopAt, hjk, Child.request] using hfresh j hjk
  unfold sessionJob
  simp only [loopAt, hchild.length, hchild.request]
  rw [if_neg, if_neg]
  · simp only [loopAt] at hany
    rw [if_neg (by rw [hany]; decide), hnext, ← update_below (fun i => (kid i).id),
      ← update_below (fun i => (sessionEnvelope epoch n kid).offset i),
      ← update_below (fun i => (kid i).bytes.length)]
    rfl
  · unfold RAVEIL_FOLD_MAX_BYTES
    omega
  · rw [hchild.magic]
    omega

theorem raveilFoldSessionDecode_eq (hfresh : ∀ j k, j < k → k < n → (kid j).id ≠ (kid k).id) :
    raveilFoldSessionDecode (sessionEnvelope epoch n kid).bytes (sessionEnvelope epoch n kid).bytes.length =
      some (loopAt epoch n kid n).admitted := by
  obtain ⟨henvelope, hmin, hmax⟩ := sessionEnvelope_ok hn hepoch hok
  set e := sessionEnvelope epoch n kid with he
  have hcount : e.records.length = n := by simp [he, sessionEnvelope]
  have hloop : (List.range n).foldlM (sessionJob e.bytes e.bytes.length) (loopAt epoch n kid 0) =
      some (loopAt epoch n kid n) :=
    foldlM_range_pure fun k hk => sessionJob_eq hok hk fun j hj => hfresh j k hj hk
  have hstart : (⟨⟨epoch, n, fun _ => 0, fun _ => 0⟩, fun _ => 0, 24⟩ : SessionLoop) = loopAt epoch n kid 0 := by
    simp only [loopAt, Nat.not_lt_zero, if_false, Sealed.offset_zero]
  have hoffset : (loopAt epoch n kid n).offset = e.bytes.length - 8 := by
    rw [← Sealed.offset_count, hcount]
    rfl
  have hend := Sealed.word_sentinel henvelope
  have hmagic := Sealed.word_magic henvelope
  unfold raveilFoldSessionDecode
  rw [if_neg]
  · dsimp only
    rw [Sealed.word_epoch henvelope, Sealed.word_count henvelope, hcount,
      show e.epoch = epoch from rfl, if_neg hepoch.1.ne', hstart, hloop]
    exact if_neg (not_not.mpr hoffset)
  · rw [hmagic, Sealed.word_version, Sealed.word_size henvelope, Sealed.word_count henvelope, hend,
      ← Sealed.word_crc, hcount, show e.magic = RAVEIL_FOLD_SESSION_MAGIC from rfl,
      show e.sentinel = RAVEIL_FOLD_SESSION_END from rfl]
    omega

omit hn hepoch in
theorem sessionEnvelope_offset {i : ℕ} (hi : i ≤ n) : (sessionEnvelope epoch n kid).offset i =
    24 + ((List.range i).map fun j => (kid j).bytes.length).sum := by
  induction i with
  | zero => exact Sealed.offset_zero
  | succ i ih =>
    rw [(sessionEnvelope_childAt hok epoch hi).2, ih (by omega), List.range_succ, List.map_append, List.sum_append,
      List.map_singleton, List.sum_singleton, Nat.add_assoc]

end Decode

theorem validate_jobs (hvalid : validate session = .ok session) :
    (1 ≤ session.jobs.length ∧ session.jobs.length ≤ 8) ∧ ∀ job ∈ session.jobs,
      ∃ c out, compileRegion job.region = .ok c ∧ reference job.region job.inputs = .ok out := by
  obtain ⟨-, h⟩ := require_then_eq_ok.mp hvalid
  obtain ⟨hcount, h⟩ := require_then_eq_ok.mp h
  obtain ⟨names, hjobs, -⟩ := except_bind_eq_ok.mp h
  exact ⟨hcount, validateJobs hjobs⟩

theorem exists_kid (hvalid : validate session = .ok session) (hids : ∀ i ∈ ids, 0 < i ∧ i < 2 ^ 64) :
    ∃ kid : ℕ → Child, ∀ i job id, session.jobs[i]? = some job → ids[i]? = some id →
      JobChild job id (kid i) := by
  have hkid : ∀ i : ℕ, ∃ k, ∀ job id, session.jobs[i]? = some job → ids[i]? = some id → JobChild job id k := by
    intro i
    cases hjob : session.jobs[i]? with
    | none => exact ⟨⟨[], [], [], 0⟩, fun _ _ h => by cases h⟩
    | some job =>
      cases hid : ids[i]? with
      | none => exact ⟨⟨[], [], [], 0⟩, fun _ _ _ h => by cases h⟩
      | some id =>
        obtain ⟨c, out, hc, hout⟩ := (validate_jobs hvalid).2 job (List.mem_of_getElem? hjob)
        obtain ⟨k, hk⟩ := exists_jobChild hc hout (hids id (List.mem_of_getElem? hid))
        refine ⟨k, fun job' id' hjob' hid' => ?_⟩
        obtain rfl := Option.some.inj hjob'
        obtain rfl := Option.some.inj hid'
        exact hk
  exact ⟨fun i => (hkid i).choose, fun i => (hkid i).choose_spec⟩

/-- What the guest knows of job `i` after decoding. -/
structure SessionSpan (session : SessionSource) (ids : List ℕ) (bytes : List UInt8) (children : List (List UInt8))
    (s : FoldSession) (i : ℕ) (job : Job) : Prop where
  offset : s.offsets i = 24 + ((children.take i).map List.length).sum
  span : children[i]? = some ((bytes.drop (s.offsets i)).take (s.lengths i))
  length : (children[i]?).map List.length = some (s.lengths i)
  request : ∃ config a b id, compileRegion job.region = .ok config ∧ job.inputs = [a, b] ∧
    ids[i]? = some id ∧
    raveilFoldDecode (bytes.drop (s.offsets i)) (s.lengths i) = some ⟨id, config, placed a b⟩

/-- The guest decodes what the host encoded. -/
theorem session_round_trip (hvalid : validate session = .ok session) (hepoch : 0 < epoch ∧ epoch < 2 ^ 64)
    (hlen : ids.length = session.jobs.length) (hids : ∀ i ∈ ids, 0 < i ∧ i < 2 ^ 64) (hnodup : ids.Nodup) :
    ∃ bytes children s, encode session epoch ids = .ok (bytes, children) ∧
      raveilFoldSessionDecode bytes bytes.length = some s ∧ s.epoch = epoch ∧
      s.count = session.jobs.length ∧
      ∀ i job, session.jobs[i]? = some job → SessionSpan session ids bytes children s i job := by
  obtain ⟨hcount, -⟩ := validate_jobs hvalid
  obtain ⟨kid, hkid⟩ := exists_kid hvalid hids
  have hjob : ∀ i, i < session.jobs.length → ∃ job id, session.jobs[i]? = some job ∧ ids[i]? = some id ∧
      JobChild job id (kid i) := by
    intro i hi
    have hjob := List.getElem?_eq_getElem hi
    have hid := List.getElem?_eq_getElem (show i < ids.length by omega)
    exact ⟨_, _, hjob, hid, hkid i _ _ hjob hid⟩
  have hok : ∀ i, i < session.jobs.length → (kid i).Ok := by
    intro i hi
    obtain ⟨job, id, -, -, hk⟩ := hjob i hi
    exact hk.ok
  have hfresh : ∀ j k, j < k → k < session.jobs.length → (kid j).id ≠ (kid k).id := by
    intro j k hjk hk he
    obtain ⟨_, idj, -, hidj, hkj⟩ := hjob j (by omega)
    obtain ⟨_, idk, -, hidk, hkk⟩ := hjob k hk
    rw [hkj.id, hkk.id] at he
    subst he
    obtain ⟨hj, rfl⟩ := List.getElem?_eq_some_iff.mp hidj
    obtain ⟨hk', he⟩ := List.getElem?_eq_some_iff.mp hidk
    have := hnodup.getElem_inj_iff.mp he
    omega
  refine ⟨_, _, _, encode_eq hvalid hepoch hlen hids hnodup hkid,
    raveilFoldSessionDecode_eq hcount hepoch hok hfresh, rfl, rfl, fun i job hj => ?_⟩
  have hi := (List.getElem?_eq_some_iff.mp hj).1
  obtain ⟨job', id, hj', hid, hk⟩ := hjob i hi
  obtain rfl := Option.some.inj (hj.symm.trans hj')
  obtain ⟨hchild, -⟩ := sessionEnvelope_childAt hok epoch hi
  have hoffset : (loopAt epoch session.jobs.length kid session.jobs.length).admitted.offsets i =
      (sessionEnvelope epoch session.jobs.length kid).offset i := if_pos hi
  have hlength : (loopAt epoch session.jobs.length kid session.jobs.length).admitted.lengths i =
      (kid i).bytes.length := if_pos hi
  have hget : ((List.range session.jobs.length).map fun i => (kid i).bytes)[i]? = some (kid i).bytes := by
    rw [List.getElem?_map, List.getElem?_range hi, Option.map_some]
  refine ⟨?_, ?_, ?_, (kid i).config, (kid i).a, (kid i).b, id, hk.compiled, hk.inputs, hid, ?_⟩
  · rw [hoffset, sessionEnvelope_offset hok hi.le, ← List.map_take, List.take_range, Nat.min_eq_left hi.le,
      List.map_map]
    rfl
  · rw [hget, hoffset, hlength, hchild.span]
  · rw [hget, hlength, Option.map_some]
  · rw [hoffset, hlength, hchild.request, ← hk.id]
    rfl

end Raveil.Session
