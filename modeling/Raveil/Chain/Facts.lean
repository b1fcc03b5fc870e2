import Raveil.Chain.Wire

/-! What an accepted chain says about its jobs. -/
namespace Raveil.Chain
open Raveil.Lib Raveil.Fold

/-- What `validate` computed for one job. -/
structure JobData where
  config : List ℕ
  link : ℕ → Option ℕ
  values : ℕ → List ℕ

namespace JobData

def cells (d : JobData) : ℕ := cfg d.config 1 * cfg d.config 2

def source (d : JobData) : ℕ := (d.link 1).getD ((d.link 0).getD UINT32_MAX)

def mask (d : JobData) : ℕ := (if (d.link 0).isSome then 1 else 0) ||| if (d.link 1).isSome then 2 else 0

variable {d : JobData} {b s : ℕ}

theorem mask_bit (hb : b < 2) : d.mask &&& 1 <<< b ≠ 0 ↔ (d.link b).isSome := by
  obtain rfl | rfl : b = 0 ∨ b = 1 := by omega
  · cases h0 : d.link 0 <;> cases h1 : d.link 1 <;> simp [mask, h0, h1]
  · cases h0 : d.link 0 <;> cases h1 : d.link 1 <;> simp [mask, h0, h1]

theorem mask_le (d : JobData) : d.mask ≤ 3 := by
  unfold mask
  cases h0 : d.link 0 <;> cases h1 : d.link 1 <;> simp

theorem mask_eq_zero : d.mask = 0 ↔ d.link 0 = none ∧ d.link 1 = none := by
  unfold mask
  cases h0 : d.link 0 <;> cases h1 : d.link 1 <;> simp

end JobData

/-- What `validate` checked of one operand. -/
inductive OperandStep (session : Session) (names : String → Option ℕ) :
    Operand → ℕ → Option ℕ → List ℕ → Prop
  | literal (values : List ℕ) (length : ℕ) : OperandStep session names (.literal values) length none values
  | link (name : String) (length source : ℕ) (hname : names name = some source)
      (hlength : (length : ℤ) = (shapeAt session source).getD 0 0 * (shapeAt session source).getD 1 0) :
      OperandStep session names (.link name) length (some source) (List.replicate length 0)

section Operand

variable {session : Session} {names : String → Option ℕ} {s t : OperandLoop} {operand : Operand} {length : ℕ}

theorem validateOperand_eq_ok (h : validateOperand session names s (operand, length) = .ok t) :
    ∃ link values, OperandStep session names operand length link values ∧
      (∀ x y, link = some x → s.producer = some y → x = y) ∧
      t = ⟨link.or s.producer, s.literal ++ [values]⟩ := by
  cases operand with
  | literal values =>
    refine ⟨none, values, .literal values length, ?_, (except_pure_eq_ok.mp h).symm⟩
    rintro x y ⟨⟩
  | link name =>
    simp only [validateOperand, require_then_eq_ok, except_pure_eq_ok] at h
    obtain ⟨hname, hone, hlength, rfl⟩ := h
    obtain ⟨source, hsource⟩ := Option.isSome_iff_exists.mp hname
    rw [hsource, Option.getD_some] at hone hlength ⊢
    refine ⟨some source, _, .link name length source hsource hlength, fun x y hx hy => ?_, rfl⟩
    obtain rfl := Option.some.inj hx
    by_contra hne
    exact hone ⟨by rw [hy]; rfl, by rw [hy]; exact fun he => hne (Option.some.inj he).symm⟩

end Operand

/-- One turn of the job loop of `validate`. -/
structure JobStep (session : Session) (names : String → Option ℕ) (job : Job) (k : ℕ) (d : JobData)
    (names' : String → Option ℕ) : Prop where
  fresh : names job.name = none
  compiled : compileRegion job.region = .ok d.config
  two : job.inputs.length = 2
  operand : ∀ b x, job.inputs[b]? = some x →
    OperandStep session names x (cfg d.config (5 + b)) (d.link b) (d.values b)
  one : ∀ x y, d.link 0 = some x → d.link 1 = some y → x = y
  admitted : ∃ out, reference job.region [d.values 0, d.values 1] = .ok out
  next : names' = Function.update names job.name (some k)

theorem validateJob_eq_ok {session : Session} {names names' : String → Option ℕ} {job : Job} {k : ℕ}
    (h : validateJob session names (job, k) = .ok names') : ∃ d, JobStep session names job k d names' := by
  unfold validateJob at h
  simp only [require_then_eq_ok] at h
  obtain ⟨-, hfresh, h⟩ := h
  obtain ⟨config, hconfig, h⟩ := except_bind_eq_ok.mp h
  obtain ⟨htwo, h⟩ := require_then_eq_ok.mp h
  obtain ⟨s, hs, h⟩ := except_bind_eq_ok.mp h
  obtain ⟨out, hout, h⟩ := except_bind_eq_ok.mp h
  obtain rfl := except_pure_eq_ok.mp h
  obtain ⟨x, y, hxy⟩ := List.length_eq_two.mp htwo
  rw [hxy] at hs
  simp only [List.zip_cons_cons, List.zip_nil_right, List.foldlM_cons, List.foldlM_nil,
    except_bind_eq_ok, except_pure_eq_ok] at hs
  obtain ⟨s1, hs1, s2, hs2, rfl⟩ := hs
  obtain ⟨l0, v0, hop0, -, rfl⟩ := validateOperand_eq_ok hs1
  obtain ⟨l1, v1, hop1, hone, rfl⟩ := validateOperand_eq_ok hs2
  refine ⟨⟨config, fun b => if b = 0 then l0 else l1, fun b => if b = 0 then v0 else v1⟩,
    by simpa using hfresh, hconfig, htwo, fun b z hz => ?_, fun u v hu hv => ?_, ⟨out, hout⟩, rfl⟩
  · rw [hxy] at hz
    rcases b with _ | _ | b
    · obtain rfl : x = z := by simpa using hz
      exact hop0
    · obtain rfl : y = z := by simpa using hz
      exact hop1
    · cases hz
  · exact (hone v u hv (by rw [Option.or_none]; exact hu)).symm

/-- What the chain says about one operand. -/
inductive JobOperand (session : Session) (d : ℕ → JobData) (k b : ℕ) : Operand → Prop
  | literal (hlink : (d k).link b = none) : JobOperand session d k b (.literal ((d k).values b))
  | link (name : String) (source : ℕ) (hlink : (d k).link b = some source)
      (hname : jobNames session name = some source) (hlt : source < k)
      (hlength : cfg (d k).config (5 + b) = (d source).cells)
      (hvalues : (d k).values b = List.replicate (cfg (d k).config (5 + b)) 0) :
      JobOperand session d k b (.link name)

/-- Everything `validate` established about an accepted chain. -/
structure ChainOk (session : Session) (d : ℕ → JobData) : Prop where
  count : 1 ≤ session.jobs.length ∧ session.jobs.length ≤ 8
  two : ∀ (k : ℕ) (job : Job), session.jobs[k]? = some job → job.inputs.length = 2
  compiled : ∀ (k : ℕ) (job : Job), session.jobs[k]? = some job → compileRegion job.region = .ok (d k).config
  operand : ∀ (k : ℕ) (job : Job), session.jobs[k]? = some job → ∀ b x, job.inputs[b]? = some x →
    JobOperand session d k b x
  one : ∀ (k : ℕ) (job : Job), session.jobs[k]? = some job → ∀ x y, (d k).link 0 = some x →
    (d k).link 1 = some y → x = y
  admitted : ∀ (k : ℕ) (job : Job), session.jobs[k]? = some job →
    ∃ out, reference job.region [(d k).values 0, (d k).values 1] = .ok out

section Names

variable {session : Session} {names : ℕ → String → Option ℕ} {d : ℕ → JobData}

theorem names_lt (h0 : names 0 = fun _ => none)
    (hstep : ∀ k job, session.jobs[k]? = some job → JobStep session (names k) job k (d k) (names (k + 1)))
    {k : ℕ} (hk : k ≤ session.jobs.length) {x : String} {i : ℕ} (hx : names k x = some i) : i < k := by
  induction k with
  | zero =>
    rw [h0] at hx
    cases hx
  | succ k ih =>
    have hjob := List.getElem?_eq_getElem (show k < session.jobs.length by omega)
    rw [(hstep k _ hjob).next] at hx
    by_cases hname : x = session.jobs[k].name
    · rw [hname, Function.update_self] at hx
      obtain rfl := Option.some.inj hx
      omega
    · rw [Function.update_of_ne hname] at hx
      have := ih (by omega) hx
      omega

/-- A name keeps its index, as every later name is fresh. -/
theorem names_mono
    (hstep : ∀ k job, session.jobs[k]? = some job → JobStep session (names k) job k (d k) (names (k + 1)))
    {k m : ℕ} (hkm : k ≤ m) (hm : m ≤ session.jobs.length) {x : String} {i : ℕ} (hx : names k x = some i) :
    names m x = some i := by
  induction m, hkm using Nat.le_induction with
  | base => exact hx
  | succ m hkm ih =>
    have hjob := List.getElem?_eq_getElem (show m < session.jobs.length by omega)
    have hs := hstep m _ hjob
    have hxm := ih (by omega)
    have hne : x ≠ session.jobs[m].name := by
      rintro rfl
      rw [hs.fresh] at hxm
      cases hxm
    rw [hs.next, Function.update_of_ne hne, hxm]

/-- The names of `links` are those of `validate` at its end. -/
theorem jobNames_eq (h0 : names 0 = fun _ => none)
    (hstep : ∀ k job, session.jobs[k]? = some job → JobStep session (names k) job k (d k) (names (k + 1))) :
    jobNames session = names session.jobs.length := by
  let step (names : String → Option ℕ) (job : Job × ℕ) : String → Option ℕ :=
    Function.update names job.1.name (some job.2)
  have hrun : session.jobs.zipIdx.foldlM (fun names job => (pure (step names job) : Except String _))
      (fun _ => none) = .ok (names session.jobs.length) :=
    foldlM_zipIdx_eq_ok.mpr ⟨names, h0, rfl, fun k job hk => by rw [(hstep k job hk).next]; rfl⟩
  rw [List.foldlM_pure] at hrun
  exact Except.ok.inj hrun

end Names

theorem cells_eq {r : Region} {c : List ℕ} (hc : compileRegion r = .ok c) :
    r.shape.getD 0 0 * r.shape.getD 1 0 = ((cfg c 1 * cfg c 2 : ℕ) : ℤ) := by
  obtain ⟨t, q, h⟩ := compileRegion_eq_ok hc
  rw [h.shape, Nat.cast_mul]
  rfl

theorem validate_eq_ok {session : Session} (h : validate session = .ok session) :
    ∃ d, ChainOk session d := by
  obtain ⟨-, h⟩ := require_then_eq_ok.mp h
  obtain ⟨hcount, h⟩ := require_then_eq_ok.mp h
  obtain ⟨last, hjobs, -⟩ := except_bind_eq_ok.mp h
  obtain ⟨names, h0, -, hrun⟩ := foldlM_zipIdx_eq_ok.mp hjobs
  have hdata : ∀ k : ℕ, ∃ d, ∀ job, session.jobs[k]? = some job →
      JobStep session (names k) job k d (names (k + 1)) := by
    intro k
    cases hjob : session.jobs[k]? with
    | none => exact ⟨⟨[], fun _ => none, fun _ => []⟩, fun _ hj => by cases hj⟩
    | some job =>
      obtain ⟨d, hd⟩ := validateJob_eq_ok (hrun k job hjob)
      refine ⟨d, fun job' hjob' => ?_⟩
      obtain rfl := Option.some.inj hjob'
      exact hd
  choose d hd using hdata
  refine ⟨d, hcount, fun k job hk => (hd k job hk).two, fun k job hk => (hd k job hk).compiled,
    fun k job hk b x hx => ?_, fun k job hk => (hd k job hk).one, fun k job hk => (hd k job hk).admitted⟩
  have hlt := (List.getElem?_eq_some_iff.mp hk).1
  have hop := (hd k job hk).operand b x hx
  generalize hl : cfg (d k).config (5 + b) = length at hop
  generalize hlink : (d k).link b = link at hop
  generalize hvalues : (d k).values b = values at hop
  cases hop with
  | literal =>
    rw [← hvalues]
    exact .literal hlink
  | link name length source hname hlength =>
    have hsource := names_lt h0 hd hlt.le hname
    have hjob := List.getElem?_eq_getElem (show source < session.jobs.length by omega)
    have hshape : shapeAt session source = session.jobs[source].region.shape := by
      rw [shapeAt, hjob]
      rfl
    refine .link name source hlink ?_ hsource ?_ (by rw [hvalues, hl])
    · rw [jobNames_eq h0 hd]
      exact names_mono hd hlt.le le_rfl hname
    · rw [hl]
      rw [hshape, cells_eq (hd source _ hjob).compiled] at hlength
      exact Int.ofNat_inj.mp hlength

end Raveil.Chain
