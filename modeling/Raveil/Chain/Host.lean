import Raveil.Chain.RoundTrip
import Raveil.Chain.State

/-! What the host's model keeps: every saved output is the reference, and is read back whole or not at all. -/
namespace Raveil.Chain
open Raveil.Lib Raveil.Fold Raveil.Authority Raveil.Dispatch

variable {session : Session} {d : ℕ → JobData} {ids : List ℕ} {epoch index : ℕ} {job : Job}
  {s : State} {device : Device}

/-- Input `b` of a job whose producer gave `out`. -/
def filled (d : JobData) (out : List ℕ) (b : ℕ) : List ℕ := if (d.link b).isSome then out else d.values b

section Resolve

variable (h : ChainOk session d)

include h

theorem ChainOk.inputs_eq (hj : session.jobs[index]? = some job) {source : ℕ} {out : List ℕ}
    (hout : (d index).mask ≠ 0 → ∃ saved, s.producers source = some saved ∧ saved.output = out) :
    s.inputs job source = .ok [filled (d index) out 0, filled (d index) out 1] := by
  obtain ⟨x, y, hxy, hx, hy⟩ := h.operands hj
  have hoperand : ∀ b z, [x, y][b]? = some z → b < 2 ∧ JobOperand session d index b z := by
    intro b z hz
    rcases b with _ | _ | b
    · cases hz
      exact ⟨by omega, hx⟩
    · cases hz
      exact ⟨by omega, hy⟩
    · cases hz
  rw [State.inputs, hxy]
  refine mapM_eq_ok (l := [x, y]) (g := filled (d index) out) fun b z hz => ?_
  obtain ⟨hb, hz⟩ := hoperand b z hz
  cases hz with
  | literal hlink =>
    rw [filled, hlink]
    rfl
  | link name producer hlink =>
    have hbit := (JobData.mask_bit hb).mpr (show ((d index).link b).isSome = true by rw [hlink]; rfl)
    obtain ⟨saved, hsaved, rfl⟩ := hout fun hm => hbit (by rw [hm, Nat.zero_and])
    simp only [filled, hlink, hsaved]
    rfl

/-- `resolve` of a job without links. -/
theorem ChainOk.resolve_free (hj : session.jobs[index]? = some job) (hm : (d index).mask = 0) (s : State) :
    s.resolve session index = .ok (some ⟨job.name, job.region,
      [filled (d index) [] 0, filled (d index) [] 1], UINT32_MAX, s.active ^^^ 1⟩) := by
  have hinputs := @ChainOk.inputs_eq _ _ _ _ s h hj (d index).source [] fun hne => absurd hm hne
  rw [State.resolve, hj]
  dsimp only
  refine except_bind_eq_ok.mpr ⟨_, h.links_eq hj, ?_⟩
  rw [if_neg (not_not.mpr hm)]
  exact except_bind_eq_ok.mpr ⟨_, hinputs, rfl⟩

/-- `resolve` of a linked job whose producer is still in its bank. -/
theorem ChainOk.resolve_linked (hj : session.jobs[index]? = some job) (hm : (d index).mask ≠ 0) {saved : Saved}
    (hs : s.producers (d index).source = some saved) (hv : s.versions saved.bank = saved.version) :
    s.resolve session index = .ok (some ⟨job.name, job.region,
      [filled (d index) saved.output 0, filled (d index) saved.output 1], saved.bank, saved.bank ^^^ 1⟩) := by
  have hinputs := @ChainOk.inputs_eq _ _ _ _ s h hj (d index).source saved.output
    fun _ => ⟨saved, hs, rfl⟩
  rw [State.resolve, hj]
  dsimp only
  refine except_bind_eq_ok.mpr ⟨_, h.links_eq hj, ?_⟩
  rw [if_pos hm]
  simp only [hs]
  rw [if_neg (not_not.mpr hv)]
  exact except_bind_eq_ok.mpr ⟨_, hinputs, rfl⟩

/-- `resolve` of a linked job whose producer failed, or whose bank was used again. -/
theorem ChainOk.resolve_none (hj : session.jobs[index]? = some job) (hm : (d index).mask ≠ 0)
    (hs : ∀ saved, s.producers (d index).source = some saved → s.versions saved.bank ≠ saved.version) :
    s.resolve session index = .ok none := by
  rw [State.resolve, hj]
  dsimp only
  refine except_bind_eq_ok.mpr ⟨_, h.links_eq hj, ?_⟩
  rw [if_pos hm]
  cases hp : s.producers (d index).source with
  | none => rfl
  | some saved =>
    dsimp only
    rw [if_pos (hs saved hp)]
    rfl

/-- The request of a job whose inputs are filled in. -/
theorem ChainOk.filled_ok (hids : IdsOk session ids) (hi : index < session.jobs.length) {out : List ℕ}
    (hout : (d index).mask ≠ 0 → out.length = (d (d index).source).cells ∧ ∀ w ∈ out, w < 2 ^ 32) :
    RequestOk (d index).config (filled (d index) out 0) (filled (d index) out 1) (ids.getD index 0) := by
  have hok : RequestOk (d index).config ((d index).values 0) ((d index).values 1) (ids.getD index 0) :=
    h.wireChild_ok hids hi
  have hfill : ∀ b, b < 2 → ((d index).values b).length = cfg (d index).config (5 + b) →
      (∀ w ∈ (d index).values b, w < 2 ^ 32) →
      (filled (d index) out b).length = cfg (d index).config (5 + b) ∧
        ∀ w ∈ filled (d index) out b, w < 2 ^ 32 := by
    intro b hb hlen hwords
    unfold filled
    split
    · rename_i hlink
      obtain ⟨source, hs⟩ := Option.isSome_iff_exists.mp hlink
      obtain ⟨hsource, -, hlength, -⟩ := h.link_facts hi hb hs
      have hbit := (JobData.mask_bit hb).mpr hlink
      obtain ⟨hcells, hw⟩ := hout fun hm => hbit (by rw [hm, Nat.zero_and])
      rw [hcells, hlength, hsource]
      exact ⟨rfl, hw⟩
    · exact ⟨hlen, hwords⟩
  obtain ⟨hlen0, hw0⟩ := hfill 0 (by omega) hok.lengthA hok.wordsA
  obtain ⟨hlen1, hw1⟩ := hfill 1 (by omega) hok.lengthB hok.wordsB
  exact ⟨hok.length, hok.admissible, hok.words, hok.id, hlen0, hlen1, hw0, hw1⟩

end Resolve

/-- What the model says about one saved output: whole in its bank while the version is current. -/
structure SavedOk (d : ℕ → JobData) (s : State) (i : ℕ) (saved : Saved) : Prop where
  bank : saved.bank < 2
  version : saved.version ≤ s.versions saved.bank
  length : saved.output.length = (d i).cells
  words : ∀ w ∈ saved.output, w < 2 ^ 32
  held : s.versions saved.bank = saved.version →
    s.banks saved.bank = saved.output ++ List.replicate (256 - saved.output.length) 0

/-- What the model keeps from job to job. -/
structure StateOk (d : ℕ → JobData) (s : State) : Prop where
  active : s.active < 2
  length : ∀ b, (s.banks b).length = 256
  words : ∀ b, ∀ w ∈ s.banks b, w < 2 ^ 32
  saved : ∀ i saved, s.producers i = some saved → SavedOk d s i saved

theorem stateOk_init (d : ℕ → JobData) : StateOk d .init := by
  refine ⟨by decide, fun _ => List.length_replicate, fun b w hw => ?_, fun i saved hs => ?_⟩
  · obtain rfl := (List.mem_replicate.mp hw).2
    exact Nat.two_pow_pos 32
  · cases hs

section Commit

variable {destination : ℕ} {expected : List ℕ}

theorem commit_version (s : State) (index destination : ℕ) (expected : List ℕ) (b : ℕ) :
    (s.commit index destination expected true).versions b =
      if b = destination then s.versions b + 1 else s.versions b := by
  change Function.update s.versions destination (s.versions destination + 1) b = _
  split
  · rename_i hb
    rw [hb, Function.update_self]
  · rename_i hb
    rw [Function.update_of_ne hb]

theorem commit_bank (s : State) (index destination : ℕ) (expected : List ℕ) (b : ℕ) :
    (s.commit index destination expected true).banks b =
      if b = destination then expected ++ List.replicate (256 - expected.length) 0 else s.banks b := by
  change Function.update s.banks destination _ b = _
  split
  · rename_i hb
    rw [hb, Function.update_self]
  · rename_i hb
    rw [Function.update_of_ne hb]

theorem commit_producer {i : ℕ} {saved : Saved}
    (h : (s.commit index destination expected true).producers i = some saved) :
    i = index ∧ saved = ⟨destination, s.versions destination + 1, expected⟩ ∨
      i ≠ index ∧ s.producers i = some saved := by
  change Function.update s.producers index (some ⟨destination, s.versions destination + 1, expected⟩) i =
    some saved at h
  by_cases hi : i = index
  · rw [hi, Function.update_self] at h
    exact Or.inl ⟨hi, (Option.some.inj h).symm⟩
  · rw [Function.update_of_ne hi] at h
    exact Or.inr ⟨hi, h⟩

theorem length_padded (hle : expected.length ≤ 256) :
    (expected ++ List.replicate (256 - expected.length) 0).length = 256 := by
  rw [List.length_append, List.length_replicate]
  omega

theorem padded_lt (hw : ∀ w ∈ expected, w < 2 ^ 32) (m : ℕ) :
    ∀ w ∈ expected ++ List.replicate m 0, w < 2 ^ 32 := by
  intro w hmem
  obtain hmem | hmem := List.mem_append.mp hmem
  · exact hw w hmem
  · obtain rfl := (List.mem_replicate.mp hmem).2
    exact Nat.two_pow_pos 32

/-- A commit moves its bank to a version that no older output has. -/
theorem SavedOk.commit {i : ℕ} {saved : Saved} (h : SavedOk d s i saved) (index destination : ℕ)
    (expected : List ℕ) : SavedOk d (s.commit index destination expected true) i saved := by
  have hversion := h.version
  refine ⟨h.bank, ?_, h.length, h.words, fun he => ?_⟩
  · rw [commit_version]
    split
    · omega
    · exact hversion
  · rw [commit_version] at he
    rw [commit_bank]
    by_cases hb : saved.bank = destination
    · rw [if_pos hb] at he
      omega
    · rw [if_neg hb] at he ⊢
      exact h.held he

theorem StateOk.commit (h : StateOk d s) (hdest : destination < 2) (hlen : expected.length = (d index).cells)
    (hle : expected.length ≤ 256) (hw : ∀ w ∈ expected, w < 2 ^ 32) (success : Bool) :
    StateOk d (s.commit index destination expected success) := by
  cases success with
  | false => exact h
  | true =>
    refine ⟨hdest, fun b => ?_, fun b => ?_, fun i saved hs => ?_⟩
    · rw [commit_bank]
      split
      · exact length_padded hle
      · exact h.length b
    · rw [commit_bank]
      split
      · exact padded_lt hw _
      · exact h.words b
    · obtain ⟨rfl, rfl⟩ | ⟨-, hs⟩ := commit_producer hs
      · refine ⟨hdest, ?_, hlen, hw, fun _ => ?_⟩
        · rw [commit_version, if_pos rfl]
        · rw [commit_bank, if_pos rfl]
      · exact (h.saved i saved hs).commit index destination expected

end Commit

/-- The job that `resolve` chose to run, `out` being the output of its producer. -/
structure Chosen (d : ℕ → JobData) (s : State) (index : ℕ) (job : Job) (out : List ℕ) (r : Resolved) : Prop where
  name : r.name = job.name
  region : r.region = job.region
  inputs : r.inputs = [filled (d index) out 0, filled (d index) out 1]
  free : (d index).mask = 0 → r.source = UINT32_MAX ∧ r.destination = s.active ^^^ 1
  linked : (d index).mask ≠ 0 → ∃ saved, s.producers (d index).source = some saved ∧
    s.versions saved.bank = saved.version ∧ saved.output = out ∧ r.source = saved.bank ∧
    r.destination = saved.bank ^^^ 1

/-- A linked job without its producer. -/
def Blocked (d : ℕ → JobData) (s : State) (index : ℕ) : Prop :=
  (d index).mask ≠ 0 ∧
    ∀ saved, s.producers (d index).source = some saved → s.versions saved.bank ≠ saved.version

theorem ChainOk.resolve_cases (h : ChainOk session d) (hj : session.jobs[index]? = some job) (s : State) :
    s.resolve session index = .ok none ∧ Blocked d s index ∨
      ∃ r out, s.resolve session index = .ok (some r) ∧ Chosen d s index job out r := by
  by_cases hm : (d index).mask = 0
  · exact Or.inr ⟨_, [], h.resolve_free hj hm s, rfl, rfl, rfl, fun _ => ⟨rfl, rfl⟩, fun hne => absurd hm hne⟩
  · by_cases hs : ∀ saved, s.producers (d index).source = some saved → s.versions saved.bank ≠ saved.version
    · exact Or.inl ⟨h.resolve_none hj hm hs, hm, hs⟩
    · push Not at hs
      obtain ⟨saved, hp, hv⟩ := hs
      exact Or.inr ⟨_, saved.output, h.resolve_linked hj hm hp hv, rfl, rfl, rfl, fun hz => absurd hz hm,
        fun _ => ⟨saved, hp, hv, rfl, rfl, rfl⟩⟩

theorem other_bank {b : ℕ} (hb : b < 2) : b ^^^ 1 < 2 ∧ b ≠ b ^^^ 1 := by
  obtain rfl | rfl : b = 0 ∨ b = 1 := by omega
  · decide
  · decide

namespace Chosen

variable {out : List ℕ} {r : Resolved} (hc : Chosen d s index job out r) (hs : StateOk d s)

include hc hs

/-- A job never reads and writes the same bank. -/
theorem banks : r.destination < 2 ∧ r.source ≠ r.destination := by
  by_cases hm : (d index).mask = 0
  · obtain ⟨hsource, hdest⟩ := hc.free hm
    have := (other_bank hs.active).1
    rw [hsource, hdest]
    exact ⟨this, by unfold UINT32_MAX; omega⟩
  · obtain ⟨saved, hp, -, -, hsource, hdest⟩ := hc.linked hm
    have := other_bank (hs.saved _ saved hp).bank
    rw [hsource, hdest]
    exact this

theorem source_lt (hm : (d index).mask ≠ 0) : r.source < 2 := by
  obtain ⟨saved, hp, -, -, hsource, -⟩ := hc.linked hm
  rw [hsource]
  exact (hs.saved _ saved hp).bank

theorem output_ok (hm : (d index).mask ≠ 0) :
    out.length = (d (d index).source).cells ∧ ∀ w ∈ out, w < 2 ^ 32 := by
  obtain ⟨saved, hp, -, rfl, -, -⟩ := hc.linked hm
  have := hs.saved _ saved hp
  exact ⟨this.length, this.words⟩

/-- The source bank holds the whole output of the producer. -/
theorem bank_eq (hm : (d index).mask ≠ 0) :
    s.banks r.source = out ++ List.replicate (256 - out.length) 0 := by
  obtain ⟨saved, hp, hv, rfl, hsource, -⟩ := hc.linked hm
  rw [hsource]
  exact (hs.saved _ saved hp).held hv

theorem output_le (hm : (d index).mask ≠ 0) : out.length ≤ 256 := by
  have hlen := hs.length r.source
  rw [hc.bank_eq hs hm, List.length_append, List.length_replicate] at hlen
  omega

end Chosen

/-- What a job that ran read and wrote. -/
structure RowOk (session : Session) (ids : List ℕ) (epoch : ℕ) (device : Device) (h : Host) (i : ℕ) (row : Row)
    (job : Job) : Prop where
  index : row.index = i
  banks : row.destination < 2 ∧ row.source ≠ row.destination
  literal : ∀ (b : ℕ) values, job.inputs[b]? = some (.literal values) → row.inputs[b]? = some values
  link : ∀ (b : ℕ) name, job.inputs[b]? = some (.link name) → ∃ source producer, jobNames session name = some source ∧
    source < i ∧ h.rows[source]? = some producer ∧ producer.approved = true ∧
    row.inputs[b]? = some producer.output ∧ producer.destination = row.source
  output : ∃ out, reference job.region row.inputs = .ok out ∧ row.output = if row.approved then out else []
  dispatch : ∃ config request, compileRegion job.region = .ok config ∧
    requestBytes config row.inputs (ids.getD i 0) = .ok request ∧
    .dispatch (ids.getD i 0) epoch (i + 1) (device.cookie i) (cfg config 1 * cfg config 2) request ∈ h.lines

/-- The invariant of the host loop. -/
structure HostOk (session : Session) (d : ℕ → JobData) (ids : List ℕ) (epoch : ℕ) (device : Device) (k : ℕ)
    (h : Host) : Prop where
  state : StateOk d h.state
  running : h.halted = 0 → h.rows.length = k
  bound : h.rows.length ≤ k
  saved : ∀ i saved, h.state.producers i = some saved → ∃ row, h.rows[i]? = some row ∧ row.approved = true ∧
    row.output = saved.output ∧ row.destination = saved.bank
  row : ∀ (i : ℕ) row, h.rows[i]? = some row → ∃ job, session.jobs[i]? = some job ∧
    RowOk session ids epoch device h i row job

/-- The output of a job whose producer gave `out`. -/
def produced (d : JobData) (out : List ℕ) : List ℕ :=
  outputWords d.config (placed (filled d out 0) (filled d out 1))

section Step

variable (h : ChainOk session d) (hids : IdsOk session ids) {host : Host}
  (hok : HostOk session d ids epoch device index host)

include hok in
theorem HostOk.of_halted (hh : host.halted ≠ 0) : HostOk session d ids epoch device (index + 1) host :=
  ⟨hok.state, fun hz => absurd hz hh, hok.bound.trans (Nat.le_succ _), hok.saved, hok.row⟩

theorem RowOk.mono {i : ℕ} {row : Row} {host' : Host} (hr : RowOk session ids epoch device host i row job)
    (hrows : ∀ (k : ℕ) row, host.rows[k]? = some row → host'.rows[k]? = some row)
    (hlines : ∀ l ∈ host.lines, l ∈ host'.lines) : RowOk session ids epoch device host' i row job := by
  refine ⟨hr.index, hr.banks, hr.literal, fun b name hb => ?_, hr.output, ?_⟩
  · obtain ⟨source, producer, hname, hlt, hp, hrest⟩ := hr.link b name hb
    exact ⟨source, producer, hname, hlt, hrows source producer hp, hrest⟩
  · obtain ⟨config, request, hc, hreq, hmem⟩ := hr.dispatch
    exact ⟨config, request, hc, hreq, hlines _ hmem⟩

include hok in
/-- A blocked job leaves the model as it was. -/
theorem HostOk.block (line : Line) :
    HostOk session d ids epoch device (index + 1) { host.say line with halted := 3 } := by
  refine ⟨hok.state, fun hz => absurd hz (Nat.succ_ne_zero 2), hok.bound.trans (Nat.le_succ _), hok.saved,
    fun i row hi => ?_⟩
  obtain ⟨job, hj, hr⟩ := hok.row i row hi
  exact ⟨job, hj, hr.mono (fun _ _ hk => hk) fun l hl => List.mem_append_left _ hl⟩

/-- The request of a job whose producer gave `out`. -/
def sent (d : JobData) (out : List ℕ) (id : ℕ) : List UInt8 :=
  packWords (requestRecord d.config (filled d out 0) (filled d out 1) id)

/-- The host after job `index` ran. -/
def ran (host : Host) (epoch : ℕ) (ids : List ℕ) (device : Device) (d : JobData) (index : ℕ) (out : List ℕ)
    (r : Resolved) : Host :=
  checkStep (host.say (.dispatch (ids.getD index 0) epoch (index + 1) (device.cookie index)
      (produced d out).length (sent d out (ids.getD index 0))))
    epoch (ids.getD index 0) (device.cookie index) index r (produced d out)
    (device.outcome index (produced d out))

/-- The row of a job that ran. -/
def ranRow (host : Host) (device : Device) (d : JobData) (index : ℕ) (out : List ℕ) (r : Resolved) : Row :=
  let success := decide (device.outcome index (produced d out) = .correct)
  ⟨index, r.name, r.inputs, success, r.destination, r.source,
    (host.state.commit index r.destination (produced d out) success).versions r.destination,
    if success then produced d out else []⟩

section Ran

variable (hj : session.jobs[index]? = some job) {out : List ℕ} {r : Resolved}
  (hc : Chosen d host.state index job out r)

include h hids hok hj hc

theorem HostOk.request : RequestOk (d index).config (filled (d index) out 0) (filled (d index) out 1)
    (ids.getD index 0) :=
  h.filled_ok hids (List.getElem?_eq_some_iff.mp hj).1 fun hm => hc.output_ok hok.state hm

theorem HostOk.requestBytes_eq : requestBytes (d index).config r.inputs (ids.getD index 0) =
    .ok (sent (d index) out (ids.getD index 0)) := by
  rw [hc.inputs]
  exact requestBytes_eq_ok.mpr ⟨hok.request h hids hj hc, rfl⟩

theorem HostOk.reference_eq : reference job.region r.inputs = .ok (produced (d index) out) := by
  rw [hc.inputs]
  exact reference_placed (h.compiled index job hj) (hok.request h hids hj hc)

theorem HostOk.produced_ok : (produced (d index) out).length = (d index).cells ∧
    (produced (d index) out).length ≤ 256 ∧ ∀ w ∈ produced (d index) out, w < 2 ^ 32 := by
  have hreq := hok.request h hids hj hc
  have hlen : (produced (d index) out).length = (d index).cells := outputWords_length _ _
  refine ⟨hlen, ?_, outputWords_lt (placed_words hreq.wordsA hreq.wordsB)⟩
  rw [hlen]
  exact cells_le hreq.admissible

theorem HostOk.hostJob_eq (hrun : host.halted = 0)
    (hres : host.state.resolve session index = .ok (some r)) :
    hostJob session epoch ids device host index = .ok (ran host epoch ids device (d index) index out r) := by
  have hcompile := h.compiled index job hj
  have href := hok.reference_eq h hids hj hc
  rw [← hc.region] at hcompile href
  rw [hostJob, if_neg (not_not.mpr hrun)]
  refine except_bind_eq_ok.mpr ⟨_, hres, ?_⟩
  refine except_bind_eq_ok.mpr ⟨_, hcompile, ?_⟩
  refine except_bind_eq_ok.mpr ⟨_, hok.requestBytes_eq h hids hj hc, ?_⟩
  exact except_bind_eq_ok.mpr ⟨_, href, rfl⟩

/-- The new row reads its links from the rows of its producers. -/
theorem HostOk.ranRow_ok : ∀ host' : Host,
    (∀ (k : ℕ) row, host.rows[k]? = some row → host'.rows[k]? = some row) →
    .dispatch (ids.getD index 0) epoch (index + 1) (device.cookie index) (produced (d index) out).length
      (sent (d index) out (ids.getD index 0)) ∈ host'.lines →
    RowOk session ids epoch device host' index (ranRow host device (d index) index out r) job := by
  intro host' hrows hline
  have hi := (List.getElem?_eq_some_iff.mp hj).1
  have hinput : ∀ b x, job.inputs[b]? = some x →
      JobOperand session d index b x ∧ b < 2 ∧ r.inputs[b]? = some (filled (d index) out b) := by
    intro b x hx
    have hb := (List.getElem?_eq_some_iff.mp hx).1
    rw [h.two index job hj] at hb
    refine ⟨h.operand index job hj b x hx, hb, ?_⟩
    rw [hc.inputs]
    obtain rfl | rfl : b = 0 ∨ b = 1 := by omega
    · rfl
    · rfl
  refine ⟨rfl, hc.banks hok.state, fun b values hx => ?_, fun b name hx => ?_,
    ⟨_, hok.reference_eq h hids hj hc, rfl⟩,
    ⟨(d index).config, sent (d index) out (ids.getD index 0), h.compiled index job hj,
      hok.requestBytes_eq h hids hj hc, ?_⟩⟩
  · obtain ⟨hop, -, hrb⟩ := hinput b _ hx
    cases hop with
    | literal hlink =>
      refine hrb.trans (congrArg some ?_)
      rw [filled, hlink]
      rfl
  · obtain ⟨hop, hb, hrb⟩ := hinput b _ hx
    cases hop with
    | link _ source hlink hname hlt =>
      have hsome : ((d index).link b).isSome = true := by
        rw [hlink]
        rfl
      have hbit := (JobData.mask_bit hb).mpr hsome
      obtain ⟨saved, hp, -, rfl, hsource, -⟩ := hc.linked fun hm => hbit (by rw [hm, Nat.zero_and])
      rw [← (h.link_facts hi hb hlink).1] at hp
      obtain ⟨producer, hk, happ, hout, hpd⟩ := hok.saved source saved hp
      refine ⟨source, producer, hname, hlt, hrows source producer hk, happ, ?_, hpd.trans hsource.symm⟩
      rw [hout]
      refine hrb.trans (congrArg some ?_)
      rw [filled, if_pos hsome]
  · rw [(hok.produced_ok h hids hj hc).1] at hline
    exact hline

/-- A job that ran extends the model by its row. -/
theorem HostOk.ran (hrun : host.halted = 0) :
    HostOk session d ids epoch device (index + 1) (ran host epoch ids device (d index) index out r) := by
  obtain ⟨hlen, hle, hw⟩ := hok.produced_ok h hids hj hc
  have hrows := hok.running hrun
  have hrowok := hok.ranRow_ok h hids hj hc
  set row := ranRow host device (d index) index out r with hrow
  have hget : ∀ (k : ℕ) row', host.rows[k]? = some row' → (host.rows ++ [row])[k]? = some row' := by
    intro k row' hk
    rw [List.getElem?_append_left (List.getElem?_eq_some_iff.mp hk).1, hk]
  have hnew : (host.rows ++ [row])[index]? = some row := by
    rw [List.getElem?_append_right hrows.le, hrows, Nat.sub_self]
    rfl
  have hlast : (host.rows ++ [row]).length = index + 1 := by
    rw [List.length_append, hrows]
    rfl
  refine ⟨hok.state.commit (hc.banks hok.state).1 hlen hle hw _, fun _ => hlast, hlast.le, fun i saved hs => ?_,
    fun i row' hi => ?_⟩
  · have hold : host.state.producers i = some saved → ∃ row', (host.rows ++ [row])[i]? = some row' ∧
        row'.approved = true ∧ row'.output = saved.output ∧ row'.destination = saved.bank := by
      intro hp
      obtain ⟨row', hk, hrest⟩ := hok.saved i saved hp
      exact ⟨row', hget i row' hk, hrest⟩
    change (host.state.commit index r.destination (produced (d index) out) row.approved).producers i =
      some saved at hs
    cases hb : row.approved with
    | false =>
      rw [hb] at hs
      exact hold hs
    | true =>
      rw [hb] at hs
      obtain ⟨rfl, rfl⟩ | ⟨-, hs⟩ := commit_producer hs
      · exact ⟨row, hnew, hb, if_pos hb, rfl⟩
      · exact hold hs
  · change (host.rows ++ [row])[i]? = some row' at hi
    have hlt := (List.getElem?_eq_some_iff.mp hi).1
    rw [hlast] at hlt
    obtain hlt | rfl : i < index ∨ i = index := by omega
    · rw [List.getElem?_append_left (by omega)] at hi
      obtain ⟨job', hj', hr⟩ := hok.row i row' hi
      exact ⟨job', hj', hr.mono hget fun l hl => List.mem_append_left _ (List.mem_append_left _ hl)⟩
    · obtain rfl : row = row' := Option.some.inj (hnew.symm.trans hi)
      exact ⟨job, hj, hrowok _ hget
        (List.mem_append_left _ (List.mem_append_right _ (List.mem_singleton.mpr rfl)))⟩

end Ran

end Step

end Raveil.Chain
