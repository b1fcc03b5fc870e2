import Raveil.Chain.Simulation

/-! Every accepted chain runs on the guest as the host's model says, however the device answers. -/
namespace Raveil.Chain
open Raveil.Lib Raveil.Fold Raveil.Dispatch
open Raveil.Authority hiding State

variable {session : Session} {d : ℕ → JobData} {ids : List ℕ} {epoch : ℕ} {caps : Caps}
  {rx : ℕ → ℕ → Option Char} {g : Guest} {host : Host} {p : List UInt8} {chain : FoldChain}
  {s : Authority.State}

/-- What the guest and the model agree on after every job. -/
structure Agrees (g : Guest) (h : Host) : Prop where
  versions : ∀ b, b < 2 → g.versions b = h.state.versions b
  banks : ∀ b, b < 2 → (List.range 256).map (g.published b) = h.state.banks b
  objects : ∀ b, b < 2 → ∀ i, i < 2 →
    (jobObjectLookup g.authority (2 * b + i + 1)).map (fun object => object.version) = some (h.state.versions b) ∧
    jobObjectRead g.authority (2 * b + i + 1) 0 512 =
      some (packWords (((h.state.banks b).drop (128 * i)).take 128))
  active : g.active = h.state.active
  processed : g.processed = h.rows.length
  halted : g.halted = h.halted
  log : g.log = h.lines

theorem slotWords_half {st : State} (hlen : ∀ b, (st.banks b).length = 256) {b i : ℕ} (hi : i < 2) :
    (List.range 128).map (slotWords st (2 * b + i)) = ((st.banks b).drop (128 * i)).take 128 := by
  refine List.ext_getElem (by simp [hlen]; omega) fun j hj hj' => ?_
  have hlt : j < 128 := by simpa using hj
  rw [List.getElem_map, List.getElem_range, List.getElem_take, List.getElem_drop, slotWords,
    show (2 * b + i) / 2 = b by omega, show (2 * b + i) % 2 = i by omega, chunkWords, if_pos hlt,
    List.getD_eq_getElem _ _ (by rw [hlen]; omega)]

theorem Sim.agrees (hs : Sim caps epoch g host) (hok : StateOk d host.state) : Agrees g host where
  versions b _ := congrFun hs.books.versions b
  banks b hb := by
    refine List.ext_getElem (by simp [hok.length]) fun i hi hi' => ?_
    rw [List.getElem_map, List.getElem_range, hs.published b hb i (by simpa using hi), List.getD_eq_getElem]
  objects b hb i hi := by
    rw [hs.ready.lookup (by omega) (by omega), hs.ready.read (by omega) (by omega), slotWords_half hok.length hi]
    refine ⟨congrArg some ?_, rfl⟩
    change host.state.versions ((2 * b + i) / 2) = _
    rw [show (2 * b + i) / 2 = b by omega]
  active := hs.books.active
  processed := hs.processed
  halted := hs.halted
  log := hs.log

/-- Both loops over `k` jobs. -/
theorem Sim.run (h : ChainOk session d) (hids : IdsOk session ids) (hd : Decoded session d ids p chain)
    (hs : Sim caps epoch g ⟨.init, [], 0, [.start epoch session.jobs.length [1, 1]]⟩) {k : ℕ}
    (hk : k ≤ session.jobs.length) :
    ∃ host, hostLoop session epoch ids (deviceOf rx epoch ids) k = .ok host ∧
      Sim caps epoch (guestLoop caps p chain rx g k) host ∧
      HostOk session d ids epoch (deviceOf rx epoch ids) k host := by
  induction k with
  | zero =>
    refine ⟨_, rfl, hs, stateOk_init d, fun _ => rfl, le_rfl, fun i saved hp => ?_, fun i row hrow => ?_⟩
    · cases hp
    · cases hrow
  | succ k ih =>
    obtain ⟨host, hloop, hsim, hok⟩ := ih (by omega)
    obtain ⟨host', hstep, hsim', hok'⟩ := @Sim.step _ _ _ _ _ _ rx _ _ _ _ h hids hd (by omega) hok hsim
    refine ⟨host', ?_, ?_, hok'⟩
    · rw [hostLoop] at hloop ⊢
      rw [List.range_succ, List.foldlM_append, hloop]
      change hostJob session epoch ids (deviceOf rx epoch ids) host k >>= pure = _
      rw [hstep]
      rfl
    · rw [guestLoop, List.range_succ, List.foldl_append]
      exact hsim'

/-- The guest starts with both banks at version 1, all zero. -/
theorem Sim.start (hcaps : Authorized caps s) (hepoch : 0 < chain.jobs.epoch ∧ chain.jobs.epoch < 2 ^ 64) :
    ∃ g, guestStart caps chain s = some g ∧
      Sim caps chain.jobs.epoch g ⟨.init, [], 0, [.start chain.jobs.epoch chain.jobs.count [1, 1]]⟩ := by
  obtain ⟨t, hprepare, hready⟩ := ready_prepare (n := 4) (by omega) hcaps hepoch
  have hwords : slotWords .init = fun _ _ => 0 := by
    funext slot i
    simp only [slotWords, chunkWords, State.init, getD_zeros, ite_self]
  have hready' : Ready caps chain.jobs.epoch 4 (slotVersions .init) (slotWords .init) 0 t := by
    rw [hwords]
    exact hready
  let g0 : Guest := ⟨t, fun _ => 1, fun _ => 0, fun _ => 0, fun _ => false, fun _ _ => 0, fun _ _ => 0, 1, 0, 0, []⟩
  have hread := readState_eq (g := g0) hready' rfl fun b _ i _ => (getD_zeros 256 i).symm
  refine ⟨({ g0 with published := publishedWord g0 } : Guest).say
    (.start chain.jobs.epoch chain.jobs.count [1, 1]), ?_, hready', ⟨rfl, fun b _ i _ => (getD_zeros 256 i).symm, rfl, fun _ => rfl, fun _ _ hp => ?_⟩,
    fun b hb i hi => publishedWord_eq (g := g0) hready' rfl hb hi, rfl, rfl, rfl⟩
  · unfold guestStart
    rw [hprepare]
    simp only [Option.bind_eq_bind, Option.bind_some]
    change (if _ then _ else _) = _
    rw [hread]
    have hused : g0.authority.planeExperienceUsed = 0 := hready'.used
    exact if_neg (by simp [hused])
  · cases hp

/-- The two-bank guest follows the host's model on every accepted chain, whatever the device answers. -/
theorem guest_follows_model (hvalid : validate session = .ok session) (hepoch : 0 < epoch ∧ epoch < 2 ^ 64)
    (hids : IdsOk session ids) (hcaps : Authorized caps s) (rx : ℕ → ℕ → Option Char) (rest : List UInt8) :
    ∃ bytes children chain start, encode session epoch ids = .ok (bytes, children) ∧
      raveilFoldChainDecode bytes bytes.length = some chain ∧ guestStart caps chain s = some start ∧
      (∀ k, k ≤ session.jobs.length →
        ∃ host, hostLoop session epoch ids (deviceOf rx epoch ids) k = .ok host ∧
          Agrees (guestLoop caps bytes chain rx start k) host ∧
          ∀ (i : ℕ) row, host.rows[i]? = some row → ∃ job, session.jobs[i]? = some job ∧
            RowOk session ids epoch (deviceOf rx epoch ids) host i row job) ∧
      ∃ host, hostLoop session epoch ids (deviceOf rx epoch ids) session.jobs.length = .ok host ∧
        foldChainRunIfPresent caps (bytes ++ rest) rx s =
          .ran ((guestLoop caps bytes chain rx start session.jobs.length).say (hostFinish session epoch host)) := by
  obtain ⟨d, h⟩ := validate_eq_ok hvalid
  set bytes := (chainEnvelope epoch session.jobs.length d ids).bytes with hbytes
  set chain := (loopAt epoch session.jobs.length d ids session.jobs.length).admitted with hchain
  have hdecode : raveilFoldChainDecode bytes bytes.length = some chain := h.raveilFoldChainDecode_eq hids hepoch
  have hd : Decoded session d ids bytes chain := h.decoded hids epoch
  obtain ⟨start, hstart, hsim⟩ := @Sim.start _ chain _ hcaps hepoch
  have hrun := fun k hk => @Sim.run _ _ _ _ _ rx _ _ _ h hids hd hsim k hk
  refine ⟨bytes, _, chain, start, h.encode_eq hvalid hids hepoch, hdecode, hstart, fun k hk => ?_, ?_⟩
  · obtain ⟨host, hloop, hsim', hok⟩ := hrun k hk
    exact ⟨host, hloop, hsim'.agrees hok.state, hok.row⟩
  · obtain ⟨host, hloop, hsim', hok⟩ := hrun session.jobs.length le_rfl
    obtain ⟨hsealed, hmin, hmax⟩ := h.chainEnvelope_ok hids hepoch
    rw [← hbytes] at hmin hmax
    have hmagic : word (bytes ++ rest) 0 = RAVEIL_FOLD_CHAIN_MAGIC := by
      rw [word_append (by omega)]
      exact Sealed.word_magic hsealed
    have hsize : word (bytes ++ rest) 8 = bytes.length := by
      rw [word_append (by omega)]
      exact Sealed.word_size hsealed
    have htake : (bytes ++ rest).take bytes.length = bytes := List.take_left
    have hfinish : Line.finish chain.jobs.epoch (guestLoop caps bytes chain rx start session.jobs.length).processed
        session.jobs.length (guestLoop caps bytes chain rx start session.jobs.length).halted
        (guestLoop caps bytes chain rx start session.jobs.length).versionList = hostFinish session epoch host := by
      rw [hsim'.processed, hsim'.halted, Guest.versionList, hsim'.books.versions]
      rfl
    refine ⟨host, hloop, ?_⟩
    unfold foldChainRunIfPresent
    rw [if_neg (not_not.mpr hmagic), hsize]
    dsimp only
    rw [if_neg (by omega), htake, hdecode]
    dsimp only
    rw [hstart]
    dsimp only
    rw [hd.count, hfinish]

/-- The device answers 7 + 2 and then 9 + 3. -/
def addAnswers : ℕ → ℕ → Option Char :=
  answering fun i => responseBytes (5 + i) 9 (i + 1) (makeCookie 9 (5 + i) (i + 1)) [9 + 3 * i] 0

theorem guest_follows_model_add :
    ∃ bytes children chain start host, encode addChain 9 [5, 6] = .ok (bytes, children) ∧
      raveilFoldChainDecode bytes bytes.length = some chain ∧ guestStart bootCaps chain bootState = some start ∧
      hostLoop addChain 9 [5, 6] (deviceOf addAnswers 9 [5, 6]) 2 = .ok host ∧
      Agrees (guestLoop bootCaps bytes chain addAnswers start 2) host ∧
      host.rows.map (·.output) = [[9], [12]] := by
  obtain ⟨bytes, children, chain, start, hencode, hdecode, hstart, hloop, -⟩ :=
    @guest_follows_model addChain [5, 6] 9 _ _ (by decide) (by decide)
      ⟨rfl, by decide, by decide⟩ authorized_boot addAnswers []
  obtain ⟨host, hhost, hagrees, -⟩ := hloop 2 le_rfl
  refine ⟨bytes, children, chain, start, host, hencode, hdecode, hstart, hhost, hagrees, ?_⟩
  have hrows : (hostLoop addChain 9 [5, 6] (deviceOf addAnswers 9 [5, 6]) 2).toOption.map
      (fun host => host.rows.map (·.output)) = some [[9], [12]] := by
    decide +kernel
  rw [hhost] at hrows
  exact Option.some.inj hrows

end Raveil.Chain
