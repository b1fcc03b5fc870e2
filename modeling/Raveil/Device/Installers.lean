import Raveil.Graph.Installer
import Raveil.Device.Config

/-! The installers over whole histories of commands: what they hold was installed, or was there at reset. -/
namespace Raveil.Device
open Raveil.Graph

section Program

/-- A cycle that carries a command. -/
def commands (io : InstallerInput) : Bool := io.clear || io.write || io.commit

/-- What one cycle does to the program installer. -/
inductive InstallerStep (s : Installer) (io : InstallerInput) : Installer → Prop
  | idle (h : commands io = false) : InstallerStep s io s
  | clear (hc : io.clear = true) (hb : io.busy = false) :
      InstallerStep s io { s with payloadCount := 0, installed := false, fault := false }
  | write (hc : io.clear = false) (hw : io.write = true) (hb : io.busy = false) (hi : s.installed = false)
      (hf : s.fault = false) (hlt : s.payloadCount < 32) (ha : io.address = s.payloadCount) :
      InstallerStep s io
        { s with
          payload := Function.update s.payload (Fin.ofNat 32 (io.address.extractLsb 4 0).toNat) io.data
          payloadCount := s.payloadCount + 1 }
  | commit (hc : io.clear = false) (hw : io.write = false) (hm : io.commit = true) (hb : io.busy = false)
      (hf : s.fault = false) (hv : s.payloadValid = true) :
      InstallerStep s io
        { s with
          programLength := (s.payload 2).extractLsb 4 0
          programVersion := (s.payload 1).extractLsb 2 0
          program := fun index => s.payload (Fin.ofNat 32 (12 + index))
          digest := fun index => s.payload (Fin.ofNat 32 (4 + index))
          installed := true }
  | fault (hcmd : commands io = true) (hclear : io.busy = false → io.clear = false)
      (hno : io.busy = false → io.write = false → s.fault = false → s.payloadValid = false) :
      InstallerStep s io { s with fault := true, installed := false }

theorem installerStep (s : Installer) (io : InstallerInput) : InstallerStep s io (s.step io) := by
  obtain ⟨clear, write, commit, address, data, busy⟩ := io
  unfold Installer.step
  cases busy with
  | true =>
    by_cases hcmd : (clear || write || commit) = true
    · dsimp only
      rw [hcmd, Bool.and_self, if_pos rfl]
      exact .fault hcmd (fun h => by cases h) (fun h => by cases h)
    · rw [Bool.not_eq_true] at hcmd
      obtain ⟨⟨rfl, rfl⟩, rfl⟩ : (clear = false ∧ write = false) ∧ commit = false := by
        simpa only [Bool.or_eq_false_iff] using hcmd
      exact .idle rfl
  | false =>
    dsimp only
    rw [if_neg (by simp)]
    cases clear with
    | true => exact .clear rfl rfl
    | false =>
      cases write with
      | true =>
        rw [if_neg (by simp), if_pos rfl]
        split
        · next h =>
          simp only [Bool.and_eq_true, Bool.not_eq_true', decide_eq_true_eq, beq_iff_eq] at h
          obtain ⟨⟨⟨hi, hf⟩, hlt⟩, ha⟩ := h
          exact .write rfl rfl rfl hi hf hlt ha
        · exact .fault rfl (fun _ => rfl) (fun _ h => by cases h)
      | false =>
        rw [if_neg (by simp), if_neg (by simp)]
        cases commit with
        | false => exact .idle rfl
        | true =>
          rw [if_pos rfl]
          split
          · next h =>
            simp only [Bool.and_eq_true, Bool.not_eq_true'] at h
            exact .commit rfl rfl rfl rfl h.1 h.2
          · next h =>
            refine .fault rfl (fun _ => rfl) fun _ _ hf => ?_
            rw [hf] at h
            simpa using h

def runInstaller (s : Installer) (cs : List InstallerInput) : Installer := cs.foldl Installer.step s

theorem runInstaller_append (s : Installer) (cs : List InstallerInput) (io : InstallerInput) :
    runInstaller s (cs ++ [io]) = (runInstaller s cs).step io := by
  rw [runInstaller, List.foldl_append]
  rfl

/-- A commit that is neither a clear nor a write, while idle. -/
def LoneCommit (io : InstallerInput) : Prop :=
  io.clear = false ∧ io.write = false ∧ io.commit = true ∧ io.busy = false

/-- The words of a payload pass the check of the commit. -/
def Admitted (payload : Fin 32 → BitVec 32) : Prop :=
  ({ Installer.reset with payload := payload, payloadCount := 32 } : Installer).payloadValid = true

theorem admitted_of_valid {s : Installer} (h : s.payloadValid = true) : s.payloadCount = 32 ∧ Admitted s.payload := by
  have hcount : s.payloadCount = 32 := by
    simp only [Installer.payloadValid, Bool.and_eq_true, beq_iff_eq] at h
    exact h.1.1.1.1.1.1.1.1.1
  refine ⟨hcount, ?_⟩
  unfold Admitted
  rw [← h]
  simp only [Installer.payloadValid, hcount]

theorem valid_of_admitted {s : Installer} (hc : s.payloadCount = 32) (h : Admitted s.payload) :
    s.payloadValid = true := by
  unfold Admitted at h
  rw [← h]
  simp only [Installer.payloadValid, hc]

local instance payloadIndex : NeZero 32 := ⟨by decide⟩

/-- The commands of `cs` are `k` idle writes at the addresses from 0 on, of the words of `payload`. -/
def Writes (payload : Fin 32 → BitVec 32) (cs : List InstallerInput) (k : ℕ) : Prop :=
  (cs.filter commands).length = k ∧ ∀ (i : ℕ) io, (cs.filter commands)[i]? = some io →
    io.clear = false ∧ io.write = true ∧ io.busy = false ∧ io.address.toNat = i ∧
      io.data = payload (Fin.ofNat 32 i)

/-- The history ends with a clear while idle, 32 idle writes in order, a commit of an admitted payload, and
nothing after it but commits of the same payload. -/
def Installs (payload : Fin 32 → BitVec 32) (cs : List InstallerInput) : Prop :=
  ∃ before clear writes commit after, cs = before ++ clear :: (writes ++ commit :: after) ∧
    clear.clear = true ∧ clear.busy = false ∧ Writes payload writes 32 ∧ LoneCommit commit ∧ Admitted payload ∧
    ∀ io ∈ after, commands io = false ∨ LoneCommit io

variable {payload : Fin 32 → BitVec 32} {cs : List InstallerInput} {io : InstallerInput} {k : ℕ}

theorem Writes.nil (payload : Fin 32 → BitVec 32) : Writes payload [] 0 := by
  refine ⟨rfl, fun i io h => ?_⟩
  simp at h

theorem Writes.idle (h : Writes payload cs k) (hio : commands io = false) : Writes payload (cs ++ [io]) k := by
  have hsame : (cs ++ [io]).filter commands = cs.filter commands := by
    rw [List.filter_append, List.filter_cons_of_neg (by rw [hio]; exact Bool.false_ne_true), List.filter_nil,
      List.append_nil]
  rw [Writes, hsame]
  exact h

theorem Writes.write (h : Writes payload cs k) (hk : k < 32) (hc : io.clear = false) (hw : io.write = true)
    (hb : io.busy = false) (ha : io.address.toNat = k) :
    Writes (Function.update payload (Fin.ofNat 32 k) io.data) (cs ++ [io]) (k + 1) := by
  have hcmd : commands io = true := by simp [commands, hw]
  have hsnoc : (cs ++ [io]).filter commands = cs.filter commands ++ [io] := by
    rw [List.filter_append, List.filter_cons_of_pos hcmd, List.filter_nil]
  rw [Writes, hsnoc]
  refine ⟨by rw [List.length_append, h.1]; rfl, fun i io' hi => ?_⟩
  by_cases hlt : i < k
  · rw [List.getElem?_append_left (by rw [h.1]; exact hlt)] at hi
    obtain ⟨h1, h2, h3, h4, h5⟩ := h.2 i io' hi
    have hne : Fin.ofNat 32 i ≠ Fin.ofNat 32 k := by
      intro heq
      have := congrArg Fin.val heq
      simp only [Fin.val_ofNat] at this
      omega
    exact ⟨h1, h2, h3, h4, by rw [Function.update_of_ne hne, h5]⟩
  · rw [List.getElem?_append_right (by rw [h.1]; omega), h.1] at hi
    obtain ⟨hz, -⟩ := List.getElem?_eq_some_iff.mp hi
    obtain rfl : i = k := by
      simp at hz
      omega
    rw [Nat.sub_self, List.getElem?_cons_zero, Option.some_inj] at hi
    subst hi
    exact ⟨hc, hw, hb, ha, by rw [Function.update_self]⟩

theorem Installs.append (h : Installs payload cs) (hio : commands io = false ∨ LoneCommit io) :
    Installs payload (cs ++ [io]) := by
  obtain ⟨before, clear, writes, commit, after, rfl, h1, h2, h3, h4, h5, h6⟩ := h
  refine ⟨before, clear, writes, commit, after ++ [io], by simp, h1, h2, h3, h4, h5, fun x hx => ?_⟩
  rcases List.mem_append.mp hx with hx | hx
  · exact h6 x hx
  · rw [List.mem_singleton.mp hx]
    exact hio

/-- How the installer got into its state; `factory` says that it started installed and unloaded. -/
structure History (factory : Prop) (s : Installer) (cs : List InstallerInput) : Prop where
  exclusive : ¬ (s.installed = true ∧ s.fault = true)
  installed : s.installed = true →
    (factory ∧ s.payloadCount = 0 ∧ ∀ io ∈ cs, commands io = false) ∨ Installs s.payload cs
  loading : s.installed = false → s.fault = false → ∃ before clear writes, cs = before ++ clear :: writes ∧
    clear.clear = true ∧ clear.busy = false ∧ Writes s.payload writes s.payloadCount.toNat

variable {s : Installer} {factory : Prop}

theorem History.step (h : History factory s cs) (io : InstallerInput) :
    History factory (s.step io) (cs ++ [io]) := by
  have hs := installerStep s io
  generalize s.step io = t at hs
  cases hs with
  | idle hio =>
    refine ⟨h.exclusive, fun hi => ?_, fun hi hf => ?_⟩
    · rcases h.installed hi with ⟨hfac, hz, hno⟩ | hin
      · refine Or.inl ⟨hfac, hz, fun x hx => ?_⟩
        rcases List.mem_append.mp hx with hx | hx
        · exact hno x hx
        · rw [List.mem_singleton.mp hx]
          exact hio
      · exact Or.inr (hin.append (Or.inl hio))
    · obtain ⟨before, clear, writes, rfl, h1, h2, h3⟩ := h.loading hi hf
      exact ⟨before, clear, writes ++ [io], by simp, h1, h2, h3.idle hio⟩
  | clear hc hb =>
    refine ⟨fun hboth => ?_, fun hi => ?_, fun _ _ => ?_⟩
    · cases hboth.1
    · cases hi
    · exact ⟨cs, io, [], rfl, hc, hb, Writes.nil _⟩
  | write hc hw hb hi hf hlt ha =>
    obtain ⟨before, clear, writes, rfl, h1, h2, h3⟩ := h.loading hi hf
    have hk : s.payloadCount.toNat < 32 := hlt
    refine ⟨h.exclusive, fun hi' => ?_, fun _ _ => ?_⟩
    · rw [hi] at hi'
      cases hi'
    · have haddress : (io.address.extractLsb 4 0).toNat = s.payloadCount.toNat := by
        rw [BitVec.extractLsb_toNat, ha]
        exact Nat.mod_eq_of_lt hk
      have hcount : (s.payloadCount + 1).toNat = s.payloadCount.toNat + 1 := by
        rw [BitVec.toNat_add]
        exact Nat.mod_eq_of_lt (show s.payloadCount.toNat + 1 < 64 by omega)
      refine ⟨before, clear, writes ++ [io], by simp, h1, h2, ?_⟩
      dsimp only
      rw [haddress, hcount]
      exact h3.write hk hc hw hb (by rw [ha])
  | commit hc hw hm hb hf hv =>
    have hlone : LoneCommit io := ⟨hc, hw, hm, hb⟩
    obtain ⟨hcount, hadm⟩ := admitted_of_valid hv
    refine ⟨fun hboth => ?_, fun _ => Or.inr ?_, fun hi => by cases hi⟩
    · dsimp only at hboth
      rw [hf] at hboth
      exact Bool.false_ne_true hboth.2
    · cases hi : s.installed with
      | true =>
        rcases h.installed hi with ⟨-, hz, -⟩ | hin
        · rw [hz] at hcount
          cases hcount
        · exact hin.append (Or.inr hlone)
      | false =>
        obtain ⟨before, clear, writes, rfl, h1, h2, h3⟩ := h.loading hi hf
        rw [hcount] at h3
        exact ⟨before, clear, writes, io, [], by simp, h1, h2, h3, hlone, hadm, fun x hx => by cases hx⟩
  | fault hcmd hclear hno =>
    refine ⟨fun hboth => ?_, fun hi => ?_, fun _ hf => ?_⟩
    · cases hboth.1
    · cases hi
    · cases hf

theorem History.run (h : History factory s []) (cs : List InstallerInput) :
    History factory (runInstaller s cs) cs := by
  induction cs using List.reverseRecOn with
  | nil => exact h
  | append_singleton cs io ih =>
    rw [runInstaller_append]
    exact ih.step io

/-- After a fault nothing is installed until a whole installation has gone through. -/
theorem history_fault (h : s.installed = false) (hf : s.fault = true) : History False s [] := by
  refine ⟨fun hboth => ?_, fun hi => ?_, fun _ hf' => ?_⟩
  · rw [h] at hboth
    exact Bool.false_ne_true hboth.1
  · rw [h] at hi
    cases hi
  · rw [hf] at hf'
    cases hf'

/-- The commit that goes through in state `s`. -/
def Commits (s : Installer) (io : InstallerInput) : Prop :=
  LoneCommit io ∧ s.fault = false ∧ s.payloadValid = true

/-- The live registers hold the values of a payload. -/
def Live (s : Installer) (payload : Fin 32 → BitVec 32) : Prop :=
  s.programLength = (payload 2).extractLsb 4 0 ∧ s.programVersion = (payload 1).extractLsb 2 0 ∧
    s.program = (fun index : Fin 16 => payload (Fin.ofNat 32 (12 + index))) ∧
    s.digest = fun index : Fin 8 => payload (Fin.ofNat 32 (4 + index))

theorem last_split {α : Type} {cs before after : List α} {io x : α} (h : cs ++ [io] = before ++ x :: after) :
    (after = [] ∧ before = cs ∧ x = io) ∨ ∃ rest, after = rest ++ [io] ∧ cs = before ++ x :: rest := by
  induction after using List.reverseRecOn with
  | nil =>
    obtain ⟨rfl, hx⟩ := List.append_inj' h rfl
    simp at hx
    exact Or.inl ⟨rfl, rfl, hx.symm⟩
  | append_singleton rest y =>
    rw [← List.cons_append, ← List.append_assoc] at h
    obtain ⟨rfl, hy⟩ := List.append_inj' h rfl
    simp at hy
    exact Or.inr ⟨rest, by rw [hy], rfl⟩

/-- A cycle that does not commit leaves the live registers alone. -/
theorem live_step (h : ¬ Commits s io) : (s.step io).programLength = s.programLength ∧
    (s.step io).programVersion = s.programVersion ∧ (s.step io).program = s.program ∧
    (s.step io).digest = s.digest := by
  have hs := installerStep s io
  generalize s.step io = t at hs
  cases hs with
  | commit hc hw hm hb hf hv => exact absurd ⟨⟨hc, hw, hm, hb⟩, hf, hv⟩ h
  | idle | clear | write | fault => exact ⟨rfl, rfl, rfl, rfl⟩

theorem commit_step (h : Commits s io) : Live (s.step io) s.payload := by
  obtain ⟨⟨hc, hw, hm, hb⟩, hf, hv⟩ := h
  have hs := installerStep s io
  generalize s.step io = t at hs
  cases hs with
  | commit => exact ⟨rfl, rfl, rfl, rfl⟩
  | idle hio => simp [commands, hm] at hio
  | clear hc' => rw [hc] at hc'; cases hc'
  | write _ hw' => rw [hw] at hw'; cases hw'
  | fault _ _ hno => rw [hno hb hw hf] at hv; cases hv

section Loaded

theorem step_quiet (s : Installer) (h : commands io = false) : s.step io = s := by
  simp only [commands, Bool.or_eq_false_iff] at h
  obtain ⟨⟨hc, hw⟩, hm⟩ := h
  simp [Installer.step, hc, hw, hm]

theorem Writes.split (h : Writes payload (cs ++ [io]) k) :
    (commands io = false ∧ Writes payload cs k) ∨ ∃ n, k = n + 1 ∧ Writes payload cs n ∧ io.clear = false ∧
      io.write = true ∧ io.busy = false ∧ io.address.toNat = n ∧ io.data = payload (Fin.ofNat 32 n) := by
  cases hcmd : commands io with
  | false =>
    left
    have hsame : (cs ++ [io]).filter commands = cs.filter commands := by
      rw [List.filter_append, List.filter_cons_of_neg (by rw [hcmd]; exact Bool.false_ne_true), List.filter_nil,
        List.append_nil]
    rw [Writes, hsame] at h
    exact ⟨rfl, h⟩
  | true =>
    right
    have hsnoc : (cs ++ [io]).filter commands = cs.filter commands ++ [io] := by
      rw [List.filter_append, List.filter_cons_of_pos hcmd, List.filter_nil]
    rw [Writes, hsnoc] at h
    obtain ⟨hlen, hall⟩ := h
    rw [List.length_append, List.length_singleton] at hlen
    refine ⟨(cs.filter commands).length, hlen.symm, ⟨rfl, fun i x hx => hall i x ?_⟩, hall _ io ?_⟩
    · rw [List.getElem?_append_left (List.getElem?_eq_some_iff.mp hx).1]
      exact hx
    · rw [List.getElem?_append_right (Nat.le_refl _), Nat.sub_self]
      rfl

/-- Writes in order fill the payload of an installer that was cleared. -/
theorem Writes.loaded (h : Writes payload cs k) (hk : k ≤ 32) (hi : s.installed = false) (hf : s.fault = false)
    (hc : s.payloadCount = 0) :
    (runInstaller s cs).installed = false ∧ (runInstaller s cs).fault = false ∧
      (runInstaller s cs).payloadCount.toNat = k ∧
      ∀ i, i < k → (runInstaller s cs).payload (Fin.ofNat 32 i) = payload (Fin.ofNat 32 i) := by
  induction cs using List.reverseRecOn generalizing k with
  | nil =>
    obtain rfl : 0 = k := h.1
    refine ⟨hi, hf, ?_, fun i hlt => absurd hlt (Nat.not_lt_zero i)⟩
    change s.payloadCount.toNat = 0
    rw [hc]
    rfl
  | append_singleton cs io ih =>
    rw [runInstaller_append]
    rcases h.split with ⟨hio, h⟩ | ⟨n, rfl, h, hclear, hwrite, hbusy, haddress, hdata⟩
    · obtain ⟨h1, h2, h3, h4⟩ := ih h hk
      rw [step_quiet _ hio]
      exact ⟨h1, h2, h3, h4⟩
    · obtain ⟨h1, h2, h3, h4⟩ := ih h (by omega)
      have hs := installerStep (runInstaller s cs) io
      generalize hnext : (runInstaller s cs).step io = t at hs
      generalize runInstaller s cs = u at h1 h2 h3 h4 hs hnext
      have hroom : u.payloadCount < 32 := by
        rw [BitVec.lt_def, h3]
        exact hk
      have hequal : io.address = u.payloadCount := BitVec.eq_of_toNat_eq (haddress.trans h3.symm)
      have hlow : (io.address.extractLsb 4 0).toNat = n := by
        rw [BitVec.extractLsb_toNat, haddress]
        exact Nat.mod_eq_of_lt (show n < 32 by omega)
      cases hs with
      | idle hno => simp [commands, hwrite] at hno
      | clear hc' => rw [hclear] at hc'; cases hc'
      | commit _ hw' => rw [hwrite] at hw'; cases hw'
      | fault =>
        simp only [Installer.step, hclear, hwrite, hbusy, h1, h2, hroom, hequal, Bool.or_true, Bool.and_false,
          Bool.false_eq_true, if_false, if_true, Bool.not_false, Bool.true_and, decide_true,
          beq_self_eq_true] at hnext
        cases congrArg Installer.fault hnext
      | write =>
        refine ⟨h1, h2, ?_, fun i hlt => ?_⟩
        · change (u.payloadCount + 1).toNat = n + 1
          rw [BitVec.toNat_add, h3]
          exact Nat.mod_eq_of_lt (show n + 1 < 64 by omega)
        · dsimp only
          rw [hlow]
          by_cases hin : i = n
          · rw [hin, Function.update_self, hdata]
          · have hne : Fin.ofNat 32 i ≠ Fin.ofNat 32 n := by
              intro heq
              have := congrArg Fin.val heq
              simp only [Fin.val_ofNat] at this
              omega
            rw [Function.update_of_ne hne]
            exact h4 i (by omega)

/-- The installer holds a payload in full, and its live registers show it. -/
structure Shows (s : Installer) (payload : Fin 32 → BitVec 32) : Prop where
  installed : s.installed = true
  fault : s.fault = false
  count : s.payloadCount = 32
  payload_eq : s.payload = payload
  live : Live s payload

theorem commits_shows (hc : s.payloadCount = 32) (hf : s.fault = false) (hp : s.payload = payload)
    (hadm : Admitted payload) (hlone : LoneCommit io) : Shows (s.step io) payload := by
  have hvalid : s.payloadValid = true := valid_of_admitted hc (by rw [hp]; exact hadm)
  have hlive := commit_step ⟨hlone, hf, hvalid⟩
  obtain ⟨h1, h2, h3, h4⟩ := hlone
  have hs := installerStep s io
  generalize s.step io = t at hs hlive
  rw [hp] at hlive
  cases hs with
  | commit => exact ⟨rfl, hf, hc, hp, hlive⟩
  | idle hio => simp [commands, h3] at hio
  | clear hc' => rw [h1] at hc'; cases hc'
  | write _ hw' => rw [h2] at hw'; cases hw'
  | fault _ _ hno => rw [hno h4 h2 hf] at hvalid; cases hvalid

/-- An installation leaves the payload in the live registers, whatever was there before. -/
theorem installs_shows (s : Installer) (h : Installs payload cs) : Shows (runInstaller s cs) payload := by
  obtain ⟨before, clear, writes, commit, after, rfl, hclear, hidle, hwrites, hcommit, hadm, hafter⟩ := h
  have hrun : runInstaller s (before ++ clear :: (writes ++ commit :: after)) =
      runInstaller ((runInstaller ((runInstaller s before).step clear) writes).step commit) after := by
    simp [runInstaller]
  rw [hrun]
  have hcleared : ((runInstaller s before).step clear).installed = false ∧
      ((runInstaller s before).step clear).fault = false ∧
      ((runInstaller s before).step clear).payloadCount = 0 := by
    simp [Installer.step, hclear, hidle]
  obtain ⟨-, hf, hcount, hall⟩ := hwrites.loaded (Nat.le_refl 32) hcleared.1 hcleared.2.1 hcleared.2.2
  have hpayload : (runInstaller ((runInstaller s before).step clear) writes).payload = payload := by
    funext i
    have hi : Fin.ofNat 32 i.val = i := Fin.ofNat_val_eq_self i
    rw [← hi]
    exact hall i.val i.isLt
  have hfirst := commits_shows (BitVec.eq_of_toNat_eq hcount) hf hpayload hadm hcommit
  clear hrun
  induction after using List.reverseRecOn with
  | nil => exact hfirst
  | append_singleton after io ih =>
    rw [runInstaller_append]
    have hlast := ih fun x hx => hafter x (List.mem_append_left _ hx)
    rcases hafter io (by simp) with hio | hlone
    · rw [step_quiet _ hio]
      exact hlast
    · exact commits_shows hlast.count hlast.fault hlast.payload_eq hadm hlone

end Loaded

end Program

section Config

/-- What holds of the configuration installer in every state. -/
structure ConfigOk (s : ConfigInstaller) : Prop where
  shape : s.shape = baseline ∨ s.shape = compact
  loading : s.installed = true → s.loading = false

theorem configOk_reset : ConfigOk ConfigInstaller.reset := ⟨Or.inl rfl, fun _ => rfl⟩

theorem ConfigOk.step {s : ConfigInstaller} (h : ConfigOk s) (io : ConfigInput) : ConfigOk (s.step io) := by
  have hs := configStep s io
  generalize s.step io = t at hs
  cases hs with
  | idle | fault | write => exact ⟨h.shape, h.loading⟩
  | clear => exact ⟨h.shape, fun hi => by cases hi⟩
  | commit _ _ _ _ _ _ _ hv => exact ⟨shape_of_valid hv, fun _ => rfl⟩

def runConfig (s : ConfigInstaller) (ds : List ConfigInput) : ConfigInstaller := ds.foldl ConfigInstaller.step s

theorem runConfig_append (s : ConfigInstaller) (ds : List ConfigInput) (io : ConfigInput) :
    runConfig s (ds ++ [io]) = (runConfig s ds).step io := by
  rw [runConfig, List.foldl_append]
  rfl

theorem ConfigOk.activeOutputs {s : ConfigInstaller} (h : ConfigOk s) :
    s.activeOutputs.toNat = s.rows.toNat * s.columns.toNat := by
  rcases h.shape with hs | hs
  · obtain ⟨h1, h2, -, -, h5⟩ := Shape.mk.inj hs
    rw [h1, h2, h5]
    rfl
  · obtain ⟨h1, h2, -, -, h5⟩ := Shape.mk.inj hs
    rw [h1, h2, h5]
    rfl

/-- A cycle that carries a command. -/
def configCommands (io : ConfigInput) : Bool := io.clear || io.write || io.commit

local instance configIndex : NeZero 16 := ⟨by decide⟩

/-- The commands of `ds` are `k` lone idle writes at the addresses from 0 on, of the words of `payload`. -/
def ConfigWrites (payload : Fin 16 → BitVec 32) (ds : List ConfigInput) (k : ℕ) : Prop :=
  (ds.filter configCommands).length = k ∧ ∀ (i : ℕ) io, (ds.filter configCommands)[i]? = some io →
    io.clear = false ∧ io.write = true ∧ io.commit = false ∧ io.busy = false ∧ io.address.toNat = i ∧
      io.data = payload (Fin.ofNat 16 i)

/-- The history ends with a lone clear while idle, 16 writes in order, a commit of one of the two payloads,
and no command after it. -/
def ConfigInstalls (payload : Fin 16 → BitVec 32) (ds : List ConfigInput) : Prop :=
  ∃ before clear writes commit after, ds = before ++ clear :: (writes ++ commit :: after) ∧
    (clear.clear = true ∧ clear.write = false ∧ clear.commit = false ∧ clear.busy = false) ∧
    ConfigWrites payload writes 16 ∧
    (commit.clear = false ∧ commit.write = false ∧ commit.commit = true ∧ commit.busy = false) ∧
    (matchesPayload payload baselineShape baselineDigestWords = true ∨
      matchesPayload payload compactShape compactDigestWords = true) ∧
    ∀ io ∈ after, configCommands io = false

section History

variable {payload : Fin 16 → BitVec 32} {ds : List ConfigInput} {d : ConfigInput} {k : ℕ}

theorem ConfigWrites.idle (h : ConfigWrites payload ds k) (hd : configCommands d = false) :
    ConfigWrites payload (ds ++ [d]) k := by
  have hsame : (ds ++ [d]).filter configCommands = ds.filter configCommands := by
    rw [List.filter_append, List.filter_cons_of_neg (by rw [hd]; exact Bool.false_ne_true), List.filter_nil,
      List.append_nil]
  rw [ConfigWrites, hsame]
  exact h

theorem ConfigWrites.write (h : ConfigWrites payload ds k) (hk : k < 16) (hc : d.clear = false)
    (hw : d.write = true) (hm : d.commit = false) (hb : d.busy = false) (ha : d.address.toNat = k) :
    ConfigWrites (Function.update payload (Fin.ofNat 16 k) d.data) (ds ++ [d]) (k + 1) := by
  have hcmd : configCommands d = true := by simp [configCommands, hw]
  have hsnoc : (ds ++ [d]).filter configCommands = ds.filter configCommands ++ [d] := by
    rw [List.filter_append, List.filter_cons_of_pos hcmd, List.filter_nil]
  rw [ConfigWrites, hsnoc]
  refine ⟨by rw [List.length_append, h.1]; rfl, fun i d' hi => ?_⟩
  by_cases hlt : i < k
  · rw [List.getElem?_append_left (by rw [h.1]; exact hlt)] at hi
    obtain ⟨h1, h2, h3, h4, h5, h6⟩ := h.2 i d' hi
    have hne : Fin.ofNat 16 i ≠ Fin.ofNat 16 k := by
      intro heq
      have := congrArg Fin.val heq
      simp only [Fin.val_ofNat] at this
      omega
    exact ⟨h1, h2, h3, h4, h5, by rw [Function.update_of_ne hne, h6]⟩
  · rw [List.getElem?_append_right (by rw [h.1]; omega), h.1] at hi
    obtain ⟨hz, -⟩ := List.getElem?_eq_some_iff.mp hi
    obtain rfl : i = k := by
      simp at hz
      omega
    rw [Nat.sub_self, List.getElem?_cons_zero, Option.some_inj] at hi
    subst hi
    exact ⟨hc, hw, hm, hb, ha, by rw [Function.update_self]⟩

/-- How a configuration installer that had faulted got out of the fault. -/
structure ConfigHistory (s : ConfigInstaller) (ds : List ConfigInput) : Prop where
  ok : s.installed = true → s.loading = false
  loading : s.fault = false → s.loading = true → s.nextIndex.toNat ≤ 16 ∧ ∃ before clear writes,
    ds = before ++ clear :: writes ∧
    (clear.clear = true ∧ clear.write = false ∧ clear.commit = false ∧ clear.busy = false) ∧
    ConfigWrites s.payload writes s.nextIndex.toNat
  installed : s.fault = false → s.installed = true → ConfigInstalls s.payload ds

theorem ConfigHistory.step {s : ConfigInstaller} (h : ConfigHistory s ds) (d : ConfigInput) :
    ConfigHistory (s.step d) (ds ++ [d]) := by
  have hs : ConfigStep s d (s.step d) := configStep s d
  have hroom : d.clear = false → d.write = true → d.commit = false → (s.step d).fault = false →
      s.nextIndex.toNat < 16 := by
    intro hc hw hm hf
    simp only [ConfigInstaller.step, ConfigInput.collides, hc, hw, hm, Bool.false_and, Bool.and_false,
      Bool.or_false, Bool.false_eq_true, if_false, if_true] at hf
    split at hf
    · cases hf
    · next hno =>
      simp only [Bool.or_eq_true, not_or, decide_eq_true_eq, bne_iff_ne, ne_eq, not_not] at hno
      rw [← hno.1.2]
      exact lt_of_not_ge hno.1.1.2
  generalize s.step d = t at hs hroom
  cases hs with
  | idle hc hw hm =>
    have hd : configCommands d = false := by simp [configCommands, hc, hw, hm]
    refine ⟨h.ok, fun hf hl => ?_, fun hf hi => ?_⟩
    · obtain ⟨hle, before, clear, writes, rfl, h1, h2⟩ := h.loading hf hl
      exact ⟨hle, before, clear, writes ++ [d], by simp, h1, h2.idle hd⟩
    · obtain ⟨before, clear, writes, commit, after, rfl, h1, h2, h3, h4, h5⟩ := h.installed hf hi
      refine ⟨before, clear, writes, commit, after ++ [d], by simp, h1, h2, h3, h4, fun x hx => ?_⟩
      rcases List.mem_append.mp hx with hx | hx
      · exact h5 x hx
      · rw [List.mem_singleton.mp hx]
        exact hd
  | clear hc hw hm hb =>
    refine ⟨fun hi => (by cases hi), fun _ _ => ?_, fun _ hi => (by cases hi)⟩
    refine ⟨Nat.zero_le 16, ds, d, [], rfl, ⟨hc, hw, hm, hb⟩, rfl, fun i io hio => ?_⟩
    simp at hio
  | write hc hw hm hb hl hf ha =>
    obtain ⟨hle, before, clear, writes, rfl, h1, h2⟩ := h.loading hf hl
    have hlt := hroom hc hw hm hf
    refine ⟨h.ok, fun _ _ => ?_, fun _ hi => ?_⟩
    · have haddress : (d.address.extractLsb 3 0).toNat = s.nextIndex.toNat := by
        rw [BitVec.extractLsb_toNat, ha]
        exact Nat.mod_eq_of_lt hlt
      have hcount : (s.nextIndex + 1).toNat = s.nextIndex.toNat + 1 := by
        rw [BitVec.toNat_add]
        exact Nat.mod_eq_of_lt (show s.nextIndex.toNat + 1 < 32 by omega)
      dsimp only
      rw [haddress, hcount]
      exact ⟨by omega, before, clear, writes ++ [d], by simp, h1, h2.write hlt hc hw hm hb (by rw [ha])⟩
    · rw [h.ok hi] at hl
      cases hl
  | commit hc hw hm hb hl hf hn hv =>
    obtain ⟨-, before, clear, writes, rfl, h1, h2⟩ := h.loading hf hl
    rw [hn] at h2
    refine ⟨fun _ => rfl, fun _ hl' => (by cases hl'), fun _ _ => ?_⟩
    refine ⟨before, clear, writes, d, [], by simp, h1, h2, ⟨hc, hw, hm, hb⟩, ?_, fun x hx => by cases hx⟩
    simpa only [ConfigInstaller.validPayload, Bool.or_eq_true] using hv
  | fault => exact ⟨h.ok, fun hf => (by cases hf), fun hf => (by cases hf)⟩

theorem ConfigHistory.run {s : ConfigInstaller} (h : ConfigHistory s []) (ds : List ConfigInput) :
    ConfigHistory (runConfig s ds) ds := by
  induction ds using List.reverseRecOn with
  | nil => exact h
  | append_singleton ds d ih =>
    rw [runConfig_append]
    exact ih.step d

theorem configHistory_fault {s : ConfigInstaller} (h : ConfigOk s) (hf : s.fault = true) :
    ConfigHistory s [] := by
  refine ⟨h.loading, fun hno => ?_, fun hno => ?_⟩
  · rw [hf] at hno
    cases hno
  · rw [hf] at hno
    cases hno

end History

end Config

end Raveil.Device
