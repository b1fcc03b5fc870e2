import Mathlib.Data.BitVec
import Mathlib.Data.List.Basic
import Mathlib.Logic.Function.Basic

/-! The affine configuration installer of the device. -/
namespace Raveil.Device

/-- The registers of `GraphDeviceAffineConfigInstaller`. -/
structure ConfigInstaller where
  payload : Fin 16 → BitVec 32
  seen : BitVec 16
  nextIndex : BitVec 5
  loading : Bool
  installed : Bool
  fault : Bool
  rows : BitVec 5
  columns : BitVec 5
  inputStride : BitVec 9
  outputStride : BitVec 9
  activeOutputs : BitVec 9
  digest : Fin 8 → BitVec 32

structure ConfigInput where
  clear : Bool
  write : Bool
  commit : Bool
  address : BitVec 5
  data : BitVec 32
  busy : Bool

def baselineShape : List (BitVec 32) := [16, 16, 18, 16, 256, 6]
def compactShape : List (BitVec 32) := [8, 8, 10, 8, 64, 6]

def baselineDigestWords : List (BitVec 32) :=
  [2251327940, 4185756549, 4023038733, 100796969, 1276851761, 1857035043, 1205398712, 262225231]

def compactDigestWords : List (BitVec 32) :=
  [1417482093, 2721426421, 408689994, 2452827674, 3784938229, 2858933455, 600553447, 266570466]

def matchesPayload (payload : Fin 16 → BitVec 32) (shape digest : List (BitVec 32)) : Bool :=
  payload 0 == 0x52414631 && payload 1 == 1 && payload 2 == shape.getD 0 0 && payload 3 == shape.getD 1 0 &&
    payload 4 == shape.getD 2 0 && payload 5 == shape.getD 3 0 && payload 6 == shape.getD 4 0 &&
    payload 7 == shape.getD 5 0 &&
    (List.range 8).all fun index => payload (Fin.ofNat 16 (8 + index)) == digest.getD index 0

def ConfigInstaller.validPayload (s : ConfigInstaller) : Bool :=
  matchesPayload s.payload baselineShape baselineDigestWords ||
    matchesPayload s.payload compactShape compactDigestWords

/-- More than one command in a cycle. -/
def ConfigInput.collides (io : ConfigInput) : Bool :=
  (io.clear && io.write) || (io.clear && io.commit) || (io.write && io.commit)

/-- One clock cycle. -/
def ConfigInstaller.step (s : ConfigInstaller) (io : ConfigInput) : ConfigInstaller :=
  if io.collides then { s with fault := true }
  else if io.clear then
    if io.busy then { s with fault := true }
    else { s with loading := true, installed := false, fault := false, seen := 0, nextIndex := 0 }
  else if io.write then
    if io.busy || !s.loading || s.fault || io.address ≥ 16 || io.address != s.nextIndex ||
        s.seen.getLsbD (io.address.extractLsb 3 0).toNat then { s with fault := true }
    else
      { s with
        payload := Function.update s.payload (Fin.ofNat 16 (io.address.extractLsb 3 0).toNat) io.data
        seen := s.seen ||| 1#16 <<< (io.address.extractLsb 3 0).toNat
        nextIndex := s.nextIndex + 1 }
  else if io.commit then
    if io.busy || !s.loading || s.fault || s.nextIndex != 16 || s.seen != 0xffff || !s.validPayload then
      { s with fault := true }
    else
      { s with
        installed := true
        loading := false
        rows := (s.payload 2).extractLsb 4 0
        columns := (s.payload 3).extractLsb 4 0
        inputStride := (s.payload 4).extractLsb 8 0
        outputStride := (s.payload 5).extractLsb 8 0
        activeOutputs := (s.payload 6).extractLsb 8 0
        digest := fun index => s.payload (Fin.ofNat 16 (8 + index)) }
  else s

/-- The registers after reset. -/
def ConfigInstaller.reset : ConfigInstaller where
  payload := fun _ => 0
  seen := 0xffff
  nextIndex := 16
  loading := false
  installed := true
  fault := false
  rows := 16
  columns := 16
  inputStride := 18
  outputStride := 16
  activeOutputs := 256
  digest := fun index => baselineDigestWords.getD index 0

/-- The shape that the executor sees. -/
structure Shape where
  rows : BitVec 5
  columns : BitVec 5
  inputStride : BitVec 9
  outputStride : BitVec 9
  activeOutputs : BitVec 9
  deriving DecidableEq

def ConfigInstaller.shape (s : ConfigInstaller) : Shape :=
  ⟨s.rows, s.columns, s.inputStride, s.outputStride, s.activeOutputs⟩

def baseline : Shape := ⟨16, 16, 18, 16, 256⟩
def compact : Shape := ⟨8, 8, 10, 8, 64⟩

/-- A commit that goes through installs one of the two shapes. -/
theorem shape_of_valid {s : ConfigInstaller} (h : s.validPayload = true) :
    (⟨(s.payload 2).extractLsb 4 0, (s.payload 3).extractLsb 4 0, (s.payload 4).extractLsb 8 0,
      (s.payload 5).extractLsb 8 0, (s.payload 6).extractLsb 8 0⟩ : Shape) = baseline ∨
    (⟨(s.payload 2).extractLsb 4 0, (s.payload 3).extractLsb 4 0, (s.payload 4).extractLsb 8 0,
      (s.payload 5).extractLsb 8 0, (s.payload 6).extractLsb 8 0⟩ : Shape) = compact := by
  simp only [ConfigInstaller.validPayload, matchesPayload, Bool.or_eq_true, Bool.and_eq_true, beq_iff_eq] at h
  rcases h with ⟨⟨⟨⟨⟨⟨⟨⟨-, -⟩, h2⟩, h3⟩, h4⟩, h5⟩, h6⟩, -⟩, -⟩ | ⟨⟨⟨⟨⟨⟨⟨⟨-, -⟩, h2⟩, h3⟩, h4⟩, h5⟩, h6⟩, -⟩, -⟩
  · left
    rw [h2, h3, h4, h5, h6]
    rfl
  · right
    rw [h2, h3, h4, h5, h6]
    rfl

/-- What one cycle does to the configuration installer. -/
inductive ConfigStep (s : ConfigInstaller) (io : ConfigInput) : ConfigInstaller → Prop
  | idle (hc : io.clear = false) (hw : io.write = false) (hm : io.commit = false) : ConfigStep s io s
  | clear (hc : io.clear = true) (hw : io.write = false) (hm : io.commit = false) (hb : io.busy = false) :
      ConfigStep s io { s with loading := true, installed := false, fault := false, seen := 0, nextIndex := 0 }
  | write (hc : io.clear = false) (hw : io.write = true) (hm : io.commit = false) (hb : io.busy = false)
      (hl : s.loading = true) (hf : s.fault = false) (ha : io.address = s.nextIndex) :
      ConfigStep s io
        { s with
          payload := Function.update s.payload (Fin.ofNat 16 (io.address.extractLsb 3 0).toNat) io.data
          seen := s.seen ||| 1#16 <<< (io.address.extractLsb 3 0).toNat
          nextIndex := s.nextIndex + 1 }
  | commit (hc : io.clear = false) (hw : io.write = false) (hm : io.commit = true) (hb : io.busy = false)
      (hl : s.loading = true) (hf : s.fault = false) (hn : s.nextIndex = 16) (hv : s.validPayload = true) :
      ConfigStep s io
        { s with
          installed := true
          loading := false
          rows := (s.payload 2).extractLsb 4 0
          columns := (s.payload 3).extractLsb 4 0
          inputStride := (s.payload 4).extractLsb 8 0
          outputStride := (s.payload 5).extractLsb 8 0
          activeOutputs := (s.payload 6).extractLsb 8 0
          digest := fun index => s.payload (Fin.ofNat 16 (8 + index)) }
  | fault (hcmd : (io.clear || io.write || io.commit) = true)
      (hlone : ¬ (io.clear = true ∧ io.write = false ∧ io.commit = false ∧ io.busy = false)) :
      ConfigStep s io { s with fault := true }

theorem configStep (s : ConfigInstaller) (io : ConfigInput) : ConfigStep s io (s.step io) := by
  obtain ⟨clear, write, commit, address, data, busy⟩ := io
  unfold ConfigInstaller.step ConfigInput.collides
  cases clear with
  | true =>
    cases write with
    | true => exact .fault rfl (by simp)
    | false =>
      cases commit with
      | true => exact .fault rfl (by simp)
      | false =>
        cases busy with
        | true => exact .fault rfl (by simp)
        | false => exact .clear rfl rfl rfl rfl
  | false =>
    cases write with
    | true =>
      cases commit with
      | true => exact .fault rfl (by simp)
      | false =>
        dsimp only
        rw [if_neg (by simp), if_neg (by simp), if_pos rfl]
        split
        · exact .fault rfl (by simp)
        · next h =>
          simp only [Bool.or_eq_true, not_or, Bool.not_eq_true', Bool.not_eq_false, Bool.not_eq_true, bne_iff_ne,
            ne_eq, not_not] at h
          obtain ⟨⟨⟨⟨⟨hb, hl⟩, hf⟩, -⟩, ha⟩, -⟩ := h
          exact .write rfl rfl rfl hb hl hf ha
    | false =>
      cases commit with
      | false => exact .idle rfl rfl rfl
      | true =>
        dsimp only
        rw [if_neg (by simp), if_neg (by simp), if_neg (by simp), if_pos rfl]
        split
        · exact .fault rfl (by simp)
        · next h =>
          simp only [Bool.or_eq_true, not_or, Bool.not_eq_true', Bool.not_eq_false, Bool.not_eq_true, bne_iff_ne,
            ne_eq, not_not] at h
          obtain ⟨⟨⟨⟨⟨hb, hl⟩, hf⟩, hn⟩, -⟩, hv⟩ := h
          exact .commit rfl rfl rfl hb hl hf hn hv

end Raveil.Device
