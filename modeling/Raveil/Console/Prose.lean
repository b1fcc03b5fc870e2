import Raveil.Authority.Capability
import Raveil.Lib.Matcher

/-! `SYS_PUTC`: what user tasks may write to the console, and the prefix kept from them. -/
namespace Raveil.Console
open Raveil.Lib Raveil.Authority

def SYS_OK : ℕ := 0
def SYS_DENIED : ℕ := 2 ^ 64 - 1

def SONATINE_DEMO_FRAME_PREFIX : List UInt8 :=
  "RAVEIL-SONATINE-DEMO-V1 ".toList.map fun c => UInt8.ofNat c.toNat

/-- The array `protected_prefix`, with its terminator. -/
def protectedPrefix : List UInt8 := SONATINE_DEMO_FRAME_PREFIX ++ [0]

/-- `user_prose_byte_allowed`: the static `matched` after the call, and the answer. -/
def userProseByteAllowed (matched : ℕ) (value : UInt8) : ℕ × Bool :=
  if value = protectedPrefix.getD matched 0 then
    if protectedPrefix.getD (matched + 1) 0 = 0 then (0, false) else (matched + 1, true)
  else (if value = protectedPrefix.getD 0 0 then 1 else 0, true)

/-- One `SYS_PUTC` by the running task, under the capability table of that moment. -/
structure Putc where
  table : CapTable
  task : ℕ
  arg0 : ℕ
  arg1 : ℕ

/-- The checks before the filter. -/
def permitted (c : Putc) : Bool :=
  (capResolve c.table c.task (c.arg0 % 2 ^ 32) CAP_OBJECT_CONSOLE CAP_RIGHT_WRITE).isSome && c.arg1 ≤ 0x7f

/-- The filter state and the bytes that `SYS_PUTC` wrote. -/
structure Output where
  matched : ℕ
  emitted : List UInt8

def sysPutc (s : Output) (c : Putc) : Output × ℕ :=
  if permitted c then
    let r := userProseByteAllowed s.matched (UInt8.ofNat c.arg1)
    if r.2 then (⟨r.1, s.emitted ++ [UInt8.ofNat c.arg1]⟩, SYS_OK) else (⟨r.1, s.emitted⟩, SYS_DENIED)
  else (s, SYS_DENIED)

def putcRun (calls : List Putc) : Output := calls.foldl (fun s c => (sysPutc s c).1) ⟨0, []⟩

/-- The bytes that reach the filter. -/
def offered (calls : List Putc) : List UInt8 := (calls.filter permitted).map fun c => UInt8.ofNat c.arg1

theorem headOnce_prefix : Matcher.HeadOnce SONATINE_DEMO_FRAME_PREFIX := ⟨by decide, by decide⟩

theorem userProseByteAllowed_eq {matched : ℕ} (h : matched < SONATINE_DEMO_FRAME_PREFIX.length) (value : UInt8) :
    userProseByteAllowed matched value = Matcher.step SONATINE_DEMO_FRAME_PREFIX matched value := by
  have hget : ∀ m, m < SONATINE_DEMO_FRAME_PREFIX.length →
      protectedPrefix.getD m 0 = SONATINE_DEMO_FRAME_PREFIX.getD m default ∧
      (protectedPrefix.getD (m + 1) 0 = 0 ↔ m + 1 = SONATINE_DEMO_FRAME_PREFIX.length) := by decide
  have hzero := (hget 0 (by decide)).1
  obtain ⟨hm, hend⟩ := hget matched h
  simp only [userProseByteAllowed, Matcher.step, hm, hzero, hend]

/-- The system call runs the filter over the offered bytes. -/
theorem putcRun_eq (calls : List Putc) : (putcRun calls).matched =
    (Matcher.run SONATINE_DEMO_FRAME_PREFIX (offered calls)).1 ∧
      (putcRun calls).emitted = (Matcher.run SONATINE_DEMO_FRAME_PREFIX (offered calls)).2 := by
  induction calls using List.reverseRecOn with
  | nil => exact ⟨rfl, rfl⟩
  | append_singleton calls c ih =>
    have hlt := (Matcher.tracks_run headOnce_prefix (offered calls)).read.lt
    rw [putcRun, List.foldl_append, List.foldl_cons, List.foldl_nil]
    change (sysPutc (putcRun calls) c).1.matched = _ ∧ (sysPutc (putcRun calls) c).1.emitted = _
    cases hp : permitted c with
    | false =>
      have hoffered : offered (calls ++ [c]) = offered calls := by simp [offered, hp]
      rw [hoffered, sysPutc, hp]
      exact ih
    | true =>
      have hoffered : offered (calls ++ [c]) = offered calls ++ [UInt8.ofNat c.arg1] := by
        simp [offered, hp]
      rw [hoffered, Matcher.run, List.foldl_append, List.foldl_cons, List.foldl_nil]
      change _ = (Matcher.feed _ (Matcher.run _ (offered calls)) _).1 ∧
        _ = (Matcher.feed _ (Matcher.run _ (offered calls)) _).2
      rw [sysPutc, hp, if_pos rfl, ih.1, userProseByteAllowed_eq hlt, Matcher.feed, ih.2]
      dsimp only
      split
      · exact ⟨rfl, rfl⟩
      · exact ⟨rfl, rfl⟩

/-- The bytes written by user tasks stay free of the protected prefix exactly when the space that
ends it is never offered twice in a row. -/
theorem protected_prefix_iff (calls : List Putc) :
    ¬ SONATINE_DEMO_FRAME_PREFIX <:+: (putcRun calls).emitted ↔
      ¬ SONATINE_DEMO_FRAME_PREFIX ++ [UInt8.ofNat ' '.toNat] <:+: offered calls := by
  rw [(putcRun_eq calls).2, Matcher.infix_run_iff headOnce_prefix]
  rfl

/-- A task with a console capability offers the prefix and one more space. -/
def spaceTwice : List Putc :=
  let created := capCreate (capInit default) 1 CAP_OBJECT_CONSOLE 1 CAP_RIGHT_WRITE
  (SONATINE_DEMO_FRAME_PREFIX ++ [UInt8.ofNat ' '.toNat]).map fun byte => ⟨created.1, 1, created.2, byte.toNat⟩

theorem protected_prefix_emitted : (∀ c ∈ spaceTwice, permitted c = true) ∧
    SONATINE_DEMO_FRAME_PREFIX <:+: (putcRun spaceTwice).emitted := by
  have hemitted : (putcRun spaceTwice).emitted = SONATINE_DEMO_FRAME_PREFIX := by decide +kernel
  rw [hemitted]
  exact ⟨by decide +kernel, List.infix_refl _⟩

end Raveil.Console
