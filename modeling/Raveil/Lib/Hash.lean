import Mathlib.Data.BitVec
import Mathlib.Data.Nat.Notation
import Mathlib.Data.UInt
import Mathlib.Logic.Function.Iterate

/-! Checksums and hashes of bytes and words: CRC-32 by its table and bit by bit, FNV, and SHA-256. -/
namespace Raveil.Lib

def crcPolynomial : BitVec 32 := 0xedb88320

/-- One bit of the division. -/
def crcBit (c : BitVec 32) : BitVec 32 :=
  if c.getLsbD 0 then (c >>> 1) ^^^ crcPolynomial else c >>> 1

def crcTable (n : BitVec 32) : BitVec 32 := crcBit^[8] n

/-- One byte through the table. -/
def crcByte (c : BitVec 32) (byte : UInt8) : BitVec 32 :=
  crcTable ((c ^^^ byte.toBitVec.setWidth 32) &&& 0xff) ^^^ (c >>> 8)

/-- `zlib.crc32`. -/
def crc32 (bytes : List UInt8) : ℕ := (~~~(bytes.foldl crcByte 0xffffffff)).toNat

theorem crcBit_xor (x y : BitVec 32) : crcBit (x ^^^ y) = crcBit x ^^^ crcBit y := by
  unfold crcBit
  rw [BitVec.getLsbD_xor, BitVec.ushiftRight_xor_distrib]
  cases x.getLsbD 0 <;> cases y.getLsbD 0
  · rfl
  · exact BitVec.xor_assoc _ _ _
  · simp only [Bool.true_xor, Bool.not_false, if_true, Bool.false_eq_true, if_false]
    rw [BitVec.xor_assoc, BitVec.xor_comm (y >>> 1), ← BitVec.xor_assoc]
  · simp only [Bool.true_xor, Bool.not_true, if_true, Bool.false_eq_true, if_false]
    rw [BitVec.xor_assoc, ← BitVec.xor_assoc crcPolynomial, BitVec.xor_comm crcPolynomial,
      BitVec.xor_assoc, BitVec.xor_self, BitVec.xor_zero]

theorem iterate_crcBit_xor (n : ℕ) (x y : BitVec 32) :
    crcBit^[n] (x ^^^ y) = crcBit^[n] x ^^^ crcBit^[n] y := by
  induction n generalizing x y with
  | zero => rfl
  | succ n ih => rw [Function.iterate_succ_apply, crcBit_xor, ih]; rfl

/-- Low zero bits are shifted out. -/
theorem iterate_crcBit_of_low {x : BitVec 32} {n : ℕ} (h : ∀ i, i < n → x.getLsbD i = false) :
    crcBit^[n] x = x >>> n := by
  induction n with
  | zero => simp
  | succ n ih =>
    have hbit : (x >>> n).getLsbD 0 = false := by
      rw [BitVec.getLsbD_ushiftRight]
      exact h n (by omega)
    rw [Function.iterate_succ_apply', ih fun i hi => h i (by omega), crcBit, hbit, BitVec.shiftRight_add]
    rfl

theorem getLsbD_low_mask (i : ℕ) : (0xff : BitVec 32).getLsbD i = decide (i < 8) := by
  have hmask : (0xff : BitVec 32) = BitVec.ofNat 32 (2 ^ 8 - 1) := rfl
  rw [hmask, BitVec.getLsbD_ofNat, Nat.testBit_two_pow_sub_one]
  by_cases hi : i < 8
  · simp [hi, show i < 32 by omega]
  · simp [hi]

/-- Eight bitwise steps are one step through the table. -/
theorem crcByte_eq (c : BitVec 32) (byte : UInt8) :
    crcByte c byte = crcBit^[8] (c ^^^ byte.toBitVec.setWidth 32) := by
  have hbyte : ∀ i, 8 ≤ i → (byte.toBitVec.setWidth 32).getLsbD i = false := by
    intro i hi
    rw [BitVec.getLsbD_setWidth, BitVec.getLsbD_of_ge _ _ hi, Bool.and_false]
  have hsplit : c ^^^ byte.toBitVec.setWidth 32 =
      ((c ^^^ byte.toBitVec.setWidth 32) &&& 0xff) ^^^ (c &&& ~~~0xff) := by
    apply BitVec.eq_of_getLsbD_eq
    intro i hi
    simp only [BitVec.getLsbD_xor, BitVec.getLsbD_and, BitVec.getLsbD_not, getLsbD_low_mask, hi,
      decide_true, Bool.true_and]
    by_cases h8 : i < 8
    · simp [h8]
    · simp [h8, hbyte i (by omega)]
  have hhigh : crcBit^[8] (c &&& ~~~0xff) = c >>> 8 := by
    rw [iterate_crcBit_of_low]
    · apply BitVec.eq_of_getLsbD_eq
      intro i hi
      simp only [BitVec.getLsbD_ushiftRight, BitVec.getLsbD_and, BitVec.getLsbD_not, getLsbD_low_mask]
      by_cases h32 : 8 + i < 32
      · simp [h32]
      · simp [h32, BitVec.getLsbD_of_ge c (8 + i) (by omega)]
    · intro i hi
      simp only [BitVec.getLsbD_and, BitVec.getLsbD_not, getLsbD_low_mask, hi, decide_true, Bool.not_true,
        Bool.and_false]
  rw [crcByte, hsplit, iterate_crcBit_xor, hhigh, crcTable, ← hsplit]

theorem crc32_lt (bytes : List UInt8) : crc32 bytes < 2 ^ 32 := BitVec.isLt _

/-- The positions of the bytes of a word. -/
def shifts : List ℕ := [0, 8, 16, 24, 32, 40, 48, 56]

def hashWord (hash : UInt64) (value : ℤ) : UInt64 :=
  let word := UInt64.ofInt value
  shifts.foldl (fun hash shift => (hash ^^^ ((word >>> UInt64.ofNat shift) &&& 0xff)) * 1099511628211) hash

end Raveil.Lib

namespace Raveil.Lib.Sha256

def roundConstants : List UInt32 :=
  [0x428a2f98, 0x71374491, 0xb5c0fbcf, 0xe9b5dba5, 0x3956c25b, 0x59f111f1, 0x923f82a4, 0xab1c5ed5,
    0xd807aa98, 0x12835b01, 0x243185be, 0x550c7dc3, 0x72be5d74, 0x80deb1fe, 0x9bdc06a7, 0xc19bf174,
    0xe49b69c1, 0xefbe4786, 0x0fc19dc6, 0x240ca1cc, 0x2de92c6f, 0x4a7484aa, 0x5cb0a9dc, 0x76f988da,
    0x983e5152, 0xa831c66d, 0xb00327c8, 0xbf597fc7, 0xc6e00bf3, 0xd5a79147, 0x06ca6351, 0x14292967,
    0x27b70a85, 0x2e1b2138, 0x4d2c6dfc, 0x53380d13, 0x650a7354, 0x766a0abb, 0x81c2c92e, 0x92722c85,
    0xa2bfe8a1, 0xa81a664b, 0xc24b8b70, 0xc76c51a3, 0xd192e819, 0xd6990624, 0xf40e3585, 0x106aa070,
    0x19a4c116, 0x1e376c08, 0x2748774c, 0x34b0bcb5, 0x391c0cb3, 0x4ed8aa4a, 0x5b9cca4f, 0x682e6ff3,
    0x748f82ee, 0x78a5636f, 0x84c87814, 0x8cc70208, 0x90befffa, 0xa4506ceb, 0xbef9a3f7, 0xc67178f2]

def initial : List UInt32 :=
  [0x6a09e667, 0xbb67ae85, 0x3c6ef372, 0xa54ff53a, 0x510e527f, 0x9b05688c, 0x1f83d9ab, 0x5be0cd19]

def rotr (x : UInt32) (n : UInt32) : UInt32 := x >>> n ||| x <<< (32 - n)

/-- The message with its one bit, zeros and length in bits. -/
def pad (bytes : List UInt8) : List UInt8 :=
  let zeros : List UInt8 := List.replicate ((55 + 64 - bytes.length % 64) % 64) 0
  let length : List UInt8 := List.ofFn fun i : Fin 8 => UInt8.ofNat ((8 * bytes.length) >>> (8 * (7 - i.val)))
  bytes ++ [0x80] ++ zeros ++ length

/-- The big-endian word at `i`. -/
def wordAt (bytes : List UInt8) (i : ℕ) : UInt32 :=
  (bytes.getD i 0).toUInt32 <<< 24 ||| (bytes.getD (i + 1) 0).toUInt32 <<< 16 |||
    (bytes.getD (i + 2) 0).toUInt32 <<< 8 ||| (bytes.getD (i + 3) 0).toUInt32

/-- One more word of the message schedule, newest first. -/
def extend (w : List UInt32) : List UInt32 :=
  let x := w.getD 14 0
  let y := w.getD 1 0
  let s0 := rotr x 7 ^^^ rotr x 18 ^^^ x >>> 3
  let s1 := rotr y 17 ^^^ rotr y 19 ^^^ y >>> 10
  (w.getD 15 0 + s0 + w.getD 6 0 + s1) :: w

def messageSchedule (block : List UInt8) : List UInt32 :=
  (extend^[48] (((List.range 16).map fun i => wordAt block (4 * i)).reverse)).reverse

/-- One round; the state is `a` to `h`. -/
def round (s : List UInt32) (kw : UInt32 × UInt32) : List UInt32 :=
  match s with
  | [a, b, c, d, e, f, g, h] =>
    let s1 := rotr e 6 ^^^ rotr e 11 ^^^ rotr e 25
    let t1 := h + s1 + ((e &&& f) ^^^ (~~~e &&& g)) + kw.1 + kw.2
    let s0 := rotr a 2 ^^^ rotr a 13 ^^^ rotr a 22
    let t2 := s0 + ((a &&& b) ^^^ (a &&& c) ^^^ (b &&& c))
    [t1 + t2, a, b, c, d + t1, e, f, g]
  | _ => s

def compress (s : List UInt32) (block : List UInt8) : List UInt32 :=
  List.zipWith (· + ·) s ((roundConstants.zip (messageSchedule block)).foldl round s)

/-- `hashlib.sha256(bytes).digest()`. -/
def digest (bytes : List UInt8) : Fin 32 → UInt8 :=
  let padded := pad bytes
  let words := (List.range (padded.length / 64)).foldl
    (fun s i => compress s ((padded.drop (64 * i)).take 64)) initial
  fun i => (words.getD (i.val / 4) 0 >>> UInt32.ofNat (8 * (3 - i.val % 4))).toUInt8

/-- The digest of `abc` in the standard. -/
example : List.ofFn (digest [97, 98, 99]) =
    [0xba, 0x78, 0x16, 0xbf, 0x8f, 0x01, 0xcf, 0xea, 0x41, 0x41, 0x40, 0xde, 0x5d, 0xae, 0x22, 0x23,
      0xb0, 0x03, 0x61, 0xa3, 0x96, 0x17, 0x7a, 0x9c, 0xb4, 0x10, 0xff, 0x61, 0xf2, 0x00, 0x15, 0xad] := by
  decide +kernel

end Raveil.Lib.Sha256
