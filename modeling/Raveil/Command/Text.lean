import Raveil.Command.Json

/-! Python's text functions, as far as captured output goes through them. -/
namespace Raveil.Command

/-- The Unicode digit tables: `str.isdigit`, and the digits `int` reads. -/
structure Digits where
  isdigit : Char → Bool
  decimal : Char → Option ℕ

/-- A UTF-8 sequence that has begun: what the next byte may be and how many are missing. -/
structure Partial where
  code : ℕ
  missing : ℕ
  low : ℕ
  high : ℕ

/-- The first byte of a sequence; an error yields `none` in the place of a character. -/
def startSequence (b : ℕ) : List (Option Char) × Option Partial :=
  if b < 0x80 then ([some (Char.ofNat b)], none)
  else if 0xC2 ≤ b ∧ b ≤ 0xDF then ([], some ⟨b - 0xC0, 1, 0x80, 0xBF⟩)
  else if 0xE0 ≤ b ∧ b ≤ 0xEF then
    ([], some ⟨b - 0xE0, 2, if b = 0xE0 then 0xA0 else 0x80, if b = 0xED then 0x9F else 0xBF⟩)
  else if 0xF0 ≤ b ∧ b ≤ 0xF4 then
    ([], some ⟨b - 0xF0, 3, if b = 0xF0 then 0x90 else 0x80, if b = 0xF4 then 0x8F else 0xBF⟩)
  else ([none], none)

def feed (sequence : Option Partial) (b : ℕ) : List (Option Char) × Option Partial :=
  match sequence with
  | none => startSequence b
  | some p =>
    if p.low ≤ b ∧ b ≤ p.high then
      let code := p.code * 64 + (b - 0x80)
      if p.missing = 1 then ([some (Char.ofNat code)], none)
      else ([], some ⟨code, p.missing - 1, 0x80, 0xBF⟩)
    else (none :: (startSequence b).1, (startSequence b).2)

def decodeUnits : Option Partial → List UInt8 → List (Option Char)
  | none, [] => []
  | some _, [] => [none]
  | sequence, b :: rest => (feed sequence b.toNat).1 ++ decodeUnits (feed sequence b.toNat).2 rest

/-- `data.decode("utf-8", "replace")`. -/
def decodeReplace (data : List UInt8) : List Char := (decodeUnits none data).map (·.getD '\uFFFD')

/-- `data.decode("utf-8", "strict")`. -/
def decodeStrict (data : List UInt8) : Option (List Char) := (decodeUnits none data).mapM id

/-- `str.isspace`. -/
def isSpace (c : Char) : Bool :=
  let n := c.toNat
  (9 ≤ n && n ≤ 13) || (28 ≤ n && n ≤ 32) || n = 0x85 || n = 0xA0 || n = 0x1680 ||
    (0x2000 ≤ n && n ≤ 0x200A) || n = 0x2028 || n = 0x2029 || n = 0x202F || n = 0x205F || n = 0x3000

/-- `bytes.isspace`. -/
def isSpaceByte (b : UInt8) : Bool := (9 ≤ b && b ≤ 13) || b = 32

/-- Where `str.splitlines` ends a line. -/
def isLineEnd (c : Char) : Bool :=
  let n := c.toNat
  (10 ≤ n && n ≤ 13) || (28 ≤ n && n ≤ 30) || n = 0x85 || n = 0x2028 || n = 0x2029

/-- `str.splitlines`, after the part of a line already read. -/
def splitlines : List Char → List Char → List (List Char)
  | line, [] => if line = [] then [] else [line]
  | line, '\r' :: '\n' :: rest => line :: splitlines [] rest
  | line, c :: rest => if isLineEnd c then line :: splitlines [] rest else splitlines (line ++ [c]) rest

/-- `split()`. -/
def splitWords {α : Type} (space : α → Bool) (xs : List α) : List (List α) :=
  (xs.splitOnP space).filter fun word => !word.isEmpty

/-- `str.strip()`. -/
def strip (line : List Char) : List Char :=
  ((line.dropWhile isSpace).reverse.dropWhile isSpace).reverse

/-- The digits of an integer literal; underscores may stand between two digits. -/
def readDigits (decimal : Char → Option ℕ) : ℕ → List Char → Option ℕ
  | value, [] => some value
  | value, '_' :: c :: rest => (decimal c).bind fun d => readDigits decimal (10 * value + d) rest
  | value, c :: rest => (decimal c).bind fun d => readDigits decimal (10 * value + d) rest

/-- `int(text)` of a text without blanks. -/
def readInt (decimal : Char → Option ℕ) (chars : List Char) : Option ℤ :=
  let unsigned (chars : List Char) : Option ℕ :=
    match chars with
    | [] => none
    | c :: rest => (decimal c).bind fun d => readDigits decimal d rest
  match chars with
  | '-' :: rest => (unsigned rest).map fun n => -(n : ℤ)
  | '+' :: rest => (unsigned rest).map fun n => (n : ℤ)
  | _ => (unsigned chars).map fun n => (n : ℤ)

/-- `text.encode()`. -/
def encode (chars : List Char) : List UInt8 := (String.ofList chars).toUTF8.toList

end Raveil.Command
