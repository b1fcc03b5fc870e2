import Raveil.Lib.Loops
import Raveil.Lib.Hash
import Mathlib.Algebra.BigOperators.Group.List.Basic
import Mathlib.Data.List.Sort
import Mathlib.Data.String.Basic

/-! JSON values, their canonical text and the checks that read them back. -/
namespace Raveil.Command

open Lib

inductive Json where
  | null
  | bool (b : Bool)
  | int (n : ℤ)
  | str (s : String)
  | list (items : List Json)
  | dict (fields : List (String × Json))

/-- `len(text.encode("utf-8"))`. -/
def encodedLength (text : String) : ℕ := text.utf8ByteSize

/-- `text[:n]`. -/
def firstChars (n : ℕ) (text : String) : String := String.ofList (text.toList.take n)

def hexDigit (n : ℕ) : Char := "0123456789abcdef".toList.getD n '0'

/-- Four hex digits of a UTF-16 unit. -/
def unicodeEscape (unit : ℕ) : List Char :=
  ['\\', 'u', hexDigit (unit / 4096 % 16), hexDigit (unit / 256 % 16), hexDigit (unit / 16 % 16),
    hexDigit (unit % 16)]

/-- One character as `ensure_ascii` writes it. -/
def escapeChar (c : Char) : List Char :=
  if c = '"' then ['\\', '"']
  else if c = '\\' then ['\\', '\\']
  else if c = '\n' then ['\\', 'n']
  else if c = '\r' then ['\\', 'r']
  else if c = '\t' then ['\\', 't']
  else if c.toNat = 12 then ['\\', 'f']
  else if c.toNat = 8 then ['\\', 'b']
  else if 32 ≤ c.toNat ∧ c.toNat ≤ 126 then [c]
  else if c.toNat < 65536 then unicodeEscape c.toNat
  else unicodeEscape (0xD800 + (c.toNat - 65536) / 1024) ++ unicodeEscape (0xDC00 + (c.toNat - 65536) % 1024)

def quoteText (s : String) : String := "\"" ++ String.ofList (s.toList.flatMap escapeChar) ++ "\""

/-- `json.dumps` with sorted keys and no blanks. -/
def Json.dumps : Json → String
  | null => "null"
  | bool b => if b then "true" else "false"
  | int n => toString n
  | str s => quoteText s
  | list items => "[" ++ ",".intercalate (items.map fun item => item.dumps) ++ "]"
  | dict fields =>
    let texts := fields.map fun field => (field.1, field.2.dumps)
    let sorted := texts.insertionSort fun a b => a.1 ≤ b.1
    "\x7b" ++ ",".intercalate (sorted.map fun field => quoteText field.1 ++ ":" ++ field.2) ++ "\x7d"
termination_by j => sizeOf j
decreasing_by
  · have := List.sizeOf_lt_of_mem ‹_›
    simp only [Json.list.sizeOf_spec]
    omega
  · have h := List.sizeOf_lt_of_mem ‹_›
    have hsize : sizeOf field = 1 + sizeOf field.1 + sizeOf field.2 := by cases field; rfl
    simp only [Json.dict.sizeOf_spec]
    omega

/-- The text is ASCII, so a byte a character. -/
def canonical (data : Json) : List UInt8 := data.dumps.toList.map fun c => UInt8.ofNat c.toNat

/-- `hashlib.sha256(data).hexdigest()`. -/
def hexdigest (data : List UInt8) : String :=
  String.ofList <| (List.ofFn (Sha256.digest data)).flatMap fun b =>
    [hexDigit (b.toNat / 16), hexDigit (b.toNat % 16)]

/-- The fields of a dictionary whose keys are the expected ones. -/
def exact (data : Json) (expected : List String) (name : String) : Except String (List (String × Json)) :=
  match data with
  | .dict fields =>
    if (fields.map Prod.fst).all (expected.contains ·) && expected.all ((fields.map Prod.fst).contains ·) then
      .ok fields
    else .error (name ++ " fields do not match schema")
  | _ => .error (name ++ " fields do not match schema")

/-- `data[key]`, for a key that is there. -/
def item (fields : List (String × Json)) (key : String) : Json :=
  ((fields.find? fun field => field.1 = key).map Prod.snd).getD .null

/-- What a text field may hold. -/
def IsText (maximum : ℕ) (s : String) : Prop :=
  s ≠ "" ∧ encodedLength s ≤ maximum ∧ '\x00' ∉ s.toList

instance (maximum : ℕ) (s : String) : Decidable (IsText maximum s) :=
  inferInstanceAs (Decidable (_ ∧ _ ∧ _))

def text (value : Json) (name : String) (maximum : ℕ) : Except String String :=
  match value with
  | .str s => if IsText maximum s then .ok s else .error ("invalid " ++ name)
  | _ => .error ("invalid " ++ name)

def integer (value : Json) (name : String) (minimum maximum : ℤ) : Except String ℤ :=
  match value with
  | .int n => if minimum ≤ n ∧ n ≤ maximum then .ok n else .error ("invalid " ++ name)
  | _ => .error ("invalid " ++ name)

/-- The items of a list. -/
def listed (value : Json) (message : String) : Except String (List Json) :=
  match value with
  | .list items => .ok items
  | _ => .error message

theorem text_str {maximum : ℕ} {name s : String} (h : IsText maximum s) :
    text (.str s) name maximum = .ok s := if_pos h

theorem text_eq_ok {maximum : ℕ} {value : Json} {name s : String} (h : text value name maximum = .ok s) :
    value = .str s ∧ IsText maximum s := by
  cases value with
  | str t =>
    simp only [text] at h
    split at h
    · cases h
      exact ⟨rfl, ‹_›⟩
    · cases h
  | _ => cases h

theorem integer_int {minimum maximum n : ℤ} {name : String} (h : minimum ≤ n ∧ n ≤ maximum) :
    integer (.int n) name minimum maximum = .ok n := if_pos h

theorem integer_eq_ok {minimum maximum n : ℤ} {value : Json} {name : String}
    (h : integer value name minimum maximum = .ok n) : value = .int n ∧ minimum ≤ n ∧ n ≤ maximum := by
  cases value with
  | int m =>
    simp only [integer] at h
    split at h
    · cases h
      exact ⟨rfl, ‹_›⟩
    · cases h
  | _ => cases h

theorem isText_of_mapM {maximum : ℕ} {items : List Json} {name : String} {texts : List String}
    (h : items.mapM (text · name maximum) = .ok texts) : ∀ s ∈ texts, IsText maximum s := by
  intro s hs
  obtain ⟨item, -, hitem⟩ := exists_of_mem_mapM h hs
  exact (text_eq_ok hitem).2

section Text

theorem mem_intercalate {a c : Char} {ls : List (List Char)} (h : c ∈ [a].intercalate ls) :
    c = a ∨ ∃ l ∈ ls, c ∈ l := by
  induction ls with
  | nil => cases h
  | cons l ls ih =>
    by_cases hls : ls = []
    · subst hls
      rw [List.intercalate_singleton] at h
      exact Or.inr ⟨l, by simp, h⟩
    · rw [List.intercalate_cons_of_ne_nil hls] at h
      rcases List.mem_append.mp h with h | h
      · rcases List.mem_append.mp h with h | h
        · exact Or.inr ⟨l, by simp, h⟩
        · exact Or.inl (List.mem_singleton.mp h)
      · rcases ih h with h | ⟨l', hl', h⟩
        · exact Or.inl h
        · exact Or.inr ⟨l', by simp [hl'], h⟩

/-- What `ensure_ascii` leaves: printable ASCII. -/
def Printable (c : Char) : Prop := 32 ≤ c.toNat ∧ c.toNat ≤ 126

instance (c : Char) : Decidable (Printable c) := inferInstanceAs (Decidable (_ ∧ _))

/-- A fixed text is checked character by character. -/
theorem printable_of_all {l : List Char} (h : l.all (fun c => decide (Printable c)) = true) : ∀ c ∈ l, Printable c :=
  fun c hc => of_decide_eq_true (List.all_eq_true.mp h c hc)

theorem printable_hexDigit (n : ℕ) : Printable (hexDigit n) := by
  have hall : ∀ n, n < 16 → Printable (hexDigit n) := by decide
  by_cases h : n < 16
  · exact hall n h
  · unfold hexDigit
    rw [List.getD_eq_getElem?_getD, List.getElem?_eq_none (by simpa using h)]
    decide

theorem printable_unicodeEscape {unit : ℕ} : ∀ c ∈ unicodeEscape unit, Printable c := by
  simp only [unicodeEscape, List.forall_mem_cons, printable_hexDigit, List.not_mem_nil, false_imp_iff,
    implies_true, and_true]
  decide

theorem printable_escapeChar {c : Char} : ∀ d ∈ escapeChar c, Printable d := by
  unfold escapeChar
  split_ifs with h1 h2 h3 h4 h5 h6 h7 h8
  iterate 7 exact printable_of_all (by decide)
  · intro d hd
    rw [List.mem_singleton.mp hd]
    exact h8
  · exact printable_unicodeEscape
  · intro d hd
    exact (List.mem_append.mp hd).elim (printable_unicodeEscape d) (printable_unicodeEscape d)

theorem printable_quoteText {s : String} : ∀ c ∈ (quoteText s).toList, Printable c := by
  intro c hc
  simp only [quoteText, String.toList_append, String.toList_ofList, List.mem_append, List.mem_flatMap] at hc
  rcases hc with (hc | ⟨d, -, hc⟩) | hc
  · exact printable_of_all (by decide) c hc
  · exact printable_escapeChar c hc
  · exact printable_of_all (by decide) c hc

theorem printable_repr {n : ℕ} : ∀ c ∈ (Nat.repr n).toList, Printable c := by
  intro c hc
  rw [Nat.toList_repr] at hc
  have hdigit := Nat.isDigit_of_mem_toDigits (by decide) (by decide) hc
  simp only [Char.isDigit, Bool.and_eq_true, decide_eq_true_eq, ge_iff_le, UInt32.le_iff_toNat_le] at hdigit
  change 48 ≤ c.toNat ∧ c.toNat ≤ 57 at hdigit
  exact ⟨by omega, by omega⟩

theorem printable_toString {n : ℤ} : ∀ c ∈ (toString n).toList, Printable c := by
  cases n with
  | ofNat n => exact printable_repr
  | negSucc n =>
    intro c hc
    change c ∈ ("-" ++ Nat.repr (n + 1)).toList at hc
    rw [String.toList_append, List.mem_append] at hc
    rcases hc with hc | hc
    · exact printable_of_all (by decide) c hc
    · exact printable_repr c hc

theorem printable_intercalate {texts : List String} (h : ∀ text ∈ texts, ∀ c ∈ text.toList, Printable c) :
    ∀ c ∈ (",".intercalate texts).toList, Printable c := by
  intro c hc
  rw [String.toList_intercalate] at hc
  rcases mem_intercalate hc with rfl | ⟨l, hl, hc⟩
  · decide
  · obtain ⟨text, htext, rfl⟩ := List.mem_map.mp hl
    exact h text htext c hc

/-- The text of a value is printable ASCII. -/
theorem printable_dumps (j : Json) : ∀ c ∈ j.dumps.toList, Printable c := by
  induction j using Json.dumps.induct with
  | case1 =>
    rw [Json.dumps]
    exact printable_of_all (by decide)
  | case2 =>
    rw [Json.dumps]
    exact printable_of_all (by decide)
  | case3 b h =>
    rw [Json.dumps, if_neg h]
    exact printable_of_all (by decide)
  | case4 n =>
    rw [Json.dumps]
    exact printable_toString
  | case5 s =>
    rw [Json.dumps]
    exact printable_quoteText
  | case6 items ih =>
    rw [Json.dumps]
    intro c hc
    simp only [String.toList_append, List.mem_append] at hc
    rcases hc with (hc | hc) | hc
    · exact printable_of_all (by decide) c hc
    · refine printable_intercalate (fun text htext => ?_) c hc
      obtain ⟨item, hitem, rfl⟩ := List.mem_map.mp htext
      exact ih item hitem
    · exact printable_of_all (by decide) c hc
  | case7 fields ih =>
    rw [Json.dumps]
    intro c hc
    simp only [String.toList_append, List.mem_append] at hc
    rcases hc with (hc | hc) | hc
    · exact printable_of_all (by decide) c hc
    · refine printable_intercalate (fun text htext => ?_) c hc
      obtain ⟨entry, hentry, rfl⟩ := List.mem_map.mp htext
      rw [List.mem_insertionSort, List.mem_map] at hentry
      obtain ⟨field, hfield, rfl⟩ := hentry
      intro c hc
      simp only [String.toList_append, List.mem_append] at hc
      rcases hc with (hc | hc) | hc
      · exact printable_quoteText c hc
      · exact printable_of_all (by decide) c hc
      · exact ih field hfield c hc
    · exact printable_of_all (by decide) c hc

theorem canonical_printable (j : Json) : ∀ b ∈ canonical j, b ≠ 10 ∧ b ≠ 13 := by
  intro b hb
  obtain ⟨c, hc, rfl⟩ := List.mem_map.mp hb
  obtain ⟨hlo, hhi⟩ := printable_dumps j c hc
  constructor
  all_goals
    intro heq
    have := congrArg UInt8.toNat heq
    rw [UInt8.toNat_ofNat'] at this
    simp at this
    omega

theorem length_escapeChar_le (c : Char) : (escapeChar c).length ≤ 12 := by
  unfold escapeChar
  split_ifs <;> simp [unicodeEscape]

theorem length_quoteText_le (s : String) : (quoteText s).length ≤ 12 * s.length + 2 := by
  have hflat : ∀ l : List Char, (l.flatMap escapeChar).length ≤ 12 * l.length := by
    intro l
    induction l with
    | nil => simp
    | cons c l ih =>
      have := length_escapeChar_le c
      rw [List.flatMap_cons, List.length_append, List.length_cons]
      omega
  have := hflat s.toList
  rw [String.length_toList] at this
  simp only [quoteText, String.length_append, String.length_ofList]
  change 1 + _ + 1 ≤ _
  omega

theorem length_intercalate_le {a : Char} {ls : List (List Char)} :
    ([a].intercalate ls).length ≤ (ls.map fun l => l.length + 1).sum := by
  induction ls with
  | nil => simp
  | cons l ls ih =>
    by_cases hls : ls = []
    · subst hls
      simp
    · rw [List.intercalate_cons_of_ne_nil hls, List.map_cons, List.sum_cons]
      simp only [List.length_append, List.length_singleton]
      omega

theorem length_intercalate_texts_le (texts : List String) :
    (",".intercalate texts).length ≤ (texts.map fun text => text.length + 1).sum := by
  rw [← String.length_toList, String.toList_intercalate]
  refine (@length_intercalate_le ',' _).trans (le_of_eq ?_)
  rw [List.map_map]
  exact congrArg List.sum (List.map_congr_left fun text _ => congrArg (· + 1) String.length_toList)

theorem length_dumps_list_le (items : List Json) :
    (Json.list items).dumps.length ≤ 2 + (items.map fun item => item.dumps.length + 1).sum := by
  have hle := length_intercalate_texts_le (items.map Json.dumps)
  rw [List.map_map] at hle
  rw [Json.dumps]
  simp only [String.length_append]
  change 1 + _ + 1 ≤ _
  change (",".intercalate (items.map fun item => item.dumps)).length ≤ (items.map fun item => item.dumps.length + 1).sum at hle
  omega

/-- The text of an object is not longer than its parts, whatever their order. -/
theorem length_dumps_dict_le (fields : List (String × Json)) : (Json.dict fields).dumps.length ≤
    2 + (fields.map fun field => (quoteText field.1).length + field.2.dumps.length + 2).sum := by
  rw [Json.dumps]
  set texts := fields.map fun field => (field.1, field.2.dumps) with htexts
  have hle := length_intercalate_texts_le
    ((texts.insertionSort fun a b => a.1 ≤ b.1).map fun field => quoteText field.1 ++ ":" ++ field.2)
  have hsum : (((texts.insertionSort fun a b => a.1 ≤ b.1).map fun field => quoteText field.1 ++ ":" ++ field.2).map
      fun text => text.length + 1).sum =
      (fields.map fun field => (quoteText field.1).length + field.2.dumps.length + 2).sum := by
    rw [List.map_map, ((List.perm_insertionSort _ texts).map _).sum_eq, htexts, List.map_map]
    refine congrArg List.sum (List.map_congr_left fun field _ => ?_)
    simp only [Function.comp_apply, String.length_append]
    change _ + 1 + _ + 1 = _
    omega
  rw [hsum] at hle
  simp only [String.length_append]
  change 1 + _ + 1 ≤ _
  omega

end Text

end Raveil.Command
