import Raveil.Authority.Staging
import Raveil.Telemetry.Frame

/-! The host reads back every completion frame that the guest prints. -/
namespace Raveil.Telemetry
open Raveil.Lib Raveil.Authority Decimal Pattern

section Text

/-- Printable ASCII. -/
def Plain (chars : List Char) : Prop := ∀ c ∈ chars, 32 ≤ c.toNat ∧ c.toNat < 127

instance (chars : List Char) : Decidable (Plain chars) := List.decidableBAll _ chars

theorem plain_append {l l' : List Char} (h : Plain l) (h' : Plain l') : Plain (l ++ l') := by
  intro c hc
  rcases List.mem_append.mp hc with hc | hc
  · exact h c hc
  · exact h' c hc

theorem plain_of_isDigit {chars : List Char} (h : ∀ c ∈ chars, isDigit c = true) : Plain chars := by
  intro c hc
  have hd := h c hc
  simp only [isDigit, Bool.and_eq_true, decide_eq_true_eq] at hd
  have h0 : '0'.toNat ≤ c.toNat := hd.1
  have h9 : c.toNat ≤ '9'.toNat := hd.2
  change 48 ≤ c.toNat at h0
  change c.toNat ≤ 57 at h9
  omega

theorem plain_print (n : ℕ) : Plain (print n) := plain_of_isDigit fun _ hc => isDigit_of_mem_print hc

theorem isLowerHex_hexDigit {n : ℕ} (hn : n < 16) : isLowerHex (Command.hexDigit n) = true := by
  interval_cases n <;> decide

theorem plain_of_isLowerHex {chars : List Char} (h : ∀ c ∈ chars, isLowerHex c = true) : Plain chars := by
  have hall : Plain "0123456789abcdef".toList := by decide
  intro c hc
  exact hall c (List.contains_iff_mem.mp (h c hc))

theorem isLowerHex_of_mem_writeCookie {cookie : Identity} {c : Char} (h : c ∈ writeCookie cookie) :
    isLowerHex c = true := by
  unfold writeCookie at h
  obtain ⟨b, -, hb⟩ := List.mem_flatMap.mp h
  have := b.toNat_lt
  rcases List.mem_cons.mp hb with rfl | hb
  · exact isLowerHex_hexDigit (by omega)
  · obtain rfl := List.mem_singleton.mp hb
    exact isLowerHex_hexDigit (by omega)

theorem length_writeCookie (cookie : Identity) : (writeCookie cookie).length = 32 := by
  simp [writeCookie]

theorem decodeAscii_consoleBytes {chars : List Char} (h : Plain chars) :
    decodeAscii (consoleBytes chars) = some chars := by
  unfold decodeAscii consoleBytes
  induction chars with
  | nil => rfl
  | cons c chars ih =>
    have hc := h c List.mem_cons_self
    have hb : (UInt8.ofNat c.toNat).toNat = c.toNat := UInt8.toNat_ofNat_of_lt' (by
      change c.toNat < 256
      omega)
    have hlt : UInt8.ofNat c.toNat < 128 := by
      rw [UInt8.lt_iff_toNat_lt, hb]
      change c.toNat < 128
      omega
    rw [List.map_cons, List.mapM_cons, if_pos hlt, hb, Char.ofNat_toNat,
      ih fun x hx => h x (List.mem_cons_of_mem c hx)]
    rfl

theorem consoleBytes_append (l l' : List Char) :
    consoleBytes (l ++ l') = consoleBytes l ++ consoleBytes l' := List.map_append

/-- Plain text holds no line break. -/
theorem ne_break_of_plain {chars : List Char} (h : Plain chars) {b : UInt8} (hb : b ∈ consoleBytes chars) :
    b ≠ 10 ∧ b ≠ 13 := by
  obtain ⟨c, hc, rfl⟩ := List.mem_map.mp hb
  have hc := h c hc
  have hn : (UInt8.ofNat c.toNat).toNat = c.toNat := UInt8.toNat_ofNat_of_lt' (by
    change c.toNat < 256
    omega)
  constructor
  · intro he
    rw [he] at hn
    change 10 = c.toNat at hn
    omega
  · intro he
    rw [he] at hn
    change 13 = c.toNat at hn
    omega

end Text

section Lines

theorem splitLines_cons {start l : List UInt8} {b : UInt8} (h : b = 13 → l.head? ≠ some 10) :
    splitLines start (b :: l) =
      if b = 10 ∨ b = 13 then start :: splitLines [] l else splitLines (start ++ [b]) l := by
  rw [splitLines]
  rintro rest hb rfl
  exact h hb rfl

/-- A line that is complete is split off. -/
theorem splitLines_plain {line : List UInt8} (h : ∀ b ∈ line, b ≠ 10 ∧ b ≠ 13) (start rest : List UInt8) :
    splitLines start (line ++ 13 :: 10 :: rest) = (start ++ line) :: splitLines [] rest := by
  induction line generalizing start with
  | nil => simp [splitLines]
  | cons b line ih =>
    obtain ⟨h10, h13⟩ := h b List.mem_cons_self
    rw [List.cons_append, splitLines_cons fun hb => absurd hb h13, if_neg (by simp [h10, h13]),
      ih fun x hx => h x (List.mem_cons_of_mem b hx)]
    simp

/-- What follows a line break is split on its own. -/
theorem splitLines_break (start rest : List UInt8) : ∀ pre : List UInt8,
    splitLines start (pre ++ 10 :: rest) = splitLines start (pre ++ [10]) ++ splitLines [] rest := by
  intro pre
  induction hn : pre.length using Nat.strong_induction_on generalizing pre start with
  | _ n ih =>
    subst hn
    cases pre with
    | nil => simp [splitLines]
    | cons b tail =>
      have htail := fun start => ih tail.length (Nat.lt_succ_self _) start tail rfl
      by_cases hb : b = 13 ∧ (tail ++ [10]).head? = some 10
      · obtain ⟨rfl, hhead⟩ := hb
        cases tail with
        | nil => simp [splitLines]
        | cons c tail =>
          obtain rfl : c = 10 := by simpa using hhead
          have := ih tail.length (by simp) [] tail rfl
          simp [splitLines, this]
      · have hhead : (tail ++ 10 :: rest).head? = (tail ++ [10]).head? := by cases tail <;> rfl
        rw [List.cons_append, List.cons_append, splitLines_cons (fun h13 hc => hb ⟨h13, hhead ▸ hc⟩),
          splitLines_cons fun h13 hc => hb ⟨h13, hc⟩]
        split
        · rw [htail, List.cons_append]
        · exact htail _

end Lines

section Outputs

/-- Joining with commas and splitting at commas. -/
theorem splitOn_comma {α : Type} (w : α → List Char) (hw : ∀ a, ',' ∉ w a) (l : List α) (x : List Char)
    (hx : ',' ∉ x) : (x ++ l.flatMap fun a => ',' :: w a).splitOn ',' = x :: l.map w := by
  induction l generalizing x with
  | nil => simpa using List.splitOn_eq_singleton hx
  | cons a l ih =>
    rw [List.flatMap_cons, List.cons_append, List.splitOn_append_cons_of_beq _ _ (by simp),
      List.splitOn_eq_singleton hx, ih (w a) (hw a)]
    rfl

theorem not_mem_print {n : ℕ} {c : Char} (hc : isDigit c = false) : c ∉ print n := by
  intro h
  simp [isDigit_of_mem_print h] at hc

theorem comma_not_mem_writeOutput (output : ObjectVersion) : ',' ∉ writeOutput output := by
  have hd : ∀ n, ',' ∉ print n := fun n => not_mem_print (by decide)
  simp [writeOutput, hd]

/-- The outputs of a completion, in order. -/
def outputsOf (completion : CompletionRecord) : List ObjectVersion :=
  (indices 4 completion.outputCount).map completion.outputs

def toOutput (output : ObjectVersion) : CompletionOutput :=
  ⟨output.objectId, output.generation, output.version⟩

theorem parseInt_print (n : ℕ) : parseInt (print n) = some n := by
  unfold parseInt
  rw [if_neg (print_ne_nil n), read_print]
  rfl

theorem parseOutput_writeOutput (output : ObjectVersion) :
    parseOutput (writeOutput output) = some (toOutput output) := by
  have hcolon : ∀ n, ':' ∉ print n := fun n => not_mem_print (by decide)
  have hsplit : (writeOutput output).splitOn ':' =
      [print output.objectId, print output.generation, print output.version] := by
    unfold writeOutput
    rw [List.append_assoc, List.cons_append, List.splitOn_append_cons_of_beq _ _ (by simp),
      List.splitOn_append_cons_of_beq _ _ (by simp), List.splitOn_eq_singleton (hcolon _),
      List.splitOn_eq_singleton (hcolon _), List.splitOn_eq_singleton (hcolon _)]
    rfl
  unfold parseOutput
  rw [hsplit]
  simp only [List.mapM_cons, List.mapM_nil, parseInt_print]
  rfl

/-- The indices of a nonempty table start with zero, and no other index is zero. -/
theorem indices_cons {count : ℕ} (h : count ≠ 0) :
    ∃ rest : List (Fin 4), indices 4 count = 0 :: rest ∧ ∀ i ∈ rest, i.val ≠ 0 := by
  refine ⟨(List.finRange 4).tail.filter fun i => i.val < count, ?_, ?_⟩
  · have hfin : List.finRange 4 = 0 :: (List.finRange 4).tail := rfl
    unfold indices
    rw [hfin, List.filter_cons_of_pos]
    · rfl
    · simpa using Nat.pos_of_ne_zero h
  · have hall : ∀ i ∈ (List.finRange 4).tail, i.val ≠ 0 := by decide
    exact fun i hi => hall i (List.mem_filter.mp hi).1

theorem writeOutputs_eq {completion : CompletionRecord} (h : completion.outputCount ≠ 0) :
    ∃ i rest, indices 4 completion.outputCount = i :: rest ∧ writeOutputs completion =
      writeOutput (completion.outputs i) ++ rest.flatMap fun i => ',' :: writeOutput (completion.outputs i) := by
  obtain ⟨rest, hrest, hne⟩ := indices_cons h
  refine ⟨0, rest, hrest, ?_⟩
  unfold writeOutputs
  rw [if_neg h, hrest, List.flatMap_cons, if_neg (by simp)]
  congr 1
  refine List.flatMap_congr fun i hi => ?_
  rw [if_pos (hne i hi)]

theorem parseOutputs_writeOutputs (completion : CompletionRecord) :
    parseOutputs (writeOutputs completion) = some ((outputsOf completion).map toOutput) := by
  by_cases h : completion.outputCount = 0
  · unfold parseOutputs writeOutputs outputsOf
    rw [if_pos h, if_pos rfl, h]
    rfl
  · obtain ⟨i, rest, hindices, htext⟩ := writeOutputs_eq h
    have hne : writeOutputs completion ≠ ['-'] := by
      intro he
      rw [htext] at he
      cases hp : print (completion.outputs i).objectId with
      | nil => exact print_ne_nil _ hp
      | cons c cs =>
        have hc : c = '-' := by simpa [writeOutput, hp] using congrArg List.head? he
        have := isDigit_of_mem_print (n := (completion.outputs i).objectId) (c := c) (by simp [hp])
        rw [hc] at this
        exact absurd this (by decide)
    unfold parseOutputs outputsOf
    rw [if_neg hne, htext, splitOn_comma (fun i => writeOutput (completion.outputs i))
      (fun _ => comma_not_mem_writeOutput _) rest _ (comma_not_mem_writeOutput _), hindices]
    have hall : ∀ l : List (Fin 4), (l.map fun i => writeOutput (completion.outputs i)).mapM parseOutput =
        some ((l.map completion.outputs).map toOutput) := by
      intro l
      induction l with
      | nil => rfl
      | cons j l ih =>
        rw [List.map_cons, List.mapM_cons, parseOutput_writeOutput, ih]
        rfl
    exact hall (i :: rest)

end Outputs

section Match

variable (completion : CompletionRecord) (ticks : ℕ)

/-- The pieces of a frame, as the pattern names them. -/
def pieces : List (List Char) :=
  ["RAVEIL-COMPLETION-V1 job=".toList, print completion.jobId, " epoch=".toList,
    print completion.executionEpoch, " sequence=".toList, print completion.executionSequence,
    " cookie=".toList, writeCookie completion.completionCookie, " status=".toList, print completion.status,
    " detail=".toList, print completion.detail, " smoke_path_ticks=".toList, print ticks,
    " outputs=".toList, writeOutputs completion]

theorem emit_eq : completionTelemetryEmit completion ticks =
    consoleBytes (pieces completion ticks).flatten ++ [13, 10] := by
  have hwrite : ∀ text : String, '\n' ∉ text.toList → consoleWrite text = text.toList := by
    intro text h
    unfold consoleWrite
    refine (List.flatMap_congr fun c hc => ?_).trans (List.flatMap_singleton' _)
    rw [if_neg]
    rintro rfl
    exact h hc
  unfold completionTelemetryEmit pieces
  rw [hwrite _ (by decide), hwrite _ (by decide), hwrite _ (by decide), hwrite _ (by decide),
    hwrite _ (by decide), hwrite _ (by decide), hwrite _ (by decide), hwrite _ (by decide)]
  have hend : consoleBytes (consoleWrite "\n") = [13, 10] := by decide
  rw [consoleBytes_append, hend]
  simp only [List.flatten_cons, List.flatten_nil, List.append_nil, List.append_assoc]

/-- A positive number before a blank is one piece. -/
theorem take_positive {n : ℕ} (hn : n ≠ 0) {rest : List Char} (hr : rest.head? = some ' ') :
    positive.take (print n ++ rest) = some (print n, rest) := by
  obtain ⟨c, cs, hp, h1, h9, hcs⟩ := print_cons hn
  rw [hp]
  refine take_many ?_ hcs fun x hx => ?_
  · simp [isPositive, h1, h9]
  · obtain rfl : ' ' = x := Option.some.inj (hr.symm.trans hx)
    decide

theorem take_outputs : (Item.either (.text ['-']) (.many isOutputChar isOutputChar)).take
    (writeOutputs completion ++ []) = some (writeOutputs completion, []) := by
  by_cases h : completion.outputCount = 0
  · unfold writeOutputs
    rw [if_pos h]
    rfl
  · obtain ⟨i, rest, -, htext⟩ := writeOutputs_eq h
    have hdigit : ∀ n, ∀ c ∈ print n, isOutputChar c = true := by
      intro n c hc
      simp [isOutputChar, isDigit_of_mem_print hc]
    have hout : ∀ output, ∀ c ∈ writeOutput output, isOutputChar c = true := by
      intro output c hc
      unfold writeOutput at hc
      simp only [List.mem_append, List.mem_cons] at hc
      rcases hc with (hc | rfl | hc) | rfl | hc
      · exact hdigit _ c hc
      · decide
      · exact hdigit _ c hc
      · decide
      · exact hdigit _ c hc
    have hall : ∀ c ∈ writeOutputs completion, isOutputChar c = true := by
      intro c hc
      rw [htext] at hc
      rcases List.mem_append.mp hc with hc | hc
      · exact hout _ c hc
      · obtain ⟨j, -, hj⟩ := List.mem_flatMap.mp hc
        rcases List.mem_cons.mp hj with rfl | hj
        · decide
        · exact hout _ c hj
    cases hw : writeOutputs completion with
    | nil =>
      rw [htext] at hw
      simp [writeOutput] at hw
    | cons c cs =>
      rw [hw, List.forall_mem_cons] at hall
      refine take_either_right ?_ (take_many hall.1 hall.2 fun x hx => by cases hx)
      unfold Item.take
      rw [if_neg]
      intro hpre
      have hc : '-' = c := by simpa using hpre
      rw [← hc] at hall
      exact absurd hall.1 (by decide)

/-- The fields a frame prints are those the pattern expects. -/
structure Printable : Prop where
  jobId : completion.jobId ≠ 0 ∧ completion.jobId ≤ UINT64_MAX
  epoch : completion.executionEpoch ≠ 0 ∧ completion.executionEpoch ≤ UINT64_MAX
  sequence : completion.executionSequence ≠ 0 ∧ completion.executionSequence ≤ UINT64_MAX
  status : 1 ≤ completion.status ∧ completion.status ≤ 4
  detail : completion.detail + 1 = completion.status
  ticks : ticks ≠ 0 ∧ ticks ≤ UINT64_MAX

theorem take_status {n : ℕ} (hn : 1 ≤ n ∧ n ≤ 4) (rest : List Char) :
    (Item.exactly 1 fun c => '1' ≤ c && c ≤ '4').take (print n ++ rest) = some (print n, rest) := by
  obtain ⟨h1, h4⟩ := hn
  refine take_exactly ?_ (List.all_eq_true.mp ?_)
  · interval_cases n <;> rfl
  · interval_cases n <;> rfl

theorem take_detail {n : ℕ} (hn : n ≤ 3) (rest : List Char) :
    (Item.exactly 1 fun c => '0' ≤ c && c ≤ '3').take (print n ++ rest) = some (print n, rest) := by
  refine take_exactly ?_ (List.all_eq_true.mp ?_)
  · interval_cases n <;> rfl
  · interval_cases n <;> rfl

theorem fullmatch_pieces (h : Printable completion ticks) :
    fullmatch frame (pieces completion ticks).flatten = some (pieces completion ticks) := by
  have hstatus := h.status
  have hdetail := h.detail
  unfold frame pieces
  simp only [List.flatten_cons]
  refine fullmatch_cons take_text (fullmatch_cons (take_positive h.jobId.1 rfl) ?_)
  refine fullmatch_cons take_text (fullmatch_cons (take_positive h.epoch.1 rfl) ?_)
  refine fullmatch_cons take_text (fullmatch_cons (take_positive h.sequence.1 rfl) ?_)
  refine fullmatch_cons take_text (fullmatch_cons (take_exactly (length_writeCookie _)
    fun _ => isLowerHex_of_mem_writeCookie) ?_)
  refine fullmatch_cons take_text (fullmatch_cons (take_status hstatus _) ?_)
  refine fullmatch_cons take_text (fullmatch_cons (take_detail (by omega) _) ?_)
  refine fullmatch_cons take_text (fullmatch_cons (take_positive h.ticks.1 rfl) ?_)
  exact fullmatch_cons take_text (fullmatch_cons (take_outputs completion) rfl)

/-- The event a frame says, at the line where it stands. -/
def eventOf (lineNumber : ℕ) : ParsedCompletion where
  jobId := completion.jobId
  executionEpoch := completion.executionEpoch
  executionSequence := completion.executionSequence
  cookie := writeCookie completion.completionCookie
  status := completion.status
  detail := completion.detail
  smokePathTicks := ticks
  outputs := (outputsOf completion).map toOutput
  rawLine := lineNumber

theorem parseFrame_pieces (h : Printable completion ticks) (lineNumber : ℕ) :
    parseFrame (pieces completion ticks).flatten lineNumber = .ok (eventOf completion ticks lineNumber) := by
  unfold parseFrame
  rw [fullmatch_pieces completion ticks h]
  unfold pieces
  simp only [parseOutputs_writeOutputs, read_print]
  rfl

theorem plain_writeOutputs : Plain (writeOutputs completion) := by
  have hout : ∀ output, Plain (writeOutput output) := by
    intro output
    unfold writeOutput
    refine plain_append (plain_append (plain_print _) ?_) ?_
    · intro c hc
      rcases List.mem_cons.mp hc with rfl | hc
      · decide
      · exact plain_print _ c hc
    · intro c hc
      rcases List.mem_cons.mp hc with rfl | hc
      · decide
      · exact plain_print _ c hc
  by_cases h : completion.outputCount = 0
  · unfold writeOutputs
    rw [if_pos h]
    decide
  · obtain ⟨i, rest, -, htext⟩ := writeOutputs_eq h
    rw [htext]
    refine plain_append (hout _) fun c hc => ?_
    obtain ⟨j, -, hj⟩ := List.mem_flatMap.mp hc
    rcases List.mem_cons.mp hj with rfl | hj
    · decide
    · exact hout _ c hj

theorem plain_pieces : Plain (pieces completion ticks).flatten := by
  have hcookie : Plain (writeCookie completion.completionCookie) :=
    plain_of_isLowerHex fun _ => isLowerHex_of_mem_writeCookie
  have hall : ∀ piece ∈ pieces completion ticks, Plain piece := by
    simp only [pieces, List.forall_mem_cons]
    refine ⟨by decide, plain_print _, by decide, plain_print _, by decide, plain_print _, by decide,
      hcookie, by decide, plain_print _, by decide, plain_print _, by decide, plain_print _, by decide,
      plain_writeOutputs _, fun _ h => by cases h⟩
  intro c hc
  obtain ⟨piece, hpiece, hmem⟩ := List.mem_flatten.mp hc
  exact hall piece hpiece c hmem

end Match

section Length

variable {completion : CompletionRecord} {ticks : ℕ}

theorem length_print_word {n : ℕ} (h : n ≤ UINT64_MAX) : (print n).length ≤ 20 := by
  refine length_print_le (by omega) ?_
  unfold UINT64_MAX at h
  omega

/-- The output fields hold 64-bit values. -/
def OutputWords (completion : CompletionRecord) : Prop :=
  ∀ i, (completion.outputs i).objectId ≤ UINT64_MAX ∧ (completion.outputs i).generation ≤ UINT64_MAX ∧
    (completion.outputs i).version ≤ UINT64_MAX

theorem length_writeOutputs_le (h : OutputWords completion) : (writeOutputs completion).length ≤ 251 := by
  have hout : ∀ i, (writeOutput (completion.outputs i)).length ≤ 62 := by
    intro i
    obtain ⟨h1, h2, h3⟩ := h i
    have := length_print_word h1
    have := length_print_word h2
    have := length_print_word h3
    simp only [writeOutput, List.length_append, List.length_cons]
    omega
  by_cases hc : completion.outputCount = 0
  · unfold writeOutputs
    rw [if_pos hc]
    decide
  · obtain ⟨i, rest, hindices, htext⟩ := writeOutputs_eq hc
    have hlen : rest.length ≤ 3 := by
      have : (indices 4 completion.outputCount).length ≤ 4 := List.length_filter_le _ _
      rw [hindices, List.length_cons] at this
      omega
    have hrest : ∀ l : List (Fin 4),
        (l.flatMap fun i => ',' :: writeOutput (completion.outputs i)).length ≤ 63 * l.length := by
      intro l
      induction l with
      | nil => simp
      | cons j l ih =>
        have := hout j
        simp only [List.flatMap_cons, List.length_append, List.length_cons]
        omega
    have := hrest rest
    have := hout i
    rw [htext, List.length_append]
    omega

theorem length_flatten_le {α : Type} {pieces : List (List α)} {bounds : List ℕ}
    (h : List.Forall₂ (fun piece n => piece.length ≤ n) pieces bounds) :
    pieces.flatten.length ≤ bounds.sum := by
  induction h with
  | nil => exact le_rfl
  | cons hp _ ih =>
    rw [List.flatten_cons, List.length_append, List.sum_cons]
    exact Nat.add_le_add hp ih

theorem length_pieces_le (h : Printable completion ticks) (ho : OutputWords completion) :
    (pieces completion ticks).flatten.length ≤ 458 := by
  have hstatus := h.status
  have hdetail := h.detail
  have hone : ∀ n, n ≤ 4 → (print n).length ≤ 1 := fun n hn => length_print_le (by omega) (by omega)
  refine @length_flatten_le _ _ [25, 20, 7, 20, 10, 20, 8, 32, 8, 1, 8, 1, 18, 20, 9, 251] ?_
  refine .cons (by decide) (.cons (length_print_word h.jobId.2) ?_)
  refine .cons (by decide) (.cons (length_print_word h.epoch.2) ?_)
  refine .cons (by decide) (.cons (length_print_word h.sequence.2) ?_)
  refine .cons (by decide) (.cons (length_writeCookie _).le ?_)
  refine .cons (by decide) (.cons (hone _ (by omega)) ?_)
  refine .cons (by decide) (.cons (hone _ (by omega)) ?_)
  refine .cons (by decide) (.cons (length_print_word h.ticks.2) ?_)
  exact .cons (by decide) (.cons (length_writeOutputs_le ho) .nil)

end Length

section Valid

variable {job : JobDescriptor} {completion : CompletionRecord}

/-- What the contract says about the fields of an accepted completion. -/
theorem fields_of_completion (h : raveilCompletionRecordValidate job completion = true) :
    completion.jobId ≠ 0 ∧ completion.executionEpoch ≠ 0 ∧ completion.executionSequence ≠ 0 ∧
      nonzeroIdentity completion.completionCookie = true ∧
      (1 ≤ completion.status ∧ completion.status ≤ 4) ∧ completion.detail + 1 = completion.status ∧
      completion.outputCount ≤ 4 := by
  have hjob : job.jobId ≠ 0 := by
    unfold raveilCompletionRecordValidate at h
    split at h
    · cases h
    rename_i hhead
    simp only [not_or, Bool.not_eq_true', Bool.not_eq_false] at hhead
    have hvalid := hhead.1
    unfold raveilJobDescriptorValidate at hvalid
    split at hvalid
    · cases hvalid
    rename_i hfields
    simp only [not_or] at hfields
    exact hfields.2.2.2.2.2.2.1
  unfold raveilCompletionRecordValidate at h
  split at h
  · cases h
  rename_i hhead
  simp only [not_or, Bool.not_eq_true', Bool.not_eq_false, not_not, not_lt] at hhead
  obtain ⟨-, -, -, -, -, -, -, -, hid, hepoch, hsequence, hcookie, hlow, hhigh, hcount⟩ := hhead
  have hstatus : 1 ≤ completion.status ∧ completion.status ≤ 4 := ⟨hlow, hhigh⟩
  refine ⟨by rwa [hid], hepoch, hsequence, hcookie, hstatus, ?_, by omega⟩
  by_cases hx : completion.status = RAVEIL_COMPLETION_EXECUTED
  · rw [if_neg (not_not.mpr hx), decide_eq_true_iff] at h
    rw [h.1, hx]
    rfl
  · rw [if_pos hx] at h
    dsimp only at h
    rw [decide_eq_true_iff] at h
    rw [h.1]
    unfold RAVEIL_COMPLETION_EXECUTED at hx
    obtain hs | hs | hs : completion.status = 2 ∨ completion.status = 3 ∨ completion.status = 4 := by omega
    · rw [hs]
      rfl
    · rw [hs]
      rfl
    · rw [hs]
      rfl

theorem printable_of_completion (h : raveilCompletionRecordValidate job completion = true) {ticks : ℕ}
    (hid : completion.jobId ≤ UINT64_MAX) (hepoch : completion.executionEpoch ≤ UINT64_MAX)
    (hsequence : completion.executionSequence ≤ UINT64_MAX) (ht : ticks ≠ 0 ∧ ticks ≤ UINT64_MAX) :
    Printable completion ticks := by
  obtain ⟨h1, h2, h3, -, hstatus, hdetail, -⟩ := fields_of_completion h
  exact ⟨⟨h1, hid⟩, ⟨h2, hepoch⟩, ⟨h3, hsequence⟩, hstatus, hdetail, ht⟩

theorem hexDigit_ne_zero {n : ℕ} (hn : n < 16) (h : Command.hexDigit n = '0') : n = 0 := by
  interval_cases n
  · rfl
  all_goals exact absurd h (by decide)

theorem writeCookie_ne_zero {cookie : Identity} (h : nonzeroIdentity cookie = true) :
    writeCookie cookie ≠ List.replicate 32 '0' := by
  intro he
  obtain ⟨i, hi⟩ := nonzeroIdentity_iff.mp h
  have hzero : ∀ c ∈ writeCookie cookie, c = '0' := by
    rw [he]
    exact fun c hc => List.eq_of_mem_replicate hc
  have hmem : ∀ c ∈ [Command.hexDigit ((cookie i).toNat / 16), Command.hexDigit ((cookie i).toNat % 16)],
      c = '0' :=
    fun c hc => hzero c (List.mem_flatMap.mpr ⟨cookie i, List.mem_ofFn.mpr ⟨i, rfl⟩, hc⟩)
  have hlt := (cookie i).toNat_lt
  have hhigh := hexDigit_ne_zero (n := (cookie i).toNat / 16) (by omega) (hmem _ (by simp))
  have hlow := hexDigit_ne_zero (n := (cookie i).toNat % 16) (by omega) (hmem _ (by simp))
  exact hi (UInt8.toNat_inj.mp (by change _ = 0; omega))

theorem fromHex_writeCookie (cookie : Identity) : fromHex (writeCookie cookie) = List.ofFn cookie := by
  have hvalue : ∀ n, n < 16 → hexValue (Command.hexDigit n) = n := by
    intro n hn
    interval_cases n <;> decide
  have hall : ∀ l : List UInt8, fromHex (l.flatMap fun b =>
      [Command.hexDigit (b.toNat / 16), Command.hexDigit (b.toNat % 16)]) = l := by
    intro l
    induction l with
    | nil => rfl
    | cons b l ih =>
      have hlt := b.toNat_lt
      have hb : 16 * (b.toNat / 16) + b.toNat % 16 = b.toNat := Nat.div_add_mod _ _
      rw [List.flatMap_cons, List.cons_append, List.cons_append, List.nil_append, fromHex, ih,
        hvalue _ (by omega), hvalue _ (by omega), hb, UInt8.ofNat_toNat]
  exact hall (List.ofFn cookie)

/-- Outputs in range with distinct pairs pass the loop. -/
theorem validateOutputs_ok {l : List CompletionOutput} (hv : ∀ o ∈ l, o.validate = .ok ())
    (hn : (l.map fun o => (o.objectId, o.generation)).Nodup) (pairs : List (ℤ × ℤ))
    (hp : ∀ o ∈ l, (o.objectId, o.generation) ∉ pairs) :
    ∃ r, l.foldlM validateOutput pairs = .ok r := by
  induction l generalizing pairs with
  | nil => exact ⟨pairs, rfl⟩
  | cons o l ih =>
    rw [List.forall_mem_cons] at hv hp
    rw [List.map_cons, List.nodup_cons] at hn
    have hstep : validateOutput pairs o = .ok ((o.objectId, o.generation) :: pairs) := by
      unfold validateOutput
      rw [hv.1]
      exact require_then_eq_ok.mpr ⟨hp.1, rfl⟩
    obtain ⟨r, hr⟩ := ih hv.2 hn.2 ((o.objectId, o.generation) :: pairs) fun o' ho' hmem => by
      rcases List.mem_cons.mp hmem with he | hmem
      · exact hn.1 (he ▸ List.mem_map.mpr ⟨o', ho', rfl⟩)
      · exact hp.2 o' ho' hmem
    refine ⟨r, ?_⟩
    rw [List.foldlM_cons, hstep]
    exact hr

theorem validate_outputs (h : raveilCompletionRecordValidate job completion = true)
    (ho : OutputWords completion) :
    ∃ r, ((outputsOf completion).map toOutput).foldlM validateOutput [] = .ok r := by
  by_cases hx : completion.status = RAVEIL_COMPLETION_EXECUTED
  · have hj := jobOk_of_completion h
    have hout := outputsOk_of_completion h hx
    refine validateOutputs_ok ?_ ?_ [] fun _ _ hmem => by cases hmem
    · intro o hmem
      obtain ⟨v, hv, rfl⟩ := List.mem_map.mp hmem
      obtain ⟨i, hi, rfl⟩ := List.mem_map.mp hv
      obtain ⟨r, hr, -, hid, hgen, hversion⟩ := output_source h hx (mem_indices.mp hi)
      have hobj := hj.object r hr
      simp only [validObject, decide_eq_true_iff] at hobj
      obtain ⟨h1, h2, h3⟩ := ho i
      refine require_of ?_
      simp only [toOutput]
      omega
    · rw [outputsOf, List.map_map, List.map_map]
      refine ((List.nodup_finRange 4).filter _).map_on fun i hi j hj he => ?_
      simp only [Function.comp_apply, toOutput, Prod.mk.injEq, Int.natCast_inj] at he
      exact hout.distinct i j (mem_indices.mp hi) (mem_indices.mp hj) he.1 he.2
  · have hnone := (no_outputs h hx).1
    refine ⟨[], ?_⟩
    unfold outputsOf
    rw [hnone]
    rfl

/-- The printed event passes the checks of the host. -/
theorem validate_eventOf (h : raveilCompletionRecordValidate job completion = true) {ticks lineNumber : ℕ}
    (hp : Printable completion ticks) (ho : OutputWords completion) (hl : 1 ≤ lineNumber) :
    (eventOf completion ticks lineNumber).validate = .ok () := by
  obtain ⟨-, -, -, hcookie, -⟩ := fields_of_completion h
  obtain ⟨r, hr⟩ := validate_outputs h ho
  obtain ⟨h1, h2, h3, hstatus, hdetail, h6⟩ := hp
  unfold ParsedCompletion.validate
  refine require_then_eq_ok.mpr ⟨?_, require_then_eq_ok.mpr ⟨?_, require_then_eq_ok.mpr ⟨?_,
    require_then_eq_ok.mpr ⟨?_, ?_⟩⟩⟩⟩
  · simp only [eventOf]
    omega
  · exact ⟨length_writeCookie _, writeCookie_ne_zero hcookie,
      List.all_eq_true.mpr fun _ => isLowerHex_of_mem_writeCookie⟩
  · have hall : ∀ status detail : ℕ, 1 ≤ status → status ≤ 4 → detail + 1 = status →
        expectedDetail status = some (detail : ℤ) := by
      intro status detail hlow hhigh he
      obtain rfl : detail = status - 1 := by omega
      interval_cases status <;> rfl
    exact hall _ _ hstatus.1 hstatus.2 hdetail
  · constructor
    · have : (indices 4 completion.outputCount).length ≤ 4 := List.length_filter_le _ _
      simpa [eventOf, outputsOf] using this
    · by_cases hx : completion.status = RAVEIL_COMPLETION_EXECUTED
      · left
        simp [eventOf, hx, RAVEIL_COMPLETION_EXECUTED]
      · right
        simp [eventOf, outputsOf, (no_outputs h hx).1, indices]
  · change (List.foldlM validateOutput [] ((outputsOf completion).map toOutput) >>= fun _ => .ok ()) = .ok ()
    rw [hr]
    rfl

end Valid

section Log

variable {completion : CompletionRecord} {ticks : ℕ}

/-- Console output in which no line starts like a completion frame. -/
def Noise (data : List UInt8) : Prop := ∀ line ∈ splitLines [] data, framePrefix.isPrefixOf line = false

theorem addEvent_new {events : List ParsedCompletion} {event : ParsedCompletion}
    (h : event.binding ∉ events.map ParsedCompletion.binding) (n : ℕ) :
    addEvent events n (some event) = .ok (events ++ [event]) :=
  require_then_eq_ok.mpr ⟨h, rfl⟩

theorem parseStep_noise {line : List UInt8} (h : framePrefix.isPrefixOf line = false)
    (events : List ParsedCompletion) (n : ℕ) : parseStep events (line, n) = .ok events := by
  have hline : parseLine line n = .ok none := by
    unfold parseLine
    simp [h]
  unfold parseStep
  rw [hline]
  rfl

theorem parseSteps_noise {lines : List (List UInt8)} (h : ∀ line ∈ lines, framePrefix.isPrefixOf line = false)
    (events : List ParsedCompletion) (n : ℕ) : (lines.zipIdx n).foldlM parseStep events = .ok events := by
  induction lines generalizing n with
  | nil => rfl
  | cons line lines ih =>
    rw [List.forall_mem_cons] at h
    rw [List.zipIdx_cons, List.foldlM_cons, parseStep_noise h.1]
    exact ih h.2 (n + 1)

theorem framePrefix_pieces : framePrefix.isPrefixOf (consoleBytes (pieces completion ticks).flatten) = true := by
  rw [List.isPrefixOf_iff_prefix]
  have hstart : "RAVEIL-COMPLETION-".toList <+: "RAVEIL-COMPLETION-V1 job=".toList := by decide
  refine List.IsPrefix.map _ (hstart.trans ?_)
  unfold pieces
  rw [List.flatten_cons]
  exact List.prefix_append _ _

/-- The line of a frame is read as its event. -/
theorem parseLine_pieces {job : JobDescriptor} (h : raveilCompletionRecordValidate job completion = true)
    (hp : Printable completion ticks) (ho : OutputWords completion) {n : ℕ} (hn : 1 ≤ n) :
    parseLine (consoleBytes (pieces completion ticks).flatten) n =
      .ok (some (eventOf completion ticks n)) := by
  have hlen := length_pieces_le hp ho
  have hplain := plain_pieces completion ticks
  have hsuffix : ¬ ['\r'].isSuffixOf (pieces completion ticks).flatten = true := by
    intro hs
    have hmem := (List.isSuffixOf_iff_suffix.mp hs).subset (List.mem_singleton.mpr rfl)
    have := (hplain _ hmem).1
    exact absurd this (by decide)
  have hlength : (consoleBytes (pieces completion ticks).flatten).length =
      (pieces completion ticks).flatten.length := List.length_map _
  unfold parseLine
  rw [if_neg (by rw [hlength]; unfold MAX_LINE_BYTES; omega), framePrefix_pieces, if_neg (by simp),
    decodeAscii_consoleBytes hplain]
  dsimp only
  rw [if_neg hsuffix, parseFrame_pieces completion ticks hp n]
  change ((eventOf completion ticks n).validate >>= fun _ => .ok (some (eventOf completion ticks n))) = _
  rw [validate_eventOf h hp ho hn]
  rfl

theorem splitLines_ne_nil {data : List UInt8} (h : data ≠ []) : ∀ start, splitLines start data ≠ [] := by
  have hkey : ∀ (l start : List UInt8), start ≠ [] ∨ l ≠ [] → splitLines start l ≠ [] := by
    intro l start hne
    fun_induction splitLines start l with
    | case1 => simp at hne
    | case2 => exact List.cons_ne_nil _ _
    | case3 => exact List.cons_ne_nil _ _
    | case4 => exact List.cons_ne_nil _ _
    | case5 line b rest hr hb ih => exact ih (Or.inl (by simp))
  exact fun start => hkey data start (Or.inr h)

/-- A frame line in a log is read as its event, and the rest of the log is skipped. -/
theorem parse_framed (sha256 : List UInt8 → String) {line : List UInt8} {event : ℕ → ParsedCompletion}
    (hplain : ∀ b ∈ line, b ≠ 10 ∧ b ≠ 13) (hline : ∀ n, 1 ≤ n → parseLine line n = .ok (some (event n)))
    {before after : List UInt8} (hbefore : Noise before)
    (hbreak : before = [] ∨ before.getLast? = some 10) (hafter : Noise after)
    (hsize : (before ++ (line ++ [13, 10]) ++ after).length ≤ MAX_LOG_BYTES) :
    parseQemuLog sha256 ⟨true, 1, before ++ (line ++ [13, 10]) ++ after⟩ =
      .ok (sha256 (before ++ (line ++ [13, 10]) ++ after), [event ((splitLines [] before).length + 1)]) := by
  have hframe : splitLines [] (line ++ [13, 10] ++ after) = line :: splitLines [] after := by
    rw [List.append_assoc]
    exact splitLines_plain hplain [] after
  have hlines : splitLines [] (before ++ (line ++ [13, 10]) ++ after) =
      splitLines [] before ++ line :: splitLines [] after := by
    rw [List.append_assoc]
    obtain rfl | hlast := hbreak
    · exact hframe
    · obtain ⟨pre, rfl⟩ := List.getLast?_eq_some_iff.mp hlast
      rw [List.append_assoc, List.singleton_append, splitLines_break, hframe]
  have hstep : ∀ n, 1 ≤ n → parseStep [] (line, n) = .ok [event n] := by
    intro n hn
    unfold parseStep
    rw [hline n hn]
    have hnew : (event n).binding ∉ ([] : List ParsedCompletion).map ParsedCompletion.binding :=
      List.not_mem_nil
    exact addEvent_new hnew n
  have hfold : ((splitLines [] before ++ line :: splitLines [] after).zipIdx 1).foldlM parseStep [] =
      .ok [event ((splitLines [] before).length + 1)] := by
    rw [List.zipIdx_append, List.foldlM_append, parseSteps_noise hbefore]
    change ((line :: splitLines [] after).zipIdx _).foldlM parseStep [] = _
    rw [List.zipIdx_cons, List.foldlM_cons, hstep _ (by omega), Nat.add_comm]
    exact parseSteps_noise hafter _ _
  have hcomplete : ¬ (before ++ (line ++ [13, 10]) ++ after ≠ [] ∧
      (before ++ (line ++ [13, 10]) ++ after).getLast? ≠ some 10 ∧
      (before ++ (line ++ [13, 10]) ++ after).getLast? ≠ some 13 ∧
      (splitLines [] before ++ line :: splitLines [] after).getLast?.any framePrefix.isPrefixOf = true) := by
    rintro ⟨-, h10, -, hany⟩
    by_cases hne : after = []
    · subst hne
      simp at h10
    · have hlast := List.getLast?_eq_some_getLast (splitLines_ne_nil hne [])
      have hmem := hafter _ (List.getLast_mem (splitLines_ne_nil hne []))
      rw [List.getLast?_append, List.getLast?_cons, hlast] at hany
      simp [hmem] at hany
  unfold parseQemuLog
  refine require_then_eq_ok.mpr ⟨⟨rfl, rfl, hsize⟩, ?_⟩
  simp only [hlines, hfold]
  exact require_then_eq_ok.mpr ⟨hcomplete, require_then_eq_ok.mpr ⟨List.cons_ne_nil _ _, rfl⟩⟩

end Log

/-- The 64-bit fields that a frame prints. -/
structure FrameWords (completion : CompletionRecord) : Prop where
  jobId : completion.jobId ≤ UINT64_MAX
  epoch : completion.executionEpoch ≤ UINT64_MAX
  sequence : completion.executionSequence ≤ UINT64_MAX
  outputs : OutputWords completion

/-- The frame fits a line, and the log it is printed to parses to its fields. -/
def RoundTrips (sha256 : List UInt8 → String) (completion : CompletionRecord) (ticks : ℕ)
    (before after : List UInt8) : Prop :=
  (completionTelemetryEmit completion ticks).length ≤ MAX_LINE_BYTES ∧
  ∃ digest event, parseQemuLog sha256 ⟨true, 1, before ++ completionTelemetryEmit completion ticks ++ after⟩ =
      .ok (digest, [event]) ∧
    event.jobId = completion.jobId ∧ event.executionEpoch = completion.executionEpoch ∧
    event.executionSequence = completion.executionSequence ∧
    fromHex event.cookie = List.ofFn completion.completionCookie ∧
    event.status = completion.status ∧ event.detail = completion.detail ∧ event.smokePathTicks = ticks ∧
    event.outputs.map (fun o => (o.objectId, o.generation, o.version)) =
      ((indices 4 completion.outputCount).map completion.outputs).map fun o =>
        ((o.objectId : ℤ), (o.generation : ℤ), (o.version : ℤ))

/-- Every frame of an accepted completion fits a line. -/
theorem length_emit_le {job : JobDescriptor} {completion : CompletionRecord} {ticks : ℕ} (hw : FrameWords completion)
    (h : raveilCompletionRecordValidate job completion = true) (ht : 1 ≤ ticks ∧ ticks ≤ UINT64_MAX) :
    (completionTelemetryEmit completion ticks).length ≤ MAX_LINE_BYTES := by
  have hp := printable_of_completion h hw.jobId hw.epoch hw.sequence ⟨by omega, ht.2⟩
  have hlen := length_pieces_le hp hw.outputs
  have hlength : (consoleBytes (pieces completion ticks).flatten).length =
      (pieces completion ticks).flatten.length := List.length_map _
  rw [emit_eq, List.length_append, hlength]
  simp only [List.length_cons, List.length_nil, MAX_LINE_BYTES]
  omega

/-- A log with one frame parses to the event of that frame. -/
theorem parse_emitted (sha256 : List UInt8 → String) {job : JobDescriptor} {completion : CompletionRecord} {ticks : ℕ}
    {before after : List UInt8} (hw : FrameWords completion) (h : raveilCompletionRecordValidate job completion = true)
    (ht : 1 ≤ ticks ∧ ticks ≤ UINT64_MAX) (hbefore : Noise before ∧ (before = [] ∨ before.getLast? = some 10))
    (hafter : Noise after)
    (hsize : (before ++ completionTelemetryEmit completion ticks ++ after).length ≤ MAX_LOG_BYTES) :
    parseQemuLog sha256 ⟨true, 1, before ++ completionTelemetryEmit completion ticks ++ after⟩ =
      .ok (sha256 (before ++ completionTelemetryEmit completion ticks ++ after),
        [eventOf completion ticks ((splitLines [] before).length + 1)]) := by
  have hp := printable_of_completion h hw.jobId hw.epoch hw.sequence ⟨by omega, ht.2⟩
  rw [emit_eq] at hsize ⊢
  exact parse_framed sha256 (fun _ => ne_break_of_plain (plain_pieces completion ticks))
    (fun n hn => parseLine_pieces h hp hw.outputs hn) hbefore.1 hbefore.2 hafter hsize

/-- Every frame of an accepted completion fits a line and is read back from the log it is printed to. -/
theorem frame_round_trip (sha256 : List UInt8 → String) (job : JobDescriptor) (completion : CompletionRecord)
    (ticks : ℕ) (before after : List UInt8) (hw : FrameWords completion)
    (h : raveilCompletionRecordValidate job completion = true) (ht : 1 ≤ ticks ∧ ticks ≤ UINT64_MAX)
    (hbefore : Noise before ∧ (before = [] ∨ before.getLast? = some 10)) (hafter : Noise after)
    (hsize : (before ++ completionTelemetryEmit completion ticks ++ after).length ≤ MAX_LOG_BYTES) :
    RoundTrips sha256 completion ticks before after := by
  have hparse := parse_emitted sha256 hw h ht hbefore hafter hsize
  refine ⟨length_emit_le hw h ht, _, _, hparse, rfl, rfl, rfl, fromHex_writeCookie _, rfl, rfl, rfl, ?_⟩
  rw [eventOf, List.map_map]
  rfl

theorem noise_nil : Noise [] := by
  intro line h
  cases h

section OneByte

theorem oneByteCompletion_words : FrameWords oneByteCompletion :=
  ⟨by decide, by decide, by decide, by unfold OutputWords; decide⟩

theorem oneByteCompletion_valid : raveilCompletionRecordValidate oneByteJob oneByteCompletion = true := by
  decide +kernel

end OneByte

section ThreeOutputs

/-- A job that reads one object and writes three. -/
def threeOutputsJob : JobDescriptor := { oneByteJob with
  objectCount := 4
  resources := ⟨100, 64, 64, 1⟩
  objects := fun i => [⟨9, 1, 3, 0, 8, RAVEIL_OBJECT_READ, 0⟩, ⟨1, 1, 1, 0, 1, RAVEIL_OBJECT_WRITE, 0⟩,
    ⟨2, 5, 4, 8, 2, RAVEIL_OBJECT_WRITE, 0⟩, ⟨2, 6, 7, 0, 16, RAVEIL_OBJECT_WRITE, 0⟩].getD i default }

/-- Its outputs, in an order of their own. -/
def threeOutputsCompletion : CompletionRecord := { oneByteCompletion with
  executionEpoch := UINT64_MAX
  executionSequence := 12
  completionCookie := makeCookie UINT64_MAX 12 1
  outputCount := 3
  outputs := fun i => [⟨2, 6, 8⟩, ⟨1, 1, UINT64_MAX⟩, ⟨2, 5, 10⟩].getD i default }

theorem threeOutputsCompletion_words : FrameWords threeOutputsCompletion :=
  ⟨by decide, by decide, by decide, by unfold OutputWords; decide⟩

theorem threeOutputsCompletion_valid :
    raveilCompletionRecordValidate threeOutputsJob threeOutputsCompletion = true := by decide +kernel

/-- Lines of the console around the frame. -/
def bootLines : List UInt8 := consoleBytes "SONATINE boot\r\ntask ready\n".toList

def lastLines : List UInt8 := consoleBytes "shell> \n".toList

instance (data : List UInt8) : Decidable (Noise data) := inferInstanceAs (Decidable (∀ line ∈ _, _ = false))

theorem frame_round_trip_threeOutputs :
    RoundTrips Command.hexdigest threeOutputsCompletion 37 bootLines lastLines :=
  frame_round_trip Command.hexdigest threeOutputsJob threeOutputsCompletion 37 bootLines lastLines
    threeOutputsCompletion_words threeOutputsCompletion_valid (by decide)
    ⟨by decide +kernel, Or.inr (by decide +kernel)⟩ (by decide +kernel) (by decide +kernel)

end ThreeOutputs

end Raveil.Telemetry
