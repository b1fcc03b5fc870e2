import Mathlib.Data.List.Infix
import Mathlib.Data.List.TakeWhile

/-! Full matches of a pattern without backtracking: no run is followed by one of its own characters. -/
namespace Raveil.Lib.Pattern

inductive Item
  | text (s : List Char)
  | many (first rest : Char → Bool)
  | exactly (n : ℕ) (p : Char → Bool)
  | either (a b : Item)

/-- What an item matches at the start of a text, and what it leaves. -/
def Item.take : Item → List Char → Option (List Char × List Char)
  | text s, l => if s.isPrefixOf l then some (s, l.drop s.length) else none
  | many _ _, [] => none
  | many first rest, c :: l => if first c then some (c :: l.takeWhile rest, l.dropWhile rest) else none
  | exactly n p, l => if n ≤ l.length ∧ (l.take n).all p then some (l.take n, l.drop n) else none
  | either a b, l => (a.take l).or (b.take l)

/-- The pieces of a text that the items match one after the other, to the end of the text. -/
def fullmatch : List Item → List Char → Option (List (List Char))
  | [], [] => some []
  | [], _ :: _ => none
  | item :: items, l =>
    match item.take l with
    | none => none
    | some (piece, rest) => (fullmatch items rest).map (piece :: ·)

variable {item a b : Item} {s rest piece : List Char} {first p : Char → Bool} {n : ℕ}

theorem take_text : (Item.text s).take (s ++ rest) = some (s, rest) := by
  simp [Item.take]

theorem take_many {q : Char → Bool} {c : Char} {cs : List Char} (hc : first c = true)
    (hcs : ∀ x ∈ cs, q x = true) (hrest : ∀ x, rest.head? = some x → q x = false) :
    (Item.many first q).take ((c :: cs) ++ rest) = some (c :: cs, rest) := by
  have htake : (cs ++ rest).takeWhile q = cs := by
    rw [List.takeWhile_append_of_pos hcs]
    cases rest with
    | nil => simp
    | cons x rest => simp [hrest x rfl]
  have hdrop : (cs ++ rest).dropWhile q = rest := by
    rw [List.dropWhile_append_of_pos hcs]
    cases rest with
    | nil => rfl
    | cons x rest => simp [hrest x rfl]
  rw [List.cons_append, Item.take, if_pos hc, htake, hdrop]

theorem take_exactly (hn : piece.length = n) (hp : ∀ x ∈ piece, p x = true) :
    (Item.exactly n p).take (piece ++ rest) = some (piece, rest) := by
  subst hn
  unfold Item.take
  rw [List.take_left, List.drop_left, if_pos]
  exact ⟨by simp, List.all_eq_true.mpr hp⟩

theorem take_either_right {l : List Char} (ha : a.take l = none) (h : b.take l = some (piece, rest)) :
    (Item.either a b).take l = some (piece, rest) := by
  simp [Item.take, ha, h]

theorem fullmatch_cons {items : List Item} {pieces : List (List Char)}
    (h : item.take (piece ++ rest) = some (piece, rest)) (hr : fullmatch items rest = some pieces) :
    fullmatch (item :: items) (piece ++ rest) = some (piece :: pieces) := by
  simp [fullmatch, h, hr]

end Raveil.Lib.Pattern
