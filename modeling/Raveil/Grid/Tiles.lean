import Mathlib.Data.List.MinMax
import Mathlib.Data.List.Lex
import Mathlib.Data.Prod.Lex
import Raveil.Grid.Reference

/-! The tile planner of a grid source: the least admitted score among all 256 tiles. -/
namespace Raveil.Grid
open Lib Fold

/-- A tile as the source has it. -/
def tileList (tile : ℕ × ℕ) : List ℤ := [(tile.1 : ℤ), (tile.2 : ℤ)]

/-- The candidates, row by row. -/
def candidates : List (ℕ × ℕ) :=
  (List.range' 1 16).flatMap fun rows => (List.range' 1 16).map fun columns => (rows, columns)

/-- A tile of the range that is searched. -/
def InRange (tile : ℕ × ℕ) : Prop := (1 ≤ tile.1 ∧ tile.1 ≤ 16) ∧ 1 ≤ tile.2 ∧ tile.2 ≤ 16

/-- `score`; Python compares tuples as Lean compares lists. -/
def score (candidate : (ℕ × ℕ) × Lowered) : List ℤ :=
  [(candidate.2.sessions : ℤ), candidate.2.words, candidate.1.1 * candidate.1.2, candidate.1.1, candidate.1.2]

/-- The candidates that compile, with what they compile to. -/
def admittedTiles (value : Source) : List ((ℕ × ℕ) × Lowered) :=
  candidates.filterMap fun tile =>
    match compile (value.retile (tileList tile)) with
    | .ok l => some (tile, l)
    | .error _ => none

/-- The entries of a proposal that the flow planner reads. -/
structure Proposal where
  requested : List ℤ
  searched : ℕ
  admitted : ℕ
  tile : ℕ × ℕ
  sessions : ℕ
  words : ℤ
  source : Source

/-- The check of a requested tile. -/
def checkRequested (tile : List ℤ) : Except String Unit := do
  require (tile.length = 2) "two requested tile dimensions required"
  tile.forM fun size => integer size 1 16

def proposalOf (value : Source) (best : (ℕ × ℕ) × Lowered) : Proposal where
  requested := value.tile
  searched := 256
  admitted := (admittedTiles value).length
  tile := best.1
  sessions := best.2.sessions
  words := best.2.words
  source := value.retile (tileList best.1)

/-- `plan`. -/
def plan (value : Source) : Except String Proposal := do
  checkRequested value.tile
  let _ ← source (value.retile [16, 16])
  match (admittedTiles value).argmin score with
  | none => .error "no admitted uniform tile among 256 candidates"
  | some best => pure (proposalOf value best)

section Search

variable {value : Source} {tile : ℕ × ℕ} {l l' : Lowered} {p : Proposal} {best : (ℕ × ℕ) × Lowered}

theorem mem_candidates : tile ∈ candidates ↔ InRange tile := by
  obtain ⟨rows, columns⟩ := tile
  unfold candidates InRange
  simp only [List.mem_flatMap, List.mem_map, List.mem_range'_1, Prod.mk.injEq]
  constructor
  · rintro ⟨r, hr, c, hc, rfl, rfl⟩
    omega
  · rintro ⟨hr, hc⟩
    exact ⟨rows, by omega, columns, by omega, rfl, rfl⟩

theorem mem_admittedTiles : best ∈ admittedTiles value ↔
    InRange best.1 ∧ compile (value.retile (tileList best.1)) = .ok best.2 := by
  unfold admittedTiles
  rw [List.mem_filterMap]
  constructor
  · rintro ⟨tile, hmem, h⟩
    split at h
    · rename_i l hl
      cases h
      exact ⟨mem_candidates.mp hmem, hl⟩
    · cases h
  · rintro ⟨hrange, hl⟩
    refine ⟨best.1, mem_candidates.mpr hrange, ?_⟩
    rw [hl]

/-- Sessions first, then the words of the first jobs. -/
def Lowered.cost (l : Lowered) : ℕ ×ₗ ℤ := toLex (l.sessions, l.words)

theorem cost_le_of_score {b c : (ℕ × ℕ) × Lowered} (h : ¬ score c < score b) : b.2.cost ≤ c.2.cost := by
  unfold Lowered.cost
  rw [Prod.Lex.toLex_le_toLex]
  by_contra hne
  push Not at hne
  apply h
  unfold score
  rw [List.cons_lt_cons_iff]
  dsimp only at hne
  rcases Nat.lt_trichotomy c.2.sessions b.2.sessions with hlt | heq | hgt
  · left
    exact_mod_cast hlt
  · right
    refine ⟨by exact_mod_cast heq, ?_⟩
    rw [List.cons_lt_cons_iff]
    left
    exact hne.2 heq.symm
  · omega

/-- What the planner finds. -/
structure Best (value : Source) (p : Proposal) (l : Lowered) : Prop where
  range : InRange p.tile
  compiled : compile (value.retile (tileList p.tile)) = .ok l
  sessions : p.sessions = l.sessions
  words : p.words = l.words
  source : p.source = value.retile (tileList p.tile)
  least : ∀ tile l', InRange tile → compile (value.retile (tileList tile)) = .ok l' → l.cost ≤ l'.cost

theorem best_of_plan (h : plan value = .ok p) : ∃ l, Best value p l := by
  obtain ⟨-, h⟩ := check_then_eq_ok.mp h
  obtain ⟨a, -, h⟩ := except_bind_eq_ok.mp h
  split at h
  · cases h
  · rename_i best hbest
    cases h
    obtain ⟨hrange, hcompiled⟩ := mem_admittedTiles.mp (List.argmin_mem hbest)
    refine ⟨best.2, hrange, hcompiled, rfl, rfl, rfl, ?_⟩
    intro tile l' ht hl
    have hmem : (tile, l') ∈ admittedTiles value := mem_admittedTiles.mpr ⟨ht, hl⟩
    exact cost_le_of_score (List.not_lt_of_mem_argmin hmem hbest)

/-- The planner finds a tile whenever one in the range compiles. -/
theorem plan_total (hrequested : checkRequested value.tile = .ok ()) (ht : InRange tile)
    (hl : compile (value.retile (tileList tile)) = .ok l) : ∃ p, plan value = .ok p := by
  obtain ⟨a, ha, -, -⟩ := compile_source hl
  obtain ⟨⟨-, hr⟩, -, hc⟩ := (source_eq_ok.mp ha).1.bounds
  have hlargest := source_retile ha (checkTile_largest hr hc)
  have hmem : (tile, l) ∈ admittedTiles value := mem_admittedTiles.mpr ⟨ht, hl⟩
  cases hbest : (admittedTiles value).argmin score with
  | none =>
    rw [List.argmin_eq_none.mp hbest] at hmem
    cases hmem
  | some best =>
    refine ⟨proposalOf value best, check_then_eq_ok.mpr ⟨hrequested, except_bind_eq_ok.mpr ⟨a, hlargest, ?_⟩⟩⟩
    rw [hbest]
    rfl

end Search

end Raveil.Grid
