import Raveil.Dag.Words
import Raveil.Grid.Admission

/-! The lowering of a source: its regions do not depend on the input words, its jobs follow from its tiles. -/
namespace Raveil.Grid
open Lib Fold Dag

variable {value : Source} {a a' : Admitted} {at_ : Place} {index : ℕ} {nodes : List Node} {result : String}
  {post : Option Post} {entry : Place × ℕ} {item : Item} {l : Lowered}

/-- The regions of the jobs of a tile. -/
def Item.regions (item : Item) : List Region := item.dag.jobs.map (·.region)

/-- What a lowering is besides the words in its buffers. -/
structure LoweredMatches (l l' : Lowered) : Prop where
  regions : l'.items.map Item.regions = l.items.map Item.regions
  rows : l'.rows = l.rows
  columns : l'.columns = l.columns

section Words

theorem map_eq_of_forall₂ {α β : Type} {f : α → β} {l l' : List α} (h : List.Forall₂ (fun a b => f b = f a) l l') :
    l'.map f = l.map f := by
  induction h with
  | nil => rfl
  | cons hf _ ih => rw [List.map_cons, List.map_cons, ih, hf]

theorem Alike.rectangle (h : Alike a a') (at_ : Place) (index : ℕ) : rectangle a' at_ index = rectangle a at_ index := by
  unfold Grid.rectangle
  rw [h.views, h.extent]

theorem Alike.regionOf (h : Alike a a') (nodes : List Node) (result : String) (at_ : Place) (lengths : List ℤ) :
    regionOf a' nodes result at_ lengths = regionOf a nodes result at_ lengths := by
  unfold Grid.regionOf
  rw [h.views, h.extent, h.fold]
  congr 2
  funext view
  unfold View.inTile
  rw [h.rectangle, h.extent]

theorem sameShape_getElem? {grids grids' : List Tiling.Grid} {grid : Tiling.Grid} (h : List.Forall₂ SameShape grids grids')
    (hg : grids[index]? = some grid) : ∃ grid', grids'[index]? = some grid' := by
  have hlt := (List.getElem?_eq_some_iff.mp hg).1
  rw [h.length_eq] at hlt
  exact ⟨_, List.getElem?_eq_getElem hlt⟩

/-- A buffer is as long as its rectangle has cells, whatever the grid. -/
theorem Alike.bufferOf (h : Alike a a') {b : List ℕ} (hb : bufferOf a at_ index = .ok b) :
    ∃ b', bufferOf a' at_ index = .ok b' ∧ SameLength b b' := by
  unfold Grid.bufferOf at hb ⊢
  rw [h.rectangle]
  cases hr : Grid.rectangle a at_ index with
  | none =>
    rw [hr] at hb
    cases hb
    exact ⟨[], rfl, rfl, by simp⟩
  | some r =>
    rw [hr] at hb
    cases hg : a.grids[index]? with
    | none =>
      rw [hg] at hb
      cases hb
    | some grid =>
      obtain ⟨grid', hg'⟩ := sameShape_getElem? h.grids hg
      rw [hg] at hb
      rw [hg']
      dsimp only at hb ⊢
      obtain ⟨hfits, hb⟩ := require_then_eq_ok.mp hb
      rw [mapM_eq_map fun _ _ => Tiling.sample_eq] at hb
      cases hb
      refine ⟨_, require_then_eq_ok.mpr ⟨hfits, mapM_eq_map fun _ _ => Tiling.sample_eq⟩, ?_, ?_⟩
      · rw [List.length_map, List.length_map]
      · intro w hw
        obtain ⟨cell, -, rfl⟩ := List.mem_map.mp hw
        exact Tiling.wordAt_lt

theorem jobsOf_matches (region : Region) (second : Option Region) {buffers buffers' : List (List ℕ)}
    (h : List.Forall₂ SameLength buffers buffers') :
    List.Forall₂ JobMatches (jobsOf region buffers second) (jobsOf region buffers' second) := by
  have hinputs : List.Forall₂ OperandMatches (buffers.map Operand.literal) (buffers'.map Operand.literal) := by
    rw [List.forall₂_map_left_iff, List.forall₂_map_right_iff]
    exact h.imp fun _ _ => .literal
  cases second with
  | none => exact .cons ⟨rfl, rfl, hinputs⟩ .nil
  | some second =>
    have hempty : SameLength [] [] := ⟨rfl, by simp⟩
    exact .cons ⟨rfl, rfl, hinputs⟩ (.cons ⟨rfl, rfl, .cons (.link _ _ _) (.cons (.literal hempty) .nil)⟩ .nil)

theorem jobsOf_regions (region : Region) (buffers : List (List ℕ)) (second : Option Region) :
    (jobsOf region buffers second).map (·.region) = region :: second.toList := by
  cases second <;> rfl

/-- A tile that is lowered is lowered to the same regions over other words. -/
theorem Alike.tileItem (h : Alike a a') (hi : tileItem a nodes result post entry = .ok item) :
    ∃ item', tileItem a' nodes result post entry = .ok item' ∧ item'.regions = item.regions := by
  obtain ⟨buffers, hbuffers, hi⟩ := except_bind_eq_ok.mp hi
  obtain ⟨config, hconfig, hi⟩ := except_bind_eq_ok.mp hi
  obtain ⟨configs, hconfigs, hi⟩ := except_bind_eq_ok.mp hi
  obtain ⟨plan, hplan, hi⟩ := except_bind_eq_ok.mp hi
  cases hi
  have hrange : List.Forall₂ (· = ·) (List.range 2) (List.range 2) := List.forall₂_same.mpr fun _ _ => rfl
  obtain ⟨buffers', hbuffers', hsame⟩ :=
    mapM_forall₂ hrange (fun i i' heq b hb => heq ▸ h.bufferOf hb) hbuffers
  have hlengths : (buffers'.map fun buffer => (buffer.length : ℤ)) = buffers.map fun buffer => (buffer.length : ℤ) :=
    map_eq_of_forall₂ (hsame.imp fun _ _ hb => congrArg Nat.cast hb.1)
  refine ⟨_, except_bind_eq_ok.mpr ⟨buffers', hbuffers', except_bind_eq_ok.mpr ⟨config, ?_,
    except_bind_eq_ok.mpr ⟨configs, hconfigs, except_bind_eq_ok.mpr ⟨plan, compilePlan_matches ?_ hplan, rfl⟩⟩⟩⟩, ?_⟩
  · rw [h.regionOf, hlengths]
    exact hconfig
  · rw [h.regionOf, hlengths]
    exact jobsOf_matches _ _ hsame
  · dsimp only [Item.regions]
    rw [jobsOf_regions, jobsOf_regions, h.regionOf, hlengths]

/-- A source that compiles compiles to the same regions over other words. -/
theorem compile_matches {inputs' : List GridInput} (h : compile value = .ok l)
    (hm : List.Forall₂ Matches value.inputs inputs') :
    ∃ l', compile { value with inputs := inputs' } = .ok l' ∧ LoweredMatches l l' := by
  obtain ⟨a, ha, h⟩ := except_bind_eq_ok.mp h
  obtain ⟨nodes, hnodes, h⟩ := except_bind_eq_ok.mp h
  obtain ⟨post, hpost, h⟩ := except_bind_eq_ok.mp h
  obtain ⟨items, hitems, h⟩ := except_bind_eq_ok.mp h
  cases h
  obtain ⟨a', ha', halike⟩ := source_matches ha hm
  obtain ⟨items', hitems', hall⟩ := mapM_forall₂ (List.forall₂_same.mpr fun _ _ => rfl)
    (fun e e' (heq : e = e') item hi => heq ▸ halike.tileItem hi) hitems
  refine ⟨_, except_bind_eq_ok.mpr ⟨a', ha', except_bind_eq_ok.mpr ⟨nodes, hnodes, except_bind_eq_ok.mpr ⟨post, hpost,
    except_bind_eq_ok.mpr ⟨items', ?_, rfl⟩⟩⟩⟩, map_eq_of_forall₂ hall, halike.rows, halike.columns⟩
  rw [halike.rows, halike.columns]
  exact hitems'

end Words

section Counts

/-- The dimensions of a lowering are those of its source. -/
theorem compile_source (h : compile value = .ok l) :
    ∃ a, source value = .ok a ∧ l.rows = a.rows ∧ l.columns = a.columns := by
  obtain ⟨a, ha, h⟩ := except_bind_eq_ok.mp h
  obtain ⟨nodes, hnodes, h⟩ := except_bind_eq_ok.mp h
  obtain ⟨post, hpost, h⟩ := except_bind_eq_ok.mp h
  obtain ⟨items, hitems, h⟩ := except_bind_eq_ok.mp h
  cases h
  exact ⟨a, ha, rfl, rfl⟩

theorem tileItem_jobs (h : tileItem a nodes result post entry = .ok item) :
    item.dag.jobs.length = if post.isSome then 2 else 1 := by
  obtain ⟨buffers, -, h⟩ := except_bind_eq_ok.mp h
  obtain ⟨config, -, h⟩ := except_bind_eq_ok.mp h
  obtain ⟨configs, -, h⟩ := except_bind_eq_ok.mp h
  obtain ⟨plan, -, h⟩ := except_bind_eq_ok.mp h
  cases h
  cases post <;> rfl

theorem tileItems_jobs {entries : List (Place × ℕ)} {items : List Item}
    (h : List.Forall₂ (fun entry item => tileItem a nodes result post entry = .ok item) entries items) :
    (items.map fun item => item.dag.jobs.length).sum = items.length * if post.isSome then 2 else 1 := by
  induction h with
  | nil => simp
  | cons hi _ ih => rw [List.map_cons, List.sum_cons, ih, tileItem_jobs hi, List.length_cons, Nat.succ_mul, Nat.add_comm]

/-- Every tile has one job, or two with a map after the fold. -/
theorem compile_jobs (h : compile value = .ok l) : l.jobs = l.sessions * if value.post.isSome then 2 else 1 := by
  obtain ⟨a, -, h⟩ := except_bind_eq_ok.mp h
  obtain ⟨nodes, -, h⟩ := except_bind_eq_ok.mp h
  obtain ⟨post, hpost, h⟩ := except_bind_eq_ok.mp h
  obtain ⟨items, hitems, h⟩ := except_bind_eq_ok.mp h
  cases h
  have hsome : post.isSome = value.post.isSome := by
    cases hp : value.post with
    | none =>
      rw [hp] at hpost
      cases hpost
      rfl
    | some p =>
      rw [hp] at hpost
      obtain ⟨q, -, hq⟩ := except_map_eq_ok.mp hpost
      rw [← hq]
      rfl
  rw [← hsome]
  exact tileItems_jobs (mapM_eq_ok_iff.mp hitems)

end Counts

end Raveil.Grid
