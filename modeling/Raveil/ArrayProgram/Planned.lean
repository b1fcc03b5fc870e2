import Raveil.ArrayProgram.Alike

/-! Passes that are planned one after the other over zeros: their planes are those in use, and they run alike over the
words of the program. -/
namespace Raveil.ArrayProgram
open Lib
open Raveil.Flow (Output zeros)

section Planes

variable {planes : Planes} {store store' : Store} {release : List String} {name : String} {grid grid' : Tiling.Grid}
  {step : Step} {output : Output}

/-- The store without these names. -/
def released (release : List String) (store : Store) : Store := fun name => if name ∈ release then none else store name

theorem planesOf_update (store : Store) (name : String) (grid : Tiling.Grid) :
    planesOf (Function.update store name (some grid)) = Function.update (planesOf store) name (some (ofGrid grid)) := by
  funext x
  unfold planesOf
  by_cases hx : x = name
  · subst hx
    simp
  · simp [Function.update_of_ne hx]

theorem planesOf_released (release : List String) (store : Store) :
    planesOf (released release store) = fun name => if name ∈ release then none else planesOf store name := by
  funext x
  unfold planesOf released
  split <;> rfl

theorem isSome_planesOf (store : Store) (name : String) : (planesOf store name).isSome = (store name).isSome :=
  Option.isSome_map

theorem isSome_released : (released release store name).isSome ↔ (store name).isSome ∧ name ∉ release := by
  unfold released
  split
  · simp_all
  · simp_all

theorem isSome_update : (Function.update store name (some grid) x).isSome ↔ (store x).isSome ∨ x = name := by
  by_cases hx : x = name
  · subst hx
    simp
  · simp [hx]

theorem StoreAlike.released (h : StoreAlike store store') (release : List String) :
    StoreAlike (ArrayProgram.released release store) (ArrayProgram.released release store') := by
  intro x
  unfold ArrayProgram.released
  split
  · exact Or.inl ⟨rfl, rfl⟩
  · exact h x

theorem foldl_release (release : List String) (planes : Planes) :
    release.foldl (fun planes name => Function.update planes name none) planes =
      fun name => if name ∈ release then none else planes name := by
  induction release generalizing planes with
  | nil => simp
  | cons x release ih =>
    rw [List.foldl_cons, ih]
    funext name
    by_cases hx : name = x
    · subst hx
      simp
    · simp [hx]

/-- Planes that are there are released one by one. -/
theorem foldlM_release (hnodup : release.Nodup) (hpresent : ∀ name ∈ release, (planes name).isSome) :
    release.foldlM (fun planes name => do
      require (planes name).isSome "KeyError"
      pure (Function.update planes name none)) planes =
      .ok (release.foldl (fun planes name => Function.update planes name none) planes) := by
  induction release generalizing planes with
  | nil => rfl
  | cons x release ih =>
    rw [List.nodup_cons] at hnodup
    rw [List.forall_mem_cons] at hpresent
    rw [List.foldlM_cons, List.foldl_cons, ← ih hnodup.2]
    · rw [require_of hpresent.1]
      rfl
    · intro name hname
      have hne : name ≠ x := fun heq => hnodup.1 (heq ▸ hname)
      rw [Function.update_of_ne hne]
      exact hpresent.2 name hname

/-- A pass is committed when what it releases is there. -/
theorem commit_eq (hnodup : step.release.Nodup) (hpresent : ∀ name ∈ step.release, (store name).isSome ∨ name = step.id) :
    commit (planesOf store) step (ofGrid grid) =
      .ok (planesOf (released step.release (Function.update store step.id (some grid)))) := by
  unfold commit
  rw [← planesOf_update, foldlM_release hnodup, foldl_release, planesOf_released]
  intro name hname
  rw [isSome_planesOf, isSome_update]
  exact hpresent name hname

end Planes

section Books

variable {value : Program} {steps : List Step} {outputs : List (String × String)} {s : Planning} {n : ℕ} {step : Step}
  {name : String} {peak : ℤ}

/-- The planes in use before a pass. -/
abbrev InUse (steps : List Step) (outputs : List (String × String)) : ℕ → String → Prop :=
  LiveAt Step.id Step.args steps (outputs.map Prod.snd)

/-- Every pass reads planes that passes before it write, and no plane is written twice. -/
abbrev Ordered (steps : List Step) : Prop := Straight Step.id Step.args steps

/-- A pass with the planes it releases: those whose last use it is. -/
structure Retired (steps : List Step) (outputs : List (String × String)) (i : ℕ) (step step' : Step) : Prop where
  same : step' = { step with release := step'.release }
  nodup : step'.release.Nodup
  release : ∀ name, name ∈ step'.release ↔ (InUse steps outputs i name ∨ name = step.id) ∧ lastUses steps outputs name = some i

/-- What holds of the books before the pass `n`. -/
structure Books (steps : List Step) (outputs : List (String × String)) (s : Planning) (n : ℕ) : Prop where
  keys : ∀ name, name ∈ s.sizes.map Prod.fst ↔ InUse steps outputs n name
  nodup : (s.sizes.map Prod.fst).Nodup
  planes : ∃ zeroed : Store, s.planes = planesOf zeroed ∧ (∀ name, (zeroed name).isSome ↔ InUse steps outputs n name) ∧
    ∀ entry ∈ s.sizes, ∃ grid, zeroed entry.1 = some grid ∧ entry.2 = grid.words.length
  length : s.steps.length = n
  retired : ∀ (i : ℕ) step', s.steps[i]? = some step' → ∃ step, steps[i]? = some step ∧ Retired steps outputs i step step'

/-- One pass of a plan: its source compiles over the planes so far, and then it retires. -/
def PlannedStep (value : Program) (steps : List Step) (outputs : List (String × String)) (s s' : Planning) (n : ℕ)
    (step : Step) : Prop :=
  ∃ bound l peak, bind value step s.planes = .ok bound ∧ Grid.compile bound = .ok l ∧
    s' = s.retire (lastUses steps outputs) step n peak

theorem books_start (peak : ℤ) : Books steps outputs { peak } 0 where
  keys name := iff_of_false List.not_mem_nil not_liveAt_zero
  nodup := List.nodup_nil
  planes := ⟨fun _ => none, rfl, fun name => iff_of_false Bool.false_ne_true not_liveAt_zero,
    fun entry h => absurd h List.not_mem_nil⟩
  length := rfl
  retired i step' h := by cases h

theorem mem_releases {last : String → Option ℕ} {sizes : List (String × ℕ)} {i : ℕ} :
    name ∈ releases last i sizes ↔ name ∈ sizes.map Prod.fst ∧ last name = some i := by
  unfold releases
  rw [List.mem_insertionSort, List.mem_filter, decide_eq_true_iff]

theorem nodup_releases {last : String → Option ℕ} {sizes : List (String × ℕ)} {i : ℕ} (h : (sizes.map Prod.fst).Nodup) :
    (releases last i sizes).Nodup :=
  (List.perm_insertionSort _ _).nodup_iff.mpr (h.filter _)

theorem assign_new {sizes : List (String × ℕ)} {size : ℕ} (h : name ∉ sizes.map Prod.fst) :
    assign name size sizes = sizes ++ [(name, size)] := by
  induction sizes with
  | nil => rfl
  | cons entry sizes ih =>
    simp only [List.map_cons, List.mem_cons, not_or] at h
    rw [assign, if_neg (Ne.symm h.1), ih h.2, List.cons_append]

/-- The zeros of a shape within the bounds. -/
theorem exists_zeros {shape : ℕ × ℕ} (hr : 1 ≤ shape.1 ∧ shape.1 ≤ 64) (hc : 1 ≤ shape.2 ∧ shape.2 ≤ 64) :
    ∃ grid, ofGrid grid = zeros shape.1 shape.2 := by
  refine exists_grid hr hc (List.length_replicate ..) ?_
  intro w hw
  rw [List.eq_of_mem_replicate hw]
  exact Nat.two_pow_pos 32

theorem length_words {grid : Tiling.Grid} {rows columns : ℕ} (h : ofGrid grid = zeros rows columns) :
    grid.words.length = rows * columns := by
  have hwords := congrArg Output.words h
  change grid.words = List.replicate (rows * columns) 0 at hwords
  rw [hwords, List.length_replicate]

/-- The planes of the books after a pass. -/
theorem retire_planes {zeroed : Store} {grid : Tiling.Grid} (hplanes : s.planes = planesOf zeroed)
    (hgrid : ofGrid grid = zeros step.shape.1 step.shape.2) :
    (s.retire (lastUses steps outputs) step n peak).planes = planesOf (released
      (releases (lastUses steps outputs) n (assign step.id (step.shape.1 * step.shape.2) s.sizes))
      (Function.update zeroed step.id (some grid))) := by
  unfold Planning.retire
  dsimp only
  rw [foldl_release, hplanes, ← hgrid, ← planesOf_update, planesOf_released]

variable (hordered : Ordered steps) (hi : steps[n]? = some step)
include hordered hi

/-- What is in use after a pass. -/
theorem inUse_succ : InUse steps outputs (n + 1) name ↔
    (InUse steps outputs n name ∨ name = step.id) ∧ lastUses steps outputs name ≠ some n :=
  liveAt_succ hordered hi

/-- What is released at a pass. -/
theorem Books.mem_release (h : Books steps outputs s n) :
    name ∈ releases (lastUses steps outputs) n (assign step.id (step.shape.1 * step.shape.2) s.sizes) ↔
      (InUse steps outputs n name ∨ name = step.id) ∧ lastUses steps outputs name = some n := by
  have hnew : step.id ∉ s.sizes.map Prod.fst := fun hin => not_liveAt_write hordered hi ((h.keys _).mp hin)
  rw [mem_releases, assign_new hnew, List.map_append, List.mem_append, h.keys name]
  simp

theorem Books.nodup_release (h : Books steps outputs s n) :
    (releases (lastUses steps outputs) n (assign step.id (step.shape.1 * step.shape.2) s.sizes)).Nodup := by
  have hnew : step.id ∉ s.sizes.map Prod.fst := fun hin => not_liveAt_write hordered hi ((h.keys _).mp hin)
  apply nodup_releases
  rw [assign_new hnew, List.map_append]
  refine List.nodup_append.mpr ⟨h.nodup, List.nodup_singleton _, ?_⟩
  intro x hx y hy heq
  rw [List.map_singleton, List.mem_singleton] at hy
  rw [heq, hy] at hx
  exact hnew hx

/-- The books are kept by a pass. -/
theorem Books.retire (h : Books steps outputs s n) (hr : 1 ≤ step.shape.1 ∧ step.shape.1 ≤ 64)
    (hc : 1 ≤ step.shape.2 ∧ step.shape.2 ≤ 64) :
    Books steps outputs (s.retire (lastUses steps outputs) step n peak) (n + 1) := by
  have hnew : step.id ∉ s.sizes.map Prod.fst := fun hin => not_liveAt_write hordered hi ((h.keys _).mp hin)
  have hsizes : (s.retire (lastUses steps outputs) step n peak).sizes = (s.sizes ++ [(step.id, step.shape.1 * step.shape.2)]).filter
      fun entry => entry.1 ∉ releases (lastUses steps outputs) n (assign step.id (step.shape.1 * step.shape.2) s.sizes) := by
    rw [← assign_new hnew]
    rfl
  have hkeys : ∀ name, name ∈ (s.retire (lastUses steps outputs) step n peak).sizes.map Prod.fst ↔ InUse steps outputs (n + 1) name := by
    intro name
    rw [hsizes, inUse_succ hordered hi]
    constructor
    · intro hname
      obtain ⟨entry, hentry, rfl⟩ := List.mem_map.mp hname
      rw [List.mem_filter, List.mem_append, decide_eq_true_iff, h.mem_release hordered hi] at hentry
      obtain ⟨hentry, hkept⟩ := hentry
      have hin : InUse steps outputs n entry.1 ∨ entry.1 = step.id := by
        rcases hentry with hentry | hentry
        · exact Or.inl ((h.keys _).mp (List.mem_map_of_mem hentry))
        · rw [List.mem_singleton.mp hentry]
          exact Or.inr rfl
      exact ⟨hin, fun hlast => hkept ⟨hin, hlast⟩⟩
    · rintro ⟨hin, hlast⟩
      have hentry : ∃ entry ∈ s.sizes ++ [(step.id, step.shape.1 * step.shape.2)], entry.1 = name := by
        rcases hin with hin | rfl
        · obtain ⟨entry, hentry, heq⟩ := List.mem_map.mp ((h.keys _).mpr hin)
          exact ⟨entry, List.mem_append_left _ hentry, heq⟩
        · exact ⟨_, List.mem_append_right _ (List.mem_singleton_self _), rfl⟩
      obtain ⟨entry, hentry, rfl⟩ := hentry
      refine List.mem_map_of_mem (List.mem_filter.mpr ⟨hentry, ?_⟩)
      rw [decide_eq_true_iff, h.mem_release hordered hi]
      exact fun hkept => hlast hkept.2
  refine ⟨hkeys, ?_, ?_, ?_, ?_⟩
  · rw [hsizes]
    refine List.Nodup.sublist (List.filter_sublist.map _) ?_
    rw [List.map_append]
    refine List.nodup_append.mpr ⟨h.nodup, List.nodup_singleton _, ?_⟩
    intro x hx y hy heq
    rw [List.map_singleton, List.mem_singleton] at hy
    rw [heq, hy] at hx
    exact hnew hx
  · obtain ⟨zeroed, hplanes, hlive, hwords⟩ := h.planes
    obtain ⟨grid, hgrid⟩ := exists_zeros hr hc
    refine ⟨_, retire_planes hplanes hgrid, ?_, ?_⟩
    · intro name
      rw [isSome_released, isSome_update, hlive, h.mem_release hordered hi, inUse_succ hordered hi]
      exact ⟨fun hname => ⟨hname.1, fun hlast => hname.2 ⟨hname.1, hlast⟩⟩, fun hname => ⟨hname.1, fun hin => hname.2 hin.2⟩⟩
    · intro entry hentry
      rw [hsizes, List.mem_filter, decide_eq_true_iff] at hentry
      unfold released
      rw [if_neg hentry.2]
      rcases List.mem_append.mp hentry.1 with hold | hnewest
      · have hne : entry.1 ≠ step.id := fun heq => hnew (heq ▸ List.mem_map_of_mem hold)
        rw [Function.update_of_ne hne]
        exact hwords entry hold
      · rw [List.mem_singleton.mp hnewest]
        exact ⟨grid, Function.update_self .., (length_words hgrid).symm⟩
  · change (s.steps ++ [_]).length = n + 1
    rw [List.length_append, List.length_singleton, h.length]
  · intro i step' hstep'
    change (s.steps ++ [_])[i]? = some step' at hstep'
    by_cases hlt : i < s.steps.length
    · rw [List.getElem?_append_left hlt] at hstep'
      exact h.retired i step' hstep'
    · have hle := (List.getElem?_eq_some_iff.mp hstep').1
      rw [List.length_append, List.length_singleton] at hle
      obtain rfl : i = s.steps.length := by omega
      rw [List.getElem?_concat_length] at hstep'
      cases hstep'
      rw [h.length]
      exact ⟨step, hi, rfl, h.nodup_release hordered hi, fun name => h.mem_release hordered hi⟩

end Books

section Runs

variable {value value' : Program} {steps : List Step} {outputs : List (String × String)} {s s' : Planning} {n : ℕ} {step : Step}
  {full live : Store} {release : List String}

/-- What holds of the run of the passes before `n` over the words of a program: all grids so far are in `full`, and those
in use are the planes. -/
structure Runs (value' : Program) (steps : List Step) (outputs : List (String × String)) (s : Planning) (n : ℕ)
    (full live : Store) : Prop where
  written : ∀ name, (full name).isSome → ∃ j < n, (steps.map Step.id)[j]? = some name
  settled : ∀ i < n, ∀ step, steps[i]? = some step → Settled value' full step
  kept : Extends live full
  inUse : ∀ name, (live name).isSome ↔ InUse steps outputs n name
  alike : ∃ zeroed, s.planes = planesOf zeroed ∧ StoreAlike zeroed live
  run : s.steps.foldlM (executeStep value') (fun _ => none) = .ok (planesOf live)

theorem runs_start (value' : Program) (peak : ℤ) : Runs value' steps outputs { peak } 0 (fun _ => none) fun _ => none where
  written name h := by cases h
  settled i hi := absurd hi (Nat.not_lt_zero i)
  kept name grid h := by cases h
  inUse name := iff_of_false Bool.false_ne_true not_liveAt_zero
  alike := ⟨fun _ => none, rfl, storeAlike_none⟩
  run := rfl

theorem bind_release (value : Program) (step : Step) (release : List String) (planes : Planes) :
    bind value { step with release } planes = bind value step planes := rfl

theorem exists_ofGrid_eq {plane : Output} {grid : Tiling.Grid} (h : ofGrid grid = plane) :
    grid.rows = plane.rows ∧ grid.columns = plane.columns := by
  subst h
  exact ⟨rfl, rfl⟩

variable (hwell : WellFormed value') (halike : ProgramAlike value value') (hordered : Ordered steps)
include hwell halike hordered

omit hordered in
/-- The pass that is planned next compiles over the words of the program as well, and settles its grid. -/
theorem Runs.next (h : Runs value' steps outputs s n full live)
    (hstep : PlannedStep value steps outputs s s' n step) :
    (1 ≤ step.shape.1 ∧ step.shape.1 ≤ 64) ∧ (1 ≤ step.shape.2 ∧ step.shape.2 ≤ 64) ∧
      ∃ bound f grid, bind value' step (planesOf live) = .ok bound ∧
        Grid.reference bound = .ok grid.words ∧ ofGrid grid = ⟨step.shape.1, step.shape.2, grid.words⟩ ∧
        passField value' live step.args step.body = some f ∧ Shows grid step.shape f := by
  obtain ⟨bound, l, peak, hbind, hcompile, -⟩ := hstep
  obtain ⟨zeroed, hplanes, hzeros⟩ := h.alike
  rw [hplanes] at hbind
  obtain ⟨inputs, hbind', hmatches⟩ := bind_alike halike hzeros hbind
  obtain ⟨l', hcompile', -⟩ := Grid.compile_matches hcompile hmatches
  obtain ⟨hr, hc, hrows, hcolumns⟩ := bind_bounds hbind' hcompile'
  obtain ⟨f, hf, hreference⟩ := reference_field hwell hbind' hcompile'
  obtain ⟨words, hwords, hlen, hlt⟩ := Grid.reference_total hcompile'
  rw [hrows, hcolumns] at hlen
  obtain ⟨grid, hgrid⟩ := exists_grid hr hc hlen hlt
  obtain rfl : grid.words = words := congrArg Output.words hgrid
  refine ⟨hr, hc, _, f, grid, hbind', hwords, hgrid, hf, ?_⟩
  rw [hwords] at hreference
  rw [Except.ok.inj hreference] at hgrid
  exact shows_of_words (f := fun at_ => f at_.1 at_.2) hgrid

/-- One more pass is planned and run. -/
theorem Runs.advance (hi : steps[n]? = some step) (hbooks : Books steps outputs s n)
    (h : Runs value' steps outputs s n full live) (hstep : PlannedStep value steps outputs s s' n step) :
    Books steps outputs s' (n + 1) ∧ ∃ full' live', Extends full full' ∧ Runs value' steps outputs s' (n + 1) full' live' := by
  obtain ⟨hr, hc, bound, f, grid, hbind, hreference, hgrid, hf, hshows⟩ := h.next hwell halike hstep
  obtain ⟨-, -, peak, -, -, rfl⟩ := hstep
  refine ⟨hbooks.retire hordered hi hr hc, ?_⟩
  have hfresh : full step.id = none := by
    rw [← Option.not_isSome_iff_eq_none]
    intro hsome
    obtain ⟨j, hj, hwritten⟩ := h.written _ hsome
    have := hordered.position hwritten (getElem?_map_writes hi)
    omega
  have hextends : Extends full (Function.update full step.id (some grid)) := by
    intro name grid' hgrid'
    have hne : name ≠ step.id := fun heq => by rw [heq, hfresh] at hgrid'; cases hgrid'
    rw [Function.update_of_ne hne]
    exact hgrid'
  have hkept : Extends live (Function.update full step.id (some grid)) :=
    fun name grid' hgrid' => hextends _ _ (h.kept _ _ hgrid')
  have hretired (name : String) := @Books.mem_release steps outputs s n step name hordered hi hbooks
  generalize hrelease : releases (lastUses steps outputs) n (assign step.id (step.shape.1 * step.shape.2) s.sizes) = release
    at hretired
  have hlive (name : String) : (released release (Function.update live step.id (some grid)) name).isSome ↔
      InUse steps outputs (n + 1) name := by
    rw [isSome_released, isSome_update, h.inUse, hretired, inUse_succ hordered hi]
    exact ⟨fun hname => ⟨hname.1, fun hlast => hname.2 ⟨hname.1, hlast⟩⟩, fun hname => ⟨hname.1, fun hin => hname.2 hin.2⟩⟩
  refine ⟨_, released release (Function.update live step.id (some grid)), hextends, ?_, ?_, ?_, hlive, ?_, ?_⟩
  · intro name hname
    rcases isSome_update.mp hname with hname | rfl
    · obtain ⟨j, hj, hwritten⟩ := h.written _ hname
      exact ⟨j, by omega, hwritten⟩
    · exact ⟨n, by omega, getElem?_map_writes hi⟩
  · intro i hin step' hstep'
    rcases Nat.lt_succ_iff_lt_or_eq.mp hin with hlt | rfl
    · exact (h.settled i hlt step' hstep').mono hextends
    · rw [hi] at hstep'
      cases hstep'
      exact ⟨grid, f, Function.update_self .., passField_mono hkept hf, hshows⟩
  · intro name grid' hname
    unfold released at hname
    split at hname
    · cases hname
    · by_cases hx : name = step.id
      · rw [hx, Function.update_self] at hname ⊢
        exact hname
      · rw [Function.update_of_ne hx] at hname
        exact hkept _ _ hname
  · obtain ⟨zeroed, hplanes, hzeros⟩ := h.alike
    obtain ⟨zero, hzero⟩ := exists_zeros hr hc
    refine ⟨_, hrelease ▸ retire_planes hplanes hzero, (hzeros.update ?_ step.id).released release⟩
    obtain ⟨hrows, hcolumns⟩ := exists_ofGrid_eq hgrid
    obtain ⟨hrows', hcolumns'⟩ := exists_ofGrid_eq hzero
    exact ⟨hrows.trans hrows'.symm, hcolumns.trans hcolumns'.symm⟩
  · change (s.steps ++ [{ step with release := releases (lastUses steps outputs) n _ }]).foldlM (executeStep value') _ = _
    rw [hrelease, List.foldlM_append, h.run]
    have hcommit : commit (planesOf live) { step with release } (ofGrid grid) =
        .ok (planesOf (released release (Function.update live step.id (some grid)))) := by
      refine commit_eq ?_ ?_
      · exact hrelease ▸ hbooks.nodup_release hordered hi
      · intro name hname
        rw [h.inUse]
        exact ((hretired name).mp hname).1
    have hexecute : executeStep value' (planesOf live) { step with release } =
        .ok (planesOf (released release (Function.update live step.id (some grid)))) :=
      except_bind_eq_ok.mpr ⟨bound, (bind_release ..).trans hbind, except_bind_eq_ok.mpr ⟨grid.words, hreference, hgrid ▸ hcommit⟩⟩
    refine except_bind_eq_ok.mpr ⟨planesOf live, rfl, ?_⟩
    rw [List.foldlM_cons]
    exact except_bind_eq_ok.mpr ⟨_, hexecute, rfl⟩

/-- The passes that are planned run one after the other, and the planes are those in use. -/
theorem planned_runs {g : ℕ → Planning} {peak : ℤ} (hstart : g 0 = { peak })
    (hg : ∀ (n : ℕ) step, steps[n]? = some step → PlannedStep value steps outputs (g n) (g (n + 1)) n step) :
    ∀ n ≤ steps.length, Books steps outputs (g n) n ∧ ∃ full live, Runs value' steps outputs (g n) n full live := by
  intro n
  induction n with
  | zero =>
    intro _
    rw [hstart]
    exact ⟨books_start peak, _, _, runs_start value' peak⟩
  | succ n ih =>
    intro hn
    obtain ⟨hbooks, full, live, hruns⟩ := ih (by omega)
    have hi : steps[n]? = some steps[n] := List.getElem?_eq_getElem (by omega)
    obtain ⟨hbooks', full', live', -, hruns'⟩ :=
      hruns.advance hwell halike hordered hi hbooks (hg n _ hi)
    exact ⟨hbooks', full', live', hruns'⟩

end Runs

end Raveil.ArrayProgram
