import Mathlib.Logic.Relation
import Raveil.Authority.Capability

/-! Handles over whole histories of the capability table: issued once, dead after revocation, and
never stronger than the capability they were delegated from. -/
namespace Raveil.Authority

inductive CapOp
  | create (ownerTask objectType objectId rights : ℕ)
  | delegate (sourceOwner source targetOwner rights : ℕ)
  | revoke (handle : ℕ)

/-- The table after an operation, and the handle or the truth value it returned. -/
def capStep (table : CapTable) : CapOp → CapTable × ℕ
  | .create ownerTask objectType objectId rights => capCreate table ownerTask objectType objectId rights
  | .delegate sourceOwner source targetOwner rights => capDelegate table sourceOwner source targetOwner rights
  | .revoke handle => ((capRevoke table handle).1, if (capRevoke table handle).2 then 1 else 0)

/-- The table after the first `n` operations since `cap_init`. -/
def capRun (table : CapTable) (ops : ℕ → CapOp) : ℕ → CapTable
  | 0 => capInit table
  | n + 1 => (capStep (capRun table ops n) (ops n)).1

/-- What an operation records for the handle it issues. -/
def recorded (table : CapTable) : CapOp → Option CapView
  | .create ownerTask objectType objectId rights => some ⟨ownerTask, objectType, objectId, rights⟩
  | .delegate _ source targetOwner rights => (decodeHandle source).map fun place =>
      ⟨targetOwner, (table place.1).view.objectType, (table place.1).view.objectId, rights⟩
  | .revoke _ => none

/-- Operation `n` issued `handle` and recorded `view` for it. -/
structure Issued (table : CapTable) (ops : ℕ → CapOp) (n handle : ℕ) (view : CapView) : Prop where
  result : (capStep (capRun table ops n) (ops n)).2 = handle
  nonzero : handle ≠ 0
  view : recorded (capRun table ops n) (ops n) = some view

/-- Operation `n` revoked `handle`. -/
structure Revoked (table : CapTable) (ops : ℕ → CapOp) (n handle : ℕ) : Prop where
  op : ops n = .revoke handle
  result : (capRevoke (capRun table ops n) handle).2 = true

/-- Operation `m` delegated the capability that operation `l` had issued. -/
structure Delegates (table : CapTable) (ops : ℕ → CapOp) (l m : ℕ) : Prop where
  issued : ∃ sourceOwner source targetOwner rights view, ops m = .delegate sourceOwner source targetOwner rights ∧
    l < m ∧ Issued table ops l source view
  succeeded : ∃ handle view, Issued table ops m handle view

section Handle

theorem makeHandle_eq (slot : Fin 64) (generation : ℕ) :
    makeHandle slot generation = generation * 2 ^ 16 + (slot.val + 1) := by
  have hlt : slot.val + 1 < 2 ^ 16 := by
    have := slot.isLt
    omega
  rw [makeHandle, ← Nat.shiftLeft_add_eq_or_of_lt hlt, Nat.shiftLeft_eq]

theorem decodeHandle_makeHandle (slot : Fin 64) {generation : ℕ} (hg : generation < 2 ^ 16) :
    decodeHandle (makeHandle slot generation) = some (slot, generation) := by
  have hs := slot.isLt
  have hlow : makeHandle slot generation &&& 0xffff = slot.val + 1 := by
    rw [show (0xffff : ℕ) = 2 ^ 16 - 1 from rfl, Nat.and_two_pow_sub_one_eq_mod, makeHandle_eq]
    omega
  have hhigh : (makeHandle slot generation >>> 16) % 2 ^ 16 = generation := by
    rw [Nat.shiftRight_eq_div_pow, makeHandle_eq]
    omega
  unfold decodeHandle
  simp only [hlow, hhigh]
  rw [dif_neg (by omega)]
  rfl

theorem makeHandle_ne_zero (slot : Fin 64) (generation : ℕ) : makeHandle slot generation ≠ 0 := by
  rw [makeHandle_eq]
  omega

theorem makeHandle_inj {slot slot' : Fin 64} {g g' : ℕ} (hg : g < 2 ^ 16) (hg' : g' < 2 ^ 16)
    (h : makeHandle slot g = makeHandle slot' g') : slot = slot' ∧ g = g' := by
  have hd := decodeHandle_makeHandle slot hg
  rw [h, decodeHandle_makeHandle slot' hg', Option.some_inj, Prod.mk.injEq] at hd
  exact ⟨hd.1.symm, hd.2.symm⟩

end Handle

section Steps

variable {table table' : CapTable} {handle : ℕ}

/-- A slot is taken for a new capability. -/
structure Takes (table : CapTable) (view : CapView) (slot : Fin 64) (table' : CapTable) (handle : ℕ) : Prop where
  free : (table slot).active = false ∧ (table slot).retired = false
  allowed : capAllowed view.ownerTask view.objectType view.objectId view.rights = true
  next : table' = Function.update table slot { table slot with active := true, view := view }
  handle : handle = makeHandle slot (table slot).generation

theorem capCreate_cases (table : CapTable) (view : CapView)
    (h : capCreate table view.ownerTask view.objectType view.objectId view.rights = (table', handle)) :
    (table' = table ∧ handle = 0) ∨ ∃ slot, Takes table view slot table' handle := by
  unfold capCreate at h
  split at h
  · rename_i hallowed
    split at h
    · rename_i slot hslot
      obtain ⟨rfl, rfl⟩ := Prod.mk.inj h
      have hfree := firstSlot_eq_some hslot
      simp only [Bool.and_eq_true, Bool.not_eq_true'] at hfree
      exact Or.inr ⟨slot, hfree, hallowed, rfl, rfl⟩
    · obtain ⟨rfl, rfl⟩ := Prod.mk.inj h
      exact Or.inl ⟨rfl, rfl⟩
  · obtain ⟨rfl, rfl⟩ := Prod.mk.inj h
    exact Or.inl ⟨rfl, rfl⟩

/-- The live capability that a handle names. -/
structure Names (table : CapTable) (handle : ℕ) (slot : Fin 64) : Prop where
  decode : decodeHandle handle = some (slot, (table slot).generation)
  active : (table slot).active = true

/-- What a delegation checks of its source and its rights. -/
structure DelegateOk (table : CapTable) (source rights : ℕ) (slot : Fin 64) : Prop where
  names : Names table source slot
  control : (table slot).view.rights &&& CAP_RIGHT_CONTROL ≠ 0
  subset : (table slot).view.rights &&& rights = rights
  without : rights &&& CAP_RIGHT_CONTROL = 0

theorem capDelegate_cases (table : CapTable) (sourceOwner source targetOwner rights : ℕ)
    (h : capDelegate table sourceOwner source targetOwner rights = (table', handle)) :
    (table' = table ∧ handle = 0) ∨ ∃ from' slot, DelegateOk table source rights from' ∧
      Takes table ⟨targetOwner, (table from').view.objectType, (table from').view.objectId, rights⟩ slot
        table' handle := by
  unfold capDelegate at h
  split at h
  · obtain ⟨rfl, rfl⟩ := Prod.mk.inj h
    exact Or.inl ⟨rfl, rfl⟩
  rename_i hargs
  split at h
  · obtain ⟨rfl, rfl⟩ := Prod.mk.inj h
    exact Or.inl ⟨rfl, rfl⟩
  rename_i slot generation hdecode
  dsimp only at h
  split at h
  · obtain ⟨rfl, rfl⟩ := Prod.mk.inj h
    exact Or.inl ⟨rfl, rfl⟩
  rename_i hsource
  simp only [not_or, Bool.not_eq_true', Bool.not_eq_false, not_not] at hsource hargs
  obtain ⟨hactive, hgen, -, hcontrol, hsubset⟩ := hsource
  obtain hnone | ⟨slot', htakes⟩ := capCreate_cases table
    ⟨targetOwner, (table slot).view.objectType, (table slot).view.objectId, rights⟩ h
  · exact Or.inl hnone
  · refine Or.inr ⟨slot, slot', ⟨⟨?_, hactive⟩, hcontrol, hsubset, hargs.2.2⟩, htakes⟩
    rw [hgen]
    exact hdecode

/-- The slot after a revocation. -/
def revokedEntry (entry : CapEntry) : CapEntry :=
  if entry.generation = 2 ^ 16 - 1 then { entry with active := false, retired := true }
  else { entry with active := false, generation := entry.generation + 1 }

theorem capRevoke_cases (table : CapTable) (handle : ℕ) : ((capRevoke table handle).1 = table ∧ (capRevoke table handle).2 = false) ∨
    ∃ slot, Names table handle slot ∧ (capRevoke table handle).2 = true ∧
      (capRevoke table handle).1 = Function.update table slot (revokedEntry (table slot)) := by
  unfold capRevoke
  split
  · exact Or.inl ⟨rfl, rfl⟩
  rename_i slot generation hdecode
  dsimp only
  split
  · exact Or.inl ⟨rfl, rfl⟩
  rename_i hlive
  simp only [not_or, Bool.not_eq_true', Bool.not_eq_false, not_not] at hlive
  have hnames : Names table handle slot := ⟨by rw [hlive.2]; exact hdecode, hlive.1⟩
  refine Or.inr ⟨slot, hnames, ?_⟩
  unfold revokedEntry
  split
  · exact ⟨rfl, rfl⟩
  · exact ⟨rfl, rfl⟩

/-- What one operation can do to the table. -/
theorem capStep_cases (table : CapTable) (op : CapOp) :
    ((capStep table op).1 = table ∧ (recorded table op = none ∨ (capStep table op).2 = 0)) ∨
      (∃ view slot, recorded table op = some view ∧ Takes table view slot (capStep table op).1 (capStep table op).2) ∨
      ∃ handle slot, op = .revoke handle ∧ Names table handle slot ∧ (capRevoke table handle).2 = true ∧
        (capStep table op).1 = Function.update table slot (revokedEntry (table slot)) := by
  cases op with
  | create ownerTask objectType objectId rights =>
    obtain ⟨h1, h2⟩ | ⟨slot, h⟩ := capCreate_cases table ⟨ownerTask, objectType, objectId, rights⟩ rfl
    · exact Or.inl ⟨h1, Or.inr h2⟩
    · exact Or.inr (Or.inl ⟨_, slot, rfl, h⟩)
  | delegate sourceOwner source targetOwner rights =>
    obtain ⟨h1, h2⟩ | ⟨from', slot, hok, h⟩ := capDelegate_cases table sourceOwner source targetOwner rights
      rfl
    · exact Or.inl ⟨h1, Or.inr h2⟩
    · refine Or.inr (Or.inl ⟨_, slot, ?_, h⟩)
      rw [recorded, hok.names.decode, Option.map_some]
  | revoke handle =>
    obtain ⟨h1, -⟩ | ⟨slot, hnames, htrue, h⟩ := capRevoke_cases table handle
    · exact Or.inl ⟨h1, Or.inl rfl⟩
    · exact Or.inr (Or.inr ⟨handle, slot, rfl, hnames, htrue, h⟩)

end Steps

section Dead

variable {table : CapTable} {ops : ℕ → CapOp} {handle n : ℕ} {slot : Fin 64}

/-- Generations never wrap, and a retired slot is never used again. -/
structure TableOk (table : CapTable) : Prop where
  generation : ∀ slot, 1 ≤ (table slot).generation ∧ (table slot).generation < 2 ^ 16
  retired : ∀ slot, (table slot).retired = true → (table slot).active = false

/-- A generation of a slot that is over. -/
def Over (table : CapTable) (slot : Fin 64) (generation : ℕ) : Prop :=
  generation < (table slot).generation ∨ (generation = (table slot).generation ∧ (table slot).retired = true)

theorem tableOk_run (table : CapTable) (ops : ℕ → CapOp) (n : ℕ) : TableOk (capRun table ops n) := by
  induction n with
  | zero => exact ⟨fun _ => ⟨le_rfl, (by decide : 1 < 2 ^ 16)⟩, fun _ _ => rfl⟩
  | succ n ih =>
    rw [capRun]
    obtain ⟨h, -⟩ | ⟨view, slot, -, h⟩ | ⟨handle, slot, -, -, -, h⟩ := capStep_cases (capRun table ops n) (ops n)
    · rw [h]
      exact ih
    · rw [h.next]
      constructor
      · intro j
        by_cases hj : j = slot
        · subst hj
          simpa using ih.generation j
        · simpa [hj] using ih.generation j
      · intro j
        by_cases hj : j = slot
        · subst hj
          simp [h.free.2]
        · simpa [hj] using ih.retired j
    · rw [h]
      constructor
      · intro j
        by_cases hj : j = slot
        · subst hj
          have := ih.generation j
          rw [Function.update_self, revokedEntry]
          split
          · exact this
          · dsimp only
            omega
        · simpa [hj] using ih.generation j
      · intro j
        by_cases hj : j = slot
        · subst hj
          rw [Function.update_self, revokedEntry]
          split <;> simp
        · simpa [hj] using ih.retired j

/-- What is over stays over. -/
theorem over_step {op : CapOp} {generation : ℕ} (h : Over table slot generation) :
    Over (capStep table op).1 slot generation := by
  obtain ⟨hs, -⟩ | ⟨view, j, -, hs⟩ | ⟨handle, j, -, hnames, -, hs⟩ := capStep_cases table op
  · rw [hs]
    exact h
  · rw [hs.next]
    by_cases hj : slot = j
    · subst hj
      simpa [Over] using h
    · simpa [Over, hj] using h
  · rw [hs]
    by_cases hj : slot = j
    · subst hj
      unfold Over at h ⊢
      rw [Function.update_self, revokedEntry]
      split
      · obtain h | h := h
        · exact Or.inl h
        · exact Or.inr ⟨h.1, rfl⟩
      · refine Or.inl ?_
        dsimp only
        omega
    · simpa [Over, hj] using h

theorem over_run {generation m : ℕ} (h : Over (capRun table ops m) slot generation) (hmn : m ≤ n) :
    Over (capRun table ops n) slot generation := by
  induction n, hmn using Nat.le_induction with
  | base => exact h
  | succ n hmn ih => exact over_step ih

/-- A handle whose generation is over resolves for nobody. -/
theorem capResolve_of_over {generation : ℕ} (hok : TableOk table)
    (hdecode : decodeHandle handle = some (slot, generation)) (h : Over table slot generation)
    (task type rights : ℕ) : capResolve table task handle type rights = none := by
  unfold capResolve
  rw [hdecode]
  dsimp only
  obtain h | ⟨-, h⟩ := h
  · rw [if_pos (Or.inr (Or.inl (by omega)))]
  · rw [if_pos (Or.inl (by simp [hok.retired slot h]))]

theorem over_of_revoked (h : Revoked table ops n handle) :
    ∃ slot generation, decodeHandle handle = some (slot, generation) ∧
      Over (capRun table ops (n + 1)) slot generation := by
  obtain ⟨-, hfalse⟩ | ⟨slot, hnames, -, hnext⟩ :=
    capRevoke_cases (capRun table ops n) handle
  · rw [h.result] at hfalse
    cases hfalse
  · refine ⟨slot, _, hnames.decode, ?_⟩
    have hrun : capRun table ops (n + 1) =
        Function.update (capRun table ops n) slot (revokedEntry (capRun table ops n slot)) := by
      rw [capRun, h.op]
      exact hnext
    unfold Over
    rw [hrun, Function.update_self, revokedEntry]
    split
    · exact Or.inr ⟨rfl, rfl⟩
    · exact Or.inl (Nat.lt_succ_self _)

end Dead

section Issue

variable {table : CapTable} {ops : ℕ → CapOp} {handle n m : ℕ} {slot : Fin 64} {view : CapView}

/-- An issued handle comes from a slot that was taken for it. -/
theorem Issued.takes (h : Issued table ops n handle view) : ∃ slot,
    Takes (capRun table ops n) view slot (capRun table ops (n + 1)) handle := by
  obtain ⟨-, hnone | hzero⟩ | ⟨view', slot, hview, htakes⟩ | ⟨handle', slot, hop, -⟩ :=
    capStep_cases (capRun table ops n) (ops n)
  · rw [h.view] at hnone
    cases hnone
  · exact absurd (h.result.symm.trans hzero) h.nonzero
  · rw [h.view] at hview
    obtain rfl := Option.some.inj hview
    refine ⟨slot, ?_⟩
    rw [h.result] at htakes
    exact htakes
  · have := h.view
    rw [hop] at this
    cases this

/-- Where an issued capability stands: its generation is over, or its slot still holds it. -/
def Stands (table : CapTable) (view : CapView) (slot : Fin 64) (generation : ℕ) : Prop :=
  Over table slot generation ∨
    (generation = (table slot).generation ∧ (table slot).active = true ∧ (table slot).view = view)

theorem stands_step {op : CapOp} {generation : ℕ} (h : Stands table view slot generation) :
    Stands (capStep table op).1 view slot generation := by
  obtain h | ⟨hgen, hactive, hview⟩ := h
  · exact Or.inl (over_step h)
  · obtain ⟨hs, -⟩ | ⟨view', j, -, hs⟩ | ⟨handle, j, -, hnames, -, hs⟩ := capStep_cases table op
    · rw [hs]
      exact Or.inr ⟨hgen, hactive, hview⟩
    · have hj : slot ≠ j := by
        rintro rfl
        rw [hs.free.1] at hactive
        cases hactive
      rw [hs.next]
      exact Or.inr (by simpa [hj] using ⟨hgen, hactive, hview⟩)
    · rw [hs]
      by_cases hj : slot = j
      · subst hj
        refine Or.inl ?_
        unfold Over
        rw [Function.update_self, revokedEntry]
        split
        · exact Or.inr ⟨hgen, rfl⟩
        · exact Or.inl (by dsimp only; omega)
      · exact Or.inr (by simpa [hj] using ⟨hgen, hactive, hview⟩)

/-- Every handle issued so far stands somewhere. -/
theorem Issued.stands (h : Issued table ops m handle view) (hmn : m < n) :
    ∃ slot generation, generation < 2 ^ 16 ∧ handle = makeHandle slot generation ∧
      Stands (capRun table ops n) view slot generation := by
  obtain ⟨slot, htakes⟩ := h.takes
  refine ⟨slot, _, ((tableOk_run table ops m).generation slot).2, htakes.handle, ?_⟩
  induction n, (show m + 1 ≤ n from hmn) using Nat.le_induction with
  | base =>
    refine Or.inr ?_
    rw [htakes.next]
    simp
  | succ n hmn' ih => exact stands_step (ih (by omega))

/-- A live slot holds a capability that was issued for it. -/
theorem exists_issued (hactive : (capRun table ops n slot).active = true) : ∃ m, m < n ∧
    Issued table ops m (makeHandle slot (capRun table ops n slot).generation) (capRun table ops n slot).view := by
  induction n with
  | zero => cases hactive
  | succ n ih =>
    rw [capRun] at hactive ⊢
    obtain ⟨hs, -⟩ | ⟨view, j, hview, hs⟩ | ⟨handle, j, -, hnames, -, hs⟩ :=
      capStep_cases (capRun table ops n) (ops n)
    · rw [hs] at hactive ⊢
      obtain ⟨m, hm, h⟩ := ih hactive
      exact ⟨m, by omega, h⟩
    · rw [hs.next] at hactive ⊢
      by_cases hj : slot = j
      · subst hj
        refine ⟨n, by omega, ?_, makeHandle_ne_zero _ _, ?_⟩
        · rw [hs.handle]
          simp
        · rw [hview]
          simp
      · rw [Function.update_of_ne hj] at hactive ⊢
        obtain ⟨m, hm, h⟩ := ih hactive
        exact ⟨m, by omega, h⟩
    · rw [hs] at hactive ⊢
      by_cases hj : slot = j
      · subst hj
        rw [Function.update_self, revokedEntry] at hactive
        split at hactive
        · cases hactive
        · cases hactive
      · rw [Function.update_of_ne hj] at hactive ⊢
        obtain ⟨m, hm, h⟩ := ih hactive
        exact ⟨m, by omega, h⟩

/-- No handle is issued twice. -/
theorem Issued.unique {view' : CapView} (h : Issued table ops m handle view)
    (h' : Issued table ops n handle view') : m = n := by
  have hlt : ∀ {m n view view'}, Issued table ops m handle view → Issued table ops n handle view' → ¬ m < n := by
    intro m n view view' h h' hmn
    obtain ⟨slot, generation, hg, hhandle, hstands⟩ := h.stands hmn
    obtain ⟨slot', htakes⟩ := h'.takes
    have hsame := hhandle.symm.trans htakes.handle
    obtain ⟨rfl, rfl⟩ := makeHandle_inj hg ((tableOk_run table ops n).generation slot').2 hsame
    obtain (hlt | ⟨-, hretired⟩) | ⟨-, hactive, -⟩ := hstands
    · omega
    · rw [htakes.free.2] at hretired
      cases hretired
    · rw [htakes.free.1] at hactive
      cases hactive
  obtain hmn | rfl | hmn := lt_trichotomy m n
  · exact absurd hmn (hlt h h')
  · rfl
  · exact absurd hmn (hlt h' h)

/-- A live handle was issued with what its slot records. -/
theorem issued_of_names {slot : Fin 64} (hnames : Names (capRun table ops n) handle slot)
    (hlt : handle < 2 ^ 32) :
    ∃ m, m < n ∧ Issued table ops m handle (capRun table ops n slot).view := by
  obtain ⟨m, hm, h⟩ := exists_issued hnames.active
  refine ⟨m, hm, ?_⟩
  have hhandle : handle = makeHandle slot (capRun table ops n slot).generation := by
    have hdecode := hnames.decode
    unfold decodeHandle at hdecode
    dsimp only at hdecode
    split at hdecode
    · cases hdecode
    rename_i hbound
    simp only [Option.some_inj, Prod.mk.injEq, Fin.ext_iff] at hdecode
    have hand : handle &&& 0xffff = handle % 2 ^ 16 := Nat.and_two_pow_sub_one_eq_mod handle 16
    rw [Nat.shiftRight_eq_div_pow] at hdecode
    rw [makeHandle_eq]
    omega
  rw [hhandle]
  exact h

end Issue

section Delegation

variable {table : CapTable} {ops : ℕ → CapOp} {l m : ℕ}

/-- The rights allowed for a type decide what can be delegated. -/
theorem delegable_of_allowed {owner type id rights owner' id' rights' : ℕ}
    (hsource : capAllowed owner type id rights = true) (hcontrol : rights &&& CAP_RIGHT_CONTROL ≠ 0)
    (htarget : capAllowed owner' type id' rights' = true) (hwithout : rights' &&& CAP_RIGHT_CONTROL = 0) :
    type ≠ CAP_OBJECT_PROGRAM_AUTHORITY ∧ type ≠ CAP_OBJECT_GRAPH_AUTHORITY ∧
      type ≠ CAP_OBJECT_DEMO_AUTHORITY ∧ type ≠ CAP_OBJECT_FILESYSTEM := by
  simp only [capAllowed, Bool.and_eq_true, Bool.not_eq_true', decide_eq_false_iff_not, not_and, not_not]
    at hsource htarget
  have hne : rights' ≠ CAP_RIGHT_CONTROL := by
    rintro rfl
    exact absurd hwithout (by decide)
  refine ⟨fun ht => hne (htarget.1.1.2 (Or.inl ht)), fun ht => hne (htarget.1.1.2 (Or.inr ht)),
    fun ht => hne (htarget.2 ht), fun ht => hcontrol ?_⟩
  have hmask := hsource.1.1.1.2 ht
  have hsub : CAP_RIGHT_CONTROL = (2 ^ 32 - 1 - (CAP_RIGHT_READ ||| CAP_RIGHT_WRITE)) &&& CAP_RIGHT_CONTROL := by
    decide
  rw [hsub, ← Nat.and_assoc, hmask, Nat.zero_and]

/-- A capability is weaker than the one it was delegated from. -/
structure Weaker (v w : CapView) : Prop where
  subset : v.rights &&& w.rights = w.rights
  without : w.rights &&& CAP_RIGHT_CONTROL = 0
  type : w.objectType ≠ CAP_OBJECT_PROGRAM_AUTHORITY ∧ w.objectType ≠ CAP_OBJECT_GRAPH_AUTHORITY ∧
    w.objectType ≠ CAP_OBJECT_DEMO_AUTHORITY ∧ w.objectType ≠ CAP_OBJECT_FILESYSTEM

theorem Weaker.trans {u v w : CapView} (h : Weaker u v) (h' : Weaker v w) : Weaker u w := by
  refine ⟨?_, h'.without, h'.type⟩
  rw [← h'.subset, ← Nat.and_assoc, h.subset]

theorem Issued.view_unique {handle handle' : ℕ} {v w : CapView} (h : Issued table ops m handle v)
    (h' : Issued table ops m handle' w) : v = w :=
  Option.some.inj (h.view.symm.trans h'.view)

theorem Delegates.weaker (hd : Delegates table ops l m) {handle handle' : ℕ} {v w : CapView}
    (hl : Issued table ops l handle v) (hm : Issued table ops m handle' w) : Weaker v w := by
  obtain ⟨sourceOwner, source, targetOwner, rights, view, hop, hlm, hsource⟩ := hd.issued
  obtain rfl := hl.view_unique hsource
  have hresult := hm.result
  have hview := hm.view
  rw [hop] at hresult hview
  obtain ⟨-, hzero⟩ | ⟨from', slot, hok, htakes⟩ := capDelegate_cases (capRun table ops m)
    sourceOwner source targetOwner rights rfl
  · exact absurd (hresult.symm.trans hzero) hm.nonzero
  rw [recorded, hok.names.decode, Option.map_some, Option.some_inj] at hview
  -- The source is still live, so its slot holds what was recorded for it.
  obtain ⟨slot', generation, hg, hhandle, hstands⟩ := hsource.stands hlm
  have hdecode := hok.names.decode
  rw [hhandle, decodeHandle_makeHandle slot' hg, Option.some_inj, Prod.mk.injEq] at hdecode
  obtain ⟨rfl, rfl⟩ := hdecode
  have hholds : (capRun table ops m slot').view = v := by
    obtain (hlt | ⟨-, hretired⟩) | ⟨-, -, hholds⟩ := hstands
    · omega
    · have hactive := hok.names.active
      rw [(tableOk_run table ops m).retired slot' hretired] at hactive
      cases hactive
    · exact hholds
  obtain ⟨slot'', htakes'⟩ := hsource.takes
  have hallowed := htakes.allowed
  have hcontrol := hok.control
  have hsubset := hok.subset
  rw [hholds] at hview hcontrol hsubset hallowed
  rw [← hview]
  exact ⟨hsubset, hok.without, delegable_of_allowed htakes'.allowed hcontrol hallowed hok.without⟩

/-- Every chain of delegations only weakens. -/
theorem chain_weaker (h : Relation.TransGen (Delegates table ops) l m) {handle handle' : ℕ} {v w : CapView}
    (hl : Issued table ops l handle v) (hm : Issued table ops m handle' w) : Weaker v w := by
  induction h generalizing handle' w with
  | single hd => exact hd.weaker hl hm
  | tail _ hd ih =>
    obtain ⟨_, source, _, _, view, _, _, hsource⟩ := hd.issued
    exact (ih hsource).trans (hd.weaker hsource hm)

end Delegation

/-- Over every history since `cap_init`: no handle is issued twice, a revoked handle never resolves
again, a handle resolves only as it was issued, and delegation only weakens. -/
theorem capability_safe (table : CapTable) (ops : ℕ → CapOp) :
    (∀ m n handle v w, Issued table ops m handle v → Issued table ops n handle w → m = n) ∧
    (∀ m n handle, Revoked table ops m handle → m < n → ∀ task type rights,
      capResolve (capRun table ops n) task handle type rights = none) ∧
    (∀ n task handle type rights view, handle < 2 ^ 32 →
      capResolve (capRun table ops n) task handle type rights = some view →
      ∃ m, m < n ∧ Issued table ops m handle view ∧ task = view.ownerTask ∧ type = view.objectType ∧
        view.rights &&& rights = rights) ∧
    (∀ l m, Relation.TransGen (Delegates table ops) l m → ∀ handle handle' v w,
      Issued table ops l handle v → Issued table ops m handle' w → v.rights &&& w.rights = w.rights ∧
        w.rights &&& CAP_RIGHT_CONTROL = 0 ∧ w.objectType ≠ CAP_OBJECT_PROGRAM_AUTHORITY ∧
        w.objectType ≠ CAP_OBJECT_GRAPH_AUTHORITY ∧ w.objectType ≠ CAP_OBJECT_DEMO_AUTHORITY ∧
        w.objectType ≠ CAP_OBJECT_FILESYSTEM) := by
  refine ⟨fun m n handle v w h h' => h.unique h', fun m n handle h hmn task type rights => ?_,
    fun n task handle type rights view hlt h => ?_, fun l m h handle handle' v w hl hm => ?_⟩
  · obtain ⟨slot, generation, hdecode, hover⟩ := over_of_revoked h
    exact capResolve_of_over (tableOk_run table ops n) hdecode (over_run hover hmn) task type rights
  · unfold capResolve at h
    split at h
    · cases h
    rename_i slot generation hdecode
    dsimp only at h
    split at h
    · cases h
    rename_i hlive
    simp only [not_or, Bool.not_eq_true', Bool.not_eq_false, not_not] at hlive
    obtain ⟨hactive, hgen, howner, htype, hrights⟩ := hlive
    obtain rfl := Option.some.inj h
    have hnames : Names (capRun table ops n) handle slot := ⟨by rw [hgen]; exact hdecode, hactive⟩
    obtain ⟨m, hm, hissued⟩ := issued_of_names hnames hlt
    exact ⟨m, hm, hissued, howner.symm, htype.symm, hrights⟩
  · obtain ⟨hsubset, hwithout, htype⟩ := chain_weaker h hl hm
    exact ⟨hsubset, hwithout, htype⟩

end Raveil.Authority
