import Raveil.ArrayProgram.Structure

/-! Emission only appends passes, and a pass reads what passes before it write. -/
namespace Raveil.ArrayProgram
open Lib
open Raveil.Flow (Input)
open Fold (Node)

variable {emit : Emit} {s e e' e'' : Emission} {stage : Stage} {results refs refs' : Refs} {node : Node} {nodes : List Node}
  {k n : ℕ} {ref accumulator : String} {shape : ℕ × ℕ} {args : List String} {body : Body}

/-- An emission appends one pass and returns its name. -/
def Appends (emit : Emit) : Prop := ∀ s shape args body ref e, emit s shape args body = .ok (ref, e) →
  ref = planeName s.steps.length ∧ e.steps = s.steps ++ [{ id := ref, shape, args, body }]

/-- A pass of this name has been emitted. -/
def Emission.Has (e : Emission) (name : String) : Prop := ∃ step ∈ e.steps, step.id = name

/-- All references are to emitted passes. -/
def Known (refs : Refs) (e : Emission) : Prop := ∀ x ref, refs x = some ref → e.Has ref

/-- One emission after the other: passes that read emitted passes. -/
inductive Grown (emit : Emit) : Emission → Emission → Prop
  | refl (e : Emission) : Grown emit e e
  | append {e s e' : Emission} {shape : ℕ × ℕ} {args : List String} {body : Body} {ref : String} (hgrown : Grown emit e s)
      (hargs : ∀ x ∈ args, s.Has x) (hemit : emit s shape args body = .ok (ref, e')) : Grown emit e e'

section Grown

theorem Grown.trans (h : Grown emit e e') (h' : Grown emit e' e'') : Grown emit e e'' := by
  induction h' with
  | refl => exact h
  | append _ hargs hemit ih => exact .append ih hargs hemit

theorem Grown.prefixed (happends : Appends emit) (h : Grown emit e e') : e.steps <+: e'.steps := by
  induction h with
  | refl => exact List.prefix_rfl
  | append _ _ hemit ih =>
    rw [(happends _ _ _ _ _ _ hemit).2]
    exact ih.trans (List.prefix_append _ _)

theorem Grown.has (happends : Appends emit) (h : Grown emit e e') {name : String} (hname : e.Has name) : e'.Has name := by
  obtain ⟨step, hstep, heq⟩ := hname
  exact ⟨step, (h.prefixed happends).subset hstep, heq⟩

theorem Grown.known (happends : Appends emit) (h : Grown emit e e') (hknown : Known refs e) : Known refs e' :=
  fun x ref hx => h.has happends (hknown x ref hx)

theorem known_none (e : Emission) : Known (fun _ => none) e := by
  intro x ref hx
  cases hx

theorem has_emitted (happends : Appends emit) (hemit : emit s shape args body = .ok (ref, e)) : e.Has ref := by
  refine ⟨{ id := ref, shape, args, body }, ?_, rfl⟩
  rw [(happends _ _ _ _ _ _ hemit).2]
  exact List.mem_append_right _ List.mem_cons_self

theorem Known.update (h : Known refs e) (href : e.Has ref) (name : String) :
    Known (Function.update refs name (some ref)) e := by
  intro x y hy
  by_cases hx : x = name
  · rw [hx, Function.update_self] at hy
    cases hy
    exact href
  · rw [Function.update_of_ne hx] at hy
    exact h x y hy

theorem Known.mapM (h : Known refs e) {names list : List String} (hlist : names.mapM (fun x => keyed (refs x)) = .ok list) :
    ∀ x ∈ list, e.Has x := by
  intro x hx
  obtain ⟨name, -, hname⟩ := exists_of_mem_mapM hlist hx
  exact h name x (keyed_eq_ok.mp hname)

/-- A loop whose steps keep a property and are related is related to its end. -/
theorem foldlM_related {σ α ε : Type} {f : σ → α → Except ε σ} {P : σ → Prop} {R : σ → σ → Prop} {l : List α} {s t : σ}
    (hrefl : ∀ s, R s s) (htrans : ∀ s t u, R s t → R t u → R s u)
    (hstep : ∀ s, P s → ∀ a ∈ l, ∀ t, f s a = .ok t → R s t ∧ P t) (hs : P s) (h : l.foldlM f s = .ok t) : R s t ∧ P t := by
  induction l generalizing s with
  | nil =>
    cases h
    exact ⟨hrefl _, hs⟩
  | cons a l ih =>
    rw [List.foldlM_cons] at h
    obtain ⟨u, hu, h⟩ := except_bind_eq_ok.mp h
    obtain ⟨hsu, hpu⟩ := hstep s hs a List.mem_cons_self u hu
    obtain ⟨hut, hpt⟩ := ih (fun s hs a ha => hstep s hs a (List.mem_cons_of_mem _ ha)) hpu h
    exact ⟨htrans _ _ _ hsu hut, hpt⟩

/-- The passes are named in order, and read passes before them. -/
def Emission.Numbered (e : Emission) : Prop := ∀ (i : ℕ) step, e.steps[i]? = some step →
  step.id = planeName i ∧ ∀ x ∈ step.args, ∃ j < i, x = planeName j

theorem numbered_start : ({} : Emission).Numbered := by
  intro i step h
  cases h

theorem Emission.Numbered.has (h : e.Numbered) {name : String} (hname : e.Has name) :
    ∃ j < e.steps.length, name = planeName j := by
  obtain ⟨step, hstep, rfl⟩ := hname
  obtain ⟨j, hj⟩ := List.mem_iff_getElem?.mp hstep
  exact ⟨j, (List.getElem?_eq_some_iff.mp hj).1, (h j step hj).1⟩

theorem Grown.numbered (happends : Appends emit) (h : Grown emit e e') (hn : e.Numbered) : e'.Numbered := by
  induction h with
  | refl => exact hn
  | append _ hargs hemit ih =>
    obtain ⟨href, hsteps⟩ := happends _ _ _ _ _ _ hemit
    intro i step hi
    rw [hsteps] at hi
    have hlen := (List.getElem?_eq_some_iff.mp hi).1
    rw [List.length_append, List.length_singleton] at hlen
    rcases Nat.lt_succ_iff_lt_or_eq.mp hlen with hlt | rfl
    · rw [List.getElem?_append_left hlt] at hi
      exact ih i step hi
    · rw [List.getElem?_concat_length] at hi
      cases hi
      exact ⟨href, fun x hx => ih.has (hargs x hx)⟩

/-- Passes that are named in order are straight-line code. -/
theorem Emission.Numbered.straight (h : e.Numbered) : Straight Step.id Step.args e.steps := by
  have hnames : e.steps.map Step.id = (List.range e.steps.length).map planeName := by
    apply List.ext_getElem
    · rw [List.length_map, List.length_map, List.length_range]
    · intro i hi hi'
      rw [List.length_map] at hi
      rw [List.getElem_map, List.getElem_map, List.getElem_range]
      exact (h i _ (List.getElem?_eq_getElem hi)).1
  refine ⟨hnames ▸ List.nodup_range.map (padded_injective "p" 3), ?_⟩
  intro i step hi x hx
  obtain ⟨j, hj, rfl⟩ := (h i step hi).2 x hx
  have hlt := (List.getElem?_eq_some_iff.mp hi).1
  have hjlt : j < e.steps.length := by omega
  refine ⟨j, hj, ?_⟩
  rw [hnames, List.getElem?_map, List.getElem?_range hjlt]
  rfl

end Grown

section Stage

theorem inputArgs_known {item : Input} (h : Known results e) (hargs : inputArgs results item = .ok args) :
    ∀ x ∈ args, e.Has x := by
  cases item with
  | grid v =>
    cases hargs
    simp
  | link name =>
    obtain ⟨producer, hproducer, hargs⟩ := except_bind_eq_ok.mp hargs
    cases hargs
    intro x hx
    rw [List.mem_singleton.mp hx]
    exact h name producer (keyed_eq_ok.mp hproducer)

/-- What one node of a stage emits. -/
theorem kernelNode_emits {t : Emission × Refs} (hresults : Known results e) (hrefs : Known refs e)
    (h : kernelNode emit stage results k (e, refs) node = .ok t) :
    ∃ ref args body, (∀ x ∈ args, e.Has x) ∧ emit e (shapeOf stage.source) args body = .ok (ref, t.1) ∧
      t.2 = Function.update refs node.id (some ref) := by
  unfold kernelNode at h
  split at h
  · obtain ⟨view, -, h⟩ := except_bind_eq_ok.mp h
    obtain ⟨item, -, h⟩ := except_bind_eq_ok.mp h
    obtain ⟨args, hargs, h⟩ := except_bind_eq_ok.mp h
    obtain ⟨⟨ref, e'⟩, hemit, h⟩ := except_bind_eq_ok.mp h
    cases h
    exact ⟨ref, args, _, inputArgs_known hresults hargs, hemit, rfl⟩
  · obtain ⟨args, hargs, h⟩ := except_bind_eq_ok.mp h
    obtain ⟨⟨ref, e'⟩, hemit, h⟩ := except_bind_eq_ok.mp h
    cases h
    exact ⟨ref, args, _, hrefs.mapM hargs, hemit, rfl⟩

variable (happends : Appends emit)
include happends

theorem kernelNodes_grown {t : Emission × Refs} (hresults : Known results e) (hrefs : Known refs e)
    (h : nodes.foldlM (kernelNode emit stage results k) (e, refs) = .ok t) :
    Grown emit e t.1 ∧ Known results t.1 ∧ Known t.2 t.1 := by
  refine foldlM_related (P := fun s : Emission × Refs => Known results s.1 ∧ Known s.2 s.1)
    (R := fun s t : Emission × Refs => Grown emit s.1 t.1) (fun s => .refl s.1) (fun s t u => Grown.trans) ?_ ⟨hresults, hrefs⟩ h
  rintro ⟨e, refs⟩ ⟨hresults, hrefs⟩ node - t ht
  obtain ⟨ref, args, body, hargs, hemit, hupdate⟩ := kernelNode_emits hresults hrefs ht
  have hgrown : Grown emit e t.1 := .append (.refl e) hargs hemit
  refine ⟨hgrown, hgrown.known happends hresults, ?_⟩
  rw [hupdate]
  exact (hgrown.known happends hrefs).update (has_emitted happends hemit) node.id

/-- All references of an accumulator, if there is one, are to emitted passes. -/
theorem kernelTurn_grown {t : Emission × Option String} {acc : Option String} (hresults : Known results e)
    (hacc : ∀ ref, acc = some ref → e.Has ref) (h : kernelTurn emit stage results (e, acc) k = .ok t) :
    Grown emit e t.1 ∧ Known results t.1 ∧ ∀ ref, t.2 = some ref → t.1.Has ref := by
  obtain ⟨⟨e₁, refs⟩, hnodes, h⟩ := except_bind_eq_ok.mp h
  obtain ⟨term, hterm, h⟩ := except_bind_eq_ok.mp h
  obtain ⟨hgrown, hresults₁, hrefs⟩ := kernelNodes_grown happends hresults (known_none e) hnodes
  have hhas : e₁.Has term := hrefs _ _ (keyed_eq_ok.mp hterm)
  cases acc with
  | none =>
    cases h
    refine ⟨hgrown, hresults₁, ?_⟩
    intro ref href
    cases href
    exact hhas
  | some accumulator =>
    obtain ⟨⟨ref, e₂⟩, hemit, h⟩ := except_bind_eq_ok.mp h
    cases h
    have hargs : ∀ x ∈ [accumulator, term], e₁.Has x := by
      intro x hx
      rcases List.mem_pair.mp hx with rfl | rfl
      · exact hgrown.has happends (hacc _ rfl)
      · exact hhas
    have hgrown₂ : Grown emit e e₂ := .append hgrown hargs hemit
    refine ⟨hgrown₂, hgrown₂.known happends hresults, ?_⟩
    intro x hx
    cases hx
    exact has_emitted happends hemit

theorem kernelTurns_grown {turns : List ℕ} {t : Emission × Option String} (hresults : Known results e)
    (h : turns.foldlM (kernelTurn emit stage results) (e, none) = .ok t) :
    Grown emit e t.1 ∧ Known results t.1 ∧ ∀ ref, t.2 = some ref → t.1.Has ref := by
  refine foldlM_related
    (P := fun s : Emission × Option String => Known results s.1 ∧ ∀ ref, s.2 = some ref → s.1.Has ref)
    (R := fun s t : Emission × Option String => Grown emit s.1 t.1) (fun s => .refl s.1) (fun s t u => Grown.trans) ?_
    ⟨hresults, fun ref href => by cases href⟩ h
  rintro ⟨e, acc⟩ ⟨hresults, hacc⟩ k - t ht
  exact kernelTurn_grown happends hresults hacc ht

theorem postNodes_grown {t : Emission × Refs} (hacc : e.Has accumulator) (hrefs : Known refs e)
    (h : nodes.foldlM (postNode emit stage accumulator) (e, refs) = .ok t) : Grown emit e t.1 ∧ Known t.2 t.1 := by
  have hloop := foldlM_related (P := fun s : Emission × Refs => s.1.Has accumulator ∧ Known s.2 s.1)
    (R := fun s t : Emission × Refs => Grown emit s.1 t.1) (fun s => .refl s.1) (fun s t u => Grown.trans) ?_ ⟨hacc, hrefs⟩ h
  · exact ⟨hloop.1, hloop.2.2⟩
  rintro ⟨e, refs⟩ ⟨hacc, hrefs⟩ node - t ht
  obtain ⟨args, hargs, ht⟩ := except_bind_eq_ok.mp ht
  obtain ⟨⟨ref, e'⟩, hemit, ht⟩ := except_bind_eq_ok.mp ht
  cases ht
  have hhas : ∀ x ∈ args, e.Has x := by
    unfold postArgs at hargs
    split at hargs
    · cases hargs
      intro x hx
      rw [List.mem_singleton.mp hx]
      exact hacc
    · exact hrefs.mapM hargs
  have hgrown : Grown emit e e' := .append (.refl e) hhas hemit
  exact ⟨hgrown, hgrown.has happends hacc, (hgrown.known happends hrefs).update (has_emitted happends hemit) node.id⟩

/-- The passes of a stage are emitted one after the other, and its result is one of them. -/
theorem scalarStage_grown {t : String × Emission} (hresults : Known results e)
    (h : scalarStage emit stage results e = .ok t) : Grown emit e t.2 ∧ t.2.Has t.1 := by
  obtain ⟨⟨e₁, acc⟩, hturns, h⟩ := except_bind_eq_ok.mp h
  obtain ⟨accumulator, hacc, h⟩ := except_bind_eq_ok.mp h
  obtain ⟨hgrown, -, hhas⟩ := kernelTurns_grown happends hresults hturns
  have hfolded : e₁.Has accumulator := hhas _ (keyed_eq_ok.mp hacc)
  cases hp : stage.source.post with
  | none =>
    rw [hp] at h
    cases h
    exact ⟨hgrown, hfolded⟩
  | some post =>
    rw [hp] at h
    obtain ⟨⟨e₂, refs⟩, hnodes, h⟩ := except_bind_eq_ok.mp h
    obtain ⟨result, hresult, h⟩ := except_bind_eq_ok.mp h
    cases h
    obtain ⟨hgrown₂, hrefs⟩ := postNodes_grown happends hfolded (known_none e₁) hnodes
    exact ⟨hgrown.trans hgrown₂, hrefs _ _ (keyed_eq_ok.mp hresult)⟩

end Stage

end Raveil.ArrayProgram
