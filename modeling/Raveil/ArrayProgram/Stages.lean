import Raveil.ArrayProgram.Denotation
import Raveil.ArrayProgram.Emitted

/-! The passes of a stage compute its words, whatever appends them. -/
namespace Raveil.ArrayProgram
open Lib
open Raveil.Flow (Input)
open Fold (Node Op)
open Grid (Runnable AdmittedNode Computes evaluateNode mapped sourceArity)

section Nodes

variable {nodes : List Node} {node : Node} {views : List String} {seen seen' : Finset String} {result : String}

theorem checkNode_eq_ok (h : checkNode views seen node = .ok seen') : AdmittedNode seen node ∧
    (node.op = .load → node.view.getD "" ∈ views) ∧ seen' = insert node.id seen := by
  obtain ⟨hop, h⟩ := require_then_eq_ok.mp h
  obtain ⟨hfields, h⟩ := require_then_eq_ok.mp h
  obtain ⟨⟨-, -, hfresh⟩, h⟩ := require_then_eq_ok.mp h
  obtain ⟨hview, h⟩ := require_then_eq_ok.mp h
  obtain ⟨hargs, h⟩ := require_then_eq_ok.mp h
  obtain ⟨-, h⟩ := check_then_eq_ok.mp h
  cases h
  have hload : node.op = .load → node.arguments = [] := by
    intro hload
    have hnone := hfields.2.1.not.mpr (not_not.mpr hload)
    unfold Node.arguments
    rw [Option.not_isSome_iff_eq_none.mp hnone]
    rfl
  refine ⟨⟨?_, hfields, hfresh, ?_, ?_⟩, hview, rfl⟩
  · intro hyield
    rw [hyield] at hop
    rcases hop with hop | hop <;> cases hop
  · by_cases hl : node.op = .load
    · rw [hload hl, hl]
      rfl
    · have harity := (hargs hl).1
      cases ho : node.op <;> rw [ho] at harity hl <;> first
        | exact absurd rfl hl
        | exact Option.some.inj harity
        | cases harity
  · intro arg harg
    by_cases hl : node.op = .load
    · rw [hload hl] at harg
      cases harg
    · exact (hargs hl).2 arg harg

theorem runnable_of_checkNodes (h : nodes.foldlM (checkNode views) seen = .ok seen') : Runnable seen nodes ∧
    (∀ x ∈ seen', x ∈ seen ∨ x ∈ nodes.map (·.id)) ∧ ∀ n ∈ nodes, n.op = .load → n.view.getD "" ∈ views := by
  induction nodes generalizing seen with
  | nil =>
    cases h
    exact ⟨trivial, fun x hx => Or.inl hx, by simp⟩
  | cons n ns ih =>
    rw [List.foldlM_cons] at h
    obtain ⟨next, hn, h⟩ := except_bind_eq_ok.mp h
    obtain ⟨hadmitted, hview, rfl⟩ := checkNode_eq_ok hn
    obtain ⟨hrest, hmem, hviews⟩ := ih h
    refine ⟨⟨hadmitted, hrest⟩, ?_, List.forall_mem_cons.mpr ⟨hview, hviews⟩⟩
    intro x hx
    rw [List.map_cons, List.mem_cons]
    rcases hmem x hx with hx | hx
    · rw [Finset.mem_insert] at hx
      tauto
    · exact Or.inr (Or.inr hx)

/-- Checked nodes compute their result from their views. -/
theorem computes_of_checkNodes (h : checkNodes nodes result views = .ok ()) :
    Computes nodes result ∧ ∀ n ∈ nodes, n.op = .load → n.view.getD "" ∈ views := by
  obtain ⟨-, h⟩ := require_then_eq_ok.mp h
  obtain ⟨seen, hseen, h⟩ := except_bind_eq_ok.mp h
  obtain ⟨hrun, hmem, hviews⟩ := runnable_of_checkNodes hseen
  exact ⟨⟨hrun, by simpa using hmem result (require_eq_ok.mp h)⟩, hviews⟩

theorem AdmittedNode.no_arguments (h : AdmittedNode seen node) (hop : node.op = .load) : node.arguments = [] := by
  have := h.arity
  rw [hop] at this
  exact List.eq_nil_of_length_eq_zero this

/-- An operation that is admitted has a word for its operands. -/
theorem scalarWord_total (h : AdmittedNode seen node) (hop : node.op ≠ .load) {a : List ℕ}
    (ha : a.length = node.arguments.length) : ∃ v, scalarWord node.op node.imm a = some v := by
  obtain ⟨v, hv⟩ := @AdmittedNode.word (fun _ => 0) node seen h a ha
  exact ⟨v, (nodeWord_eq hop a).symm.trans hv⟩

end Nodes

section Tracking

variable {value : Program} {store : Store} {shape : ℕ × ℕ} {refs : Refs} {values : ℕ → ℕ → String → Option ℕ} {node : Node}
  {seen : Finset String} {names : List String} {f : Field} {grid : Tiling.Grid} {ref : String} {load : ℕ → ℕ → Node → ℕ}
  {emit : Emit} {e e' : Emission} {args : List String} {body : Body}

/-- The references are to grids that show the values of the nodes. -/
def Tracks (store : Store) (shape : ℕ × ℕ) (refs : Refs) (values : ℕ → ℕ → String → Option ℕ) : Prop :=
  ∀ x ref, refs x = some ref → ∃ grid word, store ref = some grid ∧ Shows grid shape word ∧
    ∀ r < shape.1, ∀ c < shape.2, values r c x = some (word r c)

theorem tracks_none : Tracks store shape (fun _ => none) fun _ _ _ => none := by
  intro x ref h
  cases h

theorem Tracks.update (h : Tracks store shape refs values) (hstore : store ref = some grid) (hshows : Shows grid shape f)
    (name : String) : Tracks store shape (Function.update refs name (some ref))
      fun r c => Function.update (values r c) name (some (f r c)) := by
  intro x y hy
  by_cases hx : x = name
  · subst hx
    rw [Function.update_self] at hy
    cases hy
    exact ⟨grid, f, hstore, hshows, fun r _ c _ => Function.update_self ..⟩
  · rw [Function.update_of_ne hx] at hy
    obtain ⟨grid', word, hgrid, hword, hvalues⟩ := h x y hy
    refine ⟨grid', word, hgrid, hword, fun r hr c hc => ?_⟩
    dsimp only
    rw [Function.update_of_ne hx]
    exact hvalues r hr c hc

/-- The operands of a pass have the words of the arguments of its node. -/
theorem Tracks.operands (h : Tracks store shape refs values) {arguments : List String}
    (hnames : arguments.mapM (fun arg => keyed (refs arg)) = .ok names) :
    ∃ fields : List Field, names.mapM (fun name => (store name).map field) = some fields ∧
      fields.length = arguments.length ∧
      ∀ r < shape.1, ∀ c < shape.2, arguments.mapM (values r c) = some (fields.map fun f => f r c) := by
  have hall := mapM_eq_ok_iff.mp hnames
  clear hnames
  induction hall with
  | nil => exact ⟨[], rfl, rfl, fun r _ c _ => rfl⟩
  | @cons arg name arguments names hone _ ih =>
    obtain ⟨fields, hfields, hlen, hvalues⟩ := ih
    obtain ⟨grid, word, hgrid, hshows, hword⟩ := h arg name (keyed_eq_ok.mp hone)
    refine ⟨field grid :: fields, by simp [hgrid, hfields], by simp [hlen], fun r hr c hc => ?_⟩
    have hcell : field grid r c = word r c := hshows.words r hr c hc
    simp [hword r hr c hc, hvalues r hr c hc, hcell]

/-- The pass of an operation shows the word of its node. -/
theorem Tracks.operation (h : Tracks store shape refs values) (hn : AdmittedNode seen node) (hop : node.op ≠ .load)
    (hnames : node.arguments.mapM (fun arg => keyed (refs arg)) = .ok names)
    (hf : passField value store names (.scalar node.op none node.imm) = some f) (hstore : store ref = some grid)
    (hshows : Shows grid shape f) :
    ∃ values', (∀ r < shape.1, ∀ c < shape.2, evaluateNode (load r c) (values r c) node = some (values' r c)) ∧
      Tracks store shape (Function.update refs node.id (some ref)) values' := by
  obtain ⟨fields, hfields, hlen, hargs⟩ := h.operands hnames
  obtain ⟨fields', hfields', hf⟩ := Option.bind_eq_some_iff.mp hf
  have hsame : fields' = fields := Option.some.inj (hfields'.symm.trans hfields)
  subst hsame
  cases hf
  refine ⟨_, ?_, h.update hstore hshows node.id⟩
  intro r hr c hc
  obtain ⟨v, hv⟩ := scalarWord_total hn hop (a := fields'.map fun f => f r c) (by rw [List.length_map, hlen])
  exact evaluateNode_pass hop (hargs r hr c hc) hv

/-- The pass of a load shows what the load finds. -/
theorem Tracks.loaded (h : Tracks store shape refs values) (hn : AdmittedNode seen node) (hop : node.op = .load)
    (hload : ∀ r < shape.1, ∀ c < shape.2, load r c node = f r c) (hstore : store ref = some grid) (hshows : Shows grid shape f) :
    ∃ values', (∀ r < shape.1, ∀ c < shape.2, evaluateNode (load r c) (values r c) node = some (values' r c)) ∧
      Tracks store shape (Function.update refs node.id (some ref)) values' := by
  refine ⟨_, ?_, h.update hstore hshows node.id⟩
  intro r hr c hc
  have hlt : load r c node < 2 ^ 32 := by
    rw [hload r hr c hc]
    exact hshows.word_lt hr hc
  rw [evaluateNode_load hop (AdmittedNode.no_arguments hn hop) hlt, hload r hr c hc]

/-- A pass that loads shows the words of its operand. -/
theorem shows_load {imm : Option ℤ} {word : Field} (hlt : ∀ r < shape.1, ∀ c < shape.2, word r c < 2 ^ 32)
    (h : Shows grid shape fun r c => passWord .load imm [word r c]) : Shows grid shape word :=
  h.congr fun r hr c hc => passWord_load (hlt r hr c hc) imm

/-- What is emitted last is settled, and so is what was emitted before. -/
theorem settled_emit (happends : Appends emit) (hemit : emit e shape args body = .ok (ref, e'))
    (hsettled : ∀ step ∈ e'.steps, Settled value store step) :
    (∀ step ∈ e.steps, Settled value store step) ∧
      ∃ grid f, store ref = some grid ∧ passField value store args body = some f ∧ Shows grid shape f := by
  obtain ⟨-, hsteps⟩ := happends _ _ _ _ _ _ hemit
  rw [hsteps] at hsettled
  exact ⟨fun step hstep => hsettled step (List.mem_append_left _ hstep),
    hsettled _ (List.mem_append_right _ List.mem_cons_self)⟩

end Tracking

section Stage

variable {value : Program} {store : Store} {results refs : Refs} {stage : Stage} {grids : List Tiling.Grid}
  {mode : Tiling.Boundary} {emit : Emit} {e : Emission} {k : ℕ} {nodes : List Node} {node : Node} {seen : Finset String}
  {values : ℕ → ℕ → String → Option ℕ} {args : List String} {accumulator : String}

/-- The grid of an input, from the passes of the stages so far. -/
def inputGrid (store : Store) (results : Refs) : Input → Option Tiling.Grid
  | .link name => (results name).bind store
  | .grid v => (Grid.readInput v).toOption

/-- The stage has its source, its boundary, and the grids of its inputs. -/
structure Supplied (value : Program) (store : Store) (results : Refs) (stage : Stage) (grids : List Tiling.Grid)
    (mode : Tiling.Boundary) : Prop where
  source : value.source stage.name = .ok stage.source
  mode : Grid.boundaryOf stage.source.boundary = .ok mode
  inputs : stage.source.inputs.mapM (inputGrid store results) = some grids

/-- The word that a load of the stage finds. -/
abbrev loadWord (stage : Stage) (grids : List Tiling.Grid) (mode : Tiling.Boundary) (k r c : ℕ) (node : Node) : ℕ :=
  Grid.viewWord (admittedStage stage.source grids mode) r c k node

theorem getElem?_mapM {α β : Type} {f : α → Option β} {l : List α} {l' : List β} (h : l.mapM f = some l') {i : ℕ} {a : α}
    (ha : l[i]? = some a) : ∃ b, l'[i]? = some b ∧ f a = some b := by
  induction l generalizing l' i with
  | nil => cases ha
  | cons x l ih =>
    obtain ⟨y, hy, h⟩ := Option.bind_eq_some_iff.mp ((List.mapM_cons ..).symm.trans h)
    obtain ⟨ys, hys, h⟩ := Option.bind_eq_some_iff.mp h
    cases h
    cases i with
    | zero =>
      cases ha
      exact ⟨y, rfl, hy⟩
    | succ i => exact ih hys ha

/-- A load of the kernel gathers the words that it finds. -/
theorem Supplied.gathered (h : Supplied value store results stage grids mode) {view : Grid.ViewSource} {item : Input}
    (hview : stage.source.kernel.views.get? (node.view.getD "") = some view)
    (hitem : stage.source.inputs[view.input.toNat]? = some item) (hargs : inputArgs results item = .ok args) (k : ℕ) :
    gathered value store ⟨stage.name, node.view.getD "", k⟩ args = some fun r c => loadWord stage grids mode k r c node := by
  obtain ⟨operand, hoperand, hgrid⟩ := getElem?_mapM h.inputs hitem
  have hread : operandGrid store args item = some operand := by
    cases item with
    | link name =>
      obtain ⟨producer, hproducer, hargs⟩ := except_bind_eq_ok.mp hargs
      cases hargs
      obtain ⟨producer', hproducer', hstore⟩ := Option.bind_eq_some_iff.mp hgrid
      rw [keyed_eq_ok.mp hproducer] at hproducer'
      cases hproducer'
      exact hstore
    | grid v => exact hgrid
  unfold ArrayProgram.gathered
  simp only [toOption_of_ok h.source, Option.bind_eq_bind, Option.bind_some, hview, hitem, hread, toOption_of_ok h.mode]
  refine congrArg some ?_
  funext r c
  unfold loadWord Grid.viewWord admittedStage
  dsimp only
  rw [Dict.get?_mapValues, hview, Option.map_some]
  dsimp only
  rw [show (Grid.viewOf view).input = view.input.toNat from rfl, hoperand]

/-- What one node of the kernel emits shows its value. -/
theorem kernelNode_tracks (happends : Appends emit) (hs : Supplied value store results stage grids mode)
    (hn : AdmittedNode seen node) {t : Emission × Refs} (h : kernelNode emit stage results k (e, refs) node = .ok t)
    (hsettled : ∀ step ∈ t.1.steps, Settled value store step) (htracks : Tracks store (shapeOf stage.source) refs values) :
    ∃ values', (∀ r < (shapeOf stage.source).1, ∀ c < (shapeOf stage.source).2,
        evaluateNode (loadWord stage grids mode k r c) (values r c) node = some (values' r c)) ∧
      Tracks store (shapeOf stage.source) t.2 values' := by
  unfold kernelNode at h
  split at h
  · rename_i hop
    obtain ⟨view, hview, h⟩ := except_bind_eq_ok.mp h
    obtain ⟨item, hitem, h⟩ := except_bind_eq_ok.mp h
    obtain ⟨args, hargs, h⟩ := except_bind_eq_ok.mp h
    obtain ⟨⟨ref, e'⟩, hemit, h⟩ := except_bind_eq_ok.mp h
    cases h
    obtain ⟨-, grid, f, hstore, hf, hshows⟩ := settled_emit happends hemit hsettled
    obtain ⟨fields, hfields, hf⟩ := Option.bind_eq_some_iff.mp hf
    obtain ⟨word, hword, hfields⟩ := Option.bind_eq_some_iff.mp hfields
    have hgathered := hs.gathered (keyed_eq_ok.mp hview) (keyed_eq_ok.mp hitem) hargs k
    rw [hgathered] at hword
    cases hword
    cases hfields
    cases hf
    have hlt : ∀ r < (shapeOf stage.source).1, ∀ c < (shapeOf stage.source).2,
        loadWord stage grids mode k r c node < 2 ^ 32 := by
      intro r _ c _
      unfold loadWord Grid.viewWord
      split
      · exact Nat.two_pow_pos 32
      · split
        · exact Nat.two_pow_pos 32
        · exact Tiling.wordAt_lt
    exact htracks.loaded hn hop (fun r _ c _ => rfl) hstore (shows_load hlt hshows)
  · rename_i hop
    obtain ⟨names, hnames, h⟩ := except_bind_eq_ok.mp h
    obtain ⟨⟨ref, e'⟩, hemit, h⟩ := except_bind_eq_ok.mp h
    cases h
    obtain ⟨-, grid, f, hstore, hf, hshows⟩ := settled_emit happends hemit hsettled
    exact htracks.operation hn hop hnames hf hstore hshows

theorem kernelNodes_tracks (happends : Appends emit) (hs : Supplied value store results stage grids mode)
    (hrun : Runnable seen nodes) {t : Emission × Refs} (hresults : Known results e) (hrefs : Known refs e)
    (h : nodes.foldlM (kernelNode emit stage results k) (e, refs) = .ok t)
    (hsettled : ∀ step ∈ t.1.steps, Settled value store step) (htracks : Tracks store (shapeOf stage.source) refs values) :
    ∃ values', (∀ r < (shapeOf stage.source).1, ∀ c < (shapeOf stage.source).2,
        nodes.foldlM (evaluateNode (loadWord stage grids mode k r c)) (values r c) = some (values' r c)) ∧
      Tracks store (shapeOf stage.source) t.2 values' := by
  induction nodes generalizing seen e refs values with
  | nil =>
    cases h
    exact ⟨values, fun r _ c _ => rfl, htracks⟩
  | cons node nodes ih =>
    rw [List.foldlM_cons] at h
    obtain ⟨⟨e₁, refs₁⟩, hnode, h⟩ := except_bind_eq_ok.mp h
    obtain ⟨ref, args, body, hargs, hemit, hupdate⟩ := kernelNode_emits hresults hrefs hnode
    have hgrown : Grown emit e e₁ := .append (.refl e) hargs hemit
    have hresults₁ : Known results e₁ := hgrown.known happends hresults
    have hrefs₁ : Known refs₁ e₁ := by
      dsimp only at hupdate
      rw [hupdate]
      exact (hgrown.known happends hrefs).update (has_emitted happends hemit) node.id
    have hrest := (kernelNodes_grown happends hresults₁ hrefs₁ h).1.prefixed happends
    obtain ⟨values₁, hvalue, htracks₁⟩ := kernelNode_tracks happends hs hrun.1 hnode
      (fun step hstep => hsettled step (hrest.subset hstep)) htracks
    obtain ⟨values', hvalues, htracks'⟩ := ih hrun.2 hresults₁ hrefs₁ h htracks₁
    refine ⟨values', fun r hr c hc => ?_, htracks'⟩
    rw [List.foldlM_cons, hvalue r hr c hc]
    exact hvalues r hr c hc

/-- The folded words of a stage over so many turns. -/
abbrev turnWord (stage : Stage) (grids : List Tiling.Grid) (mode : Tiling.Boundary) (k r c : ℕ) : ℕ :=
  Grid.foldWords (admittedStage stage.source grids mode).fold
    (Grid.kernelWord (admittedStage stage.source grids mode) (stageSource stage.source [] []) r c) k

/-- The accumulator after `k` turns. -/
def Accumulates (store : Store) (stage : Stage) (grids : List Tiling.Grid) (mode : Tiling.Boundary) :
    ℕ → Option String → Prop
  | 0, acc => acc = none
  | k + 1, acc => ∃ ref grid, acc = some ref ∧ store ref = some grid ∧
    Shows grid (shapeOf stage.source) (turnWord stage grids mode (k + 1))

theorem foldStep_passWord {fold : String} {a b : ℕ} (ha : a < 2 ^ 32) (hb : b < 2 ^ 32) :
    passWord (foldOp fold) none [a, b] = Grid.foldStep (if fold = "sum" then .sum else .max) a b := by
  unfold foldOp
  split
  · change ((a + b : ℤ) % 2 ^ 32).toNat = (a + b) % 2 ^ 32
    omega
  · change (((max a b : ℕ) : ℤ) % 2 ^ 32).toNat = max a b
    exact toNat_emod (max_lt ha hb)

theorem foldWords_one {fold : Fold.FoldKind} {word : ℕ → ℕ} (h : word 0 < 2 ^ 32) : Grid.foldWords fold word 1 = word 0 := by
  rw [Grid.foldWords_succ]
  cases fold with
  | sum =>
    change (0 + word 0) % 2 ^ 32 = word 0
    rw [Nat.zero_add, Nat.mod_eq_of_lt h]
  | max => exact Nat.zero_max _

/-- One turn of the fold. -/
theorem kernelTurn_accumulates (happends : Appends emit) (hs : Supplied value store results stage grids mode)
    (hc : Computes stage.source.kernel.nodes stage.source.kernel.result) {acc : Option String} {t : Emission × Option String}
    (hresults : Known results e) (h : kernelTurn emit stage results (e, acc) k = .ok t)
    (hsettled : ∀ step ∈ t.1.steps, Settled value store step) (hacc : Accumulates store stage grids mode k acc) :
    Accumulates store stage grids mode (k + 1) t.2 := by
  obtain ⟨⟨e₁, refs⟩, hnodes, h⟩ := except_bind_eq_ok.mp h
  obtain ⟨term, hterm, h⟩ := except_bind_eq_ok.mp h
  -- the term shows the word of the kernel, once its passes are settled
  have hshows : (∀ step ∈ e₁.steps, Settled value store step) → ∃ grid, store term = some grid ∧
      Shows grid (shapeOf stage.source) fun r c =>
        Grid.kernelWord (admittedStage stage.source grids mode) (stageSource stage.source [] []) r c k := by
    intro hsettled₁
    obtain ⟨values, hvalues, htracks⟩ :=
      kernelNodes_tracks happends hs hc.runs hresults (known_none e) hnodes hsettled₁ tracks_none
    obtain ⟨grid, word, hstore, hgrid, hword⟩ := htracks _ _ (keyed_eq_ok.mp hterm)
    refine ⟨grid, hstore, hgrid.congr fun r hr c hc => ?_⟩
    have hmapped : mapped (loadWord stage grids mode k r c) stage.source.kernel.nodes stage.source.kernel.result =
        some (word r c) := Option.bind_eq_some_iff.mpr ⟨_, hvalues r hr c hc, hword r hr c hc⟩
    exact (congrArg (fun o => o.getD 0) hmapped).symm
  cases acc with
  | none =>
    cases h
    cases k with
    | zero =>
      obtain ⟨grid, hstore, hgrid⟩ := hshows hsettled
      refine ⟨term, grid, rfl, hstore, hgrid.congr fun r hr c hc => ?_⟩
      exact (foldWords_one (hgrid.word_lt hr hc)).symm
    | succ k =>
      obtain ⟨ref, grid, href, -⟩ := hacc
      cases href
  | some accumulator =>
    obtain ⟨⟨ref, e₂⟩, hemit, h⟩ := except_bind_eq_ok.mp h
    cases h
    obtain ⟨hsettled₁, grid, f, hstore, hf, hgrid⟩ := settled_emit happends hemit hsettled
    obtain ⟨grid₁, hstore₁, hgrid₁⟩ := hshows hsettled₁
    cases k with
    | zero => cases hacc
    | succ k =>
      obtain ⟨ref₀, grid₀, href₀, hstore₀, hgrid₀⟩ := hacc
      cases href₀
      have hfields : [accumulator, term].mapM (fun name => (store name).map field) = some [field grid₀, field grid₁] := by
        simp [hstore₀, hstore₁]
      obtain ⟨fields, hfields', hf⟩ := Option.bind_eq_some_iff.mp hf
      rw [show scalarFields value store [accumulator, term] none = some [field grid₀, field grid₁] from hfields] at hfields'
      cases hfields'
      cases hf
      refine ⟨ref, grid, rfl, hstore, hgrid.congr fun r hr c hc => ?_⟩
      have h₀ : field grid₀ r c = turnWord stage grids mode (k + 1) r c := hgrid₀.words r hr c hc
      have h₁ : field grid₁ r c = _ := hgrid₁.words r hr c hc
      have hlt₀ := hgrid₀.word_lt hr hc
      have hlt₁ := hgrid₁.word_lt hr hc
      unfold turnWord
      rw [Grid.foldWords_succ]
      change passWord (foldOp stage.source.kernel.fold) none [field grid₀ r c, field grid₁ r c] = _
      rw [h₀, h₁]
      exact foldStep_passWord hlt₀ hlt₁

theorem kernelTurns_accumulates (happends : Appends emit) (hs : Supplied value store results stage grids mode)
    (hc : Computes stage.source.kernel.nodes stage.source.kernel.result) {t : Emission × Option String} {n : ℕ}
    (hresults : Known results e) (h : (List.range n).foldlM (kernelTurn emit stage results) (e, none) = .ok t)
    (hsettled : ∀ step ∈ t.1.steps, Settled value store step) : Accumulates store stage grids mode n t.2 := by
  induction n generalizing t with
  | zero =>
    cases h
    rfl
  | succ n ih =>
    rw [List.range_succ, List.foldlM_append] at h
    obtain ⟨⟨e₁, acc⟩, hturns, h⟩ := except_bind_eq_ok.mp h
    rw [List.foldlM_cons] at h
    obtain ⟨t', hturn, h⟩ := except_bind_eq_ok.mp h
    cases h
    obtain ⟨-, hresults₁, hhas⟩ := kernelTurns_grown happends hresults hturns
    have hrest := (kernelTurn_grown happends hresults₁ hhas hturn).1.prefixed happends
    exact kernelTurn_accumulates happends hs hc hresults₁ hturn hsettled
      (ih hturns fun step hstep => hsettled step (hrest.subset hstep))

theorem postNodes_tracks (happends : Appends emit) {word : Field} {grid₀ : Tiling.Grid} (hacc : store accumulator = some grid₀)
    (hword : Shows grid₀ (shapeOf stage.source) word) (hhas : e.Has accumulator) (hrun : Runnable seen nodes)
    {t : Emission × Refs} (hrefs : Known refs e)
    (h : nodes.foldlM (postNode emit stage accumulator) (e, refs) = .ok t)
    (hsettled : ∀ step ∈ t.1.steps, Settled value store step) (htracks : Tracks store (shapeOf stage.source) refs values) :
    ∃ values', (∀ r < (shapeOf stage.source).1, ∀ c < (shapeOf stage.source).2,
        nodes.foldlM (evaluateNode fun _ => word r c) (values r c) = some (values' r c)) ∧
      Tracks store (shapeOf stage.source) t.2 values' := by
  induction nodes generalizing seen e refs values with
  | nil =>
    cases h
    exact ⟨values, fun r _ c _ => rfl, htracks⟩
  | cons node nodes ih =>
    rw [List.foldlM_cons] at h
    obtain ⟨⟨e₁, refs₁⟩, hnode, h⟩ := except_bind_eq_ok.mp h
    have hfirst : [node].foldlM (postNode emit stage accumulator) (e, refs) = .ok (e₁, refs₁) := by
      rw [List.foldlM_cons, hnode]
      rfl
    obtain ⟨hgrown, hrefs₁⟩ := postNodes_grown happends hhas hrefs hfirst
    have hhas₁ : e₁.Has accumulator := hgrown.has happends hhas
    have hrest := (postNodes_grown happends hhas₁ hrefs₁ h).1.prefixed happends
    obtain ⟨names, hnames, hnode⟩ := except_bind_eq_ok.mp hnode
    obtain ⟨⟨ref, e'⟩, hemit, hnode⟩ := except_bind_eq_ok.mp hnode
    cases hnode
    obtain ⟨-, grid, f, hstore, hf, hshows⟩ :=
      settled_emit happends hemit fun step hstep => hsettled step (hrest.subset hstep)
    obtain ⟨values₁, hvalue, htracks₁⟩ : ∃ values', (∀ r < (shapeOf stage.source).1, ∀ c < (shapeOf stage.source).2,
        evaluateNode (fun _ => word r c) (values r c) node = some (values' r c)) ∧
        Tracks store (shapeOf stage.source) (Function.update refs node.id (some ref)) values' := by
      unfold postArgs at hnames
      split at hnames
      · rename_i hop
        cases hnames
        rw [hop] at hf
        obtain ⟨fields, hfields, hf⟩ := Option.bind_eq_some_iff.mp hf
        have hone : scalarFields value store [accumulator] none = some [field grid₀] := by
          change [accumulator].mapM (fun name => (store name).map field) = _
          simp [hacc]
        rw [hone] at hfields
        cases hfields
        cases hf
        have hlt : ∀ r < (shapeOf stage.source).1, ∀ c < (shapeOf stage.source).2, field grid₀ r c < 2 ^ 32 :=
          fun r _ c _ => Tiling.wordAt_lt
        refine htracks.loaded hrun.1 hop ?_ hstore (shows_load hlt hshows)
        intro r hr c hc
        exact (hword.words r hr c hc).symm
      · rename_i hop
        exact htracks.operation hrun.1 hop hnames hf hstore hshows
    obtain ⟨values', hvalues, htracks'⟩ := ih hhas₁ hrun.2 hrefs₁ h htracks₁
    refine ⟨values', fun r hr c hc => ?_, htracks'⟩
    rw [List.foldlM_cons, hvalue r hr c hc]
    exact hvalues r hr c hc

/-- The result of a stage shows its words, once its passes are settled. -/
theorem scalarStage_shows (happends : Appends emit) (hs : Supplied value store results stage grids mode)
    (hchecked : SourceChecked stage.source) (hresults : Known results e) {t : String × Emission}
    (h : scalarStage emit stage results e = .ok t) (hsettled : ∀ step ∈ t.2.steps, Settled value store step) :
    ∃ grid, store t.1 = some grid ∧ Shows grid (shapeOf stage.source) (stageField stage.source grids mode) := by
  have hc := (computes_of_checkNodes hchecked.nodes).1
  obtain ⟨⟨e₁, acc⟩, hturns, h⟩ := except_bind_eq_ok.mp h
  obtain ⟨accumulator, hacc, h⟩ := except_bind_eq_ok.mp h
  obtain ⟨-, -, hhas⟩ := kernelTurns_grown happends hresults hturns
  have hfolded : e₁.Has accumulator := hhas _ (keyed_eq_ok.mp hacc)
  have hshows : (∀ step ∈ e₁.steps, Settled value store step) → ∃ grid, store accumulator = some grid ∧
      Shows grid (shapeOf stage.source) fun r c =>
        Grid.accWord (admittedStage stage.source grids mode) (stageSource stage.source [] []) (r, c) := by
    intro hsettled₁
    have haccumulates := kernelTurns_accumulates happends hs hc hresults hturns hsettled₁
    obtain ⟨n, hn⟩ : ∃ n, stage.source.kernel.extent.toNat = n + 1 := ⟨stage.source.kernel.extent.toNat - 1, by
      have := hchecked.extent.1
      omega⟩
    rw [hn] at haccumulates
    obtain ⟨ref, grid, href, hstore, hgrid⟩ := haccumulates
    rw [keyed_eq_ok.mp hacc] at href
    cases href
    refine ⟨grid, hstore, hgrid.congr fun r _ c _ => ?_⟩
    unfold turnWord Grid.accWord
    rw [show (admittedStage stage.source grids mode).extent = n + 1 from hn]
  cases hp : stage.source.post with
  | none =>
    rw [hp] at h
    cases h
    obtain ⟨grid, hstore, hgrid⟩ := hshows hsettled
    refine ⟨grid, hstore, hgrid.congr fun r _ c _ => ?_⟩
    unfold stageField Grid.cellWord
    rw [show (stageSource stage.source [] []).post = none from hp]
  | some post =>
    rw [hp] at h
    obtain ⟨⟨e₂, refs⟩, hnodes, h⟩ := except_bind_eq_ok.mp h
    obtain ⟨result, hresult, h⟩ := except_bind_eq_ok.mp h
    cases h
    have hrest := (postNodes_grown happends hfolded (known_none e₁) hnodes).1.prefixed happends
    obtain ⟨grid₀, hstore₀, hgrid₀⟩ := hshows fun step hstep => hsettled step (hrest.subset hstep)
    have hcpost := (computes_of_checkNodes (hchecked.post post hp)).1
    obtain ⟨values, hvalues, htracks⟩ := postNodes_tracks happends hstore₀ hgrid₀ hfolded hcpost.runs
      (known_none e₁) hnodes hsettled tracks_none
    obtain ⟨grid, word, hstore, hgrid, hword⟩ := htracks _ _ (keyed_eq_ok.mp hresult)
    refine ⟨grid, hstore, hgrid.congr fun r hr c hc => ?_⟩
    unfold stageField Grid.cellWord
    rw [show (stageSource stage.source [] []).post = some post from hp]
    have hmapped : mapped (fun _ => Grid.accWord (admittedStage stage.source grids mode) (stageSource stage.source [] [])
        (r, c)) post.nodes post.result = some (word r c) :=
      Option.bind_eq_some_iff.mpr ⟨_, hvalues r hr c hc, hword r hr c hc⟩
    exact (congrArg (fun o => o.getD 0) hmapped).symm

end Stage

end Raveil.ArrayProgram
