import Raveil.Fold.Region
import Raveil.Lib.Fresh

/-! Signed operations lowered to the unsigned instruction set, and what both compute. -/
namespace Raveil.Grid

open Lib Fold

section Lower

/-- The number of arguments `lower` asks for. -/
def sourceArity : Op → ℕ
  | .load => 0
  | .maxI32 => 2
  | .reluI32 | .addImm | .geImm => 1
  | _ => 2

/-- Whether an operation is among `SIGNED_OPS`. -/
def IsSigned (op : Op) : Prop := op = .maxI32 ∨ op = .reluI32

instance (op : Op) : Decidable (IsSigned op) := inferInstanceAs (Decidable (_ ∨ _))

/-- The checks of one source node; the state is `seen`. -/
def admitNode (seen : Finset String) (node : Node) : Except String (Finset String) := do
  require (node.op ≠ .yield) "invalid source operation"
  require (node.fieldsOk ∧ node.id ≠ "" ∧ node.id ∉ seen) "invalid source node fields or identifier"
  require (node.arguments.length = sourceArity node.op) "incorrect source arity"
  require (∀ arg ∈ node.arguments, arg ∈ seen) "source nodes must be in dependency order"
  require (node.op = .load → node.view ≠ some "") "invalid source view"
  require (∀ imm ∈ node.imm, 0 ≤ imm ∧ imm < 2 ^ 22) "source immediate must fit unsigned22 bits"
  return insert node.id seen

/-- The state of the emission loop. -/
structure Lowering where
  reserved : Finset String
  emitted : List Node := []
  serial : ℕ := 0
  sign : Option String := none
  biased : String → Option String := fun _ => none

namespace Lowering

/-- `emit` under a given name. -/
def emitNamed (s : Lowering) (name : String) (op : Op) (args : List String) (imm : Option ℤ) : Lowering :=
  { s with emitted := s.emitted ++ [{ id := name, op, args := some args, imm }] }

/-- The number of the next name that is not reserved. -/
def nextSerial (s : Lowering) : ℕ :=
  firstUnused (numbered "__mf01_numeric_") s.reserved (s.reserved.card + 1) s.serial

/-- `emit` under a fresh name. -/
def emit (s : Lowering) (op : Op) (args : List String) (imm : Option ℤ) : String × Lowering :=
  let name := numbered "__mf01_numeric_" s.nextSerial
  (name, { s with reserved := insert name s.reserved, serial := s.nextSerial + 1 }.emitNamed name op args imm)

/-- `translated`: the name of a node's word with its sign bit flipped. -/
def translated (share : Bool) (sign : String) (s : Lowering) (name : String) : String × Lowering :=
  match if share then s.biased name else none with
  | some value => (value, s)
  | none =>
    let (value, s) := s.emit .add [name, sign] none
    (value, if share then { s with biased := Function.update s.biased name (some value) } else s)

/-- The name of the sign bit, which is computed once. -/
def withSign (s : Lowering) (a : String) : String × Lowering :=
  match s.sign with
  | some sign => (sign, s)
  | none =>
    -- GE_U32(x, 0) is one, whatever x is
    let (one, s) := s.emit .geImm [a] (some 0)
    let (hi, s) := s.emit .addImm [one] (some 32767)
    let (lo, s) := s.emit .addImm [one] (some 65535)
    let (sign, s) := s.emit .mul [hi, lo] none
    (sign, { s with sign := some sign })

end Lowering

/-- One turn of the emission loop. -/
def lowerNode (share : Bool) (s : Lowering) (node : Node) : Lowering :=
  if ¬ IsSigned node.op then { s with emitted := s.emitted ++ [node] }
  else
    let (sign, s) := s.withSign (node.arguments.getD 0 "")
    let (left, s) := s.translated share sign (node.arguments.getD 0 "")
    let (right, s) := if node.op = .reluI32 then (sign, s) else s.translated share sign (node.arguments.getD 1 "")
    let (selected, s) := s.emit .max [left, right] none
    let s := s.emitNamed node.id .add [selected, sign] none
    if share then { s with biased := Function.update s.biased node.id (some selected) } else s

/-- `lower`. -/
def lower (nodes : List Node) (result : String) (share : Bool) : Except String (List Node) := do
  require (1 ≤ nodes.length ∧ nodes.length ≤ 15) "one to fifteen source map nodes required"
  let seen ← nodes.foldlM admitNode ∅
  require (result ∈ seen) "unknown source result"
  return (nodes.foldl (lowerNode share) { reserved := seen }).emitted

end Lower

section Semantics

/-- A word read as a signed integer. -/
def signed (w : ℕ) : ℤ := if w < 2 ^ 31 then w else (w : ℤ) - 2 ^ 32

/-- The word of one node before masking, from its argument words. -/
def nodeWord (load : Node → ℕ) (node : Node) (a : List ℕ) : Option ℤ :=
  match node.op, a, node.imm with
  | .load, _, _ => some (load node)
  | .add, x :: y :: _, _ => some (x + y)
  | .mul, x :: y :: _, _ => some (x * y)
  | .max, x :: y :: _, _ => some (max x y : ℕ)
  | .maxI32, x :: y :: _, _ => some (max (signed x) (signed y))
  | .reluI32, x :: _, _ => some (max 0 (signed x))
  | .addImm, x :: _, some imm => some (x + imm)
  | .geImm, x :: _, some imm => some (if (x : ℤ) ≥ imm then 1 else 0)
  | _, _, _ => none

/-- One node of the interpreter; `none` is a failed lookup. -/
def evaluateNode (load : Node → ℕ) (values : String → Option ℕ) (node : Node) : Option (String → Option ℕ) := do
  let a ← node.arguments.mapM values
  let v ← nodeWord load node a
  pure (Function.update values node.id (some (v % 2 ^ 32).toNat))

/-- The words of all nodes, from words for the loads. -/
def evaluate (load : Node → ℕ) (nodes : List Node) : Option (String → Option ℕ) :=
  nodes.foldlM (evaluateNode load) fun _ => none

end Semantics

section Bias

/-- A word with its sign bit flipped. -/
def bias (w : ℕ) : ℕ := (w + 2 ^ 31) % 2 ^ 32

variable {x y w : ℕ}

theorem bias_bias (hw : w < 2 ^ 32) : bias (bias w) = w := by
  unfold bias
  omega

/-- The order of signed words is the order of their biased words. -/
theorem max_bias (hx : x < 2 ^ 32) (hy : y < 2 ^ 32) :
    max (bias x) (bias y) = bias (max (signed x) (signed y) % 2 ^ 32).toNat := by
  unfold bias signed
  split <;> split <;> omega

theorem max_bias_zero (hx : x < 2 ^ 32) : max (bias x) (2 ^ 31) = bias (max 0 (signed x) % 2 ^ 32).toNat := by
  unfold bias signed
  split <;> omega

end Bias

/-- Every argument of a node is the name of an earlier one. -/
def DependencyOrder (nodes : List Node) : Prop :=
  ∀ before node after, nodes = before ++ node :: after → ∀ arg ∈ node.arguments, arg ∈ before.map (·.id)

theorem dependencyOrder_nil : DependencyOrder [] := by
  intro before node after h
  simp at h

theorem DependencyOrder.append {nodes : List Node} {node : Node} (h : DependencyOrder nodes)
    (hargs : ∀ arg ∈ node.arguments, arg ∈ nodes.map (·.id)) : DependencyOrder (nodes ++ [node]) := by
  intro before n after heq
  rcases List.eq_nil_or_concat after with rfl | ⟨after, last, rfl⟩
  · obtain ⟨rfl, hn⟩ := List.append_inj' heq rfl
    cases hn
    exact hargs
  · rw [List.concat_eq_append, ← List.cons_append, ← List.append_assoc] at heq
    exact h before n after (List.append_inj_left' heq rfl)

section Target

/-- The target words grow: none is lost or changed. -/
def Grows (values values' : String → Option ℕ) : Prop := ∀ x w, values x = some w → values' x = some w

theorem Grows.trans {u v w : String → Option ℕ} (h : Grows u v) (h' : Grows v w) : Grows u w :=
  fun x n hx => h' x n (h x n hx)

/-- The state of the emission loop when the source nodes `done` have been lowered: what has been emitted
so far evaluates to `values`. -/
structure Target (load : Node → ℕ) (sources done : Finset String) (s : Lowering) (values : String → Option ℕ) :
    Prop where
  run : evaluate load s.emitted = some values
  domain : ∀ x, x ∈ s.emitted.map (·.id) → ∃ w, values x = some w
  defined : ∀ x w, values x = some w → x ∈ s.emitted.map (·.id)
  nodup : (s.emitted.map (·.id)).Nodup
  order : DependencyOrder s.emitted
  unsigned : ∀ m ∈ s.emitted, ¬ IsSigned m.op ∧ m.op ≠ .yield
  sources_reserved : sources ⊆ s.reserved
  emitted_reserved : ∀ x ∈ s.emitted.map (·.id), x ∈ s.reserved
  pending : ∀ x ∈ s.emitted.map (·.id), x ∈ sources → x ∈ done
  small : ∀ x w, values x = some w → w < 2 ^ 32
  sign : ∀ x, s.sign = some x → values x = some (2 ^ 31)
  biased : ∀ x b, s.biased x = some b → ∃ w, values x = some w ∧ values b = some (bias w)

variable {load : Node → ℕ} {sources done done' : Finset String} {s : Lowering} {values : String → Option ℕ}
  {a : List ℕ} {v : ℤ}

/-- One more node, under a name that is not taken. -/
theorem Target.push (h : Target load sources done s values) (node : Node) (hdone : done ⊆ done')
    (hid : node.id ∉ s.emitted.map (·.id)) (hres : node.id ∈ s.reserved)
    (hpend : node.id ∈ sources → node.id ∈ done') (hop : ¬ IsSigned node.op ∧ node.op ≠ .yield)
    (ha : node.arguments.mapM values = some a) (hargs : ∀ arg ∈ node.arguments, ∃ w, values arg = some w)
    (hv : nodeWord load node a = some v) :
    Target load sources done' { s with emitted := s.emitted ++ [node] }
        (Function.update values node.id (some (v % 2 ^ 32).toNat)) ∧
      Grows values (Function.update values node.id (some (v % 2 ^ 32).toNat)) := by
  have hgrows : Grows values (Function.update values node.id (some (v % 2 ^ 32).toNat)) := by
    intro x w hx
    have hne : x ≠ node.id := fun heq => hid (heq ▸ h.defined x w hx)
    rw [Function.update_of_ne hne, hx]
  have hmem : ∀ x, x ∈ (s.emitted ++ [node]).map (·.id) ↔ x ∈ s.emitted.map (·.id) ∨ x = node.id := by
    intro x
    simp
  refine ⟨⟨?_, fun x hx => ?_, fun x w hx => ?_, ?_, ?_, fun m hm => ?_, h.sources_reserved, fun x hx => ?_,
    fun x hx hsource => ?_, fun x w hx => ?_, fun x hx => ?_, fun x b hb => ?_⟩, hgrows⟩
  · have hrun := h.run
    unfold evaluate at hrun ⊢
    rw [List.foldlM_append, hrun]
    simp [evaluateNode, ha, hv]
  · rcases (hmem x).mp hx with hx | rfl
    · obtain ⟨w, hw⟩ := h.domain x hx
      exact ⟨w, hgrows x w hw⟩
    · exact ⟨_, Function.update_self ..⟩
  · rw [hmem]
    by_cases heq : x = node.id
    · exact Or.inr heq
    · rw [Function.update_of_ne heq] at hx
      exact Or.inl (h.defined x w hx)
  · rw [List.map_append, List.map_singleton]
    exact h.nodup.append (List.nodup_singleton _) (by simpa using hid)
  · exact h.order.append fun arg harg => by
      obtain ⟨w, hw⟩ := hargs arg harg
      exact h.defined arg w hw
  · rcases List.mem_append.mp hm with hm | hm
    · exact h.unsigned m hm
    · exact List.mem_singleton.mp hm ▸ hop
  · rcases (hmem x).mp hx with hx | rfl
    · exact h.emitted_reserved x hx
    · exact hres
  · rcases (hmem x).mp hx with hx | rfl
    · exact hdone (h.pending x hx hsource)
    · exact hpend hsource
  · by_cases heq : x = node.id
    · rw [heq, Function.update_self, Option.some.injEq] at hx
      omega
    · rw [Function.update_of_ne heq] at hx
      exact h.small x w hx
  · exact hgrows x _ (h.sign x hx)
  · obtain ⟨w, hw, hbw⟩ := h.biased x b hb
    exact ⟨w, hgrows x w hw, hgrows b _ hbw⟩

theorem Target.reserve (h : Target load sources done s values) (name : String) (serial : ℕ) :
    Target load sources done { s with reserved := insert name s.reserved, serial } values :=
  { h with
    sources_reserved := h.sources_reserved.trans (Finset.subset_insert _ _)
    emitted_reserved := fun x hx => Finset.mem_insert_of_mem (h.emitted_reserved x hx) }

/-- A node under a fresh name. -/
theorem Target.emit (h : Target load sources done s values) {op : Op} {args : List String} {imm : Option ℤ}
    {name : String} {s' : Lowering} (he : s.emit op args imm = (name, s')) (hop : ¬ IsSigned op ∧ op ≠ .yield)
    (ha : args.mapM values = some a) (hargs : ∀ arg ∈ args, ∃ w, values arg = some w)
    (hv : ∀ id, nodeWord load { id, op, args := some args, imm } a = some v) :
    ∃ values', Target load sources done s' values' ∧ Grows values values' ∧
      values' name = some (v % 2 ^ 32).toNat := by
  have hfresh : numbered "__mf01_numeric_" s.nextSerial ∉ s.reserved :=
    firstUnused_not_mem (numbered_injective "__mf01_numeric_") s.serial
  have hreserve := h.reserve (numbered "__mf01_numeric_" s.nextSerial) (s.nextSerial + 1)
  obtain ⟨htarget, hgrows⟩ := hreserve.push
    { id := numbered "__mf01_numeric_" s.nextSerial, op, args := some args, imm } subset_rfl
    (fun hin => hfresh (h.emitted_reserved _ hin)) (Finset.mem_insert_self _ _)
    (fun hin => absurd (h.sources_reserved hin) hfresh) hop ha hargs (hv (numbered "__mf01_numeric_" s.nextSerial))
  cases he
  exact ⟨_, htarget, hgrows, Function.update_self ..⟩

theorem mapM_pair {x y : String} {w w' : ℕ} (hx : values x = some w) (hy : values y = some w') :
    [x, y].mapM values = some [w, w'] := by
  simp [hx, hy]

theorem mapM_single {x : String} {w : ℕ} (hx : values x = some w) : [x].mapM values = some [w] := by
  simp [hx]

/-- The sign bit is there once it is asked for. -/
theorem Target.withSign (h : Target load sources done s values) {x sign : String} {w : ℕ} {s' : Lowering}
    (hs : s.withSign x = (sign, s')) (hx : values x = some w) :
    ∃ values', Target load sources done s' values' ∧ Grows values values' ∧ values' sign = some (2 ^ 31) := by
  unfold Lowering.withSign at hs
  split at hs
  · rename_i hsign
    cases hs
    exact ⟨values, h, fun _ _ h => h, h.sign _ hsign⟩
  · rcases h₁ : s.emit .geImm [x] (some 0) with ⟨one, s₁⟩
    rcases h₂ : s₁.emit .addImm [one] (some 32767) with ⟨hi, s₂⟩
    rcases h₃ : s₂.emit .addImm [one] (some 65535) with ⟨lo, s₃⟩
    rcases h₄ : s₃.emit .mul [hi, lo] none with ⟨sign', s₄⟩
    simp only [h₁, h₂, h₃, h₄, Prod.mk.injEq] at hs
    obtain ⟨rfl, rfl⟩ := hs
    obtain ⟨v₁, ht₁, hg₁, hone⟩ := h.emit h₁ (by decide) (mapM_single hx) (by simp [hx]) fun id => rfl
    have hone : v₁ one = some 1 := by simpa using hone
    obtain ⟨v₂, ht₂, hg₂, hhi⟩ := ht₁.emit h₂ (by decide) (mapM_single hone) (by simp [hone]) fun id => rfl
    have hhi : v₂ hi = some 32768 := by simpa using hhi
    have hone' := hg₂ _ _ hone
    obtain ⟨v₃, ht₃, hg₃, hlo⟩ := ht₂.emit h₃ (by decide) (mapM_single hone') (by simp [hone']) fun id => rfl
    have hlo : v₃ lo = some 65536 := by simpa using hlo
    have hhi' := hg₃ _ _ hhi
    obtain ⟨v₄, ht₄, hg₄, hsign⟩ := ht₃.emit h₄ (by decide) (mapM_pair hhi' hlo) (by simp [hhi', hlo]) fun id => rfl
    have hsign : v₄ sign' = some (2 ^ 31) := by simpa using hsign
    refine ⟨v₄, { ht₄ with sign := fun x hx => ?_ }, ((hg₁.trans hg₂).trans hg₃).trans hg₄, hsign⟩
    cases hx
    exact hsign

/-- The biased copy of a word. -/
theorem Target.translated (h : Target load sources done s values) (share : Bool) {sign x value : String} {w : ℕ}
    {s' : Lowering} (hs : s.translated share sign x = (value, s')) (hsign : values sign = some (2 ^ 31))
    (hx : values x = some w) :
    ∃ values', Target load sources done s' values' ∧ Grows values values' ∧ values' value = some (bias w) := by
  unfold Lowering.translated at hs
  split at hs
  · rename_i hvalue
    cases hs
    split at hvalue
    · obtain ⟨w', hw', hb⟩ := h.biased x _ hvalue
      rw [hx, Option.some.injEq] at hw'
      exact ⟨values, h, fun _ _ h => h, hw' ▸ hb⟩
    · cases hvalue
  · rcases h₁ : s.emit .add [x, sign] none with ⟨value', s₁⟩
    simp only [h₁, Prod.mk.injEq] at hs
    obtain ⟨rfl, rfl⟩ := hs
    obtain ⟨v₁, ht₁, hg₁, hvalue⟩ := h.emit h₁ (by decide) (mapM_pair hx hsign) (by simp [hx, hsign]) fun id => rfl
    have hbias : v₁ value' = some (bias w) := by
      rw [hvalue]
      exact congrArg some (by unfold bias; omega)
    refine ⟨v₁, ?_, hg₁, hbias⟩
    split
    · refine { ht₁ with biased := fun y b hb => ?_ }
      dsimp only at hb
      by_cases heq : y = x
      · rw [heq, Function.update_self, Option.some.injEq] at hb
        exact ⟨w, heq ▸ hg₁ _ _ hx, hb ▸ hbias⟩
      · rw [Function.update_of_ne heq] at hb
        exact ht₁.biased y b hb
    · exact ht₁

end Target

section Refines

variable {load : Node → ℕ} {sources done : Finset String} {s : Lowering} {source target : String → Option ℕ}
  {node : Node}

/-- The lowered nodes have the words of their sources. -/
def Same (done : Finset String) (source target : String → Option ℕ) : Prop :=
  ∀ x ∈ done, ∃ w, source x = some w ∧ target x = some w

/-- What an admitted node looks like. -/
structure AdmittedNode (seen : Finset String) (node : Node) : Prop where
  notYield : node.op ≠ .yield
  fields : node.fieldsOk
  fresh : node.id ∉ seen
  arity : node.arguments.length = sourceArity node.op
  args : ∀ arg ∈ node.arguments, arg ∈ seen

theorem admitNode_eq_ok {seen seen' : Finset String} (h : admitNode seen node = .ok seen') :
    AdmittedNode seen node ∧ seen' = insert node.id seen := by
  simp only [admitNode, except_bind_eq_ok, require_eq_ok, exists_const, except_pure_eq_ok] at h
  obtain ⟨hyield, ⟨hfields, -, hfresh⟩, harity, hargs, -, -, rfl⟩ := h
  exact ⟨⟨hyield, hfields, hfresh, harity, hargs⟩, rfl⟩

/-- The words of the arguments, as the source and the target see them. -/
theorem Same.args (h : Same done source target) {args : List String} (hargs : ∀ arg ∈ args, arg ∈ done) :
    ∃ a, args.mapM source = some a ∧ args.mapM target = some a := by
  induction args with
  | nil => exact ⟨[], rfl, rfl⟩
  | cons x args ih =>
    rw [List.forall_mem_cons] at hargs
    obtain ⟨w, hs, ht⟩ := h x hargs.1
    obtain ⟨a, has, hat⟩ := ih hargs.2
    exact ⟨w :: a, by simp [hs, has], by simp [ht, hat]⟩

theorem mapM_length {values : String → Option ℕ} {args : List String} {a : List ℕ} (h : args.mapM values = some a) :
    a.length = args.length := by
  induction args generalizing a with
  | nil =>
    cases h
    rfl
  | cons x args ih =>
    simp only [List.mapM_cons, Option.bind_eq_bind, Option.bind_eq_some_iff, Option.pure_def, Option.some.injEq] at h
    obtain ⟨w, -, rest, hrest, rfl⟩ := h
    simp [ih hrest]

/-- An admitted node has a word, whatever the words of its arguments. -/
theorem AdmittedNode.word {seen : Finset String} (h : AdmittedNode seen node) {a : List ℕ}
    (ha : a.length = node.arguments.length) : ∃ v, nodeWord load node a = some v := by
  obtain ⟨id, op, view, args, imm⟩ := node
  have harity := h.arity
  have hfields := h.fields
  have hyield := h.notYield
  rw [← ha] at harity
  unfold nodeWord
  cases op <;> simp only [sourceArity, Node.fieldsOk, Op.hasImm] at harity hfields hyield ⊢
  case load => exact ⟨_, rfl⟩
  case yield => exact absurd rfl hyield
  case addImm =>
    obtain ⟨x, rfl⟩ := List.length_eq_one_iff.mp harity
    obtain ⟨i, rfl⟩ := Option.isSome_iff_exists.mp (hfields.2.2.mpr (by simp))
    exact ⟨_, rfl⟩
  case geImm =>
    obtain ⟨x, rfl⟩ := List.length_eq_one_iff.mp harity
    obtain ⟨i, rfl⟩ := Option.isSome_iff_exists.mp (hfields.2.2.mpr (by simp))
    exact ⟨_, rfl⟩
  case reluI32 =>
    obtain ⟨x, rfl⟩ := List.length_eq_one_iff.mp harity
    exact ⟨_, rfl⟩
  all_goals
    obtain ⟨x, y, rfl⟩ := List.length_eq_two.mp harity
    exact ⟨_, rfl⟩

/-- The largest of two biased words, chosen in a signed node, is the biased word of the result. -/
theorem Target.select (h : Target load sources done s target) {left right selected : String} {x y w : ℕ}
    {s' : Lowering} (hs : s.emit .max [left, right] none = (selected, s')) (hleft : target left = some x)
    (hright : target right = some y) (hw : max x y = bias w) :
    ∃ target', Target load sources done s' target' ∧ Grows target target' ∧ target' selected = some (bias w) := by
  obtain ⟨target', ht, hg, hsel⟩ := h.emit hs (by decide) (mapM_pair hleft hright) (by simp [hleft, hright])
    fun id => rfl
  refine ⟨target', ht, hg, ?_⟩
  have hlt : max x y < 2 ^ 32 := max_lt (h.small _ _ hleft) (h.small _ _ hright)
  rw [hsel, ← hw]
  exact congrArg some (by omega)

/-- The node that stands for a signed one takes the sign bit off again. -/
theorem Target.finish (h : Target load sources done s target) (share : Bool) {id selected sign : String} {w : ℕ}
    (hid : id ∈ sources) (hfresh : id ∉ done) (hsel : target selected = some (bias w))
    (hsign : target sign = some (2 ^ 31)) (hw : w < 2 ^ 32) :
    ∃ target', Target load sources (insert id done)
        (if share then { s.emitNamed id .add [selected, sign] none with
          biased := Function.update (s.emitNamed id .add [selected, sign] none).biased id (some selected) }
        else s.emitNamed id .add [selected, sign] none) target' ∧
      Grows target target' ∧ target' id = some w := by
  have hnew : id ∉ s.emitted.map (·.id) := fun hin => hfresh (h.pending id hin hid)
  obtain ⟨htarget, hgrows⟩ := h.push { id, op := .add, args := some [selected, sign], imm := none }
    (Finset.subset_insert id done) hnew (h.sources_reserved hid) (fun _ => Finset.mem_insert_self _ _)
    (show ¬ IsSigned .add ∧ Op.add ≠ .yield by decide) (mapM_pair hsel hsign) (by simp [Node.arguments, hsel, hsign]) rfl
  have hword : ((bias w : ℤ) + (2 ^ 31 : ℕ)) % 2 ^ 32 = (w : ℕ) := by
    have := bias_bias hw
    unfold bias at this ⊢
    omega
  rw [hword, Int.toNat_natCast] at htarget hgrows
  have hat : Function.update target id (some w) id = some w := Function.update_self ..
  refine ⟨_, ?_, hgrows, hat⟩
  split
  · refine { htarget with biased := fun x b hb => ?_ }
    dsimp only at hb
    by_cases heq : x = id
    · rw [heq, Function.update_self, Option.some.injEq] at hb
      exact ⟨w, heq ▸ hat, hb ▸ hgrows _ _ hsel⟩
    · rw [Function.update_of_ne heq] at hb
      exact htarget.biased x b hb
  · exact htarget

theorem Same.insert (h : Same done source target) {id : String} {w : ℕ}
    {target' : String → Option ℕ} (hgrows : Grows target target') (hid : target' id = some w) :
    Same (insert id done) (Function.update source id (some w)) target' := by
  intro x hx
  by_cases heq : x = id
  · exact ⟨w, by rw [heq, Function.update_self], heq ▸ hid⟩
  · obtain ⟨n, hs, ht⟩ := h x ((Finset.mem_insert.mp hx).resolve_left heq)
    exact ⟨n, by rw [Function.update_of_ne heq, hs], hgrows _ _ ht⟩

/-- Lowering a node gives its name the word of the source. -/
theorem lowerNode_same (share : Bool) (h : Target load sources done s target) (hsame : Same done source target)
    (hn : AdmittedNode done node) (hid : node.id ∈ sources) :
    ∃ source' target', evaluateNode load source node = some source' ∧
      Target load sources (insert node.id done) (lowerNode share s node) target' ∧
      Same (insert node.id done) source' target' := by
  obtain ⟨a, hsource, htarget⟩ := hsame.args hn.args
  obtain ⟨v, hv⟩ : ∃ v, nodeWord load node a = some v := hn.word (mapM_length hsource)
  have hdefined : ∀ arg ∈ node.arguments, ∃ w, target arg = some w := by
    intro arg harg
    obtain ⟨w, -, hw⟩ := hsame arg (hn.args arg harg)
    exact ⟨w, hw⟩
  have heval : evaluateNode load source node = some (Function.update source node.id (some (v % 2 ^ 32).toNat)) := by
    simp [evaluateNode, hsource, hv]
  suffices hlowered : ∃ target', Target load sources (insert node.id done) (lowerNode share s node) target' ∧
      Grows target target' ∧ target' node.id = some (v % 2 ^ 32).toNat by
    obtain ⟨target', ht, hgrows, hword⟩ := hlowered
    exact ⟨_, target', heval, ht, hsame.insert hgrows hword⟩
  unfold lowerNode
  by_cases hop : IsSigned node.op
  · rw [if_neg (not_not.mpr hop)]
    have hsmall : (v % 2 ^ 32).toNat < 2 ^ 32 := by omega
    rcases hop with hop | hop
    · obtain ⟨x, y, hargs⟩ := List.length_eq_two.mp (hn.arity.trans (by rw [hop]; rfl))
      obtain ⟨wx, hsx, htx⟩ := hsame x (hn.args x (by simp [hargs]))
      obtain ⟨wy, hsy, hty⟩ := hsame y (hn.args y (by simp [hargs]))
      rw [hargs, mapM_pair hsx hsy, Option.some.injEq] at hsource
      subst hsource
      have hv : max (signed wx) (signed wy) = v := by
        unfold nodeWord at hv
        rw [hop] at hv
        exact Option.some.inj hv
      rw [hargs]
      rcases h₁ : s.withSign x with ⟨sign, s₁⟩
      rcases h₂ : s₁.translated share sign x with ⟨left, s₂⟩
      rcases h₃ : s₂.translated share sign y with ⟨right, s₃⟩
      rcases h₄ : s₃.emit .max [left, right] none with ⟨selected, s₄⟩
      have hne : node.op ≠ .reluI32 := by simp [hop]
      simp only [List.getD_cons_zero, List.getD_cons_succ, h₁, h₂, h₃, h₄, if_neg hne]
      obtain ⟨t₁, ht₁, hg₁, hsign⟩ := h.withSign h₁ htx
      obtain ⟨t₂, ht₂, hg₂, hleft⟩ := ht₁.translated share h₂ hsign (hg₁ _ _ htx)
      obtain ⟨t₃, ht₃, hg₃, hright⟩ := ht₂.translated share h₃ (hg₂ _ _ hsign) (hg₂ _ _ (hg₁ _ _ hty))
      have hmax : max (bias wx) (bias wy) = bias (v % 2 ^ 32).toNat := by
        rw [max_bias (h.small _ _ htx) (h.small _ _ hty), hv]
      obtain ⟨t₄, ht₄, hg₄, hsel⟩ := ht₃.select h₄ (hg₃ _ _ hleft) hright hmax
      obtain ⟨t₅, ht₅, hg₅, hword⟩ := ht₄.finish share hid hn.fresh hsel (hg₄ _ _ (hg₃ _ _ (hg₂ _ _ hsign))) hsmall
      exact ⟨t₅, ht₅, (((hg₁.trans hg₂).trans hg₃).trans hg₄).trans hg₅, hword⟩
    · obtain ⟨x, hargs⟩ := List.length_eq_one_iff.mp (hn.arity.trans (by rw [hop]; rfl))
      obtain ⟨wx, hsx, htx⟩ := hsame x (hn.args x (by simp [hargs]))
      rw [hargs, mapM_single hsx, Option.some.injEq] at hsource
      subst hsource
      have hv : max 0 (signed wx) = v := by
        unfold nodeWord at hv
        rw [hop] at hv
        exact Option.some.inj hv
      rw [hargs]
      rcases h₁ : s.withSign x with ⟨sign, s₁⟩
      rcases h₂ : s₁.translated share sign x with ⟨left, s₂⟩
      rcases h₃ : s₂.emit .max [left, sign] none with ⟨selected, s₃⟩
      simp only [List.getD_cons_zero, h₁, h₂, h₃, if_pos hop]
      obtain ⟨t₁, ht₁, hg₁, hsign⟩ := h.withSign h₁ htx
      obtain ⟨t₂, ht₂, hg₂, hleft⟩ := ht₁.translated share h₂ hsign (hg₁ _ _ htx)
      have hmax : max (bias wx) (2 ^ 31) = bias (v % 2 ^ 32).toNat := by
        rw [max_bias_zero (h.small _ _ htx), hv]
      obtain ⟨t₃, ht₃, hg₃, hsel⟩ := ht₂.select h₃ hleft (hg₂ _ _ hsign) hmax
      obtain ⟨t₄, ht₄, hg₄, hword⟩ := ht₃.finish share hid hn.fresh hsel (hg₃ _ _ (hg₂ _ _ hsign)) hsmall
      exact ⟨t₄, ht₄, ((hg₁.trans hg₂).trans hg₃).trans hg₄, hword⟩
  · rw [if_pos hop]
    have hnew : node.id ∉ s.emitted.map (·.id) := fun hin => hn.fresh (h.pending _ hin hid)
    obtain ⟨ht, hgrows⟩ := h.push node (Finset.subset_insert node.id done) hnew (h.sources_reserved hid)
      (fun _ => Finset.mem_insert_self _ _) ⟨hop, hn.notYield⟩ htarget hdefined hv
    exact ⟨_, ht, hgrows, Function.update_self ..⟩

/-- All nodes, one after the other. -/
theorem lower_same (share : Bool) {nodes : List Node} {seen : Finset String} (hchecked : nodes.foldlM admitNode done = .ok seen)
    (hsources : ∀ n ∈ nodes, n.id ∈ sources) (h : Target load sources done s target) (hsame : Same done source target) :
    ∃ source' target', nodes.foldlM (evaluateNode load) source = some source' ∧
      Target load sources seen (nodes.foldl (lowerNode share) s) target' ∧ Same seen source' target' := by
  induction nodes generalizing done s source target with
  | nil =>
    cases hchecked
    exact ⟨source, target, rfl, h, hsame⟩
  | cons node nodes ih =>
    rw [List.foldlM_cons, except_bind_eq_ok] at hchecked
    obtain ⟨next, hnode, hchecked⟩ := hchecked
    obtain ⟨hn, rfl⟩ := admitNode_eq_ok hnode
    rw [List.forall_mem_cons] at hsources
    obtain ⟨source₁, target₁, heval, ht, hsame₁⟩ := lowerNode_same share h hsame hn hsources.1
    obtain ⟨source', target', hrest, ht', hsame'⟩ := ih hchecked hsources.2 ht hsame₁
    refine ⟨source', target', ?_, ht', hsame'⟩
    rw [List.foldlM_cons, heval]
    exact hrest

end Refines

/-- What the lowering keeps, when the loads give these words. -/
structure Preserves (load : Node → ℕ) (nodes emitted : List Node) : Prop where
  /-- Every source name has the word of the source semantics. -/
  words : ∃ source target, evaluate load nodes = some source ∧ evaluate load emitted = some target ∧
    ∀ n ∈ nodes, ∃ w, source n.id = some w ∧ target n.id = some w
  unsigned : ∀ m ∈ emitted, ¬ IsSigned m.op ∧ m.op ≠ .yield
  order : DependencyOrder emitted
  kept : ∀ n ∈ nodes, n.id ∈ emitted.map (·.id)
  /-- No name is given twice, be it a source name or a new one. -/
  distinct : (emitted.map (·.id)).Nodup

theorem mem_seen {nodes : List Node} {seen seen' : Finset String} (h : nodes.foldlM admitNode seen = .ok seen') :
    seen ⊆ seen' ∧ ∀ n ∈ nodes, n.id ∈ seen' := by
  induction nodes generalizing seen with
  | nil =>
    cases h
    simp
  | cons node nodes ih =>
    rw [List.foldlM_cons, except_bind_eq_ok] at h
    obtain ⟨next, hnode, h⟩ := h
    obtain ⟨-, rfl⟩ := admitNode_eq_ok hnode
    obtain ⟨hsub, hall⟩ := ih h
    exact ⟨(Finset.subset_insert _ _).trans hsub,
      List.forall_mem_cons.mpr ⟨hsub (Finset.mem_insert_self _ _), hall⟩⟩

/-- The lowering of an admitted node list preserves its meaning, whatever the names and the loads. -/
theorem lower_preserves {nodes emitted : List Node} {result : String} {share : Bool}
    (h : lower nodes result share = .ok emitted) (load : Node → ℕ) : Preserves load nodes emitted := by
  simp only [lower, except_bind_eq_ok, require_eq_ok, exists_const, except_pure_eq_ok] at h
  obtain ⟨-, seen, hchecked, -, rfl⟩ := h
  have hseen := (mem_seen hchecked).2
  have hstart : Target load seen ∅ { reserved := seen } fun _ => none :=
    { run := rfl, domain := by simp, defined := by simp, nodup := by simp, order := dependencyOrder_nil
      unsigned := by simp, sources_reserved := subset_rfl, emitted_reserved := by simp, pending := by simp
      small := by simp, sign := by simp, biased := by simp }
  have hnone : Same ∅ (fun _ => none) fun _ => none := by
    intro x hx
    cases hx
  obtain ⟨source, target, hsource, htarget, hsame⟩ := lower_same share hchecked hseen hstart hnone
  refine ⟨⟨source, target, hsource, htarget.run, fun n hn => hsame _ (hseen n hn)⟩, htarget.unsigned, htarget.order,
    fun n hn => ?_, htarget.nodup⟩
  obtain ⟨w, -, hw⟩ := hsame _ (hseen n hn)
  exact htarget.defined _ _ hw

section Sample

/-- Signed nodes after one another, under names the lowering would choose itself. -/
def clippedNodes : List Node :=
  [{ id := "__mf01_numeric_1", op := .load, view := some "x" }, { id := "y", op := .load, view := some "y" },
    { id := "m", op := .maxI32, args := some ["__mf01_numeric_1", "y"] },
    { id := "r", op := .reluI32, args := some ["m"] }]

theorem lower_preserves_clipped : ∃ emitted, lower clippedNodes "r" true = .ok emitted ∧
    Preserves (fun _ => 0x80000001) clippedNodes emitted := by
  have h : ∃ emitted, lower clippedNodes "r" true = .ok emitted := ⟨_, rfl⟩
  obtain ⟨emitted, h⟩ := h
  exact ⟨emitted, h, lower_preserves h _⟩

end Sample

end Raveil.Grid
