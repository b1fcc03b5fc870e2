import Raveil.Command.Emission
import Raveil.Command.Guard

/-! What a command after a fan-out waits for. -/
namespace Raveil.Command

open Lib CommandGraphCompiler

/-- Commands joined by `|`. -/
structure Pipeline where
  head : List String
  tail : List (List String)

namespace Pipeline

def tokens (p : Pipeline) : List String := p.head ++ p.tail.flatMap fun seg => "|" :: seg

def Plain (p : Pipeline) : Prop := CommandGraphCompiler.Plain p.head ∧ ∀ seg ∈ p.tail, CommandGraphCompiler.Plain seg

instance (p : Pipeline) : Decidable p.Plain := inferInstanceAs (Decidable (_ ∧ _))

end Pipeline

/-- `p1 ||| p2 ||| ... ||| pn && c`. -/
def fanoutTokens (first : Pipeline) (others : List Pipeline) (last : List String) : List String :=
  first.tokens ++ (others.flatMap fun q => "|||" :: q.tokens) ++ "&&" :: last

variable {c : CommandGraphCompiler} {e r : Emission} {seg rest : List String} {token : String} {op : Operator}

/-- One more node, and what it was linked to. -/
structure Takes (e e' : Emission) (node : CommandNode) : Prop where
  nodes : e'.nodes = e.nodes ++ [node]
  linked : dependenciesOf e.pendingOperator e.previous = .ok (node.dependencyMode, node.dependencies)
  previous : e'.previous = previousOf e.pendingOperator e.previous node.nodeId

theorem takes_of_absorb {e₁ e' : Emission} (habs : absorb c e seg = .ok e₁) (hemit : emit c e₁ = .ok e') :
    ∃ node, Takes e e' node := by
  obtain ⟨node, name, args, classified, h⟩ := emit_eq_ok hemit
  have hsame := sameNodes_absorb habs
  refine ⟨node, h.nodes.trans (by rw [hsame.nodes]), ?_, ?_⟩
  · rw [← hsame.pendingOperator, ← hsame.previous]
    exact h.linked
  · rw [h.previous, hsame.pendingOperator, hsame.previous]

theorem takes_command (hplain : Plain seg) (hop : Operator.ofToken token = some op)
    (h : collect c e (seg ++ token :: rest) = .ok r) :
    ∃ e' node, Takes e e' node ∧ collect c { e' with pendingOperator := some op } rest = .ok r := by
  obtain ⟨e₁, habs, h⟩ := collect_append hplain (fun t ht => by cases ht; simp [hop]) h
  obtain ⟨e', hemit, h⟩ := collect_operator hop h
  obtain ⟨node, ht⟩ := takes_of_absorb habs hemit
  exact ⟨e', node, ht, h⟩

theorem takes_last (hplain : Plain seg) (h : collect c e seg = .ok r) : ∃ node, Takes e r node := by
  rw [← List.append_nil seg] at h
  obtain ⟨e₁, habs, h⟩ := collect_append hplain (by simp [AtOperator]) h
  exact takes_of_absorb habs (by simpa [collect] using h)

/-- Each node reads the one before it. -/
def Streams : List CommandNode → Prop :=
  List.IsChain fun a b => b.dependencies = [a.nodeId] ∧ b.dependencyMode = .stream

/-- The nodes of one branch. -/
structure Branch where
  head : CommandNode
  tail : List CommandNode
  free : head.dependencies = []
  streams : Streams (head :: tail)

namespace Branch

def nodes (b : Branch) : List CommandNode := b.head :: b.tail

def lastNode (b : Branch) : CommandNode := b.nodes.getLast (List.cons_ne_nil _ _)

end Branch

/-- The nodes that a command after the branches waits for: a longer branch drops the earlier ones. -/
def remember (previous : List String) (b : Branch) : List String :=
  if b.tail = [] then previous ++ [b.head.nodeId] else [b.lastNode.nodeId]

theorem getLast_previousOf (pending : Option Operator) (previous : List String) (id : String) :
    (previousOf pending previous id).getLast? = some id := by
  cases pending with
  | none => rfl
  | some op => cases op <;> simp [previousOf]

/-- The nodes of a pipeline: the first as the operator before it says, the others in a row. -/
theorem takes_pipeline {p : Pipeline} (hplain : p.Plain) (hop : Operator.ofToken token = some op)
    (h : collect c e (p.tokens ++ token :: rest) = .ok r) :
    ∃ (e' : Emission) (head : CommandNode) (tail : List CommandNode),
      e'.nodes = e.nodes ++ head :: tail ∧ tail.length = p.tail.length ∧
      dependenciesOf e.pendingOperator e.previous = .ok (head.dependencyMode, head.dependencies) ∧
      Streams (head :: tail) ∧
      e'.previous = (if tail = [] then previousOf e.pendingOperator e.previous head.nodeId
        else [((head :: tail).getLast (List.cons_ne_nil _ _)).nodeId]) ∧
      collect c { e' with pendingOperator := some op } rest = .ok r := by
  obtain ⟨phead, ptail⟩ := p
  induction ptail generalizing e phead with
  | nil =>
    obtain ⟨e', node, ht, h⟩ := takes_command hplain.1 hop (by simpa [Pipeline.tokens] using h)
    exact ⟨e', node, [], ht.nodes, rfl, ht.linked, List.IsChain.singleton _, ht.previous, h⟩
  | cons seg segs ih =>
    have hplain' : (Pipeline.mk seg segs).Plain :=
      ⟨hplain.2 seg (by simp), fun s hs => hplain.2 s (by simp [hs])⟩
    have hpipe : collect c e (phead ++ "|" :: ((Pipeline.mk seg segs).tokens ++ token :: rest)) = .ok r := by
      simpa [Pipeline.tokens, List.append_assoc] using h
    obtain ⟨e₁, node, ht, h⟩ := takes_command hplain.1 (show Operator.ofToken "|" = some .pipe from rfl) hpipe
    obtain ⟨e', head, tail, hnodes, hlen, hlinked, hstreams, hprev, h⟩ := ih seg hplain' h
    have hlast := getLast_previousOf e.pendingOperator e.previous node.nodeId
    rw [← ht.previous] at hlast
    simp only [dependenciesOf, hlast, Except.ok.injEq, Prod.mk.injEq] at hlinked
    refine ⟨e', node, head :: tail, ?_, by simp [hlen], ht.linked, ?_, ?_, h⟩
    · rw [hnodes]
      change e₁.nodes ++ _ = _
      rw [ht.nodes]
      simp
    · exact List.isChain_cons_cons.mpr ⟨⟨hlinked.2.symm, hlinked.1.symm⟩, hstreams⟩
    · rw [hprev]
      by_cases htail : tail = []
      · simp [htail, previousOf]
      · simp [htail]

/-- Before the first branch, or behind the operator of a later one. -/
def AtBranch (e : Emission) : Prop :=
  e.pendingOperator = some .fanout ∨ e.pendingOperator = none ∧ e.previous = []

theorem takes_branch {p : Pipeline} (hplain : p.Plain) (hpending : AtBranch e) (hop : Operator.ofToken token = some op)
    (h : collect c e (p.tokens ++ token :: rest) = .ok r) : ∃ (e' : Emission) (b : Branch),
      e'.nodes = e.nodes ++ b.nodes ∧ p.tail.length = b.tail.length ∧ e'.previous = remember e.previous b ∧
      collect c { e' with pendingOperator := some op } rest = .ok r := by
  obtain ⟨e', head, tail, hnodes, hlen, hlinked, hstreams, hprev, h⟩ := takes_pipeline hplain hop h
  have hfree : head.dependencies = [] := by
    rcases hpending with hp | ⟨hp, -⟩ <;> simp [dependenciesOf, hp] at hlinked <;> exact hlinked.2
  refine ⟨e', ⟨head, tail, hfree, hstreams⟩, hnodes, hlen.symm, ?_, h⟩
  rw [hprev, remember]
  rcases hpending with hp | ⟨hp, hnil⟩
  · rw [hp]
    rfl
  · rw [hp, hnil]
    rfl

/-- The branches of a fan-out, and the command that joins them. -/
theorem takes_branches {p : Pipeline} {others : List Pipeline} {last : List String} (hplain : ∀ q ∈ p :: others, q.Plain)
    (hlast : Plain last) (hpending : AtBranch e)
    (h : collect c e (p.tokens ++ ((others.flatMap fun q => "|||" :: q.tokens) ++ "&&" :: last)) = .ok r) :
    ∃ (branches : List Branch) (join : CommandNode),
      List.Forall₂ (fun (q : Pipeline) (b : Branch) => q.tail.length = b.tail.length) (p :: others) branches ∧
      r.nodes = e.nodes ++ branches.flatMap Branch.nodes ++ [join] ∧ join.dependencyMode = .success ∧
      join.dependencies = branches.foldl remember e.previous := by
  rw [List.forall_mem_cons] at hplain
  induction others generalizing p e with
  | nil =>
    have hjoin : collect c e (p.tokens ++ "&&" :: last) = .ok r := by simpa using h
    obtain ⟨e', b, hnodes, hlen, hprev, h⟩ := takes_branch hplain.1 hpending
      (show Operator.ofToken "&&" = some .success from rfl) hjoin
    obtain ⟨join, ht⟩ := takes_last hlast h
    have hlinked := ht.linked
    simp only [dependenciesOf, Except.ok.injEq, Prod.mk.injEq] at hlinked
    refine ⟨[b], join, List.Forall₂.cons hlen List.Forall₂.nil, ?_, hlinked.1.symm, ?_⟩
    · rw [ht.nodes]
      simp [hnodes]
    · rw [← hlinked.2, hprev]
      rfl
  | cons q others ih =>
    have hfan : collect c e (p.tokens ++ "|||" :: (q.tokens ++
        ((others.flatMap fun q => "|||" :: q.tokens) ++ "&&" :: last))) = .ok r := by
      simpa [List.append_assoc] using h
    obtain ⟨e', b, hnodes, hlen, hprev, h⟩ := takes_branch hplain.1 hpending
      (show Operator.ofToken "|||" = some .fanout from rfl) hfan
    have hrest := List.forall_mem_cons.mp hplain.2
    obtain ⟨branches, join, hshape, hall, hmode, hdeps⟩ := ih hrest (Or.inl rfl) h
    refine ⟨b :: branches, join, List.Forall₂.cons hlen hshape, ?_, hmode, ?_⟩
    · rw [hall]
      simp [hnodes]
    · rw [hdeps, List.foldl_cons, ← hprev]

section Joined

variable {program : CommandGraphProgram} {branches : List Branch} {first b : Branch} {others : List Branch}
  {join n x : CommandNode} {previous : List String}

/-- A node behind the first of its branch waits only for the node before it. -/
theorem mem_of_streams {a : CommandNode} {l : List CommandNode} (hs : Streams (a :: l)) (hn : n ∈ l) {dep : String}
    (hdep : dep ∈ n.dependencies) : ∃ y ∈ a :: l, y.nodeId = dep := by
  induction l generalizing a with
  | nil => cases hn
  | cons a' l ih =>
    obtain ⟨hlink, hs'⟩ := List.isChain_cons_cons.mp hs
    rcases List.mem_cons.mp hn with rfl | hn
    · rw [hlink.1, List.mem_singleton] at hdep
      exact ⟨a, by simp, hdep.symm⟩
    · obtain ⟨y, hy, hid⟩ := ih hs' hn
      exact ⟨y, List.mem_cons_of_mem _ hy, hid⟩

theorem Branch.mem_of_dependency (hn : n ∈ b.nodes) {dep : String} (hdep : dep ∈ n.dependencies) :
    ∃ y ∈ b.nodes, y.nodeId = dep := by
  rcases List.mem_cons.mp hn with rfl | hn
  · simp [b.free] at hdep
  · exact mem_of_streams b.streams hn hdep

theorem hardPath_last {a : CommandNode} {l : List CommandNode} (hs : Streams (a :: l))
    (hmem : ∀ y ∈ a :: l, y ∈ program.nodes) (hn : n ∈ a :: l) :
    n = (a :: l).getLast (List.cons_ne_nil _ _) ∨ HardPath program n ((a :: l).getLast (List.cons_ne_nil _ _)) := by
  induction l generalizing a n with
  | nil => exact Or.inl (List.mem_singleton.mp hn)
  | cons a' l ih =>
    obtain ⟨hlink, hs'⟩ := List.isChain_cons_cons.mp hs
    have hrest := fun {y : CommandNode} => ih (n := y) hs' fun y hy => hmem y (List.mem_cons_of_mem _ hy)
    rw [List.getLast_cons_cons]
    rcases List.mem_cons.mp hn with rfl | hn
    · right
      have hedge : DependsOn program n a' ∧ a'.dependencyMode ≠ .always :=
        ⟨⟨hmem n (by simp), hmem a' (by simp), by simp [hlink.1]⟩, by simp [hlink.2]⟩
      rcases hrest (List.mem_cons_self) with hlast | hpath
      · exact hlast ▸ Relation.TransGen.single hedge
      · exact Relation.TransGen.head hedge hpath
    · exact hrest hn

/-- The compiled form of a fan-out with its join. -/
structure Joined (program : CommandGraphProgram) (first : Branch) (others : List Branch) (join : CommandNode) :
    Prop where
  acyclic : Acyclic program
  nodes : program.nodes = (first :: others).flatMap Branch.nodes ++ [join]
  mode : join.dependencyMode = .success
  dependencies : join.dependencies = (first :: others).foldl remember []

theorem remember_nil (b : Branch) : remember [] b = [b.lastNode.nodeId] := by
  unfold remember Branch.lastNode Branch.nodes
  split
  · rename_i htail
    simp [htail]
  · rfl

theorem foldl_remember (hsingle : ∀ b ∈ others, b.tail = []) :
    others.foldl remember previous = previous ++ others.map (·.lastNode.nodeId) := by
  induction others generalizing previous with
  | nil => simp
  | cons b others ih =>
    rw [List.forall_mem_cons] at hsingle
    have hb : remember previous b = previous ++ [b.lastNode.nodeId] := by
      simp [remember, Branch.lastNode, Branch.nodes, hsingle.1]
    rw [List.foldl_cons, hb, ih hsingle.2]
    simp

namespace Joined

variable (hj : Joined program first others join)
include hj

theorem branch_mem (hb : b ∈ first :: others) (hn : n ∈ b.nodes) : n ∈ program.nodes := by
  rw [hj.nodes]
  exact List.mem_append_left _ (List.mem_flatMap.mpr ⟨b, hb, hn⟩)

theorem join_mem : join ∈ program.nodes := by
  rw [hj.nodes]
  simp

/-- With single commands after the first branch, the join hangs on everything. -/
theorem hardPath_join (hsingle : ∀ b ∈ others, b.tail = []) (hb : b ∈ first :: others) (hn : n ∈ b.nodes) :
    HardPath program n join := by
  have hlast : HardPath program b.lastNode join := by
    refine Relation.TransGen.single ⟨⟨hj.branch_mem hb (List.getLast_mem _), hj.join_mem, ?_⟩, by simp [hj.mode]⟩
    rw [hj.dependencies, List.foldl_cons, remember_nil, foldl_remember hsingle]
    rcases List.mem_cons.mp hb with rfl | hb
    · simp
    · exact List.mem_append_right _ (List.mem_map.mpr ⟨b, hb, rfl⟩)
  rcases hardPath_last b.streams (fun y hy => hj.branch_mem hb hy) hn with rfl | hpath
  · exact hlast
  · exact hpath.trans hlast

/-- A longer later branch hides the first one from the join. -/
theorem not_path_join {before after : List Branch} {long : Branch} (hsplit : others = before ++ long :: after)
    (hlong : long.tail ≠ []) (hafter : ∀ b ∈ after, b.tail = []) : ¬ DependencyPath program first.head join := by
  intro hpath
  have hsub : ∀ b ∈ long :: after, b ∈ first :: others := by
    intro b hb
    rw [hsplit]
    simp only [List.mem_cons, List.mem_append] at hb ⊢
    tauto
  -- what the join can reach stays within the last long branch and those after it
  have hreach : ∀ {x : CommandNode}, DependencyPath program x join → ∃ b ∈ long :: after, x ∈ b.nodes := by
    intro x hx
    induction hx using Relation.TransGen.head_induction_on with
    | single hdep =>
      rename_i x
      have hid := hdep.2.2
      rw [hj.dependencies, hsplit, List.foldl_cons, List.foldl_append, List.foldl_cons, foldl_remember hafter,
        remember, if_neg hlong] at hid
      have hmem : ∃ b ∈ long :: after, b.lastNode.nodeId = x.nodeId := by
        rcases List.mem_append.mp hid with hid | hid
        · exact ⟨long, by simp, (List.mem_singleton.mp hid).symm⟩
        · obtain ⟨b, hb, hid⟩ := List.mem_map.mp hid
          exact ⟨b, by simp [hb], hid⟩
      obtain ⟨b, hb, hid⟩ := hmem
      obtain rfl := hj.acyclic.eq_of_nodeId (hj.branch_mem (hsub b hb) (List.getLast_mem _)) hdep.1 hid
      exact ⟨b, hb, List.getLast_mem _⟩
    | head hdep _ ih =>
      obtain ⟨b, hb, hy⟩ := ih
      obtain ⟨y, hmem, hid⟩ := Branch.mem_of_dependency hy hdep.2.2
      obtain rfl := hj.acyclic.eq_of_nodeId (hj.branch_mem (hsub b hb) hmem) hdep.1 hid
      exact ⟨b, hb, hmem⟩
  obtain ⟨b, hb, hhead⟩ := hreach hpath
  have hnodup := hj.acyclic.nodes_nodup
  rw [hj.nodes, List.nodup_append, List.flatMap_cons, List.nodup_append] at hnodup
  refine hnodup.1.2.2 first.head (by simp [Branch.nodes]) first.head ?_ rfl
  exact List.mem_flatMap.mpr ⟨b, by rw [hsplit]; simp only [List.mem_cons, List.mem_append] at hb ⊢; tauto, hhead⟩

end Joined

/-- A list with a bad element has a last one. -/
theorem exists_last_not {α : Type} {p : α → Prop} {l : List α} (h : ¬ ∀ x ∈ l, p x) :
    ∃ before x after, l = before ++ x :: after ∧ ¬ p x ∧ ∀ y ∈ after, p y := by
  induction l with
  | nil => exact absurd (by simp) h
  | cons a l ih =>
    by_cases hl : ∀ x ∈ l, p x
    · exact ⟨[], a, l, rfl, fun ha => h (List.forall_mem_cons.mpr ⟨ha, hl⟩), hl⟩
    · obtain ⟨before, x, after, rfl, hx, hafter⟩ := ih hl
      exact ⟨a :: before, x, after, rfl, hx, hafter⟩

end Joined

/-- The last node of a program waits for all others, and starts only when they have executed. -/
def JoinLaw (program : CommandGraphProgram) : Prop :=
  ∀ join ∈ program.nodes.getLast?, ∀ n ∈ program.nodes.dropLast,
    DependencyPath program n join ∧ Guards program n join

theorem HardPath.path {program : CommandGraphProgram} {a b : CommandNode} (h : HardPath program a b) :
    DependencyPath program a b := by
  induction h with
  | single hdep => exact Relation.TransGen.single hdep.1
  | tail _ hdep ih => exact Relation.TransGen.tail ih hdep.1

theorem Joined.law_iff {program : CommandGraphProgram} {first : Branch} {others : List Branch} {join : CommandNode}
    (hj : Joined program first others join) : JoinLaw program ↔ ∀ b ∈ others, b.tail = [] := by
  have hlast : program.nodes.getLast? = some join := by simp [hj.nodes]
  have hinit : program.nodes.dropLast = (first :: others).flatMap Branch.nodes := by simp [hj.nodes]
  constructor
  · intro hlaw
    by_contra hno
    obtain ⟨before, long, after, hsplit, hlong, hafter⟩ := exists_last_not hno
    have hfirst : first.head ∈ program.nodes.dropLast := by simp [hinit, Branch.nodes]
    exact hj.not_path_join hsplit hlong hafter (hlaw join hlast first.head hfirst).1
  · intro hsingle join' hjoin' n hn
    obtain rfl := Option.some.inj (hlast.symm.trans hjoin')
    rw [hinit] at hn
    obtain ⟨b, hb, hn⟩ := List.mem_flatMap.mp hn
    have hpath := hj.hardPath_join hsingle hb hn
    exact ⟨hpath.path, guards_of_hardPath hj.acyclic hpath⟩

theorem joined_of_compile {source : String} {program : CommandGraphProgram} {first : Pipeline}
    {others : List Pipeline} {last : List String} (hplain : ∀ q ∈ first :: others, q.Plain) (hlast : Plain last)
    (htokens : tokens source = .ok (fanoutTokens first others last)) (h : compile c source = .ok program) :
    ∃ (first' : Branch) (others' : List Branch) (join : CommandNode), Joined program first' others' join ∧
      List.Forall₂ (fun (q : Pipeline) (b : Branch) => q.tail.length = b.tail.length) others others' := by
  obtain ⟨toks, r, inputs, htoks, hr, -, -, -, hnodes, -, -, -, -, -, -, -, hvalid⟩ := compile_eq_ok h
  obtain rfl := Except.ok.inj (htokens.symm.trans htoks)
  rw [fanoutTokens, List.append_assoc] at hr
  obtain ⟨branches, join, hshape, hall, hmode, hdeps⟩ := takes_branches hplain hlast (Or.inr ⟨rfl, rfl⟩) hr
  cases hshape with
  | cons hfirst hothers =>
    refine ⟨_, _, join, ⟨acyclic_of_validate hvalid, ?_, hmode, hdeps⟩, hothers⟩
    rw [hnodes, hall]
    rfl

theorem tail_nil_iff {others : List Pipeline} {others' : List Branch}
    (h : List.Forall₂ (fun (q : Pipeline) (b : Branch) => q.tail.length = b.tail.length) others others') :
    (∀ b ∈ others', b.tail = []) ↔ ∀ q ∈ others, q.tail = [] := by
  induction h with
  | nil => simp
  | cons hqb _ ih =>
    rw [List.forall_mem_cons, List.forall_mem_cons, ih, ← List.length_eq_zero_iff, ← hqb, List.length_eq_zero_iff]

/-- The command after a fan-out waits for all of it exactly when every branch after the first is a
single command. -/
theorem fanout_joins (c : CommandGraphCompiler) (source : String) (program : CommandGraphProgram)
    (first : Pipeline) (others : List Pipeline) (last : List String) (hplain : ∀ q ∈ first :: others, q.Plain)
    (hlast : Plain last) (htokens : tokens source = .ok (fanoutTokens first others last))
    (h : compile c source = .ok program) : JoinLaw program ↔ ∀ q ∈ others, q.tail = [] := by
  obtain ⟨first', others', join, hj, hshape⟩ := joined_of_compile hplain hlast htokens h
  exact hj.law_iff.trans (tail_nil_iff hshape)

section Sample

/-- A compiler whose tools are empty files, in an empty workspace. -/
def emptyCompiler : CommandGraphCompiler where
  workspace :=
    { cwdParts := [], cwd_component := components_nil, rootKept := true
      lstat p := if p = [] then .directory else .missing }
  machine := { digits := ⟨Char.isDigit, fun _ => none⟩, binary _ _ := some [], probe _ _ _ := none }

/-- What the compiler asks of commands without files. -/
def Compiles (source : String) : Prop :=
  match tokens source >>= collect emptyCompiler {} with
  | .ok r => r.inputs = ∅ ∧ r.outputs = ∅ ∧ r.nodes ≠ [] ∧ (r.nodes.length : ℤ) ≤ 64 ∧
      (r.nodes.map (·.nodeId)).Nodup ∧ CommandGraphProgram.topological [] r.nodes = true
  | .error _ => False

instance (source : String) : Decidable (Compiles source) := by
  unfold Compiles
  split <;> infer_instance

theorem compile_of_compiles (source : String) (h : Compiles source) :
    ∃ program, compile emptyCompiler source = .ok program := by
  unfold Compiles at h
  cases htoks : tokens source with
  | error e => simp [htoks, bind, Except.bind] at h
  | ok toks =>
    cases hr : collect emptyCompiler {} toks with
    | error e => simp [htoks, hr, bind, Except.bind] at h
    | ok r =>
      simp only [htoks, hr, bind, Except.bind] at h
      obtain ⟨hinputs, houtputs, hne, hlen, hnodup, hord⟩ := h
      refine ⟨(provisional emptyCompiler source r []).sealed, ?_⟩
      simp only [compile, except_bind_eq_ok, require_eq_ok, exists_const, except_pure_eq_ok, forM_eq_ok]
      refine ⟨toks, htoks, r, hr, hlen, [], ?_, (), ?_, ⟨(), ?_, rfl⟩⟩
      · rw [hinputs, sorted, Finset.sort_empty]
        rfl
      · simp [houtputs, sorted]
      · simp only [CommandGraphProgram.validate, check_then_eq_ok, require_eq_ok]
        exact ⟨⟨rfl, rfl⟩, ⟨hne, hlen⟩, hnodup, hord, Finset.sort_nodup _ _, List.nodup_nil⟩

end Sample

/-- Two commands side by side, then a third. -/
theorem fanout_joins_pair : ∃ program, compile emptyCompiler "pwd ||| pwd && pwd" = .ok program ∧
    (JoinLaw program ↔ ∀ q ∈ [(⟨["pwd"], []⟩ : Pipeline)], q.tail = []) := by
  obtain ⟨program, h⟩ := compile_of_compiles "pwd ||| pwd && pwd" (by decide +kernel)
  refine ⟨program, h, fanout_joins emptyCompiler _ program ⟨["pwd"], []⟩ _ ["pwd"] ?_ ?_ ?_ h⟩
  · decide
  · decide
  · decide

/-- In `pwd ||| pwd | wc && pwd` the first branch is forgotten. -/
theorem not_fanout_joins : ¬ ∀ (c : CommandGraphCompiler) (source : String) (program : CommandGraphProgram)
    (first : Pipeline) (others : List Pipeline) (last : List String), (∀ q ∈ first :: others, q.Plain) →
    Plain last → tokens source = .ok (fanoutTokens first others last) → compile c source = .ok program →
    JoinLaw program := by
  intro hall
  obtain ⟨program, h⟩ := compile_of_compiles "pwd ||| pwd | wc && pwd" (by decide +kernel)
  have hplain : ∀ q ∈ [(⟨["pwd"], []⟩ : Pipeline), ⟨["pwd"], [["wc"]]⟩], q.Plain := by decide
  have hlaw := hall emptyCompiler _ program _ _ ["pwd"] hplain (by decide) (by decide) h
  obtain ⟨first', others', join, hj, hshape⟩ := joined_of_compile hplain (show Plain ["pwd"] by decide) (by decide) h
  cases (tail_nil_iff hshape).mp (hj.law_iff.mp hlaw) ⟨["pwd"], [["wc"]]⟩ (by simp)

end Raveil.Command
