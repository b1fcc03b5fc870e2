import Raveil.Command.Compile

/-! What the compiler's loop does with one command, and with the operator after it. -/
namespace Raveil.Command.CommandGraphCompiler

open Lib

variable {c : CommandGraphCompiler} {e e' r : Emission} {seg rest : List String} {token : String} {op : Operator}

/-- A node made from the command collected so far. -/
structure Emits (c : CommandGraphCompiler) (e e' : Emission) (node : CommandNode) (name : String)
    (args : List String) (classified : Classified) : Prop where
  command : e.command = name :: args
  length : e.command.length ≤ MAX_ARGV
  bytes : (e.command.map encodedLength).sum ≤ MAX_ARG_BYTES
  noSlash : '/' ∉ name.toList
  resolved : resolve c.machine name = .ok node.tool
  paths : toolPaths c.machine.digits c.workspace name args = .ok classified
  linked : dependenciesOf e.pendingOperator e.previous = .ok (node.dependencyMode, node.dependencies)
  node_eq : node = nodeOf e name node.tool classified node.dependencyMode node.dependencies
  after : e' = advance e classified node

theorem emit_eq_ok (h : emit c e = .ok e') : ∃ node name args classified, Emits c e e' node name args classified := by
  unfold emit at h
  split at h
  · cases h
  rename_i name args hcommand
  simp only [except_bind_eq_ok, require_eq_ok, exists_const, except_pure_eq_ok] at h
  obtain ⟨⟨hlength, hbytes⟩, hslash, tool, htool, classified, hclassified, ⟨mode, deps⟩, hlinked, rfl⟩ := h
  exact ⟨_, name, args, classified, hcommand, hlength, hbytes, hslash, htool, hclassified, hlinked, rfl, rfl⟩

theorem Emits.nodes {node : CommandNode} {name : String} {args : List String} {classified : Classified}
    (h : Emits c e e' node name args classified) : e'.nodes = e.nodes ++ [node] := by
  rw [h.after]
  rfl

theorem Emits.previous {node : CommandNode} {name : String} {args : List String} {classified : Classified}
    (h : Emits c e e' node name args classified) :
    e'.previous = previousOf e.pendingOperator e.previous node.nodeId := by
  rw [h.after]
  rfl

/-- A command's words and redirections, up to the next operator. -/
def absorb (c : CommandGraphCompiler) (e : Emission) : List String → Except String Emission
  | [] => .ok e
  | token :: rest =>
    if isRedirection token then
      match rest with
      | [] => .error "redirection requires a path"
      | target :: rest => do
        let e ← redirect c e token target
        absorb c e rest
    else absorb c { e with command := e.command ++ [token] } rest

/-- No token is an operator. -/
def Plain (seg : List String) : Prop := ∀ token ∈ seg, Operator.ofToken token = none

instance (seg : List String) : Decidable (Plain seg) :=
  inferInstanceAs (Decidable (∀ token ∈ seg, _))

/-- The tokens from the next operator on. -/
def AtOperator (rest : List String) : Prop := ∀ token ∈ rest.head?, (Operator.ofToken token).isSome

theorem collect_word (hop : Operator.ofToken token = none) (hred : isRedirection token = false) :
    collect c e (token :: rest) = collect c { e with command := e.command ++ [token] } rest := by
  rw [collect.eq_def]
  simp [hop, hred]

theorem collect_redirection {target : String} (hop : Operator.ofToken token = none) (hred : isRedirection token = true) :
    collect c e (token :: target :: rest) = redirect c e token target >>= fun e => collect c e rest := by
  rw [collect.eq_def]
  simp [hop, hred]

/-- The loop takes a command in, then goes on at the operator. -/
theorem collect_append (hplain : Plain seg) (hrest : AtOperator rest) (h : collect c e (seg ++ rest) = .ok r) :
    ∃ e', absorb c e seg = .ok e' ∧ collect c e' rest = .ok r := by
  fun_induction absorb c e seg with
  | case1 e => exact ⟨e, rfl, h⟩
  | case2 e token hred =>
    -- a redirection with its path missing
    have hop := hplain token (by simp)
    cases rest with
    | nil =>
      rw [List.append_nil, collect.eq_def] at h
      simp [hop, hred] at h
    | cons op rest =>
      have hsome := hrest op rfl
      rw [List.singleton_append, collect_redirection hop hred, redirect] at h
      simp only [except_bind_eq_ok, require_eq_ok, exists_const] at h
      obtain ⟨_, ⟨⟨hnone, -⟩, -⟩, -⟩ := h
      simp [hnone] at hsome
  | case3 e token hred target seg ih =>
    rw [List.cons_append, List.cons_append, collect_redirection (hplain token (by simp)) hred,
      except_bind_eq_ok] at h
    obtain ⟨e₁, he₁, h⟩ := h
    obtain ⟨e', he', h⟩ := ih e₁ (fun t ht => hplain t (by simp [ht])) h
    exact ⟨e', by rw [he₁]; exact he', h⟩
  | case4 e token seg hred ih =>
    rw [List.cons_append, collect_word (hplain token (by simp)) (by simpa using hred)] at h
    exact ih (fun t ht => hplain t (by simp [ht])) h

theorem collect_operator (hop : Operator.ofToken token = some op) (h : collect c e (token :: rest) = .ok r) :
    ∃ e', emit c e = .ok e' ∧ collect c { e' with pendingOperator := some op } rest = .ok r := by
  rw [collect.eq_def] at h
  simpa [hop] using h

/-- What `absorb` leaves alone. -/
structure SameNodes (e e' : Emission) : Prop where
  nodes : e'.nodes = e.nodes
  edges : e'.edges = e.edges
  inputs : e'.inputs = e.inputs
  outputs : e'.outputs = e.outputs
  pendingOperator : e'.pendingOperator = e.pendingOperator
  previous : e'.previous = e.previous
  fanoutGroup : e'.fanoutGroup = e.fanoutGroup

theorem redirect_eq_ok {target : String} (h : redirect c e token target = .ok e') :
    ∃ v, c.workspace.normalize target = .ok v ∧
      (e' = { e with stdinFile := some v } ∨ e' = { e with stdoutFile := some v }) := by
  unfold redirect at h
  simp only [except_bind_eq_ok, require_eq_ok, exists_const] at h
  obtain ⟨-, v, hv, h⟩ := h
  refine ⟨v, hv, ?_⟩
  split at h
  · simp only [except_bind_eq_ok, require_eq_ok, exists_const, except_pure_eq_ok] at h
    exact Or.inl h.2.symm
  · simp only [except_bind_eq_ok, require_eq_ok, exists_const, except_pure_eq_ok] at h
    exact Or.inr h.2.symm

theorem SameNodes.refl (e : Emission) : SameNodes e e := ⟨rfl, rfl, rfl, rfl, rfl, rfl, rfl⟩

theorem SameNodes.trans {e₁ e₂ e₃ : Emission} (h : SameNodes e₁ e₂) (h' : SameNodes e₂ e₃) : SameNodes e₁ e₃ :=
  ⟨h'.nodes.trans h.nodes, h'.edges.trans h.edges, h'.inputs.trans h.inputs, h'.outputs.trans h.outputs,
    h'.pendingOperator.trans h.pendingOperator, h'.previous.trans h.previous,
    h'.fanoutGroup.trans h.fanoutGroup⟩

theorem sameNodes_absorb (h : absorb c e seg = .ok e') : SameNodes e e' := by
  fun_induction absorb c e seg with
  | case1 e =>
    cases h
    exact SameNodes.refl _
  | case2 e token hred => cases h
  | case3 e token hred target seg ih =>
    rw [except_bind_eq_ok] at h
    obtain ⟨e₁, he₁, h⟩ := h
    refine SameNodes.trans ?_ (ih e₁ h)
    obtain ⟨v, -, rfl | rfl⟩ := redirect_eq_ok he₁ <;> exact ⟨rfl, rfl, rfl, rfl, rfl, rfl, rfl⟩
  | case4 e token seg hred ih =>
    have hword : SameNodes e { e with command := e.command ++ [token] } := ⟨rfl, rfl, rfl, rfl, rfl, rfl, rfl⟩
    exact hword.trans (ih h)

theorem compile_eq_ok {source : String} {program : CommandGraphProgram} (h : compile c source = .ok program) :
    ∃ toks r inputs, tokens source = .ok toks ∧ collect c {} toks = .ok r ∧
      (r.nodes.length : ℤ) ≤ c.policy.maxNodes ∧
      (sorted r.inputs).filterM (externalInput c r.outputs) = .ok inputs ∧
      (∀ path ∈ sorted r.outputs, freshOutput c path = .ok ()) ∧
      program.nodes = r.nodes ∧ program.edges = r.edges ∧ program.source = source ∧
      program.declaredInputs = inputs ∧ program.declaredOutputs = sorted r.outputs ∧
      program.policy = c.policy ∧ program.environment = controlledEnvironment ∧ program.schema = PROGRAM_SCHEMA ∧
      program.validate = .ok () := by
  simp only [compile, except_bind_eq_ok, require_eq_ok, exists_const, except_pure_eq_ok, forM_eq_ok] at h
  obtain ⟨toks, htoks, r, hr, hnodes, inputs, hinputs, u, hfresh, u', hvalid, rfl⟩ := h
  exact ⟨toks, r, inputs, htoks, hr, hnodes, hinputs, hfresh, rfl, rfl, rfl, rfl, rfl, rfl, rfl, rfl, hvalid⟩

end Raveil.Command.CommandGraphCompiler
