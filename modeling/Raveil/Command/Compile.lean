import Raveil.Command.Tools
import Mathlib.Data.Finset.Sort

/-! From a command line to a command-graph program: its tokens, as `shlex` splits them in POSIX mode at blanks and
punctuation, and what the compiler emits for them. -/
namespace Raveil.Command

open Lib

section Tokens

/-- Where `read_token` stands; after an escape it goes back to a quotation or to a word. -/
inductive LexState where
  | blank
  | word
  | punctuation
  | quote (q : Char)
  | escape (back : Option Char)
  deriving DecidableEq

def isBlank (c : Char) : Bool := c = ' ' || c = '\t' || c = '\r' || c = '\n'

def isPunctuation (c : Char) : Bool := "|<>&;".toList.contains c

def isQuote (c : Char) : Bool := c = '\'' || c = '"'

/-- The first character of a token: the state after it and the token so far. -/
def startToken (c : Char) : LexState × List Char :=
  if c = '\\' then (.escape none, [])
  else if isPunctuation c then (.punctuation, [c])
  else if isQuote c then (.quote c, [])
  else (.word, [c])

/-- The tokens, given the state, whether the token so far had a quotation, and that token. -/
def lex : LexState → Bool → List Char → List Char → Except String (List String)
  | .blank, _, _, [] => .ok []
  | .word, quoted, token, [] => .ok (if token = [] ∧ ¬ quoted then [] else [String.ofList token])
  | .punctuation, _, token, [] => .ok [String.ofList token]
  | .quote _, _, _, [] => .error "No closing quotation"
  | .escape _, _, _, [] => .error "No escaped character"
  | .blank, _, _, c :: rest =>
    if isBlank c then lex .blank false [] rest else lex (startToken c).1 false (startToken c).2 rest
  | .word, quoted, token, c :: rest =>
    if isBlank c then
      if token = [] ∧ ¬ quoted then lex .blank false [] rest
      else (lex .blank false [] rest).map (String.ofList token :: ·)
    else if isQuote c then lex (.quote c) quoted token rest
    else if c = '\\' then lex (.escape none) quoted token rest
    else if isPunctuation c then
      if token = [] ∧ ¬ quoted then lex (startToken c).1 false (startToken c).2 rest
      else (lex (startToken c).1 false (startToken c).2 rest).map (String.ofList token :: ·)
    else lex .word quoted (token ++ [c]) rest
  | .punctuation, _, token, c :: rest =>
    if isBlank c then (lex .blank false [] rest).map (String.ofList token :: ·)
    else if isPunctuation c then lex .punctuation false (token ++ [c]) rest
    else (lex (startToken c).1 false (startToken c).2 rest).map (String.ofList token :: ·)
  | .quote q, _, token, c :: rest =>
    if c = q then lex .word true token rest
    else if c = '\\' ∧ q = '"' then lex (.escape (some q)) true token rest
    else lex (.quote q) true (token ++ [c]) rest
  | .escape none, quoted, token, c :: rest => lex .word quoted (token ++ [c]) rest
  | .escape (some q), quoted, token, c :: rest =>
    -- inside quotes only the quote and the escape lose their backslash
    lex (.quote q) quoted (token ++ (if c ≠ '\\' ∧ c ≠ q then ['\\', c] else [c])) rest

/-- Operators and expansions the compiler does not take. -/
def unsupported (token : String) : Bool :=
  [">>", "||", "&"].contains token || token.toList.any fun c => "*?[]".toList.contains c

/-- `CommandGraphCompiler._tokens`. -/
def tokens (source : String) : Except String (List String) := do
  require (encodedLength source ≤ 8192 ∧ '\x00' ∉ source.toList ∧ 0x60 ∉ source.toList.map Char.toNat ∧
    '$' ∉ source.toList) "command source is invalid or oversized"
  let tokens ← lex .blank false [] source.toList
  require (tokens ≠ []) "command is empty"
  match tokens.find? unsupported with
  | some token => throw ("unsupported shell operator or expansion: " ++ token)
  | none => return tokens

example : tokens "cat '/a b' ''>/c|||wc -l" = .ok ["cat", "/a b", "", ">", "/c", "|||", "wc", "-l"] := by
  decide

end Tokens

/-- `tuple(sorted(paths))`. -/
def sorted (paths : Finset String) : List String := paths.sort (· ≤ ·)

inductive Operator where
  | pipe
  | success
  | sequence
  | fanout
  deriving DecidableEq

def Operator.ofToken (token : String) : Option Operator :=
  if token = "|" then some .pipe
  else if token = "&&" then some .success
  else if token = ";" then some .sequence
  else if token = "|||" then some .fanout
  else none

def isRedirection (token : String) : Bool := token = "<" || token = ">"

structure CommandGraphCompiler where
  workspace : NativeWorkspace
  machine : Machine
  policy : ExecutionPolicy := {}

/-- What the loop over the tokens has collected. -/
structure Emission where
  nodes : List CommandNode := []
  edges : List CommandEdge := []
  inputs : Finset String := ∅
  outputs : Finset String := ∅
  command : List String := []
  stdinFile : Option String := none
  stdoutFile : Option String := none
  pendingOperator : Option Operator := none
  previous : List String := []
  fanoutGroup : ℕ := 0

/-- `f"{n:03d}"`. -/
def threeDigits (n : ℕ) : String :=
  String.ofList (List.replicate (3 - (toString n).length) '0') ++ toString n

def nodeIdOf (n : ℕ) (name : String) : String := "node-" ++ threeDigits n ++ "-" ++ name

def asSet (file : Option String) : Finset String := file.elim ∅ singleton

/-- How a node depends on those before it. -/
def dependenciesOf (pending : Option Operator) (previous : List String) :
    Except String (DependencyMode × List String) :=
  match pending with
  | some .pipe =>
    match previous.getLast? with
    | none => .error "list index out of range"
    | some last => .ok (.stream, [last])
  | some .success => .ok (.success, previous)
  | some .sequence => .ok (.always, previous)
  | some .fanout | none => .ok (.always, [])

/-- The nodes that a later operator refers to. -/
def previousOf (pending : Option Operator) (previous : List String) (nodeId : String) : List String :=
  match pending with
  | some .fanout => previous ++ [nodeId]
  | _ => [nodeId]

/-- The node of the command collected so far. -/
def nodeOf (e : Emission) (name : String) (tool : ToolIdentity) (classified : Classified) (mode : DependencyMode)
    (dependencies : List String) : CommandNode :=
  { nodeId := nodeIdOf (e.nodes.length + 1) name, tool, argv := classified.args
    pathIndices := classified.pathIndices, declaredWrites := sorted (classified.writes ∪ asSet e.stdoutFile)
    stdinFile := e.stdinFile, stdoutFile := e.stdoutFile, dependencies, dependencyMode := mode
    fanoutGroup := if e.pendingOperator = some .fanout then e.fanoutGroup + 1 else e.fanoutGroup }

/-- The state after a node; the next command is empty again. -/
def advance (e : Emission) (classified : Classified) (node : CommandNode) : Emission :=
  { nodes := e.nodes ++ [node]
    edges := e.edges ++ node.dependencies.map fun dep =>
      { source := dep, target := node.nodeId, kind := node.dependencyMode.edgeKind }
    inputs := e.inputs ∪ classified.reads ∪ asSet e.stdinFile
    outputs := e.outputs ∪ classified.writes ∪ asSet e.stdoutFile
    previous := previousOf e.pendingOperator e.previous node.nodeId
    fanoutGroup := node.fanoutGroup }

namespace CommandGraphCompiler

variable (c : CommandGraphCompiler)

/-- The command collected so far becomes a node. -/
def emit (e : Emission) : Except String Emission := do
  match e.command with
  | [] => .error "operator requires a command"
  | name :: args =>
    require (e.command.length ≤ MAX_ARGV ∧ (e.command.map encodedLength).sum ≤ MAX_ARG_BYTES)
      "command argv exceeds bounds"
    require ('/' ∉ name.toList) "executable paths are not accepted"
    let tool ← resolve c.machine name
    let classified ← toolPaths c.machine.digits c.workspace name args
    let (mode, dependencies) ← dependenciesOf e.pendingOperator e.previous
    return advance e classified (nodeOf e name tool classified mode dependencies)

/-- One redirection of the command being collected. -/
def redirect (e : Emission) (token target : String) : Except String Emission := do
  require (Operator.ofToken target = none ∧ ¬ isRedirection target) "redirection requires a path"
  let virtual ← c.workspace.normalize target
  if token = "<" then
    require (e.stdinFile = none) "duplicate input redirection"
    return { e with stdinFile := some virtual }
  else
    require (e.stdoutFile = none) "duplicate output redirection"
    return { e with stdoutFile := some virtual }

/-- The loop over the tokens. -/
def collect (e : Emission) : List String → Except String Emission
  | [] => emit c e
  | token :: rest =>
    match Operator.ofToken token with
    | some operator => do
      let e ← emit c e
      collect { e with pendingOperator := some operator } rest
    | none =>
      if isRedirection token then
        match rest with
        | [] => .error "redirection requires a path"
        | target :: rest => do
          let e ← redirect c e token target
          collect e rest
      else collect { e with command := e.command ++ [token] } rest

/-- Whether an input exists outside the program; one that does not must be an output. -/
def externalInput (outputs : Finset String) (path : String) : Except String Bool :=
  match c.workspace.existingHostPath path with
  | .error message =>
    if path ∉ outputs ∨ ¬ "does not exist".toList <:+: message.toList then .error message else .ok false
  | .ok (_, host) =>
    if c.workspace.lstat host ≠ .regular then .error "declared input must be a regular file" else .ok true

/-- An output must not exist yet. -/
def freshOutput (path : String) : Except String Unit :=
  match c.workspace.existingHostPath path with
  | .error message => if ¬ "does not exist".toList <:+: message.toList then .error message else .ok ()
  | .ok _ => .error ("output already exists: " ++ path)

def provisional (source : String) (e : Emission) (externalInputs : List String) : CommandGraphProgram :=
  { graphId := "pending", source, nodes := e.nodes, edges := e.edges, declaredInputs := externalInputs
    declaredOutputs := sorted e.outputs, policy := c.policy, environment := controlledEnvironment }

def compile (source : String) : Except String CommandGraphProgram := do
  let tokens ← tokens source
  let e ← collect c {} tokens
  require ((e.nodes.length : ℤ) ≤ c.policy.maxNodes) "command graph exceeds node limit"
  -- the order of a set only decides which of several errors is raised
  let externalInputs ← (sorted e.inputs).filterM (externalInput c e.outputs)
  (sorted e.outputs).forM (freshOutput c)
  let value := (provisional c source e externalInputs).sealed
  value.validate
  return value

end CommandGraphCompiler

end Raveil.Command
