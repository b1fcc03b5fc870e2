import Raveil.Command.Executors
import Mathlib.Logic.Relation

/-! What a run of a node touches in the stage, and when two runs stay apart. -/
namespace Raveil.Command

open Lib Steps

/-- The node of `b` waits directly for that of `a`. -/
def DependsOn (program : CommandGraphProgram) (a b : CommandNode) : Prop :=
  a ∈ program.nodes ∧ b ∈ program.nodes ∧ a.nodeId ∈ b.dependencies

/-- A dependency path from `a` to `b`. -/
def DependencyPath (program : CommandGraphProgram) : CommandNode → CommandNode → Prop :=
  Relation.TransGen (DependsOn program)

/-- The declared reads: classified arguments and the redirected input. -/
def Reads (digits : Digits) (w : NativeWorkspace) (n : CommandNode) (p : List String) : Prop :=
  (∃ c, classify digits w n = .ok c ∧ ∃ v ∈ c.reads, stagePath v = .ok p) ∨
    ∃ v, n.stdinFile = some v ∧ stagePath v = .ok p

/-- The declared writes. -/
def Writes (n : CommandNode) (p : List String) : Prop := ∃ v ∈ n.declaredWrites, stagePath v = .ok p

/-- The directories above the redirected output. -/
def Above (n : CommandNode) (p : List String) : Prop :=
  ∃ v q, n.stdoutFile = some v ∧ stagePath v = .ok q ∧ p ∈ ancestors q

variable {digits : Digits} {w : NativeWorkspace} {h : Host} {a b n : CommandNode}

section
variable (digits w)

/-- One writes a path that the other reads or writes. -/
def Conflict (a b : CommandNode) : Prop := ∃ p, Writes a p ∧ (Reads digits w b p ∨ Writes b p)

/-- One's redirected output lies below a path that the other reads or writes. -/
def Obstructs (a b : CommandNode) : Prop := ∃ p, Above a p ∧ (Reads digits w b p ∨ Writes b p)

/-- What a tool may ask for: it looks at its declared paths and changes its declared writes. -/
def ToolOp (n : CommandNode) : FileOp → Prop
  | .look p => Reads digits w n p ∨ Writes n p
  | .makeDirectory p | .write p _ => Writes n p

/-- What the run of a node may ask for. -/
def NodeOp (n : CommandNode) (o : FileOp) : Prop :=
  ToolOp digits w n o ∨ ∃ p, o = .makeDirectory p ∧ Above n p

/-- Every run of the node's tool stays within its declarations. -/
def StaysDeclared (h : Host) (n : CommandNode) : Prop :=
  ∀ argv stdin, hostArgv n = .ok argv → (h.process n.tool argv stdin).Within (ToolOp digits w n)

end

theorem ToolOp.touches {o : FileOp} (ho : ToolOp digits w n o) : Reads digits w n o.path ∨ Writes n o.path := by
  cases o with
  | look p => exact ho
  | makeDirectory p => exact Or.inr ho
  | write p data => exact Or.inr ho

theorem NodeOp.apart (hab : ¬ Conflict digits w a b) (hba : ¬ Conflict digits w b a)
    (hab' : ¬ Obstructs digits w a b) (hba' : ¬ Obstructs digits w b a) {o o' : FileOp}
    (ho : NodeOp digits w a o) (ho' : NodeOp digits w b o') : Stage.Apart o o' := by
  rcases ho with ho | ⟨p, rfl, hp⟩ <;> rcases ho' with ho' | ⟨q, rfl, hq⟩
  · by_cases hpath : o.path = o'.path
    · -- at one path neither can change anything
      have hnoa : ¬ Writes a o.path := fun hw => hab ⟨_, hw, hpath ▸ ho'.touches⟩
      have hnob : ¬ Writes b o'.path := fun hw => hba ⟨_, hw, hpath ▸ ho.touches⟩
      cases o with
      | look p =>
        cases o' with
        | look q => exact Or.inr (Or.inl ⟨p, q, rfl, rfl⟩)
        | makeDirectory q => exact absurd ho' hnob
        | write q data => exact absurd ho' hnob
      | makeDirectory p => exact absurd ho hnoa
      | write p data => exact absurd ho hnoa
    · exact Or.inl hpath
  · left
    intro hpath
    have htouch := ho.touches
    rw [hpath] at htouch
    exact hba' ⟨q, hq, htouch⟩
  · left
    intro hpath
    have htouch := ho'.touches
    rw [← hpath] at htouch
    exact hab' ⟨p, hp, htouch⟩
  · exact Or.inr (Or.inr ⟨p, q, rfl, rfl⟩)

section
variable {R R' : Type} {P : FileOp → Prop}

theorem within_lift (x : Except String R) : (lift x).Within P := trivial

theorem within_andThen {p : Steps R} {f : R → Steps R'} (hp : p.Within P) (hf : ∀ r, (f r).Within P) :
    (p.andThen f).Within P := by
  apply hp.bind
  intro r
  cases r with
  | ok r => exact hf r
  | error message => trivial

/-- What follows a lifted value may rely on it. -/
theorem within_lift_andThen {x : Except String R} {f : R → Steps R'} (hf : ∀ r, x = .ok r → (f r).Within P) :
    ((lift x).andThen f).Within P := by
  cases x with
  | ok r => exact hf r rfl
  | error message => trivial

end

theorem within_readStdin (stdin : List UInt8) : (readStdin n stdin).Within (NodeOp digits w n) := by
  unfold readStdin
  cases hfile : n.stdinFile with
  | none => trivial
  | some file =>
    apply within_lift_andThen
    intro p hp
    refine ⟨Or.inl (Or.inl (Or.inr ⟨file, hfile, hp⟩)), fun e => ?_⟩
    dsimp only
    split <;> trivial

theorem within_makeParents {paths : List (List String)} (h : ∀ p ∈ paths, Above n p) :
    (makeParents paths).Within (NodeOp digits w n) := by
  induction paths with
  | nil => trivial
  | cons p paths ih =>
    rw [List.forall_mem_cons] at h
    refine ⟨Or.inr ⟨p, rfl, h.1⟩, fun e => ?_⟩
    dsimp only
    split
    · exact ih h.2
    · trivial

theorem within_prepareOutput (hout : ∀ file ∈ n.stdoutFile, file ∈ n.declaredWrites) :
    (prepareOutput n).Within (NodeOp digits w n) := by
  unfold prepareOutput
  cases hfile : n.stdoutFile with
  | none => trivial
  | some file =>
    apply within_lift_andThen
    intro p hp
    refine ⟨Or.inl (Or.inr ⟨file, hout file hfile, hp⟩), fun e => ?_⟩
    dsimp only
    split
    · trivial
    · exact within_makeParents fun q hq => ⟨file, p, hfile, hp, hq⟩

theorem within_storeOutput (hout : ∀ file ∈ n.stdoutFile, file ∈ n.declaredWrites) (status : Status)
    (stdout : List UInt8) : (storeOutput n status stdout).Within (NodeOp digits w n) := by
  unfold storeOutput
  cases hfile : n.stdoutFile with
  | none => trivial
  | some file =>
    simp only
    split
    · apply within_lift_andThen
      intro p hp
      refine ⟨Or.inl ⟨file, hout file hfile, hp⟩, fun e => ?_⟩
      dsimp only
      split <;> trivial
    · trivial

/-- A run touches what its node declares, and the directories above its output. -/
theorem within_runNode (htool : StaysDeclared digits w h n)
    (hout : ∀ file ∈ n.stdoutFile, file ∈ n.declaredWrites) (stdin : List UInt8) :
    (runNode h n stdin).Within (NodeOp digits w n) := by
  apply within_andThen (within_lift _)
  intro _
  apply within_lift_andThen
  intro argv hargv
  apply within_andThen (within_readStdin stdin)
  intro stdin
  apply within_andThen (within_prepareOutput hout)
  intro _
  apply ((htool argv stdin hargv).mono fun o ho => Or.inl ho).bind
  intro ran
  apply within_andThen (within_lift _)
  intro captured
  apply within_andThen (within_lift _)
  intro stdout
  apply within_andThen (within_storeOutput hout _ stdout)
  intro stdout
  trivial

theorem within_runProgram (htool : StaysDeclared digits w h n)
    (hout : ∀ file ∈ n.stdoutFile, file ∈ n.declaredWrites) (streams : String → Option (List UInt8)) :
    (runProgram h streams n).Within (NodeOp digits w n) :=
  within_andThen (within_lift _) fun stdin => within_runNode htool hout stdin

/-- Runs of nodes that neither conflict nor obstruct each other. -/
theorem runs_apart (hab : ¬ Conflict digits w a b) (hba : ¬ Conflict digits w b a)
    (hab' : ¬ Obstructs digits w a b) (hba' : ¬ Obstructs digits w b a) {p q : Steps (NodeOutcome × List UInt8)}
    (hp : p.Within (NodeOp digits w a)) (hq : q.Within (NodeOp digits w b)) :
    p.Within fun o => q.Within (Prog.Commute Stage.perform o) :=
  hp.mono fun _ ho => hq.mono fun _ ho' => Stage.commute_of_apart (ho.apart hab hba hab' hba' ho')

end Raveil.Command
