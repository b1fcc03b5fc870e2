import Raveil.Command.Paths
import Raveil.Command.Program
import Raveil.Command.Text
import Mathlib.Data.Finset.Basic
import Mathlib.Data.Finset.Dedup

/-! The allowlisted tools: their identities, and which of their arguments are paths. -/
namespace Raveil.Command

open Lib

def TOOL_DIRS : List String := ["/usr/bin", "/bin", "/usr/local/bin", "/opt/homebrew/bin"]

def ALLOWLIST : List String :=
  ["echo", "printf", "pwd", "ls", "cat", "stat", "mkdir", "grep", "wc", "sort", "uniq", "cut", "tr", "head",
    "tail", "tee", "cp", "sha256sum"]

/-- What the host has outside the workspace. -/
structure Machine where
  digits : Digits
  /-- The contents of a regular executable file, by directory and name. -/
  binary : String → String → Option (List UInt8)
  /-- The exit status and the output of a binary run with one option, unless it could not be run. -/
  probe : String → String → String → Option (ℤ × List UInt8)

section ToolRegistry

def candidate (m : Machine) (name : String) : Except String (String × String × List UInt8) :=
  let names := if name ≠ "sha256sum" then [name] else ["sha256sum", "shasum"]
  let places := TOOL_DIRS.flatMap fun directory => names.map fun actual => (directory, actual)
  match places.findSome? fun p => (m.binary p.1 p.2).map fun data => (p.1, p.2, data) with
  | some found => .ok found
  | none => .error ("allowlisted tool is unavailable: " ++ name)

/-- The version line of the first option that works. -/
def reportedVersion (m : Machine) (directory actual digest : String) : String :=
  let line := ["--version", "-V"].findSome? fun option => do
    let (returncode, stdout) ← m.probe directory actual option
    let line ← (splitlines [] (decodeReplace (stdout.take 256))).head?
    if returncode = 0 then
      some (firstChars 256 (" ".intercalate ((splitWords isSpace line).map String.ofList)))
    else none
  line.getD ("unreported-" ++ firstChars 12 digest)

def adapterOf (name actual : String) : String :=
  if name = "sha256sum" ∧ actual = "shasum" then "shasum-a-256" else "direct-argv"

def locatorOf (actual digest : String) : String := "system://" ++ actual ++ "/" ++ firstChars 16 digest

def resolve (m : Machine) (name : String) : Except String ToolIdentity := do
  require (name ∈ ALLOWLIST) ("tool is not allowlisted: " ++ name)
  let (directory, actual, data) ← candidate m name
  let digest := hexdigest data
  return ⟨name, locatorOf actual digest, reportedVersion m directory actual digest, digest,
    adapterOf name actual, TOOL_SCHEMA⟩

def executable (m : Machine) (identity : ToolIdentity) : Except String (String × String) := do
  let (directory, actual, data) ← candidate m identity.logicalName
  require (identity.adapter = adapterOf identity.logicalName actual ∧
    identity.locator = locatorOf actual identity.binarySha256) ("tool identity mismatch: " ++ identity.logicalName)
  require (hexdigest data = identity.binarySha256) ("stale tool identity: " ++ identity.logicalName)
  return (directory, actual)

end ToolRegistry

/-- The arguments after classification: which are paths, and what they read and write. -/
structure Classified where
  args : List String
  pathIndices : List ℕ
  reads : Finset String
  writes : Finset String

def isOption (item : String) : Bool := item.toList.head? = some '-'

/-- A loop over operands from `index` on; `isPath` is the loop's check of one of them. -/
def operandLoop (w : NativeWorkspace) (isPath : String → Except String Bool) :
    ℕ → List String → Except String (List String × List ℕ × List String)
  | _, [] => .ok ([], [], [])
  | index, item :: rest => do
    if ← isPath item then
      let virtual ← w.normalize item
      let (args, paths, touched) ← operandLoop w isPath (index + 1) rest
      .ok (virtual :: args, index :: paths, virtual :: touched)
    else
      let (args, paths, touched) ← operandLoop w isPath (index + 1) rest
      .ok (item :: args, paths, touched)

/-- The operands from `index` on, all of them read or all of them written. -/
def operands (w : NativeWorkspace) (write : Bool) (isPath : String → Except String Bool) (index : ℕ)
    (args : List String) : Except String Classified := do
  let (rest, paths, touched) ← operandLoop w isPath index (args.drop index)
  .ok ⟨args.take index ++ rest, paths, if write then ∅ else touched.toFinset,
    if write then touched.toFinset else ∅⟩

/-- No argument is a path. -/
def noPaths (args : List String) : Classified := ⟨args, [], ∅, ∅⟩

def always (_ : String) : Except String Bool := .ok true

namespace ToolPaths

variable (w : NativeWorkspace) (args : List String)

/-- `cat`, `tee` and `sha256sum`: files only, at least one. -/
def filesOnly (write : Bool) (message : String) : Except String Classified :=
  if args = [] ∨ args.any isOption then .error message else operands w write always 0 args

def cat : Except String Classified := filesOnly w args false "cat accepts file operands only"

def tee : Except String Classified := filesOnly w args true "tee append/options are unsupported"

def sha256sum : Except String Classified := filesOnly w args false "sha256sum accepts files only"

def grepOperand (item : String) : Except String Bool :=
  if isOption item then .error "unsupported grep option" else .ok true

def grep : Except String Classified :=
  let allowed := ["-E", "-F", "-i", "-v", "-c"]
  let index := (args.takeWhile (allowed.contains ·)).length
  match args[index]? with
  | none => .error "grep requires a pattern"
  | some pattern =>
    if isOption pattern then .error "unsupported grep option"
    else operands w false grepOperand (index + 1) args

/-- An argument that is an allowed option or a path. -/
def flagOrPath (name : String) (allowed : List String) (item : String) : Except String Bool :=
  if isOption item then
    if item ∈ allowed then .ok false else .error ("unsupported " ++ name ++ " option")
  else .ok true

def wc : Except String Classified := operands w false (flagOrPath "wc" ["-l", "-w", "-c"]) 0 args

def sort : Except String Classified := operands w false (flagOrPath "sort" ["-r", "-n", "-u"]) 0 args

def uniq : Except String Classified :=
  let options := args.takeWhile isOption
  if ¬ options.all (["-c", "-d", "-u"].contains ·) then .error "unsupported uniq option"
  else if args.length - options.length > 1 then .error "uniq supports at most one input file"
  else operands w false always options.length args

def tr : Except String Classified :=
  if args.length ≠ 2 ∨ args.any isOption then .error "tr requires two sets" else .ok (noPaths args)

/-- `head` and `tail`. -/
def lines (digits : Digits) (name : String) : Except String Classified :=
  match args with
  | "-n" :: [] => .error ("invalid " ++ name ++ " count")
  | "-n" :: count :: _ =>
    if count = "" ∨ ¬ count.toList.all digits.isdigit then .error ("invalid " ++ name ++ " count")
    else operands w false always 2 args
  | first :: _ =>
    if isOption first then .error ("unsupported " ++ name ++ " option") else operands w false always 0 args
  | [] => .ok (noPaths args)

/-- How many arguments the options of `cut` take. -/
def cutOptions : List String → Except String ℕ
  | option :: rest =>
    if option = "-d" ∨ option = "-f" then
      match rest with
      | [] => .error "invalid cut option"
      | _ :: rest => (cutOptions rest).map (· + 2)
    else .ok 0
  | [] => .ok 0

def cut : Except String Classified := do
  let index ← cutOptions args
  if index = 0 then .error "cut requires -d/-f" else operands w false always index args

def cp : Except String Classified :=
  match args with
  | [source, destination] =>
    if args.any isOption then .error "cp requires source and destination"
    else do
      let source ← w.normalize source
      let destination ← w.normalize destination
      .ok ⟨[source, destination], [0, 1], singleton source, singleton destination⟩
  | _ => .error "cp requires source and destination"

/-- `ls` and `stat`. -/
def listing (name : String) : Except String Classified :=
  if args.length > 1 ∨ args.any isOption then .error ("unsupported " ++ name ++ " arguments")
  else operands w false always 0 args

def mkdir : Except String Classified :=
  if args.length ≠ 1 ∨ args.any isOption then .error "mkdir requires one path" else operands w true always 0 args

def pwd : Except String Classified :=
  if args ≠ [] then .error "pwd accepts no arguments" else .ok (noPaths args)

def echo : Except String Classified :=
  if args.any isOption then .error "echo options are unsupported" else .ok (noPaths args)

def printf : Except String Classified :=
  match args with
  | [] => .error "invalid printf arguments"
  | format :: _ =>
    if ['%', 'n'] <:+: format.toList then .error "invalid printf arguments" else .ok (noPaths args)

end ToolPaths

/-- `_tool_paths`; the arguments it rewrites in place are part of the result. -/
def toolPaths (digits : Digits) (w : NativeWorkspace) (name : String) (args : List String) :
    Except String Classified :=
  if name = "cat" then ToolPaths.cat w args
  else if name = "grep" then ToolPaths.grep w args
  else if name = "wc" then ToolPaths.wc w args
  else if name = "sort" then ToolPaths.sort w args
  else if name = "uniq" then ToolPaths.uniq w args
  else if name = "tr" then ToolPaths.tr args
  else if name = "head" ∨ name = "tail" then ToolPaths.lines w args digits name
  else if name = "cut" then ToolPaths.cut w args
  else if name = "tee" then ToolPaths.tee w args
  else if name = "cp" then ToolPaths.cp w args
  else if name = "sha256sum" then ToolPaths.sha256sum w args
  else if name = "ls" ∨ name = "stat" then ToolPaths.listing w args name
  else if name = "mkdir" then ToolPaths.mkdir w args
  else if name = "pwd" then ToolPaths.pwd args
  else if name = "echo" then ToolPaths.echo args
  else if name = "printf" then ToolPaths.printf args
  else .error "unsupported tool adapter"

end Raveil.Command
