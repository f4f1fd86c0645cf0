import Mimic.Shell.Interp
import Mimic.Shell.Splitting

/-!
# Command lines as trees

What somebody means by a command line is a tree: words of texts and parameters, redirects, pipes,
the operators between pipelines, and substitutions, which hold command lines again. `text` writes a
tree down with every text in single quotes, and `run` says what a tree does, with no text to scan,
to expand or to split. `Shell/Rendering` shows that the interpreter does with the text what the tree
says.

These are not translated from the source. What `run` does for a tree follows the steps that
`run_pipeline` and `execute` take once the line is cut up.
-/

namespace Mimic

namespace Syntax

open Mimic.Interp Mimic.Parser

/-! ### Trees -/

/-- Whether a text is a name that a variable can have. -/
def isName : Str → Bool
  | [] => false
  | c :: rest => (c.isAlpha || c == '_') && rest.all fun c ↦ c.isAlphanum || c == '_'

/-- A parameter that is read. -/
inductive Ref
  | status | pid
  | var (name : { name : Str // isName name })

/-- A part of a word. -/
inductive Part
  | text (value : Str)
  | ref (r : Ref)

/-- A word. It is one argument, whatever its parts come to. -/
abbrev Word := List Part

/-- An argument: a word, or the words of what a command line prints. -/
inductive Arg (α : Type)
  | word (w : Word)
  | fields (line : α)

inductive Redirection
  | file (stream : Stream) (target : Word) (append : Bool)
  /-- `2>&1` -/
  | errToOut
  /-- `>&2` -/
  | outToErr

structure Command (α : Type) where
  args : List (Arg α)
  redirects : List Redirection
  nonblank : args ≠ [] ∨ redirects ≠ []

structure Pipeline (α : Type) where
  first : Command α
  rest : List (Command α)

/-- Pipelines with the operators between them. The substitutions hold values of `α`. -/
structure LineOf (α : Type) where
  first : Pipeline α
  rest : List (Separator × Pipeline α)

/-- Command lines with fewer than `d` levels of substitutions. -/
def CommandLine : ℕ → Type
  | 0 => Empty
  | d + 1 => LineOf (CommandLine d)

/-! ### What is written -/

/-- The inside of single quotes: a quote is left out, escaped and entered again. -/
def quoted (value : Str) : Str :=
  value.flatMap fun c ↦ if c = '\'' then ['\'', '\\', '\'', '\''] else [c]

def Ref.text : Ref → Str
  | status => ['$', '?']
  | pid => ['$', '$']
  | var name => '$' :: '{' :: name.val ++ ['}']

def Part.written : Part → Str
  | text value => '\'' :: quoted value ++ ['\'']
  | ref r => '"' :: r.text ++ ['"']

/-- The quotes in front make a word of no parts a word. -/
def Word.text (w : Word) : Str := '\'' :: '\'' :: w.flatMap Part.written

def descriptorText : Stream → Str
  | .stdout => []
  | .stderr => ['2']
  | .both => ['&']

def Redirection.text : Redirection → Str
  | file stream target append =>
    ' ' :: descriptorText stream ++ (if append then ['>', '>'] else ['>']) ++ Word.text target
  | errToOut => [' ', '2', '>', '&', '1']
  | outToErr => [' ', '>', '&', '2']

section Text

variable {α : Type} (write : α → Str)

def Arg.text : Arg α → Str
  | word w => Word.text w
  | fields line => '$' :: '(' :: write line ++ [')']

def Command.text (c : Command α) : Str :=
  (c.args.flatMap fun a ↦ ' ' :: a.text write) ++ c.redirects.flatMap Redirection.text

def Pipeline.text (p : Pipeline α) : Str :=
  p.first.text write ++ p.rest.flatMap fun c ↦ '|' :: c.text write

def LineOf.text (line : LineOf α) : Str :=
  line.first.text write ++ line.rest.flatMap fun p ↦ p.1.symbols ++ p.2.text write

end Text

def CommandLine.text : (d : ℕ) → CommandLine d → Str
  | 0, line => Empty.elim line
  | d + 1, line => LineOf.text (CommandLine.text d) line

/-! ### What is done -/

/-- The parameter that is read. -/
def Ref.parameter : Ref → Parameter
  | status => .status
  | pid => .pid
  | var name => .var name

def Part.value : Part → Run Str
  | text value => return value
  | ref r => do
    let s ← get
    return s.value r.parameter

/-- The text that a word comes to. -/
def Word.value : Word → Run Str
  | [] => return []
  | part :: parts => do
    let front ← part.value
    let back ← Word.value parts
    return front ++ back

/-- The output of a command line that is run as a subshell. -/
def capture (run : Run Output) : Run Str := do
  let saved ← get
  if saved.nesting ≥ maxNestedCommands then return []
  else
    enter (saved.nesting + 1) (saved.substDepth + 1)
    modify fun s ↦ s.withCaptures []
    let output ← run
    modify fun s ↦ s.restore saved
    let s ← get
    enter (s.nesting - 1) (s.substDepth - 1)
    let value := Text.takeBytes s.substBudget (spliceText output)
    modify fun s ↦ s.splice output.stderr value
    return value

/-- Open the targets, one after the other. -/
def openTargets (now : Timestamp) (sinks : Sinks) : List Redirection → Run (Except Str Sinks)
  | [] => return .ok sinks
  | .file stream target append :: redirects => do
    let path ← Word.value target
    let s ← get
    let opened := openRedirect now s path append
    set { s with vfs := opened.1 }
    match opened.2 with
    | .error message => return .error message
    | .ok node => openTargets now (sinks.point stream (some ⟨path, node, append⟩) false) redirects
  | .errToOut :: redirects =>
    openTargets now (sinks.point .stderr sinks.stdout sinks.stdout.isNone) redirects
  | .outToErr :: redirects =>
    openTargets now (sinks.point .stdout sinks.stderr sinks.stderr.isNone) redirects

section Run

variable {α : Type} (host : Host) (below : Level) (inner : α → Run Output)

def Arg.words : Arg α → Run (List Str)
  | word w => do
    let value ← Word.value w
    return [value]
  | fields line => do
    let value ← capture (inner line)
    return Text.splitWhitespace value

def argWords : List (Arg α) → Run (List Str)
  | [] => return []
  | a :: args => do
    let front ← a.words inner
    let back ← argWords args
    return front ++ back

/-- The commands of a pipeline, each on the output of the one before. -/
def runCommands (piped : Option Str) (stderr : Str) (last : Option CommandResult) :
    List (Command α) → Run (Option CommandResult)
  | [] =>
    match last with
    | some result => return some { result with stderr := stderr }
    | none => if stderr = [] then return none else return some (.streams [] stderr 0)
  | c :: commands => do
    let argv ← argWords inner c.args
    match ← openTargets host.now .empty c.redirects with
    | .error message => return some (.err message 1)
    | .ok sinks =>
      let held ← takeSubstStderr
      let stderr := truncateStream (stderr ++ held) maxCommandOutputBytes
      if argv = [] then runCommands piped stderr last commands
      else
        let result ← runStage host below argv sinks piped commands.isEmpty
        let stderr := truncateStream (stderr ++ result.stderr) maxCommandOutputBytes
        runCommands (some result.output) stderr (some { result with stderr := [] }) commands

def Pipeline.run (p : Pipeline α) : Run (Option CommandResult) := do
  let s ← get
  set ((s.withHeredoc none).log (.pipeline s.nesting s.heredocStdin))
  runCommands host below inner s.heredocStdin [] none (p.first :: p.rest)

/-- The pipelines of a line, each under its operator. -/
def runPipelines (out : Output) (status : ℤ) (ran : Bool) :
    List (Separator × Pipeline α) → Run Output
  | [] => return if ran then { out with status := status } else out
  | (runIf, p) :: pipelines => do
    if !shouldRun runIf status then runPipelines out status ran pipelines
    else
      match ← p.run host below inner with
      | none => runPipelines out status ran pipelines
      | some result =>
        modify fun s ↦ { s with lastStatus := result.status }
        let out := out.push result.output result.stderr
        if result.exit then return { out with exit := true, status := result.status }
        else if Text.byteLen out.text ≥ maxCommandOutputBytes then
          return {
            text := truncateStream out.text maxCommandOutputBytes
            stdout := truncateStream out.stdout maxCommandOutputBytes
            stderr := truncateStream out.stderr maxCommandOutputBytes
            status := result.status
            exit := out.exit }
        else runPipelines out result.status true pipelines

def LineOf.run (line : LineOf α) : Run Output := do
  modify fun s ↦ s.withCaptures []
  let s ← get
  if s.nesting = 0 then set { s with substBudget := maxCommandOutputBytes, substStderr := [] }
  runPipelines host below inner .empty 0 false ((.always, line.first) :: line.rest)

end Run

/-- What a command line does on `n` levels. -/
def CommandLine.run (host : Host) : (n d : ℕ) → CommandLine d → Run Output
  | 0, _, _ => throw .deep
  | _ + 1, 0, line => Empty.elim line
  | n + 1, d + 1, line =>
    LineOf.run host (level host n) (CommandLine.run host n d) line

end Syntax

end Mimic
