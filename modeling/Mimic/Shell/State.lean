import Mimic.Foundation.Outcomes
import Mimic.Shell.Arith
import Mimic.Shell.Parser
import Mimic.Vfs.Resolve

/-!
# The state of a shell

`shell/mod.rs` and `commands/mod.rs`: the record of a session, results and outputs, and what a
session leaves for the network layer.

The record has one field the source has not: `trace` is a log of what happened, which no function
reads. It tells which captures were pushed, which commands were started with which input, which
script lines were run, how deep the interpreter was, how much text substitutions spliced in, and who
the session was around the commands of `sudo`.

Of the commands, only those that run others are modelled (`Shell/Interp`), with `history`, `true`,
`false` and `exit`. What each of the others does is a parameter (`Host.command`). They are given the
whole session and may change the parts listed in `Effect`; no handler of the source assigns any
other field.
-/

namespace Mimic

namespace Interp

open Mimic.Parser

/-! ### Results -/

/-- The result of running one command line. -/
structure Output where
  text : Str
  stdout : Str
  stderr : Str
  status : ℤ
  exit : Bool
  deriving DecidableEq

/-- The result of running one command. -/
structure CommandResult where
  output : Str
  stderr : Str
  status : ℤ
  exit : Bool
  deriving DecidableEq

/-- Hard cap on command output. -/
def maxCommandOutputBytes : ℕ := 1024 * 1024

/-- How deep commands that run other commands may nest before the shell refuses. -/
def maxNestedCommands : ℕ := 16

/-- What an interactive login shell prints as it exits. -/
def logout : Str := "logout\n".toList

/-- Cut `text` down to `budget` bytes on a char boundary, marking the cut. -/
def truncateStream (text : Str) (budget : ℕ) : Str :=
  if Text.byteLen text ≤ budget then text
  else Text.takeBytes budget text ++ "\n... (output truncated)\n".toList

theorem truncateStream_eq_nil {text : Str} {budget : ℕ} :
    truncateStream text budget = [] ↔ text = [] := by
  rw [truncateStream]
  split
  · rfl
  · rename_i hlong
    refine iff_of_false (List.append_ne_nil_of_right_ne_nil _ (by decide)) ?_
    rintro rfl
    exact hlong (Nat.zero_le _)

namespace Output

def empty : Output := ⟨[], [], [], 0, false⟩

/-- Append one command's two streams, keeping `text` in terminal order. -/
def push (out : Output) (stdout stderr : Str) : Output :=
  { out with
    text := out.text ++ stderr ++ stdout
    stdout := out.stdout ++ stdout
    stderr := out.stderr ++ stderr }

/-- A finished output holding one write to each stream. -/
def written (stdout stderr : Str) (status : ℤ) : Output :=
  { empty with status := status }.push stdout stderr

end Output

namespace CommandResult

def ok (output : Str) : CommandResult := ⟨output, [], 0, false⟩

def err (stderr : Str) (status : ℤ) : CommandResult := ⟨[], stderr, status, false⟩

def streams (output stderr : Str) (status : ℤ) : CommandResult := ⟨output, stderr, status, false⟩

def exiting (r : CommandResult) : CommandResult := { r with exit := true }

/-- Truncate the result across both streams. -/
def truncate (r : CommandResult) : CommandResult :=
  let output := truncateStream r.output maxCommandOutputBytes
  { r with
    output := output
    stderr := truncateStream r.stderr (maxCommandOutputBytes - Text.byteLen output) }

end CommandResult

/-! ### Sessions -/

/-- A structured event produced by a command, for the log. -/
inductive Capture
  | download (tool url dest : Str)
  | scriptCommand (line : Str) (status : ℤ)
  | passwordChange (target password : Str)
  | suAuth (target password : Str)
  deriving DecidableEq

/-- A follow-up line of input a command is waiting for. -/
inductive Pending
  | suPassword (target : Str)
  | newPassword (target : Str) (first : Option Str)
  | heredoc (command raw : Str) (doc : Heredoc) (body : Str)
  deriving DecidableEq

/-- `top`'s display: the rows of the process table, and the counts above them. -/
structure TopScreen where
  rows : List Str
  total : ℕ
  running : ℕ
  deriving DecidableEq

/-- Which editor a display renders as. -/
inductive EditorKind
  | vi | nano
  deriving DecidableEq

/-- One `vi` or `nano` display: a read-only view of the file it was invoked on. -/
structure EditorScreen where
  kind : EditorKind
  path : Str
  lines : List Str
  present : Bool
  deriving DecidableEq

/-- A full-screen display a command asked to take over with. -/
inductive Screen
  | top (screen : TopScreen)
  | editor (screen : EditorScreen)
  | listen
  deriving DecidableEq

/-- What the log of a run records. -/
inductive Event
  /-- `nesting` and `subst_depth` changed to these values. -/
  | nested (nesting substDepth : ℕ)
  /-- A capture was pushed. -/
  | captured (capture : Capture)
  /-- A pipeline was started, at this nesting, with this here-document body waiting. -/
  | pipeline (nesting : ℕ) (body : Option Str)
  /-- A stage of a pipeline was started, at this nesting, with this standard input. -/
  | ran (nesting : ℕ) (argv : List Str) (stdin : Option Str)
  /-- A stage ended, with this output for the next one. -/
  | piped (nesting : ℕ) (output : Str)
  /-- A substitution spliced this many bytes into the line. -/
  | spliced (bytes : ℕ)
  /-- The history was cleared. -/
  | cleared
  /-- A script was started, with these lines up to the limit. -/
  | script (lines : List Str)
  /-- A line of a script was started. -/
  | scriptLine (line : Str)
  /-- A script was left in front of these lines. -/
  | left (lines : List Str)
  /-- `sudo` put back the ids: the user's name before its command and behind it. -/
  | elevated (before after : Str)
  deriving DecidableEq

/-- Per-session shell. -/
structure Shell where
  vfs : Vfs
  env : Env
  cwd : NodeId
  home : NodeId
  prevCwd : NodeId
  username : Str
  hostname : Str
  uid : UInt32
  gid : UInt32
  lastStatus : ℤ
  pid : ℕ
  nesting : ℕ
  /-- Bytes of substitution output the current line may still splice into itself. -/
  substBudget : ℕ
  /-- Stderr written by substitutions while the current stage's words were expanded. -/
  substStderr : Str
  stdin : Option Str
  stdoutIsTty : Bool
  interactive : Bool
  history : List Str
  captures : List Capture
  pending : Option Pending
  screen : Option Screen
  /-- How many command substitutions are open around the running command. -/
  substDepth : ℕ
  /-- A here-document body waiting to become the next pipeline's stdin. -/
  heredocStdin : Option Str
  heredocLog : Option Str
  /-- What happened, in order. Nothing reads it. -/
  trace : List Event

/-- Why a run does not return. -/
inductive Stop
  /-- A slice of a text whose end is inside a character. -/
  | panic
  /-- The model has no level left to descend to. -/
  | deep
  deriving DecidableEq

/-- A function of the source that changes the shell. -/
abbrev Run (α : Type) := Outcomes.Prog Shell Stop α

/-- What a command does that does not run others: its result, and the parts of the session it may
change. -/
structure Effect where
  result : CommandResult
  vfs : Vfs
  env : Env
  cwd : NodeId
  home : NodeId
  prevCwd : NodeId
  username : Str
  uid : UInt32
  gid : UInt32
  pending : Option Pending
  screen : Option Screen
  /-- The captures it pushes. -/
  captures : List Capture

/-- What the interpreter runs on. -/
structure Host where
  now : Timestamp
  classes : Arith.CharClasses
  /-- The names of commands, other than those modelled. -/
  isCommand : Str → Bool
  /-- The names listed in `/usr/bin` and `/usr/sbin`. -/
  isListed : Str → Bool
  command : Str → List Str → Shell → Effect

namespace Shell

/-- Enter an event in the log. -/
def log (s : Shell) (e : Event) : Shell := { s with trace := s.trace ++ [e] }

/-- The session with other captures. -/
def withCaptures (s : Shell) (captures : List Capture) : Shell := { s with captures := captures }

/-- The session with another prompt. -/
def withPending (s : Shell) (pending : Option Pending) : Shell := { s with pending := pending }

/-- The session with another here-document body waiting. -/
def withHeredoc (s : Shell) (text : Option Str) : Shell := { s with heredocStdin := text }

/-- The session at another depth. -/
def atDepth (s : Shell) (nesting substDepth : ℕ) : Shell :=
  { s with nesting := nesting, substDepth := substDepth }.log (.nested nesting substDepth)

/-- Push a capture. -/
def pushCapture (s : Shell) (c : Capture) : Shell :=
  { s with captures := s.captures ++ [c] }.log (.captured c)

/-- The session after a command. -/
def apply (s : Shell) (e : Effect) : Shell :=
  { s with
    vfs := e.vfs, env := e.env, cwd := e.cwd, home := e.home, prevCwd := e.prevCwd
    username := e.username, uid := e.uid, gid := e.gid, pending := e.pending, screen := e.screen
    captures := s.captures ++ e.captures
    trace := s.trace ++ e.captures.map .captured }

/-- The effect of a command that only reports. -/
def report (s : Shell) (result : CommandResult) : Effect :=
  ⟨result, s.vfs, s.env, s.cwd, s.home, s.prevCwd, s.username, s.uid, s.gid, s.pending, s.screen,
    []⟩

end Shell

/-! ### The environment and identity -/

/-- `Env::set`: bounded in the number of variables and the length of a value. -/
def setVar (env : Env) (key value : Str) : Env :=
  if ¬ env.contains key ∧ env.size ≥ 256 then env else env.insert key (value.take 4096)

/-- `Env::login`. -/
def loginEnv (user home hostname : Str) : Env :=
  ([("USER", user), ("LOGNAME", user), ("HOME", home), ("PWD", home), ("SHELL", "/bin/bash".toList),
    ("PATH", ("/usr/local/sbin:/usr/local/bin:/usr/sbin:/usr/bin:/sbin:/bin:/usr/games:" ++
      "/usr/local/games").toList),
    ("TERM", "xterm-256color".toList), ("LANG", "en_US.UTF-8".toList),
    ("MAIL", "/var/mail/".toList ++ user), ("HOSTNAME", hostname), ("SHLVL", ['1']),
    ("_", "/usr/bin/bash".toList)] : List (String × Str)).foldl
      (fun env e ↦ env.insert e.1.toList e.2) ∅

/-- Environment variables describing the SSH connection itself. -/
def connectionVars : List Str := ["SSH_CLIENT", "SSH_CONNECTION", "SSH_TTY"].map String.toList

/-- Ensure a home directory exists: the home, or the root where it cannot be made. -/
def ensureHome (now : Timestamp) (vfs : Vfs) (homePath : Str) (uid gid : UInt32) : Vfs × NodeId :=
  match vfs.resolve vfs.root homePath with
  | some id => (vfs, id)
  | none =>
    match vfs.mkdirP now homePath 0o755 uid gid with
    | (vfs, none) => (vfs, vfs.root)
    | (vfs, some home) =>
      let vfs := (vfs.addFile now home ".bashrc".toList (Text.toUtf8 "# ~/.bashrc\n".toList) 0o644
        uid gid).1
      ((vfs.addFile now home ".profile".toList (Text.toUtf8 "# ~/.profile\n".toList) 0o644
        uid gid).1, home)

/-- Switch the session's effective identity, as a fresh login shell for that account. -/
def switchUser (now : Timestamp) (user : Str) (s : Shell) : Shell :=
  let user := if user = [] then "root".toList else user
  let root := user = "root".toList
  let uid : UInt32 := if root then 0 else 1000
  let homePath := if root then "/root".toList else "/home/".toList ++ user
  let home := ensureHome now s.vfs homePath uid uid
  let connection := connectionVars.filterMap fun key ↦ s.env[key]?.map fun value ↦ (key, value)
  { s with
    vfs := home.1
    env := connection.foldl (fun env e ↦ setVar env e.1 e.2) (loginEnv user homePath s.hostname)
    username := user, uid := uid, gid := uid, cwd := home.2, home := home.2, prevCwd := home.2 }

/-! ### Files -/

/-- Whether a session may write to a node. -/
def writableBy (m : Metadata) (uid gid : UInt32) : Bool :=
  if uid = 0 then true
  else if uid = m.uid then m.mode &&& 0o200 != 0
  else if gid = m.gid then m.mode &&& 0o020 != 0
  else m.mode &&& 0o002 != 0

/-- Resolve a path to the directory and the name used when creating an entry. -/
def resolveParent (s : Shell) (path : Str) : Option (NodeId × Str) :=
  let trimmed := Text.trimEndMatches '/' path
  let path := if trimmed = [] then ['/'] else trimmed
  let split := Vfs.splitPath path
  if split.2 = [] ∨ split.2 = ['.'] ∨ split.2 = ['.', '.'] then none
  else
    match s.vfs.resolve s.cwd split.1 with
    | none => none
    | some parent => if (s.vfs.node parent).metadata.isDir then some (parent, split.2) else none

theorem isDir_of_resolveParent {s : Shell} {path name : Str} {parent : NodeId}
    (h : resolveParent s path = some (parent, name)) :
    (s.vfs.node parent).metadata.isDir = true := by
  simp only [resolveParent, Option.ite_none_left_eq_some] at h
  obtain ⟨-, h⟩ := h
  split at h
  · cases h
  · split at h
    · rename_i hdir
      cases h
      exact hdir
    · cases h

/-! ### A small session -/

/-- A host without further commands. -/
def bareHost : Host where
  now := 0
  classes := ⟨Char.isAlpha, Char.isDigit, fun _ _ ↦ rfl, fun _ _ ↦ rfl⟩
  isCommand _ := false
  isListed _ := false
  command _ _ s := s.report (.ok [])

/-- The session of root on a filesystem with nothing but its root. -/
def Shell.bare : Shell where
  vfs := Vfs.new 0
  env := ∅
  cwd := 0
  home := 0
  prevCwd := 0
  username := "root".toList
  hostname := "debian".toList
  uid := 0
  gid := 0
  lastStatus := 0
  pid := 1337
  nesting := 0
  substBudget := maxCommandOutputBytes
  substStderr := []
  stdin := none
  stdoutIsTty := true
  interactive := true
  history := []
  captures := []
  pending := none
  screen := none
  substDepth := 0
  heredocStdin := none
  heredocLog := none
  trace := []

/-- A fresh shell on a filesystem as `snapshot::build` builds it. -/
def Shell.withPersona (now : Timestamp) (snapshot : Vfs) (username hostname : Str) : Shell :=
  let user := if username = [] then "root".toList else username
  let root := user = "root".toList
  let uid : UInt32 := if root then 0 else 1000
  let homePath := if root then "/root".toList else "/home/".toList ++ user
  let home := ensureHome now snapshot homePath uid uid
  { Shell.bare with
    vfs := home.1, env := loginEnv user homePath hostname
    cwd := home.2, home := home.2, prevCwd := home.2
    username := user, hostname := hostname, uid := uid, gid := uid }

end Interp

end Mimic
