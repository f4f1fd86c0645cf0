import Mimic.Shell.State

/-!
# The interpreter

`shell/mod.rs` with the commands that run other commands: expansion, redirects, pipelines, command
lines, dispatch, prompts.

These functions call each other in a circle, and every circle passes `substitute`, `arithmetic` or
`dispatch`, each of which goes one step deeper in `nesting` and refuses at `MAX_NESTED_COMMANDS`. So
the functions are defined for the ones they reach on the next level (`Level`), and `level n` has `n`
levels below it. The lowest one has nothing below it: a call from it stops with `Stop.deep`, which
`Shell/Balance` shows not to happen with `MAX_NESTED_COMMANDS` levels.
-/

namespace Mimic

namespace Interp

open Mimic.Parser

/-- The functions that are reached one level deeper. -/
structure Level where
  execute : Str → Run Output
  expand : Str → Run Str
  dispatch : List Str → Run CommandResult

/-- Nothing below. -/
def Level.stuck : Level := ⟨fun _ ↦ throw .deep, fun _ ↦ throw .deep, fun _ ↦ throw .deep⟩

/-- One level deeper, or back. -/
def enter (nesting substDepth : ℕ) : Run Unit := modify fun s ↦ s.atDepth nesting substDepth

/-! ### Expansion -/

/-- What an expansion's result feeds: argument words, or a here-document body. -/
inductive Expansion
  | words | literal
  deriving DecidableEq

/-- Escape the characters of a value that the tokenizer would otherwise take as syntax. -/
def pushValue (inDouble : Bool) : Str → Str
  | [] => []
  | c :: value =>
    if c = '\\' ∨ c = '"' ∨ c = '\'' ∧ !inDouble then '\\' :: c :: pushValue inDouble value
    else c :: pushValue inDouble value

/-- An expanded value under the rules of `mode`. -/
def emit (mode : Expansion) (value : Str) (inDouble : Bool) : Str :=
  match mode with
  | .words => pushValue inDouble value
  | .literal => value

/-- A parameter after `$`. -/
inductive Parameter
  | status | pid
  /-- One with a fixed value. -/
  | fixed (value : Str)
  | var (name : Str)
  deriving DecidableEq

/-- The parameter of a name in braces. -/
def bracedParameter (name : Str) : Parameter :=
  if name = ['#'] then .fixed ['0']
  else if name = ['0'] then .fixed "-bash".toList
  else if name = ['?'] then .status
  else if name = ['$'] then .pid
  else if name = ['*'] ∨ name = ['@'] then .fixed []
  else if name ≠ [] ∧ name.all Char.isDigit then .fixed []
  else .var name

/-- The parameter at the front of the text after `$`, and the number of its characters. -/
def parameterAt (classes : Arith.CharClasses) (text : Str) : Option (Parameter × ℕ) :=
  match text with
  | [] => none
  | c :: rest =>
    if c = '?' then some (.status, 1)
    else if c = '$' then some (.pid, 1)
    else if c = '#' then some (.fixed ['0'], 1)
    else if c = '0' then some (.fixed "-bash".toList, 1)
    else if c = '*' ∨ c = '@' then some (.fixed [], 1)
    else if c.isDigit then some (.fixed [], 1)
    else if c = '{' then
      let name := rest.takeWhile (· ≠ '}')
      some (bracedParameter name, name.length + 2)
    else if classes.isAlphabetic c || c == '_' then
      let name := (c :: rest).takeWhile fun c ↦ classes.isAlphanumeric c || c == '_'
      some (.var name, name.length)
    else none

/-- The value of a parameter. -/
def Shell.value (s : Shell) : Parameter → Str
  | .status => Text.decimalInt s.lastStatus
  | .pid => Text.decimal s.pid
  | .fixed value => value
  | .var name => (s.env[name]?).getD []

/-- What a substitution's output comes to in the line: without the farewell of a shell that exited,
and without trailing newlines. -/
def spliceText (output : Output) : Str :=
  let value :=
    if output.exit ∧ logout <:+ output.stdout then
      output.stdout.take (output.stdout.length - logout.length)
    else output.stdout
  Text.trimEndMatches '\n' value

/-- What a substitution restores when its subshell ends. -/
def Shell.restore (s saved : Shell) : Shell :=
  { s with
    captures := saved.captures ++ s.captures
    env := saved.env, cwd := saved.cwd, prevCwd := saved.prevCwd, home := saved.home
    username := saved.username, uid := saved.uid, gid := saved.gid
    pending := saved.pending, screen := saved.screen }

/-- Hold the stderr of a substitution, and charge what it splices to the budget. -/
def Shell.splice (s : Shell) (stderr value : Str) : Shell :=
  { s with
    substStderr := truncateStream (s.substStderr ++ stderr) maxCommandOutputBytes
    substBudget := s.substBudget - Text.byteLen value }.log (.spliced (Text.byteLen value))

/-! ### Redirects -/

/-- An opened redirect target. -/
structure Sink where
  path : Str
  /-- The node the output lands in. `none` is `/dev/null`. -/
  node : Option NodeId
  append : Bool

/-- Which sink each of a stage's output streams was pointed at. -/
structure Sinks where
  stdout : Option Sink
  stderr : Option Sink
  /-- `2>&1` while stdout was still the terminal. -/
  stderrMerged : Bool
  /-- `>&2`, the mirror case. -/
  stdoutMerged : Bool

def Sinks.empty : Sinks := ⟨none, none, false, false⟩

/-- Point a stream at a sink, or back at the other stream. -/
def Sinks.point (sinks : Sinks) (stream : Stream) (sink : Option Sink) (merged : Bool) : Sinks :=
  match stream with
  | .stdout => { sinks with stdout := sink, stdoutMerged := merged }
  | .stderr => { sinks with stderr := sink, stderrMerged := merged }
  | .both => ⟨sink, sink, merged, merged⟩

/-- `-bash: `, the path and a message. -/
def redirectError (path : Str) (message : String) : Str :=
  "-bash: ".toList ++ path ++ ": ".toList ++ message.toList ++ ['\n']

/-- Create `path` if it is missing and truncate it unless `append`: the filesystem, and the node the
write will land in or an error. -/
def openRedirect (now : Timestamp) (s : Shell) (path : Str) (append : Bool) :
    Vfs × Except Str (Option NodeId) :=
  match resolveParent s path with
  | none => (s.vfs, .error (redirectError path "No such file or directory"))
  | some (parent, name) =>
    match s.vfs.child parent name with
    | some existing =>
      if some existing = s.vfs.resolve s.vfs.root "/dev/null".toList then (s.vfs, .ok none)
      else if (s.vfs.node existing).metadata.isDir then
        (s.vfs, .error (redirectError path "Is a directory"))
      else if !writableBy (s.vfs.node existing).metadata s.uid s.gid then
        (s.vfs, .error (redirectError path "Permission denied"))
      else if append then (s.vfs, .ok (some existing))
      else
        let truncated := s.vfs.writeFile now existing [] false
        if truncated.2 then (truncated.1, .ok (some existing))
        else (truncated.1, .error (redirectError path "No space left on device"))
    | none =>
      if !writableBy (s.vfs.node parent).metadata s.uid s.gid then
        (s.vfs, .error (redirectError path "Permission denied"))
      else
        let added := s.vfs.addFile now parent name [] 0o644 s.uid s.gid
        if added.2 = parent then
          (added.1, .error (redirectError path "No space left on device"))
        else (added.1, .ok (some added.2))

/-- Write data into an opened sink: the filesystem, and the message of a refused write. -/
def writeRedirect (now : Timestamp) (vfs : Vfs) (sink : Sink) (data : Bytes) (append : Bool) :
    Vfs × Option Str :=
  match sink.node with
  | none => (vfs, none)
  | some node =>
    let written := vfs.writeFile now node data append
    (written.1,
      if written.2 then none else some (redirectError sink.path "No space left on device"))

/-- Write one stream into its sink, if it has one: the filesystem, what is left of the stream, the
message of a refused write, and the node written last. -/
def divert (now : Timestamp) (vfs : Vfs) (sink : Option Sink) (text : Str)
    (written : Option NodeId) : Vfs × Str × Option Str × Option NodeId :=
  match sink with
  | none => (vfs, text, none, written)
  | some sink =>
    if text = [] then (vfs, [], none, written)
    else
      let append := sink.append || (sink.node.isSome && sink.node == written)
      let write := writeRedirect now vfs sink (Text.toUtf8 text) append
      (write.1, [], write.2, sink.node)

/-- Send each of a command's streams to whichever sink it was redirected to: the filesystem, and
what is left for the client. -/
def routeOutput (now : Timestamp) (vfs : Vfs) (result : CommandResult) (sinks : Sinks) :
    Vfs × CommandResult :=
  let err := divert now vfs sinks.stderr result.stderr none
  let out := divert now err.1 sinks.stdout result.output err.2.2.2
  -- a refused write is reported to the client, like a full disk
  let failure := out.2.2.1.or err.2.2.1
  let stderr := err.2.1 ++ failure.getD []
  let status := if failure.isSome then 1 else result.status
  let output := if sinks.stderrMerged then stderr ++ out.2.1 else out.2.1
  let stderr := if sinks.stderrMerged then [] else stderr
  (out.1,
    if sinks.stdoutMerged then
      { result with output := [], stderr := stderr ++ output, status := status }
    else { result with output := output, stderr := stderr, status := status })

section Functions

variable (host : Host) (below : Level)

/-- Run a substitution's body and return the text bash would splice into the line. -/
def substitute (body : Str) : Run Str := do
  let saved ← get
  if saved.nesting ≥ maxNestedCommands then return []
  else
    enter (saved.nesting + 1) (saved.substDepth + 1)
    modify fun s ↦ s.withCaptures []
    let output ← below.execute body
    modify fun s ↦ s.restore saved
    let s ← get
    enter (s.nesting - 1) (s.substDepth - 1)
    let value := Text.takeBytes s.substBudget (spliceText output)
    modify fun s ↦ s.splice output.stderr value
    return value

/-- Evaluate an `$((…))` body and return the number it comes to. -/
def arithmetic (body : Str) : Run Str := do
  let s ← get
  if s.nesting ≥ maxNestedCommands then return ['0']
  else
    enter (s.nesting + 1) s.substDepth
    let expanded ← below.expand body
    let s ← get
    enter (s.nesting - 1) s.substDepth
    return Text.decimalInt ((Arith.eval host.classes s.env expanded).getD 0).toInt

/-- The value of a substitution region. -/
def regionValue (region : Substitution) : Run Str :=
  match region.body with
  | none => throw .panic
  | some body => if region.arithmetic then arithmetic host below body else substitute below body

/-- The loop of `expand_with`, in quotes as given. -/
def expandLoop (mode : Expansion) (skip : ℕ) (inSingle inDouble : Bool) : Str → Run Str
  | [] => return []
  | c :: rest =>
    match skip with
    | skip + 1 => expandLoop mode skip inSingle inDouble rest
    | 0 =>
      -- a substitution is recognised before the character-by-character rules
      match if inSingle then none else substitutionAt (c :: rest) with
      | some region => do
        let value ← regionValue host below region
        let out ← expandLoop mode (region.length - 1) inSingle inDouble rest
        return emit mode value inDouble ++ out
      | none =>
        if c = '\\' ∧ !inSingle then
          match rest with
          | [] => return [c]
          | next :: rest' =>
            if mode = .words then do
              let out ← expandLoop mode 0 inSingle inDouble rest'
              return c :: next :: out
            else if next = '$' ∨ next = '`' ∨ next = '\\' then do
              let out ← expandLoop mode 0 inSingle inDouble rest'
              return next :: out
            else do
              let out ← expandLoop mode 0 inSingle inDouble (next :: rest')
              return c :: out
        else if c = '\'' ∧ mode = .words ∧ !inDouble then do
          let out ← expandLoop mode 0 (!inSingle) inDouble rest
          return c :: out
        else if c = '"' ∧ mode = .words ∧ !inSingle then do
          let out ← expandLoop mode 0 inSingle (!inDouble) rest
          return c :: out
        else
          match if c = '$' ∧ !inSingle then parameterAt host.classes rest else none with
          | some (parameter, n) => do
            let s ← get
            let out ← expandLoop mode n inSingle inDouble rest
            return emit mode (s.value parameter) inDouble ++ out
          | none => do
            let out ← expandLoop mode 0 inSingle inDouble rest
            return c :: out

/-- Expand a text. -/
def expandWith (line : Str) (mode : Expansion) : Run Str :=
  expandLoop host below mode 0 false false line

/-- Expand variables in a line and split it into argument words. -/
def parseLine (line : Str) : Run (List Str) := do
  let expanded ← expandWith host below line .words
  return tokenize expanded

/-- Create or truncate every redirect target, resolving which sink each stream ends up pointing at,
or the error of the first target that cannot be opened. -/
def openRedirects (sinks : Sinks) : List Redirect → Run (Except Str Sinks)
  | [] => return .ok sinks
  | redirect :: redirects => do
    match redirect.target with
    | .file path append =>
      let words ← parseLine host below path
      match words with
      | [word] =>
        let s ← get
        let opened := openRedirect host.now s word append
        set { s with vfs := opened.1 }
        match opened.2 with
        | .error message => return .error message
        | .ok node =>
          openRedirects (sinks.point redirect.stream (some ⟨word, node, append⟩) false) redirects
      | _ => return .error (redirectError path "ambiguous redirect")
    | .dup stream =>
      -- `>&1` and `2>&2` change nothing
      if stream = redirect.stream then openRedirects sinks redirects
      else
        let sink := if stream = .stdout then sinks.stdout else sinks.stderr
        openRedirects (sinks.point redirect.stream sink sink.isNone) redirects

/-! ### Commands that run others -/

/-- Run each line of a script, accumulating both streams and the captures. -/
def scriptLoop (collected : List Capture) (out errs : Str) (status : ℤ) :
    List Str → Run CommandResult
  | [] => do
    modify fun s ↦ s.withCaptures collected
    return .streams out errs status
  | line :: lines => do
    let line := Text.trim line
    if line = [] ∨ line.head? = some '#' then scriptLoop collected out errs status lines
    else
      modify fun s ↦ s.log (.scriptLine line)
      let result ← below.execute line
      let s ← get
      let command := Capture.scriptCommand line result.status
      set ((s.withCaptures []).log (.captured command))
      let collected := collected ++ [command] ++ s.captures
      let out := out ++ result.stdout
      let errs := errs ++ result.stderr
      -- a line that exits, or too much output, ends the script
      if result.exit ∨ Text.byteLen out + Text.byteLen errs > maxCommandOutputBytes then
        modify fun s ↦ (s.log (.left lines)).withCaptures collected
        return .streams out errs result.status
      else scriptLoop collected out errs result.status lines

/-- How many lines of a script `sh` will run. -/
def maxScriptLines : ℕ := 4096

def runScript (text : Str) : Run CommandResult := do
  let s ← get
  let lines := (Text.lines text).take maxScriptLines
  set ((s.withCaptures []).log (.script lines))
  scriptLoop below s.captures [] [] 0 lines

/-- `bash`/`sh`: a line after `-c`, a script, or what is on its standard input. -/
def shellCmd : List Str → Run CommandResult
  | [] => do
    let s ← get
    match s.stdin with
    | some text => if Text.trim text = [] then return .ok [] else runScript below text
    | none => return .ok []
  | arg :: args => do
    if arg = "-c".toList then
      match args with
      | [] => return .err "bash: -c: option requires an argument\n".toList 2
      | line :: _ =>
        let expanded ← below.expand line
        match tokenize expanded with
        | [] => return .ok []
        | argv => below.dispatch argv
    else if arg.head? = some '-' then shellCmd args
    else
      let s ← get
      match s.vfs.resolve s.cwd arg with
      | none =>
        return .err ("bash: ".toList ++ arg ++ ": No such file or directory\n".toList) 127
      | some id =>
        match (s.vfs.node id).fileBytes host.now with
        | none => return .err ("bash: ".toList ++ arg ++ ": Is a directory\n".toList) 126
        | some bytes => runScript below (Text.fromUtf8Lossy bytes)

/-- `scp` between local paths is a copy; a remote one is refused. -/
def scp (args : List Str) : Run CommandResult :=
  let operands := args.filter fun a ↦ a.head? ≠ some '-'
  if operands.length < 2 then
    return .err
      ("usage: scp [-346ABCOpqRrsTv] [-c cipher] [-D sftp_server_path] [-F ssh_config]\n" ++
      "           [-i identity_file] [-J destination] [-l limit] [-o ssh_option]\n" ++
      "           [-P port] [-S program] [-X sftp_option] source ... target\n").toList 1
  else
    let host? := operands.findSome? fun op ↦
      if ':' ∈ op then
        let host := ((op.takeWhile (· ≠ ':')).reverse.takeWhile (· ≠ '@')).reverse
        if host = [] then none else some host
      else none
    match host? with
    | some host => return .err ("ssh: connect to host ".toList ++ host ++
        " port 22: Connection refused\nlost connection\n".toList) 1
    | none => below.dispatch ("cp".toList :: operands)

/-- The options of `sudo` in front of a command. -/
inductive SudoArgs
  | list
  | command (loginShell keepCwd : Bool) (rest : List Str)

/-- The loop of `sudo` over its options. -/
def sudoArgs (loginShell keepCwd : Bool) : List Str → SudoArgs
  | [] => .command loginShell keepCwd []
  | arg :: args =>
    if arg = "-i".toList ∨ arg = "--login".toList then sudoArgs true keepCwd args
    else if arg = "-s".toList ∨ arg = "--shell".toList then sudoArgs true true args
    else if arg = "-l".toList ∨ arg = "--list".toList then .list
    else if arg = "-u".toList then
      match args with
      | [] => .command loginShell keepCwd []
      | _ :: args => sudoArgs loginShell keepCwd args
    else if arg.head? = some '-' then sudoArgs loginShell keepCwd args
    else .command loginShell keepCwd (arg :: args)

/-- What `sudo -l` prints. -/
def sudoList (user hostname : Str) : Str :=
  "Matching Defaults entries for ".toList ++ user ++ " on ".toList ++ hostname ++
    (":\n    env_reset, mail_badpass, secure_path=/usr/local/sbin\\:/usr/local/bin\\:/usr/sbin\\:" ++
      "/usr/bin\\:/sbin\\:/bin\n\nUser ").toList ++ user ++
    " may run the following commands on ".toList ++ hostname ++ ":\n    (ALL : ALL) ALL\n".toList

/-- What `sudo` prints without a command. -/
def sudoUsage : Str :=
  ("usage: sudo -h | -K | -k | -V\n" ++
    "usage: sudo -v [-ABkNnS] [-g group] [-h host] [-p prompt] [-u user]\n" ++
    "usage: sudo -l [-ABkNnS] [-g group] [-h host] [-p prompt] [-U user] [-u user] [command]\n" ++
    "usage: sudo [-ABbEHknPS] [-r role] [-t type] [-C fd] [-D directory] [-g group] [-h host] " ++
    "[-p prompt] [-T timeout] [-u user] [VAR=value] [-i | -s] [<command>]\n").toList

/-- `sudo`: a command with elevated ids, or a root shell for the rest of the session. -/
def sudoCmd (args : List Str) : Run CommandResult := do
  let s ← get
  match sudoArgs false false args with
  | .list => return .ok (sudoList s.username s.hostname)
  | .command loginShell keepCwd [] =>
    if loginShell then
      let t := switchUser host.now "root".toList s
      -- `-s` keeps the caller's directory and `$HOME`
      set <| if keepCwd then
        { t with
          cwd := s.cwd, prevCwd := s.cwd, home := s.home
          env := setVar (setVar t.env "PWD".toList (t.vfs.pathOf s.cwd)) "HOME".toList
            (t.vfs.pathOf s.home) }
        else t
      return .ok []
    else return .err sudoUsage 1
  | .command _ _ rest =>
    set { s with uid := 0, gid := 0 }
    let result ← below.dispatch rest
    modify fun t ↦ { t with uid := s.uid, gid := s.gid }.log (.elevated s.username t.username)
    return result

/-- `nohup` runs its command. -/
def nohup (args : List Str) : Run CommandResult :=
  match args.dropWhile fun a ↦ a.head? = some '-' with
  | [] => return .err "nohup: missing operand\n".toList 125
  | argv => do
    let result ← below.dispatch argv
    let notice := "nohup: ignoring input and appending output to 'nohup.out'\n".toList
    return { result with stderr := notice ++ result.stderr }

/-- `str::parse::<usize>`. -/
def parseUsize (text : Str) : Option ℕ :=
  let digits := if text.head? = some '+' then text.tail else text
  if digits = [] then none
  else
    match Arith.digitsValue 10 digits with
    | some n => if n < 2 ^ 64 then some n else none
    | none => none

/-- The options of `xargs`: words for each call, and the command. -/
def xargsArgs (perCall : Option ℕ) : List Str → Option ℕ × List Str
  | [] => (perCall, [])
  | arg :: args =>
    if arg = "-n".toList then
      match args with
      | [] => (none, [])
      | n :: args => xargsArgs (parseUsize n) args
    else if arg.take 2 = "-n".toList then xargsArgs (parseUsize (arg.drop 2)) args
    else if arg = "-r".toList ∨ arg = "--no-run-if-empty".toList ∨ arg = "-0".toList ∨
      arg = "--null".toList then xargsArgs perCall args
    else (perCall, arg :: args)

/-- Run a command for each group of words. -/
def xargsLoop (command : List Str) (out errs : Str) (status : ℤ) :
    List (List Str) → Run CommandResult
  | [] => return .streams out errs status
  | group :: groups => do
    let result ← below.dispatch (command ++ group)
    let out := out ++ result.output
    let errs := errs ++ result.stderr
    let status := if result.status ≠ 0 then result.status else status
    if Text.byteLen out > maxCommandOutputBytes then return .streams out errs status
    else xargsLoop command out errs status groups

/-- `xargs` runs a command with the words on its standard input. -/
def xargs (args : List Str) : Run CommandResult := do
  let s ← get
  let options := xargsArgs none args
  let command := if options.2 = [] then ["echo".toList] else options.2
  let words := Text.splitWhitespace (s.stdin.getD [])
  if words = [] then return .ok []
  else xargsLoop below command [] [] 0 (words.toChunks (max (options.1.getD words.length) 1))

/-- `history`: print the session's command history, or clear it. -/
def history (args : List Str) : Run CommandResult := do
  let s ← get
  if "-c".toList ∈ args then
    set ({ s with history := [] }.log .cleared)
    return .ok []
  else
    let entries := s.history.zipIdx.map fun e ↦
      Text.alignRight 5 (Text.decimal (e.2 + 1)) ++ "  ".toList ++ e.1 ++ ['\n']
    return .ok entries.flatten

/-! ### Dispatch -/

/-- `exit` and `logout`. -/
def exitCmd (s : Shell) (cmd : Str) (args : List Str) : CommandResult :=
  let farewell := if s.interactive then logout else []
  match args with
  | [] => (CommandResult.streams farewell [] s.lastStatus).exiting
  | [arg] =>
    match Arith.parseI64 10 arg with
    | some n => (CommandResult.streams farewell [] (n.toInt % 256)).exiting
    | none => (CommandResult.streams farewell ("-bash: ".toList ++ cmd ++ ": ".toList ++ arg ++
        ": numeric argument required\n".toList) 2).exiting
  | _ => .err ("-bash: ".toList ++ cmd ++ ": too many arguments\n".toList) 1

/-- A command that does not run others. -/
def leaf (cmd : Str) (args : List Str) : Run CommandResult := do
  let s ← get
  let effect := host.command cmd args s
  set (s.apply effect)
  return effect.result

/-- The handler of a command, for those that have one. -/
def handler (cmd : Str) (args : List Str) : Option (Run CommandResult) :=
  if cmd = "sudo".toList then some (sudoCmd host below args)
  else if cmd = "bash".toList ∨ cmd = "sh".toList then some (shellCmd host below args)
  else if cmd = "scp".toList then some (scp below args)
  else if cmd = "xargs".toList then some (xargs below args)
  else if cmd = "nohup".toList then some (nohup below args)
  else if cmd = "history".toList then some (history args)
  else if host.isCommand cmd then some (leaf host cmd args)
  else none

/-- Look up a command and run it. -/
def dispatchInner : List Str → Run CommandResult
  | [] => throw .panic
  | cmd :: args => do
    if cmd = "true".toList then return .ok []
    else if cmd = "false".toList then return .err [] 1
    else if cmd = "exit".toList ∨ cmd = "logout".toList then
      let s ← get
      return exitCmd s cmd args
    else
      match handler host below cmd args with
      | some run => CommandResult.truncate <$> run
      | none =>
        if host.isListed cmd then return .ok []
        else return .err ("-bash: ".toList ++ cmd ++ ": command not found\n".toList) 127

def dispatch (argv : List Str) : Run CommandResult := do
  let s ← get
  if s.nesting ≥ maxNestedCommands then
    return .err "-bash: fork: retry: Resource temporarily unavailable\n".toList 1
  else
    enter (s.nesting + 1) s.substDepth
    let result ← dispatchInner host below argv
    let s ← get
    enter (s.nesting - 1) s.substDepth
    return result

/-! ### Pipelines and lines -/

/-- Take the stderr that substitutions left. -/
def takeSubstStderr : Run Str := do
  let s ← get
  set { s with substStderr := [] }
  return s.substStderr

/-- Run a command with its standard input and its output routed. -/
def runStage (argv : List Str) (sinks : Sinks) (piped : Option Str) (isLast : Bool) :
    Run CommandResult := do
  modify fun s ↦
    { s with
      stdin := piped
      stdoutIsTty := isLast && sinks.stdout.isNone && s.substDepth == 0 }.log
        (.ran s.nesting argv piped)
  let result ← dispatch host below argv
  let s ← get
  let routed := routeOutput host.now s.vfs result sinks
  set ({ s with stdin := none, stdoutIsTty := true, vfs := routed.1 }.log
    (.piped s.nesting routed.2.output))
  return routed.2

/-- The loop of `run_pipeline` over its stages. -/
def stagesLoop (piped : Option Str) (stderr : Str) (last : Option CommandResult) :
    List Str → Run (Option CommandResult)
  | [] =>
    match last with
    | some result => return some { result with stderr := stderr }
    | none => if stderr = [] then return none else return some (.streams [] stderr 0)
  | stage :: stages => do
    match splitRedirects stage with
    | .error message => return some (.err message 2)
    | .ok (text, redirects) =>
      -- words are expanded before the targets are opened
      let argv ← parseLine host below text
      match ← openRedirects host below .empty redirects with
      | .error message => return some (.err message 1)
      | .ok sinks =>
        let held ← takeSubstStderr
        let stderr := truncateStream (stderr ++ held) maxCommandOutputBytes
        if argv = [] then stagesLoop piped stderr last stages
        else
          let result ← runStage host below argv sinks piped stages.isEmpty
          let stderr := truncateStream (stderr ++ result.stderr) maxCommandOutputBytes
          stagesLoop (some result.output) stderr (some { result with stderr := [] }) stages

/-- Run one segment as a pipeline. `none` if it held no command at all. -/
def runPipeline (segment : Str) : Run (Option CommandResult) := do
  let s ← get
  set ((s.withHeredoc none).log (.pipeline s.nesting s.heredocStdin))
  stagesLoop host below s.heredocStdin [] none (splitPipeline segment)

/-- Whether a segment runs after a status. -/
def shouldRun : Separator → ℤ → Bool
  | .always, _ => true
  | .andIf, status => status = 0
  | .orIf, status => status ≠ 0

/-- The loop of `execute` over the segments of a line. -/
def segmentsLoop (out : Output) (status : ℤ) (ran : Bool) : List Segment → Run Output
  | [] => return if ran then { out with status := status } else out
  | segment :: segments => do
    if Text.trim segment.text = [] then
      if segment.runIf ≠ .always then
        return .written [] "-bash: syntax error near unexpected token `&&'\n".toList 2
      else segmentsLoop out status ran segments
    else if !shouldRun segment.runIf status then segmentsLoop out status ran segments
    else
      match ← runPipeline host below segment.text with
      | none => segmentsLoop out status ran segments
      | some result =>
        modify fun s ↦ { s with lastStatus := result.status }
        let out := out.push result.output result.stderr
        if result.exit then return { out with exit := true, status := result.status }
        else if Text.byteLen out.text ≥ maxCommandOutputBytes then
          return {
            text := truncateStream out.text maxCommandOutputBytes
            stdout := truncateStream out.stdout maxCommandOutputBytes
            stderr := truncateStream out.stderr maxCommandOutputBytes
            status := result.status
            exit := out.exit }
        else segmentsLoop out result.status true segments

/-- Run one command line. -/
def execute (line : Str) : Run Output := do
  modify fun s ↦ s.withCaptures []
  let s ← get
  if s.nesting = 0 then
    set { s with substBudget := maxCommandOutputBytes, substStderr := [] }
    match splitHeredoc (stripComment line) with
    | some (doc, command) =>
      modify fun s ↦ s.withPending (some (.heredoc command line doc []))
      return .empty
    | none => segmentsLoop host below .empty 0 false (splitSegments (stripComment line))
  else segmentsLoop host below .empty 0 false (splitSegments (stripComment line))

end Functions

/-! ### Levels -/

/-- The functions over a level. -/
def Level.above (host : Host) (below : Level) : Level where
  execute := Interp.execute host below
  expand line := expandWith host below line .words
  dispatch := Interp.dispatch host below

/-- `n` levels, one above the other. -/
def level (host : Host) : ℕ → Level
  | 0 => .stuck
  | n + 1 => .above host (level host n)

/-- All the levels a session can reach below itself. -/
def levels (host : Host) : Level := level host maxNestedCommands

/-! ### Prompts -/

section Prompts

variable (host : Host)

/-- Read a file as text, or an empty string when it is missing. -/
def readText (s : Shell) (path : Str) : Str :=
  (((s.vfs.resolve s.cwd path).bind fun id ↦ (s.vfs.node id).fileBytes host.now).map
    Text.fromUtf8Lossy).getD []

/-- Replace a file's contents, creating it if needed. -/
def writeText (s : Shell) (path text : Str) : Shell :=
  match resolveParent s path with
  | none => s
  | some (parent, name) =>
    match s.vfs.child parent name with
    | some id => { s with vfs := (s.vfs.writeFile host.now id (Text.toUtf8 text) false).1 }
    | none =>
      if s.vfs.isFull parent then s
      else
        { s with
          vfs := (s.vfs.addFile host.now parent name (Text.toUtf8 text) 0o644 s.uid s.gid).1 }

/-- Replace a user's `/etc/shadow` entry with a crypt-shaped placeholder. -/
def setShadowEntry (s : Shell) (user : Str) : Shell :=
  let entry := user ++ ":$6$mimic$changed:19999:0:99999:7:::".toList
  let updated := (Text.lines (readText host s "/etc/shadow".toList)).map fun line ↦
    if user ++ [':'] <+: line then entry else line
  writeText host s "/etc/shadow".toList (List.intercalate ['\n'] updated ++ ['\n'])

/-- The session when the end of a body is there. -/
def Shell.closing (s : Shell) (raw : Str) (doc : Heredoc) (body : Str) : Shell :=
  { s with pending := none, heredocLog := some (raw ++ ['\n'] ++ body ++ doc.delimiter) }

/-- The text of a body: expanded, or verbatim after a quoted delimiter. -/
def heredocText (doc : Heredoc) (body : Str) : Run Str :=
  if doc.expand then expandWith host (levels host) body .literal else pure body

/-- Run the line a here-document was opened on, with the collected body as its stdin. -/
def runHeredoc (command raw : Str) (doc : Heredoc) (body : Str) : Run Output := do
  modify fun s ↦ s.closing raw doc body
  let text ← heredocText host doc body
  modify fun s ↦ s.withHeredoc (some text)
  let out ← execute host (levels host) command
  modify fun s ↦ s.withHeredoc none
  return out

/-- A body line as it counts: without leading tabs for `<<-`. -/
def Heredoc.line (doc : Heredoc) (input : Str) : Str :=
  if doc.stripTabs then Text.trimStartMatches '\t' input else input

/-- Complete a pending prompt with the line the client just entered. -/
def resume (input : Str) : Run Output := do
  let s ← get
  set (s.withPending none)
  match s.pending with
  | some (.suPassword target) =>
    modify fun s ↦ switchUser host.now target (s.pushCapture (.suAuth target input))
    return .empty
  | some (.newPassword target none) =>
    modify fun s ↦ s.withPending (some (.newPassword target (some input)))
    return .written "Retype new password: ".toList [] 0
  | some (.newPassword target (some first)) =>
    if first ≠ input then
      return .written [] ("Sorry, passwords do not match.\n" ++
        "passwd: Authentication token manipulation error\npasswd: password unchanged\n").toList 1
    else
      modify fun s ↦ setShadowEntry host (s.pushCapture (.passwordChange target first)) target
      return .written "passwd: password updated successfully\n".toList [] 0
  | some (.heredoc command raw doc body) =>
    let line := Heredoc.line doc input
    if line = doc.delimiter then runHeredoc host command raw doc body
    else
      let body := truncateStream (body ++ line ++ ['\n']) maxCommandOutputBytes
      modify fun s ↦ s.withPending (some (.heredoc command raw doc body))
      return .empty
  | none => return .empty

/-- End a here-document at end-of-input rather than at its delimiter. -/
def finishHeredocAtEof : Run (Option Output) := do
  let s ← get
  set (s.withPending none)
  match s.pending with
  | some (.heredoc command raw doc body) =>
    let out ← runHeredoc host command raw doc body
    let warning := "-bash: warning: here-document delimited by end-of-file (wanted `".toList ++
      doc.delimiter ++ "')\n".toList
    return some { out with text := warning ++ out.text, stderr := warning ++ out.stderr }
  | _ => return none

end Prompts

end Interp

end Mimic
