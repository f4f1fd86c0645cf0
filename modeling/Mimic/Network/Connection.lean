import Mimic.Commands.Screens
import Mimic.Network.ScpSink
import Mimic.Network.Sftp
import Mimic.Shell.Interp
import Mimic.Shell.LineEditor
import Mimic.Shell.Prompt

/-!
# The handler of a connection

`MimicHandler` of `network/ssh.rs`: what it does with the requests and the data of its channels. A
channel runs an interactive shell on a terminal, one that reads lines, a single command, an upload
over SCP, or the SFTP subsystem.

`replies` collects what is sent, in order, and `logged` the events that tell what was run, uploaded
and tried as a password. The handler reads neither. Replies can always be sent; the delay in front
of them and the timer that repaints `top` are not modelled, and neither is the quarantine store
(`Network/Quota`).

A call that runs a command stops where the interpreter does.
-/

namespace Mimic

namespace Connection

open Interp (Capture Host Output Pending Screen Stop)

/-! ### Replies and log -/

/-- What is sent to the client. -/
inductive Reply
  | accept | reject
  | success | failure
  | data (bytes : Bytes)
  | extendedData (code : ℕ) (bytes : Bytes)
  | exitStatus (status : ℕ)
  | eof | close
  deriving DecidableEq

/-- Where a command came from. -/
inductive CommandSource
  | interactive | pipe | exec | transfer | script | heredoc
  deriving DecidableEq

/-- A structured event of the log. -/
inductive Logged
  | command (text : Str) (source : CommandSource) (status : Option ℤ)
  | download (tool url dest : Str)
  | authAttempt (user method password : Str)
  | upload (name destPath : Str) (size : ℕ) (payloadSha256 : Str) (truncated : Bool)
  deriving DecidableEq

/-- The log event of a capture. -/
def logged : Capture → Logged
  | .download tool url dest => .download tool url dest
  | .scriptCommand line status => .command line .script (some status)
  | .passwordChange target password => .authAttempt target "chpasswd".toList password
  | .suAuth target password => .authAttempt target "su".toList password

/-! ### Displays -/

/-- Which full-screen display is holding the terminal. -/
inductive ScreenKind
  | top | vi | nano | listen
  deriving DecidableEq

/-- A display holding the terminal. -/
structure ScreenHold where
  kind : ScreenKind
  /-- The `:`-command of `vi` in progress. -/
  colon : Option Str
  deriving DecidableEq

/-- Move the cursor home and erase what is below it. -/
def screenHome : Str := "\x1b[H\x1b[J".toList

/-- The commands that quit `vi`. -/
def viQuits : List Str := ["q", "q!", "wq", "wq!", "x"].map String.toList

/-- Advance the `:`-command of `vi` on one keystroke: the display after it, unless it quits. -/
def viScreenInput (hold : ScreenHold) (byte : UInt8) : Option ScreenHold :=
  if byte = 0x03 then none
  else
    match hold.colon with
    | some buf =>
      if byte = 0x0d ∨ byte = 0x0a then
        if buf ∈ viQuits then none else some { hold with colon := none }
      else if byte = 0x1b then some { hold with colon := none }
      else if byte = 0x08 ∨ byte = 0x7f then some { hold with colon := some buf.dropLast }
      else if 0x20 ≤ byte ∧ byte ≤ 0x7e then
        some { hold with colon := some (buf ++ [Char.ofNat byte.toNat]) }
      else some hold
    | none => if byte = 0x3a then some { hold with colon := some [] } else some hold

namespace ScreenHold

/-- Feed a keystroke to a display: the display after it, unless it quits. -/
def input (hold : ScreenHold) (byte : UInt8) : Option ScreenHold :=
  match hold.kind with
  | .top => if byte = 0x71 ∨ byte = 0x03 then none else some hold
  | .nano => if byte = 0x18 ∨ byte = 0x03 then none else some hold
  | .listen => if byte = 0x03 then none else some hold
  | .vi => viScreenInput hold byte

/-- Feed keystrokes to a display until it quits: the display after them, and the bytes behind the
key that quits it. -/
def drive (hold : ScreenHold) : Bytes → Option ScreenHold × Bytes
  | [] => (some hold, [])
  | byte :: bytes =>
    match hold.input byte with
    | some hold => hold.drive bytes
    | none => (none, bytes)

end ScreenHold

/-! ### The handler -/

/-- What the client asked for in `pty-req`. -/
structure PtyRequest where
  term : Str
  cols : ℕ
  rows : ℕ
  deriving DecidableEq

/-- The outcome of a completion request. -/
inductive Completion
  | none
  | single (replacement : Str) (addSpace : Bool)
  | listing (items : List Str)

/-- What a connection is served with: its configuration and addresses, the snapshot that a shell
starts on, and what is computed elsewhere. -/
structure Config where
  hostname : Str
  maxUploadBytes : ℕ
  peerIp : Str
  peerPort : ℕ
  localIp : Str
  localPort : ℕ
  sha256 : Bytes → Bytes
  snapshot : Timestamp → Vfs
  /-- The line about the previous login. -/
  lastLogin : Str
  uptimeBanner : Timestamp → Str
  /-- Completions of a word, which may be a command name. -/
  complete : Interp.Shell → Str → Bool → Completion

/-- Connection state. -/
structure MimicHandler where
  pty : Bool
  username : Str
  editor : LineEditor
  /-- Whether the channel is running the interactive shell. -/
  shellStarted : Bool
  shell : Option Interp.Shell
  activeChannel : Option UInt32
  scp : Option Scp.ScpSink
  sftp : Option Sftp.SftpSession
  /-- While the shell waits for a password: what was typed of it. -/
  passwordBuf : Option Bytes
  /-- A line in progress, without a terminal. -/
  lineBuf : Bytes
  screen : Option ScreenHold
  ptyTerm : Option PtyRequest
  acceptedEnv : List (Str × Str)
  replies : List (UInt32 × Reply)
  logged : List Logged

/-- Maximum bytes of a command line. -/
def maxCommandLen : ℕ := 4096

/-- `as u32` of an exit status. -/
def asU32 (status : ℤ) : ℕ := (status % 2 ^ 32).toNat

/-- Keep only what a terminal name can hold. -/
def sanitiseTerm (term : Str) : Str :=
  let cleaned := (term.filter fun c ↦
    (c.toNat < 128 && c.isAlphanum) || c = '-' || c = '_' || c = '.' || c = '+').take 64
  if cleaned = [] then "xterm-256color".toList else cleaned

/-- Strip control characters from a locale value. -/
def sanitiseEnvValue (value : Str) : Str := (value.filter fun c ↦ !Text.isControl c).take 256

/-- A side of a terminal, as asked for. -/
def side (asked : UInt32) (default : ℕ) : ℕ := if asked = 0 then default else min asked.toNat 10000

/-- Candidates in columns. -/
def formatColumns (items : List Str) : Str :=
  let width := ((items.map Text.byteLen).foldr max 0) + 2
  let cols := max (80 / width) 1
  (items.zipIdx.map fun (item, i) ↦
    if (i + 1) % cols = 0 ∨ i + 1 = items.length then item ++ ['\n']
    else item ++ List.replicate (width - Text.byteLen item) ' ').flatten

/-- A transfer that `scp` is asked for. -/
inductive ScpMode
  | sink (target : Str) (recursive : Bool)
  | source (path : Str)

/-- Recognise an `scp` server command. -/
def parseScp (cmd : Str) : Option ScpMode :=
  match Parser.tokenize cmd with
  | [] => none
  | first :: args =>
    let base := (first.splitOnP fun c ↦ c = '/' ∨ c = '\\').getLast?.getD first
    if base ≠ "scp".toList then none
    else
      let args := args.filter (· ≠ ['-', '-'])
      let flags := (args.filter (·.head? = some '-')).flatten
      match (args.filter (·.head? ≠ some '-')).getLast? with
      | none => none
      | some path =>
        if 't' ∈ flags then some (.sink path ('r' ∈ flags))
        else if 'f' ∈ flags then some (.source path)
        else none

namespace MimicHandler

/-- A connection whose user has logged in. -/
def new (username : Str) : MimicHandler where
  pty := false
  username := username
  editor := .new maxCommandLen 1000
  shellStarted := false
  shell := none
  activeChannel := none
  scp := none
  sftp := none
  passwordBuf := none
  lineBuf := []
  screen := none
  ptyTerm := none
  acceptedEnv := []
  replies := []
  logged := []

section Pure

variable (config : Config) (host : Host) (channel : UInt32) (h : MimicHandler)

/-- What SFTP and SCP read from outside. -/
def ambient : Sftp.Ambient := ⟨host.now, config.sha256⟩

def reply (r : Reply) : MimicHandler := { h with replies := h.replies ++ [(channel, r)] }

/-- `session.data`. -/
def data (bytes : Bytes) : MimicHandler := h.reply channel (.data bytes)

def log (e : Logged) : MimicHandler := { h with logged := h.logged ++ [e] }

/-- Emit one `command` event. -/
def logCommand (text : Str) (source : CommandSource) (status : Option ℤ) : MimicHandler :=
  h.log (.command text source status)

/-- Encode output: a terminal turns `\n` into `\r\n`. -/
def out (text : Str) : Bytes := if h.pty then LineEditor.crlf text else Text.toUtf8 text

/-- The shell that `shell` builds on first use. -/
def freshShell : Interp.Shell :=
  let shell := Interp.Shell.withPersona host.now (config.snapshot host.now) h.username
    config.hostname
  let peer := config.peerIp ++ ' ' :: Text.decimal config.peerPort ++ [' ']
  let local' := Text.decimal config.localPort
  let connection : List (Str × Str) :=
    [("SSH_CLIENT".toList, peer ++ local'),
      ("SSH_CONNECTION".toList, peer ++ config.localIp ++ ' ' :: local')]
  let tty : List (Str × Str) := if h.pty then [("SSH_TTY".toList, "/dev/pts/0".toList)] else []
  let term : List (Str × Str) :=
    h.ptyTerm.elim [] fun pty ↦
      [("TERM".toList, pty.term), ("COLUMNS".toList, Text.decimal pty.cols),
        ("LINES".toList, Text.decimal pty.rows)]
  { shell with
    env := (connection ++ tty ++ term ++ h.acceptedEnv).foldl
      (fun env e ↦ Interp.setVar env e.1 e.2) shell.env }

/-- The session shell. -/
def theShell : Interp.Shell := h.shell.getD (h.freshShell config host)

/-- The connection with its shell built. -/
def built : MimicHandler := { h with shell := some (h.theShell config host) }

def tryOpenChannel : MimicHandler :=
  if h.activeChannel.isSome then h.reply channel .reject
  else { h with activeChannel := some channel }.reply channel .accept

/-- What SFTP and SCP use of a shell. -/
def view (shell : Interp.Shell) : Mimic.Shell := ⟨shell.vfs, shell.cwd, shell.uid, shell.gid⟩

/-- Log an upload over SFTP, whose file is in the VFS already. -/
def storeSftpUpload (upload : Sftp.CompletedUpload) : MimicHandler :=
  h.log (.upload upload.name upload.destPath upload.size upload.payloadSha256 upload.truncated)

/-- Write one file uploaded over SCP into the VFS, and log it. -/
def storeUpload (file : Scp.CompletedFile) : MimicHandler :=
  let target := h.scp.elim "/tmp".toList Scp.ScpSink.target
  let recursive := h.scp.elim false Scp.ScpSink.recursive
  let shell := h.theShell config host
  let written := Scp.writeToVfs host.now (view shell) target recursive file
  { h with shell := some { shell with vfs := written.1.vfs } }.log
    (.upload file.name written.2 file.size file.payloadSha256 file.truncated)

/-- Finalise the write handles that never received `SSH_FXP_CLOSE`. -/
def drainSftpUploads : MimicHandler :=
  match h.sftp, h.shell with
  | none, _ => h
  | some _, none => { h with sftp := none }
  | some sftp, some shell =>
    let pending := Sftp.intoPendingUploads (ambient config host) sftp (view shell)
    pending.2.foldl storeSftpUpload
      { h with sftp := none, shell := some { shell with vfs := pending.1.vfs } }

/-- Data for the SFTP subsystem. -/
def feedSftp (sftp : Sftp.SftpSession) (bytes : Bytes) : MimicHandler :=
  let shell := h.theShell config host
  let fed := Sftp.feed (ambient config host) config.maxUploadBytes bytes sftp (view shell)
  let h := fed.completed.foldl storeSftpUpload
    { h with sftp := some fed.session, shell := some { shell with vfs := fed.shell.vfs } }
  if fed.out = [] then h else h.data channel fed.out

/-- Data for an upload over SCP. -/
def feedScp (sink : Scp.ScpSink) (bytes : Bytes) : MimicHandler :=
  let fed := Scp.feed config.sha256 sink bytes
  let h := fed.done.foldl (fun h file ↦ h.storeUpload config host file)
    { h with scp := some fed.sink }
  if fed.acks = [] then h else h.data channel fed.acks

def closeChannel : MimicHandler :=
  if h.activeChannel = some channel then
    { h.drainSftpUploads config host with
      activeChannel := none
      editor := .new maxCommandLen 1000
      shell := none
      scp := none
      sftp := none
      passwordBuf := none
      lineBuf := []
      screen := none
      shellStarted := false
      pty := false }
  else h

/-- Report the exit status, and close. -/
def endChannel (status : ℕ) : MimicHandler :=
  (((h.reply channel (.exitStatus status)).reply channel .eof).reply channel .close).closeChannel
    config host channel

/-- Write a finished command line's output. -/
def writeOutput (output : Output) : MimicHandler :=
  if h.pty then
    if output.text = [] then h else h.data channel (h.out output.text)
  else
    let h := if output.stdout = [] then h else h.data channel (h.out output.stdout)
    if output.stderr = [] then h
    else h.reply channel (.extendedData 1 (h.out output.stderr))

/-- Log the captures of the last command. -/
def drainCaptures : MimicHandler :=
  let shell := h.theShell config host
  { h with
    shell := some (shell.withCaptures [])
    logged := h.logged ++ shell.captures.map Connection.logged }

/-- Log a here-document that has just closed. -/
def logClosedHeredoc : MimicHandler :=
  let shell := h.theShell config host
  let h := { h with shell := some { shell with heredocLog := none } }
  match shell.heredocLog with
  | some text => h.logCommand text .heredoc none
  | none => h

/-- Draw a prompt and the line behind it. -/
def draw (prompt : Str) : MimicHandler :=
  let editor := h.editor.setPrompt prompt
  { h with editor := editor }.data channel editor.render

/-- Draw the prompt of the shell. -/
def drawPrompt : MimicHandler :=
  (h.built config host).draw channel (h.theShell config host).prompt

/-- Take over the terminal with a display. -/
def holdScreen (screen : Screen) : MimicHandler :=
  match screen with
  | .top top =>
    { h.data channel (h.out (screenHome ++ top.render (config.uptimeBanner host.now))) with
      screen := some ⟨.top, none⟩ }
  | .editor editor =>
    let kind := match editor.kind with | .vi => ScreenKind.vi | .nano => .nano
    { h.data channel (h.out (screenHome ++ editor.render)) with screen := some ⟨kind, none⟩ }
  | .listen => { h with screen := some ⟨.listen, none⟩ }

/-- What follows a line on a terminal: a display, a password, or the next prompt. -/
def settle : MimicHandler :=
  let shell := h.theShell config host
  let h := h.built config host
  match shell.screen with
  | some screen =>
    { h with shell := some { shell with screen := none } }.holdScreen config host channel screen
  | none =>
    match shell.pending with
    | none => h.drawPrompt config host channel
    | some pending =>
      if pending.echoes then h.draw channel (pending.prompt.getD shell.prompt)
      else { h with passwordBuf := some [] }

/-- Complete the word at the cursor. -/
def completeCurrentWord : MimicHandler :=
  let word := h.editor.currentWord
  let h := h.built config host
  match config.complete (h.theShell config host) word.1 word.2 with
  | .none => h
  | .single replacement addSpace =>
    let completed := h.editor.applyCompletion replacement addSpace
    { h with editor := completed.2 }.data channel completed.1
  | .listing items => h.data channel (h.editor.showListing (formatColumns items))

/-- The message of the day. -/
def motd : Str :=
  "Linux ".toList ++ config.hostname ++
    (" 6.1.0-21-amd64 #1 SMP PREEMPT_DYNAMIC Debian 6.1.90-1 (2024-05-03) x86_64\n" ++
      "\n" ++
      "The programs included with the Debian GNU/Linux system are free software;\n" ++
      "the exact distribution terms for each program are described in the\n" ++
      "individual files in /usr/share/doc/*/copyright.\n" ++
      "\n" ++
      "Debian GNU/Linux comes with ABSOLUTELY NO WARRANTY, to the extent\n" ++
      "permitted by applicable law.\n").toList

end Pure

end MimicHandler

/-! ### Calls -/

/-- What a call of the handler does. -/
abbrev Act (α : Type) := Outcomes.Prog MimicHandler Stop α

section Acts

variable (config : Config) (host : Host) (channel : UInt32)

/-- Run the shell. -/
def onShell {α : Type} (m : Interp.Run α) : Act α := fun h ↦
  let r := m (h.theShell config host)
  (r.1, { h with shell := some r.2 })

/-- The shell, built if this is its first use. -/
def theShell : Act Interp.Shell := onShell config host get

/-- Emit what one completed line produced, and end the channel if the line finished the session:
whether it did. -/
def deliver (output : Output) : Act Bool := do
  modify fun h ↦ (h.drainCaptures config host).writeOutput channel output
  if output.exit then
    modify fun h ↦ h.endChannel config host channel (asU32 output.status)
    return true
  else return false

/-- Run one submitted command line. -/
def submitLine (line : Str) : Act Bool := do
  let trimmed := Text.trim line
  if trimmed ≠ [] then onShell config host (modify fun s ↦ s.recordHistory trimmed)
  let result ← onShell config host (Interp.execute host (Interp.levels host) trimmed)
  let shell ← theShell config host
  if trimmed ≠ [] ∧ ¬ shell.pending.any Pending.echoes then
    modify fun h ↦
      h.logCommand trimmed (if h.pty then .interactive else .pipe) (some result.status)
  deliver config host channel result

/-- Answer what the shell waits for. -/
def answer (line : Str) : Act Bool := do
  let output ← onShell config host (Interp.resume host line)
  modify fun h ↦ h.logClosedHeredoc config host
  deliver config host channel output

/-- Run one line read without a terminal. -/
def runNoTtyLine (line : Str) : Act Bool := do
  let shell ← theShell config host
  if shell.pending.isSome then answer config host channel line
  else submitLine config host channel line

/-- The line read without a terminal. -/
def takeLine : Act Str := do
  let h ← get
  set { h with lineBuf := [] }
  return Text.trimEndMatches '\r' (Text.fromUtf8Lossy h.lineBuf)

/-- Feed input without a terminal. -/
def feedNoTty : Bytes → Act Unit
  | [] => return
  | byte :: bytes => do
    if byte = 0x0d then feedNoTty bytes
    else if byte = 0x0a then
      let line ← takeLine
      if ← runNoTtyLine config host channel line then return
      else feedNoTty bytes
    else
      modify fun h ↦
        if h.lineBuf.length < maxCommandLen then { h with lineBuf := h.lineBuf ++ [byte] } else h
      feedNoTty bytes

/-- A byte typed for a password: whether the session ended. -/
def inputPassword (typed : Bytes) (byte : UInt8) : Act Bool := do
  if byte = 0x0d ∨ byte = 0x0a then
    modify fun h ↦ { h with passwordBuf := none }.data channel [0x0d, 0x0a]
    let output ← onShell config host (Interp.resume host (Text.fromUtf8Lossy typed))
    if ← deliver config host channel output then return true
    else
      let shell ← theShell config host
      if shell.pending.any fun p ↦ !p.echoes then
        modify fun h ↦ { h with passwordBuf := some [] }
      else modify fun h ↦ h.drawPrompt config host channel
      return false
  else if byte = 0x03 then
    onShell config host (modify fun s ↦ s.withPending none)
    modify fun h ↦
      ({ h with passwordBuf := none }.data channel [0x0d, 0x0a]).drawPrompt config host channel
    return false
  else if byte = 0x08 ∨ byte = 0x7f then
    -- the continuation bytes of the last character, and the byte in front of them
    let kept := (typed.reverse.dropWhile Text.isContinuation).drop 1
    modify fun h ↦ { h with passwordBuf := some kept.reverse }
    return false
  else
    if LineEditor.isPrintable byte ∧ typed.length < maxCommandLen then
      modify fun h ↦ { h with passwordBuf := some (typed ++ [byte]) }
    return false

/-- A line that was submitted on a terminal: whether the session ended. -/
def submitted (line : Str) : Act Bool := do
  let shell ← theShell config host
  let ended ←
    if shell.pending.any Pending.echoes then answer config host channel line
    else submitLine config host channel line
  if ended then return true
  else
    modify fun h ↦ h.settle config host channel
    return false

/-- A byte for the line editor: whether the session ended. -/
def inputLine (byte : UInt8) : Act Bool := do
  let h ← get
  let reacted := h.editor.input byte
  set { h with editor := reacted.2 }
  match reacted.1 with
  | .ignore => return false
  | .write bytes =>
    modify fun h ↦ h.data channel bytes
    return false
  | .complete =>
    modify fun h ↦ h.completeCurrentWord config host channel
    return false
  | .eof =>
    let shell ← theShell config host
    modify fun h ↦ (h.data channel (h.out Interp.logout)).endChannel config host channel
      (asU32 shell.lastStatus)
    return true
  | .submit echo line =>
    modify fun h ↦ h.data channel echo
    submitted config host channel line

/-- A byte typed on a terminal: whether the session ended. -/
def inputByte (byte : UInt8) : Act Bool := do
  match (← get).passwordBuf with
  | some typed => inputPassword config host channel typed byte
  | none => inputLine config host channel byte

/-- Bytes typed on a terminal, up to the end of the session. -/
def inputBytes : Bytes → Act Unit
  | [] => return
  | byte :: bytes => do
    if ← inputByte config host channel byte then return else inputBytes bytes

/-- Feed input on a terminal: to the display that holds it, until it quits, and the rest to the
line editor. -/
def feedTty (bytes : Bytes) : Act Unit := do
  let h ← get
  match h.screen with
  | none => inputBytes config host channel bytes
  | some hold =>
    match hold.drive bytes with
    | (some hold, _) => set { h with screen := some hold }
    | (none, rest) =>
      let farewell := match hold.kind with | .listen => "^C\n".toList | _ => screenHome
      set (({ h with screen := none }.data channel (h.out farewell)).drawPrompt config host channel)
      inputBytes config host channel rest

/-- Data of a channel. -/
def data (bytes : Bytes) : Act Unit := do
  let h ← get
  match h.sftp, h.scp with
  | some sftp, _ => set (h.feedSftp config host channel sftp bytes)
  | none, some sink => set (h.feedScp config host channel sink bytes)
  | none, none =>
    if h.pty then feedTty config host channel bytes else feedNoTty config host channel bytes

/-- A one-shot command. -/
def runExec (cmd : Str) : Act Unit := do
  onShell config host (modify fun s ↦ { s with interactive := false })
  let result ← onShell config host (Interp.execute host (Interp.levels host) cmd)
  -- a here-document can never be fed, so it ends at end of input
  let finished ← onShell config host (Interp.finishHeredocAtEof host)
  if finished.isSome then modify fun h ↦ h.logClosedHeredoc config host
  let result := finished.getD result
  onShell config host (modify fun s ↦ s.withPending none)
  modify fun h ↦ ((h.logCommand cmd .exec (some result.status)).drainCaptures config
    host).writeOutput channel result
  modify fun h ↦ h.endChannel config host channel (asU32 result.status)

def execRequest (bytes : Bytes) : Act Unit := do
  modify fun h ↦ h.reply channel .success
  let cmd := Text.trim (Text.fromUtf8Lossy (bytes.take maxCommandLen))
  match parseScp cmd with
  | some (.sink target recursive) =>
    modify fun h ↦
      { (h.logCommand cmd .exec none).logCommand
          ("[scp upload to ".toList ++ target ++ [']']) .transfer none with
        scp := some (.new target recursive config.maxUploadBytes) }.data channel [0]
  | some (.source path) =>
    let msg := '\x01' :: "scp: ".toList ++ path ++ ": No such file or directory\n".toList
    modify fun h ↦ ((h.logCommand cmd .exec (some 1)).data channel (Text.toUtf8 msg)).endChannel
      config host channel 1
  | none => runExec config host channel cmd

def shellRequest : Act Unit := do
  modify fun h ↦ { h.reply channel .success with shellStarted := true }
  let pty := (← get).pty
  onShell config host (modify fun s ↦ { s with interactive := pty })
  modify fun h ↦ h.data channel (h.out (MimicHandler.motd config))
  if pty then
    modify fun h ↦ (h.data channel (h.out config.lastLogin)).drawPrompt config host channel

/-- What is left when the client closes its side without a terminal: whether the session ended. -/
def finishNoTty : Act Bool := do
  let h ← get
  let ended ←
    if h.lineBuf = [] then pure false
    else do
      let line ← takeLine
      runNoTtyLine config host channel line
  if ended then return true
  else
    match ← onShell config host (Interp.finishHeredocAtEof host) with
    | none => return false
    | some output =>
      modify fun h ↦ h.logClosedHeredoc config host
      deliver config host channel output

def channelEof : Act Unit := do
  let h ← get
  if h.scp.isSome then set ({ h with scp := none }.endChannel config host channel 0)
  else if h.sftp.isSome then
    set (((h.built config host).drainSftpUploads config host).endChannel config host channel 0)
  else if h.shellStarted ∧ h.activeChannel = some channel then
    if h.pty then
      let shell ← theShell config host
      modify fun h ↦ (h.data channel (h.out Interp.logout)).endChannel config host channel
        (asU32 shell.lastStatus)
    else if ← finishNoTty config host channel then return
    else
      let shell ← theShell config host
      modify fun h ↦ h.endChannel config host channel (asU32 shell.lastStatus)

end Acts

/-! ### Events -/

/-- A call of the handler by the transport. -/
inductive Call
  | channelOpenSession
  | ptyRequest (term : Str) (colWidth rowHeight : UInt32)
  | envRequest (name value : Str)
  | windowChangeRequest (colWidth rowHeight : UInt32)
  | subsystemRequest (name : Str)
  | agentRequest
  | shellRequest
  | execRequest (bytes : Bytes)
  | data (bytes : Bytes)
  | channelEof
  | channelClose

/-- A call on a channel, with what it reads from outside. -/
structure Event where
  host : Host
  channel : UInt32
  call : Call

/-- How many locale variables are accepted. -/
def maxAcceptedEnv : ℕ := 32

namespace MimicHandler

variable (channel : UInt32) (h : MimicHandler)

def ptyRequest (term : Str) (colWidth rowHeight : UInt32) : MimicHandler :=
  { h with
    pty := true
    ptyTerm := some ⟨sanitiseTerm term, side colWidth 80, side rowHeight 24⟩ }.reply channel
      .success

/-- Whether a variable is a locale variable. -/
def isLocale (name : Str) : Bool := name = "LANG".toList || "LC_".toList <+: name

def envRequest (name value : Str) : MimicHandler :=
  if isLocale name then
    { h with
      acceptedEnv :=
        if h.acceptedEnv.length < maxAcceptedEnv then
          h.acceptedEnv ++ [(name, sanitiseEnvValue value)]
        else h.acceptedEnv }.reply channel .success
  else h.reply channel .failure

def windowChangeRequest (colWidth rowHeight : UInt32) : MimicHandler :=
  let term := h.ptyTerm.map fun pty ↦
    { pty with cols := side colWidth pty.cols, rows := side rowHeight pty.rows }
  let shell := h.shell.map fun s ↦
    match term with
    | none => s
    | some pty =>
      { s with
        env := Interp.setVar (Interp.setVar s.env "COLUMNS".toList (Text.decimal pty.cols))
          "LINES".toList (Text.decimal pty.rows) }
  { h with ptyTerm := term, shell := shell }.reply channel .success

def subsystemRequest (name : Str) : MimicHandler :=
  if name = "sftp".toList then { h with sftp := some .new }.reply channel .success
  else h.reply channel .failure

end MimicHandler

/-- What a call does. -/
def handle (config : Config) (e : Event) : Act Unit :=
  match e.call with
  | .channelOpenSession => modify fun h ↦ h.tryOpenChannel e.channel
  | .ptyRequest term colWidth rowHeight =>
    modify fun h ↦ h.ptyRequest e.channel term colWidth rowHeight
  | .envRequest name value => modify fun h ↦ h.envRequest e.channel name value
  | .windowChangeRequest colWidth rowHeight =>
    modify fun h ↦ h.windowChangeRequest e.channel colWidth rowHeight
  | .subsystemRequest name => modify fun h ↦ h.subsystemRequest e.channel name
  | .agentRequest => modify fun h ↦ h.reply e.channel .failure
  | .shellRequest => shellRequest config e.host e.channel
  | .execRequest bytes => execRequest config e.host e.channel bytes
  | .data bytes => data config e.host e.channel bytes
  | .channelEof => channelEof config e.host e.channel
  | .channelClose => modify fun h ↦ h.closeChannel config e.host e.channel

/-! ### A small server -/

/-- A server that boots with an empty filesystem. -/
def bareConfig : Config where
  hostname := "debian".toList
  maxUploadBytes := 1024
  peerIp := "192.0.2.1".toList
  peerPort := 50000
  localIp := "192.0.2.2".toList
  localPort := 22
  sha256 := fun _ ↦ Sftp.hiDigest
  snapshot _ := Vfs.new 0
  lastLogin := []
  uptimeBanner _ := []
  complete _ _ _ := .none

/-- The connection behind some calls on its first channel. -/
def reached (host : Host) (calls : List Call) : MimicHandler :=
  calls.foldl (fun h call ↦ (handle bareConfig ⟨host, 0, call⟩ h).2) (.new "root".toList)

/-- A shell is started on a terminal. -/
def openTerminal : List Call :=
  [.channelOpenSession, .ptyRequest "xterm".toList 80 24, .shellRequest]

end Connection

end Mimic
