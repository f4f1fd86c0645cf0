import Mimic.Commands.LineFiles
import Mimic.Network.ScpSink
import Mimic.Shell.ReadBack
import Mimic.Vfs.Accounting

/-!
# The account database

`useradd`, `userdel`, `groupadd`, `chpasswd` and `passwd` of `commands/admin.rs`, over the three
files they rewrite. A session of them is a run of steps; the answers to the prompts of `passwd` are
steps of their own.

As long as the three files are regular files in `/etc` (`Mounted`), what a command reads of one of
them is its text, and what it writes becomes its text if the content cap has room (`Books.write`).
So a step is a change of three texts, which is followed through the names in them.

`userdel` takes the line of a name out of `/etc/passwd` and leaves the one in `/etc/shadow`. Then
`useradd`, which looks into `/etc/passwd` only, enters a second one. `accounts_consistent` names the
steps that do no such thing, and shows that a session of them keeps the database consistent.
-/

namespace Mimic

namespace Interp

open GuardedRun Outcomes
open Scp (parseUnsigned)

/-! ### The files -/

/-- The files of the database. -/
inductive AccountFile
  | passwd | group | shadow
  deriving DecidableEq

namespace AccountFile

def name : AccountFile → Str
  | passwd => "passwd".toList
  | group => "group".toList
  | shadow => "shadow".toList

def path (file : AccountFile) : Str := "/etc/".toList ++ file.name

end AccountFile

namespace Accounts

section Commands

variable (host : Host)

/-- What `write_text` reports. -/
def wroteText (s : Shell) (path text : Str) : Bool :=
  match resolveParent s path with
  | none => false
  | some (parent, name) =>
    match s.vfs.child parent name with
    | some id => (s.vfs.writeFile host.now id (Text.toUtf8 text) false).2
    | none => !s.vfs.isFull parent

/-- Write a file's text back with something behind it. -/
def appendText (s : Shell) (file : AccountFile) (text : Str) : Shell :=
  writeText host s file.path (readText host s file.path ++ text)

/-- Whether a file has a line for `name`. -/
def isListed (s : Shell) (file : AccountFile) (name : Str) : Bool :=
  (Text.lines (readText host s file.path)).any fun line ↦ (name ++ [':']).isPrefixOf line

/-! ### The commands -/

/-- The options and the operand of `useradd`. -/
structure UseraddArgs where
  loginShell : Str
  uid : UInt32
  makeHome : Bool
  name : Option Str
  deriving DecidableEq

namespace UseraddArgs

/-- Without arguments. -/
def default : UseraddArgs := ⟨"/bin/sh".toList, 1001, false, none⟩

/-- The loop of `useradd` over its arguments. -/
def parse (options : UseraddArgs) : List Str → UseraddArgs
  | [] => options
  | arg :: args =>
    if arg = "-m".toList ∨ arg = "--create-home".toList then
      parse { options with makeHome := true } args
    else if arg = "-s".toList ∨ arg = "--shell".toList then
      match args with
      | [] => options
      | value :: args => parse { options with loginShell := value } args
    else if arg = "-u".toList ∨ arg = "--uid".toList then
      match args with
      | [] => options
      | value :: args =>
        match parseUnsigned 10 32 value with
        | some uid => parse { options with uid := .ofNat uid } args
        | none => parse options args
    else if arg = "-g".toList ∨ arg = "-G".toList ∨ arg = "-d".toList ∨ arg = "-c".toList ∨
      arg = "-p".toList then
      match args with
      | [] => options
      | _ :: args => parse options args
    else if arg.head? = some '-' then parse options args
    else parse { options with name := some arg } args

/-- What stands in front of the login shell in the line for `name` in `/etc/passwd`, behind the
name. -/
def fields (options : UseraddArgs) (name : Str) : Str :=
  let uid := Text.decimal options.uid.toNat
  "x:".toList ++ uid ++ [':'] ++ uid ++ "::/home/".toList ++ name ++ [':']

/-- What is appended to a file for `name`. -/
def entry (options : UseraddArgs) (name : Str) : AccountFile → Str
  | .passwd => name ++ ':' :: options.fields name ++ options.loginShell ++ ['\n']
  | .group => name ++ ':' :: ("x:".toList ++ Text.decimal options.uid.toNat ++ [':']) ++ ['\n']
  | .shadow => name ++ ':' :: "!:19999:0:99999:7:::".toList ++ ['\n']

end UseraddArgs

/-- `useradd [-m] [-s SHELL] [-u UID] USER` -/
def useradd (args : List Str) (s : Shell) : Shell × CommandResult :=
  if s.uid ≠ 0 then
    (s, .err ("useradd: Permission denied.\n" ++
      "useradd: cannot lock /etc/passwd; try again later.\n").toList 1)
  else
    let options := UseraddArgs.default.parse args
    match options.name with
    | none => (s, .err "useradd: missing operand\n".toList 2)
    | some name =>
      if isListed host s .passwd name then
        (s, .err ("useradd: user '".toList ++ name ++ "' already exists\n".toList) 9)
      else
        let passwdFile := readText host s AccountFile.passwd.path
        let text := passwdFile ++ options.entry name .passwd
        let t := writeText host s AccountFile.passwd.path text
        if !wroteText host s AccountFile.passwd.path text then
          (t, .err "useradd: cannot open /etc/passwd\n".toList 1)
        else
          -- neither of these writes is asked whether it was made
          let t := appendText host t .group (options.entry name .group)
          let t := appendText host t .shadow (options.entry name .shadow)
          let home := "/home/".toList ++ name
          if options.makeHome then
            let made := t.vfs.mkdirP host.now home 0o755 options.uid options.uid
            ({ t with vfs := made.1 },
              if made.2.isNone then
                .err ("useradd: cannot create directory ".toList ++ home ++ ['\n']) 12
              else .ok [])
          else (t, .ok [])

/-- The first argument that is no option. -/
def operand (args : List Str) : Option Str := args.find? fun arg ↦ arg.head? ≠ some '-'

/-- `userdel [-r] USER` -/
def userdel (args : List Str) (s : Shell) : Shell × CommandResult :=
  if s.uid ≠ 0 then (s, .err "userdel: Permission denied.\n".toList 1)
  else
    match operand args with
    | none => (s, .err "userdel: missing operand\n".toList 2)
    | some name =>
      if !isListed host s .passwd name then
        (s, .err ("userdel: user '".toList ++ name ++ "' does not exist\n".toList) 6)
      else
        let kept := (Text.lines (readText host s AccountFile.passwd.path)).filter fun line ↦
          !(name ++ [':']).isPrefixOf line
        (writeText host s AccountFile.passwd.path (List.intercalate ['\n'] kept ++ ['\n']), .ok [])

/-- `groupadd GROUP` -/
def groupadd (args : List Str) (s : Shell) : Shell × CommandResult :=
  if s.uid ≠ 0 then (s, .err "groupadd: Permission denied.\n".toList 1)
  else
    match operand args with
    | none => (s, .err "groupadd: missing operand\n".toList 2)
    | some name =>
      if isListed host s .group name then
        (s, .err ("groupadd: group '".toList ++ name ++ "' already exists\n".toList) 9)
      else (appendText host s .group (name ++ ':' :: "x:1001:".toList ++ ['\n']), .ok [])

/-- The loop of `chpasswd` over its lines. -/
def chpasswdLoop (s : Shell) (errs : Str) (status : ℤ) : List Str → Shell × CommandResult
  | [] => (s, .streams [] errs status)
  | line :: lines =>
    let line := Text.trim line
    if line = [] then chpasswdLoop s errs status lines
    else
      match Text.splitOnce ':' line with
      | none =>
        let message := "chpasswd: line '".toList ++ line ++ "' is badly formatted\n".toList
        chpasswdLoop s (errs ++ message) 1 lines
      | some (user, password) =>
        if !isListed host s .passwd user then
          let message := "chpasswd: line '".toList ++ line ++ "': user '".toList ++ user ++
            "' does not exist\n".toList
          chpasswdLoop s (errs ++ message) 1 lines
        else
          chpasswdLoop (setShadowEntry host (s.pushCapture (.passwordChange user password)) user)
            errs status lines

/-- `chpasswd` -/
def chpasswd (_args : List Str) (s : Shell) : Shell × CommandResult :=
  let input := s.stdin.getD []
  if Text.trim input = [] then (s, .ok [])
  else if s.uid ≠ 0 then (s, .err "chpasswd: Permission denied.\n".toList 1)
  else chpasswdLoop host s [] 0 (Text.lines input)

/-- `passwd [USER]` -/
def passwd (args : List Str) (s : Shell) : Shell × CommandResult :=
  let target := (operand args).getD s.username
  if s.uid ≠ 0 ∧ target ≠ s.username then
    (s, .err ("passwd: You may not view or modify password information for ".toList ++ target ++
      ".\n".toList) 1)
  else if !isListed host s .passwd target then
    (s, .err ("passwd: user '".toList ++ target ++ "' does not exist\n".toList) 1)
  else
    (s.withPending (some (.newPassword target none)),
      .ok ("Changing password for ".toList ++ target ++ ".\nNew password: ".toList))

/-! ### Sessions -/

/-- A step of a session. -/
inductive Step
  | useradd (args : List Str)
  | userdel (args : List Str)
  | groupadd (args : List Str)
  /-- `chpasswd`, with its standard input. -/
  | chpasswd (args : List Str) (input : Option Str)
  | passwd (args : List Str)
  /-- A line entered at a prompt. -/
  | answer (input : Str)
  deriving DecidableEq

/-- The session after a step. -/
def act : Step → Shell → Shell
  | .useradd args, s => (useradd host args s).1
  | .userdel args, s => (userdel host args s).1
  | .groupadd args, s => (groupadd host args s).1
  | .chpasswd args input, s =>
    { (chpasswd host args { s with stdin := input }).1 with stdin := none }
  | .passwd args, s => (passwd host args s).1
  | .answer input, s => (resume host input s).2

end Commands

/-! ### The files as texts -/

/-- The three files are regular files in `/etc`, with these texts. -/
structure Mounted (v : Vfs) (etc : NodeId) (file : AccountFile → NodeId)
    (texts : AccountFile → Str) : Prop where
  funded : v.Funded
  etc_entry : v.child v.root "etc".toList = some etc
  entry : ∀ f, v.child etc f.name = some (file f)
  kind : ∀ f, (v.node (file f)).kind = .file (Text.toUtf8 (texts f))

/-- The cap has room for `text` in the place of what a file holds. -/
def Fits (v : Vfs) (texts : AccountFile → Str) (f : AccountFile) (text : Str) : Prop :=
  v.contentBytes + Text.byteLen text ≤ maxVfsBytes + Text.byteLen (texts f)

instance (v : Vfs) (texts : AccountFile → Str) (f : AccountFile) (text : Str) :
    Decidable (Fits v texts f text) := Nat.decLe _ _

variable {host : Host} {v w : Vfs} {etc : NodeId} {file : AccountFile → NodeId}
  {texts : AccountFile → Str} {f : AccountFile} {s t : Shell} {text line name : Str}

namespace Mounted

variable (h : Mounted v etc file texts)

include h

theorem resolve (start : NodeId) (f : AccountFile) : v.resolve start f.path = some (file f) := by
  have hcomps : Vfs.significant (Vfs.splitSlash f.path) = ["etc".toList, f.name] := by
    cases f <;> decide
  rw [Vfs.resolve_absolute (by cases f <;> decide)]
  refine Vfs.resolve_of_descend hcomps (by cases f <;> decide) ?_ fun target ↦ ?_
  · exact Vfs.descend_cons.mpr ⟨etc, h.etc_entry, Vfs.descend_cons.mpr ⟨_, h.entry f, rfl⟩⟩
  · rw [h.kind f]
    exact NodeKind.noConfusion

theorem file_lt (f : AccountFile) : file f < v.nodes.length :=
  h.funded.wellFormed.entry_lt (h.entry f)

theorem file_injective : Function.Injective file := fun f g hfg ↦ by
  have hname := (h.funded.wellFormed.entry_unique (h.entry f) (hfg ▸ h.entry g)).2
  revert hname
  cases f <;> cases g <;> decide

theorem byteLen_le (f : AccountFile) : Text.byteLen (texts f) ≤ v.contentBytes := by
  have hlen := Vfs.contentLen_le_resident v (file f)
  rw [h.kind f, NodeKind.contentLen, Text.length_toUtf8] at hlen
  exact hlen.trans h.funded.covered

theorem writeFile_eq (now : Timestamp) (f : AccountFile) (text : Str) :
    v.writeFile now (file f) (Text.toUtf8 text) false =
      if Fits v texts f text then
        ({ v.modifyNode (file f) (fun n ↦ { n with
            kind := .file (Text.toUtf8 text), metadata := { n.metadata with mtime := now } }) with
          contentBytes := v.contentBytes - Text.byteLen (texts f) + Text.byteLen text }, true)
      else (v, false) := by
  have hle := h.byteLen_le f
  have hfits : Fits v texts f text ↔
      ¬ v.contentBytes - Text.byteLen (texts f) + Text.byteLen text > maxVfsBytes := by
    rw [Fits]
    omega
  simp only [Vfs.writeFile, h.kind f, Text.length_toUtf8, Bool.false_eq_true, if_false, hfits,
    ite_not]

/-- **A write that fits** becomes the text of its file. -/
theorem write (now : Timestamp) (hfits : Fits v texts f text) :
    Mounted (v.writeFile now (file f) (Text.toUtf8 text) false).1 etc file
        (Function.update texts f text) ∧
      (v.writeFile now (file f) (Text.toUtf8 text) false).1.contentBytes + Text.byteLen (texts f) =
        v.contentBytes + Text.byteLen text := by
  have hwrote : (v.writeFile now (file f) (Text.toUtf8 text) false).2 = true := by
    rw [h.writeFile_eq, if_pos hfits]
  have hprunes := Vfs.writeFile_prunes v now (file f) (Text.toUtf8 text) false
  have hchild := Vfs.child_writeFile hwrote
  have hbytes : (v.writeFile now (file f) (Text.toUtf8 text) false).1.contentBytes +
      Text.byteLen (texts f) = v.contentBytes + Text.byteLen text := by
    have hle := h.byteLen_le f
    rw [h.writeFile_eq, if_pos hfits]
    show v.contentBytes - Text.byteLen (texts f) + Text.byteLen text + _ = _
    omega
  refine ⟨⟨?_, ?_, fun g ↦ ?_, fun g ↦ ?_⟩, hbytes⟩
  · exact Vfs.Call.funded (.mutator (.writeFile now (file f) (Text.toUtf8 text) false))
      (by simpa [Vfs.Call.InRange, Vfs.Mutator.ids] using h.file_lt f) h.funded
  · rw [hprunes.root, hchild]
    exact h.etc_entry
  · rw [hchild]
    exact h.entry g
  · rcases eq_or_ne g f with rfl | hne
    · rw [Function.update_self, Vfs.node_writeFile hwrote (h.kind g) (h.file_lt g)]
      rfl
    · rw [Function.update_of_ne hne, h.writeFile_eq, if_pos hfits]
      show ((v.modifyNode (file f) _).node (file g)).kind = _
      rw [Vfs.node_modifyNode_of_ne fun hsame ↦ hne (h.file_injective hsame)]
      exact h.kind g

theorem write_refused (now : Timestamp) (hfits : ¬ Fits v texts f text) :
    v.writeFile now (file f) (Text.toUtf8 text) false = (v, false) := by
  rw [h.writeFile_eq, if_neg hfits]

/-- Making directories leaves the files where they are. -/
theorem mkdirP (now : Timestamp) (path : Str) (perms uid gid : UInt32) :
    Mounted (v.mkdirP now path perms uid gid).1 etc file texts := by
  have hextends : Vfs.Extends v (v.mkdirP now path perms uid gid).1 :=
    Vfs.extends_mkdirPLoop _ h.funded.wellFormed h.funded.wellFormed.root_lt
  refine ⟨?_, ?_, fun f ↦ hextends.child (h.entry f), fun f ↦ ?_⟩
  · have hrun := Vfs.Op.apply_eq_run (.mkdirP now path perms uid gid) v
    rw [Vfs.Op.apply] at hrun
    rw [hrun]
    exact Vfs.funded_run_calls (Vfs.admissible_mkdirPCalls _ h.funded.wellFormed
      h.funded.wellFormed.root_lt) h.funded
  · rw [hextends.root]
    exact hextends.child h.etc_entry
  · rw [← NodeKind.bare_eq_file_iff, hextends.bare (h.file_lt f), NodeKind.bare_eq_file_iff]
    exact h.kind f

end Mounted

/-! ### Reading and writing -/

theorem resolveParent_eq (hm : Mounted s.vfs etc file texts) (f : AccountFile) :
    resolveParent s f.path = some (etc, f.name) := by
  have htrim : Text.trimEndMatches '/' f.path = f.path := by cases f <;> decide
  have hsplit : Vfs.splitPath f.path = ("/etc".toList, f.name) := by cases f <;> decide
  have hname : ¬ (f.name = [] ∨ f.name = ['.'] ∨ f.name = ['.', '.']) := by cases f <;> decide
  have hdir := Vfs.isDirectory_of_child (hm.entry f)
  have hlt := Vfs.lt_of_child (hm.entry f)
  have hetc : s.vfs.resolve s.cwd "/etc".toList = some etc := by
    rw [Vfs.resolve_absolute (by decide)]
    have hcomps : Vfs.significant (Vfs.splitSlash "/etc".toList) = ["etc".toList] := by decide
    exact Vfs.resolve_of_descend hcomps (by decide)
      (Vfs.descend_cons.mpr ⟨etc, hm.etc_entry, rfl⟩) (Vfs.not_symlink_of_isDirectory hdir)
  have hpath : f.path ≠ [] := by cases f <;> decide
  simp only [resolveParent, htrim, if_neg hpath, hsplit]
  rw [if_neg hname, hetc]
  dsimp only
  rw [if_pos ((hm.funded.wellFormed.isDir_iff hlt).mpr hdir)]

/-- Writing a text is writing the node of the file. -/
theorem writeText_eq (host : Host) (hm : Mounted s.vfs etc file texts) (f : AccountFile)
    (text : Str) :
    writeText host s f.path text =
        { s with vfs := (s.vfs.writeFile host.now (file f) (Text.toUtf8 text) false).1 } ∧
      wroteText host s f.path text =
        (s.vfs.writeFile host.now (file f) (Text.toUtf8 text) false).2 := by
  constructor
  · rw [writeText, resolveParent_eq hm]
    dsimp only
    rw [hm.entry f]
  · rw [wroteText, resolveParent_eq hm]
    dsimp only
    rw [hm.entry f]

theorem fits_append (s : Shell) (line : Str) (f : AccountFile) :
    Fits s.vfs texts f (texts f ++ line) ↔
      s.vfs.contentBytes + Text.byteLen line ≤ maxVfsBytes := by
  rw [Fits, Text.byteLen_append]
  omega

/-- What a session of these commands keeps: it is root's, no prompt is open but one for a new
password, and the three files are there, with ended texts. -/
structure Books (s : Shell) (texts : AccountFile → Str) : Prop where
  root : s.uid = 0
  prompt : ∀ p, s.pending = some p → ∃ target first, p = .newPassword target first
  mounted : ∃ etc file, Mounted s.vfs etc file texts
  ended : ∀ f, Text.Ended (texts f)

namespace Books

variable (h : Books s texts)

include h

/-- What is read of a file is its text. -/
theorem readText_eq (f : AccountFile) : readText host s f.path = texts f := by
  obtain ⟨etc, file, hm⟩ := h.mounted
  rw [readText, hm.resolve, Option.bind_some, Node.fileBytes, hm.kind f]
  exact Text.fromUtf8Lossy_toUtf8 _

/-- **A text that fits** is what the file then holds. -/
theorem write (host : Host) (hended : Text.Ended text) (hfits : Fits s.vfs texts f text) :
    Books (writeText host s f.path text) (Function.update texts f text) ∧
      wroteText host s f.path text = true ∧
      (writeText host s f.path text).vfs.contentBytes + Text.byteLen (texts f) =
        s.vfs.contentBytes + Text.byteLen text := by
  obtain ⟨etc, file, hm⟩ := h.mounted
  obtain ⟨hwrite, hwrote⟩ := writeText_eq host hm f text
  obtain ⟨hm', hbytes⟩ := hm.write host.now hfits
  rw [hwrite, hwrote]
  refine ⟨⟨h.root, h.prompt, ⟨etc, file, hm'⟩, fun g ↦ ?_⟩, ?_, hbytes⟩
  · rcases eq_or_ne g f with rfl | hne
    · rw [Function.update_self]
      exact hended
    · rw [Function.update_of_ne hne]
      exact h.ended g
  · rw [hm.writeFile_eq, if_pos hfits]

/-- A text that does not fit changes nothing. -/
theorem write_refused (host : Host) (hfits : ¬ Fits s.vfs texts f text) :
    writeText host s f.path text = s ∧ wroteText host s f.path text = false := by
  obtain ⟨etc, file, hm⟩ := h.mounted
  obtain ⟨hwrite, hwrote⟩ := writeText_eq host hm f text
  rw [hwrite, hwrote, hm.write_refused host.now hfits]
  exact ⟨rfl, rfl⟩

/-- **A line for which there is room** is appended. -/
theorem append (host : Host) (f : AccountFile) (hline : line.getLast? = some '\n')
    (hroom : s.vfs.contentBytes + Text.byteLen line ≤ maxVfsBytes) :
    Books (appendText host s f line) (Function.update texts f (texts f ++ line)) ∧
      (appendText host s f line).vfs.contentBytes =
        s.vfs.contentBytes + Text.byteLen line := by
  rw [appendText, h.readText_eq]
  obtain ⟨hbooks, -, hbytes⟩ := h.write host (Text.Ended.append (texts f) hline)
    ((fits_append s line f).mpr hroom)
  refine ⟨hbooks, ?_⟩
  rw [Text.byteLen_append] at hbytes
  omega

/-- **A text is written or it is not**, so what holds of it and held of the old one holds. -/
theorem write_or (f : AccountFile) (host : Host) (hended : Text.Ended text) :
    ∃ texts', Books (writeText host s f.path text) texts' ∧
      (texts' = Function.update texts f text ∨ texts' = texts) := by
  by_cases hfits : Fits s.vfs texts f text
  · exact ⟨_, (h.write host hended hfits).1, .inl rfl⟩
  · rw [(h.write_refused host hfits).1]
    exact ⟨_, h, .inr rfl⟩

/-- **Looking a name up** in a file. -/
theorem isListed_iff (hname : ':' ∉ name) :
    isListed host s f name = true ↔ name ∈ Text.names (texts f) := by
  rw [isListed, h.readText_eq, List.any_eq_true, Text.names, List.mem_filterMap]
  simp only [List.isPrefixOf_iff_prefix, Text.startsWith_iff hname]

/-! ### The names after a command -/

/-- A new password leaves every line with its name. -/
theorem setShadowEntry (host : Host) (user : Str) :
    ∃ texts', Books (setShadowEntry host s user) texts' ∧
      ∀ f, Text.names (texts' f) = Text.names (texts f) := by
  have hnames : ∀ line ∈ Text.lines (texts .shadow),
      let entry := user ++ ":$6$mimic$changed:19999:0:99999:7:::".toList
      '\n' ∉ (if user ++ [':'] <+: line then entry else line) ∧
        Text.lineName (if user ++ [':'] <+: line then entry else line) = Text.lineName line := by
    intro line hline entry
    have hfeed := Text.newline_not_mem_of_mem_lines hline
    split
    · rename_i hstarts
      have hentry : user ++ [':'] <+: entry := ⟨"$6$mimic$changed:19999:0:99999:7:::".toList, by
        rw [List.append_assoc]
        rfl⟩
      refine ⟨fun hmem ↦ ?_, Text.lineName_congr hentry hstarts⟩
      obtain hmem | hmem := List.mem_append.mp hmem
      · exact hfeed (hstarts.subset (List.mem_append_left _ hmem))
      · exact absurd hmem (by decide)
    · exact ⟨hfeed, rfl⟩
  obtain ⟨texts', hbooks, htexts⟩ := h.write_or .shadow host (Text.ended_snoc
    (List.intercalate ['\n'] ((Text.lines (texts .shadow)).map fun line ↦
      if user ++ [':'] <+: line then user ++ ":$6$mimic$changed:19999:0:99999:7:::".toList
      else line)))
  refine ⟨texts', ?_, fun f ↦ ?_⟩
  · rw [Interp.setShadowEntry]
    have hread : readText host s "/etc/shadow".toList = texts .shadow := h.readText_eq .shadow
    rw [hread]
    exact hbooks
  · obtain rfl | rfl := htexts
    · rcases eq_or_ne f .shadow with rfl | hne
      · rw [Function.update_self, Text.names_rejoined, List.filterMap_map]
        · exact List.filterMap_congr fun line hline ↦ (hnames line hline).2
        · intro line hline
          obtain ⟨line', hline', rfl⟩ := List.mem_map.mp hline
          exact (hnames line' hline').1
      · rw [Function.update_of_ne hne]
    · rfl

/-- The session with other captures, other input or another prompt for a password. -/
theorem congr (hroot : t.uid = s.uid) (hvfs : t.vfs = s.vfs)
    (hprompt : ∀ p, t.pending = some p → ∃ target first, p = .newPassword target first) :
    Books t texts := by
  refine ⟨hroot.trans h.root, hprompt, ?_, h.ended⟩
  rw [hvfs]
  exact h.mounted

/-- An answer at a prompt leaves every file with its names. -/
theorem answer (host : Host) (input : Str) :
    ∃ texts', Books (resume host input s).2 texts' ∧
      ∀ f, Text.names (texts' f) = Text.names (texts f) := by
  rw [resume, bind_apply]
  show ∃ texts', Books ((set (s.withPending none) >>= _ : Run Output) s).2 texts' ∧ _
  rw [bind_apply]
  rcases hp : s.pending with - | p
  · simp only
    exact ⟨texts, h.congr rfl rfl nofun, fun _ ↦ rfl⟩
  obtain ⟨target, first, rfl⟩ := h.prompt p hp
  rcases first with - | first
  · simp only
    refine ⟨texts, h.congr rfl rfl fun p hp ↦ ?_, fun _ ↦ rfl⟩
    exact ⟨target, some input, (Option.some.inj hp).symm⟩
  · simp only
    show ∃ texts', Books ((if first ≠ input then pure _ else _ : Run Output)
      (s.withPending none)).2 texts' ∧ _
    split
    · exact ⟨texts, h.congr rfl rfl nofun, fun _ ↦ rfl⟩
    · exact (h.congr (t := (s.withPending none).pushCapture (.passwordChange target first)) rfl rfl
        nofun).setShadowEntry host target

theorem chpasswdLoop (lines : List Str) (errs : Str) (status : ℤ) :
    ∃ texts', Books (chpasswdLoop host s errs status lines).1 texts' ∧
      ∀ f, Text.names (texts' f) = Text.names (texts f) := by
  induction lines generalizing s texts errs status with
  | nil => exact ⟨texts, h, fun _ ↦ rfl⟩
  | cons line lines ih =>
    rw [Accounts.chpasswdLoop]
    dsimp only
    split
    · exact ih h errs status
    split
    · exact ih h _ _
    split
    · exact ih h _ _
    · rename_i user password _ _
      obtain ⟨texts₁, h₁, hsame₁⟩ :=
        (h.congr (t := s.pushCapture (.passwordChange user password)) rfl rfl
          h.prompt).setShadowEntry host user
      obtain ⟨texts₂, h₂, hsame₂⟩ := ih h₁ errs status
      exact ⟨texts₂, h₂, fun f ↦ (hsame₂ f).trans (hsame₁ f)⟩

theorem chpasswd (host : Host) (args : List Str) (input : Option Str) :
    ∃ texts', Books (act host (.chpasswd args input) s) texts' ∧
      ∀ f, Text.names (texts' f) = Text.names (texts f) := by
  have hstdin : Books { s with stdin := input } texts := h.congr rfl rfl h.prompt
  have hrun : ∃ texts', Books (Accounts.chpasswd host args { s with stdin := input }).1 texts' ∧
      ∀ f, Text.names (texts' f) = Text.names (texts f) := by
    rw [Accounts.chpasswd]
    dsimp only
    split
    · exact ⟨texts, hstdin, fun _ ↦ rfl⟩
    split
    · exact ⟨texts, hstdin, fun _ ↦ rfl⟩
    · exact hstdin.chpasswdLoop _ _ _
  obtain ⟨texts', hbooks, hsame⟩ := hrun
  exact ⟨texts', hbooks.congr rfl rfl hbooks.prompt, hsame⟩

theorem passwd (host : Host) (args : List Str) : Books (passwd host args s).1 texts := by
  rw [Accounts.passwd]
  split
  · exact h
  split
  · exact h
  · exact h.congr rfl rfl fun p hp ↦ ⟨_, none, (Option.some.inj hp).symm⟩

/-- `groupadd` adds at most one line, for a name that had none. -/
theorem groupadd (host : Host) (args : List Str)
    (hclean : ∀ name, operand args = some name → ':' ∉ name ∧ '\n' ∉ name) :
    ∃ texts', Books (groupadd host args s).1 texts' ∧ ∀ f,
      Text.names (texts' f) = Text.names (texts f) ∨
        ∃ name, name ∉ Text.names (texts f) ∧
          Text.names (texts' f) = Text.names (texts f) ++ [name] := by
  have hsame : ∃ texts', Books s texts' ∧ ∀ f, Text.names (texts' f) = Text.names (texts f) ∨
      ∃ name, name ∉ Text.names (texts f) ∧
        Text.names (texts' f) = Text.names (texts f) ++ [name] := ⟨texts, h, fun _ ↦ .inl rfl⟩
  rw [Accounts.groupadd, if_neg (not_not.mpr h.root)]
  split
  · exact hsame
  rename_i name hname
  split
  · exact hsame
  rename_i hunlisted
  obtain ⟨hcolon, hfeed⟩ := hclean name hname
  have hnew : name ∉ Text.names (texts .group) := fun hmem ↦
    hunlisted ((h.isListed_iff hcolon).mpr hmem)
  have hentry : Text.names (name ++ ':' :: "x:1001:".toList ++ ['\n']) = [name] := by
    rw [Text.names_line, Text.lineName_append hcolon]
    · rfl
    · intro hmem
      obtain hmem | hmem := List.mem_append.mp hmem
      · exact hfeed hmem
      · exact absurd hmem (by decide)
  rw [appendText, h.readText_eq]
  obtain ⟨texts', hbooks, rfl | rfl⟩ := h.write_or .group host
    (Text.Ended.append (texts .group) (show (name ++ ':' :: "x:1001:".toList ++ ['\n']).getLast? =
      some '\n' from List.getLast?_concat))
  · refine ⟨_, hbooks, fun f ↦ ?_⟩
    rcases eq_or_ne f .group with rfl | hne
    · rw [Function.update_self, Text.names_append (h.ended _), hentry]
      exact .inr ⟨name, hnew, rfl⟩
    · rw [Function.update_of_ne hne]
      exact .inl rfl
  · exact ⟨_, hbooks, fun _ ↦ .inl rfl⟩

/-- `userdel` takes the lines of a name that `/etc/passwd` has out of it, and changes no other
file. -/
theorem userdel (host : Host) (args : List Str) :
    ∃ texts', Books (userdel host args s).1 texts' ∧
      (∀ f, (Text.names (texts' f)).Sublist (Text.names (texts f))) ∧
      texts' .shadow = texts .shadow ∧
      ((userdel host args s).2.status = 0 ↔
        ∃ name, operand args = some name ∧ isListed host s .passwd name = true) ∧
      ((userdel host args s).2.status = 0 → ∀ name, operand args = some name →
        name ∉ Text.names (texts' .passwd)) := by
  rw [Accounts.userdel, if_neg (not_not.mpr h.root)]
  rcases hname : operand args with - | name
  · exact ⟨texts, h, fun _ ↦ .refl _, rfl, iff_of_false nofun (by rintro ⟨_, ⟨⟩, _⟩), nofun⟩
  dsimp only
  split
  · rename_i hunlisted
    refine ⟨texts, h, fun _ ↦ .refl _, rfl, iff_of_false nofun ?_, nofun⟩
    rintro ⟨_, ⟨⟩, hlisted⟩
    rw [hlisted] at hunlisted
    cases hunlisted
  rename_i hlisted
  rw [Bool.not_eq_true', Bool.not_eq_false] at hlisted
  rw [h.readText_eq]
  set kept := (Text.lines (texts .passwd)).filter fun line ↦ !(name ++ [':']).isPrefixOf line
    with hkept
  have hsub : kept.Sublist (Text.lines (texts .passwd)) := List.filter_sublist
  have hne : texts .passwd ≠ [] := by
    intro hnil
    rw [isListed, h.readText_eq, hnil] at hlisted
    cases hlisted
  -- what is left is not longer, so there is room for it
  have hfits : Fits s.vfs texts .passwd (List.intercalate ['\n'] kept ++ ['\n']) := by
    obtain ⟨etc, file, hm⟩ := h.mounted
    have hle := Text.byteLen_le_of_sublist (Text.rejoined_sublist (h.ended _) hne hsub)
    have hcap := hm.funded.capped
    rw [Fits]
    omega
  obtain ⟨hbooks, -, -⟩ := h.write host (Text.ended_snoc _) hfits
  have hnames : Text.names (List.intercalate ['\n'] kept ++ ['\n']) =
    kept.filterMap Text.lineName :=
    Text.names_rejoined fun line hline ↦ Text.newline_not_mem_of_mem_lines (hsub.subset hline)
  refine ⟨_, hbooks, fun f ↦ ?_, Function.update_of_ne (by decide) _ _,
    iff_of_true rfl ⟨name, rfl, hlisted⟩, fun _ name' hname' ↦ ?_⟩
  · rcases eq_or_ne f .passwd with rfl | hne
    · rw [Function.update_self, hnames]
      exact hsub.filterMap _
    · rw [Function.update_of_ne hne]
  · obtain rfl := Option.some.inj hname'
    rw [Function.update_self, hnames]
    intro hmem
    obtain ⟨line, hline, hlineName⟩ := List.mem_filterMap.mp hmem
    rw [← Text.startsWith_iff (Text.lineName_eq_some hlineName).1,
      ← List.isPrefixOf_iff_prefix] at hlineName
    rw [hkept, List.mem_filter, hlineName] at hline
    exact Bool.false_ne_true hline.2

end Books

section Useradd

variable {options : UseraddArgs}

theorem names_entry_passwd (hcolon : ':' ∉ name) (hfeed : '\n' ∉ name) :
    Text.names (options.entry name .passwd) = name :: Text.furtherNames options.loginShell := by
  refine Text.names_entry ?_ hcolon
  have hdecimal : '\n' ∉ Text.decimal options.uid.toNat := fun hmem ↦
    absurd (Text.isDigit_of_mem_decimal hmem) (by decide)
  show '\n' ∉ name ++ ':' :: ("x:".toList ++ Text.decimal options.uid.toNat ++ [':'] ++
    Text.decimal options.uid.toNat ++ "::/home/".toList ++ name ++ [':'])
  simp [hfeed, hdecimal]

theorem names_entry_other (hcolon : ':' ∉ name) (hfeed : '\n' ∉ name) (hf : f ≠ .passwd) :
    Text.names (options.entry name f) = [name] := by
  have hdecimal : '\n' ∉ Text.decimal options.uid.toNat := fun hmem ↦
    absurd (Text.isDigit_of_mem_decimal hmem) (by decide)
  cases f with
  | passwd => exact absurd rfl hf
  | group =>
    rw [UseraddArgs.entry, Text.names_line (by simp [hfeed, hdecimal]), Text.lineName_append hcolon]
    rfl
  | shadow =>
    rw [UseraddArgs.entry, Text.names_line (by simp [hfeed]), Text.lineName_append hcolon]
    rfl

theorem ended_entry (options : UseraddArgs) (name : Str) (f : AccountFile) :
    (options.entry name f).getLast? = some '\n' := by
  cases f <;> exact List.getLast?_concat

/-- What lets `useradd` enter a name that `/etc/passwd` has not: the other files have not got it
either, there is room for all three lines, and the login shell has no line feeds behind which it
would enter names that are there. -/
structure Enters (v : Vfs) (listed : AccountFile → List Str) (options : UseraddArgs) (name : Str) :
    Prop where
  group : name ∉ listed .group
  shadow : name ∉ listed .shadow
  room : v.contentBytes + Text.byteLen (options.entry name .passwd) +
    Text.byteLen (options.entry name .group) + Text.byteLen (options.entry name .shadow) ≤
      maxVfsBytes
  further : (Text.furtherNames options.loginShell).Nodup
  further_new : ∀ other ∈ Text.furtherNames options.loginShell,
    other ≠ name ∧ other ∉ listed .passwd

/-- The names in each file with a line for `name` behind it. -/
theorem names_entered (hcolon : ':' ∉ name) (hfeed : '\n' ∉ name)
    (hended : ∀ f, Text.Ended (texts f)) (hnodup : ∀ f, (Text.names (texts f)).Nodup)
    (hpasswd : name ∉ Text.names (texts .passwd))
    (henters : Enters v (fun f ↦ Text.names (texts f)) options name) (f : AccountFile) :
    (Text.names (texts f ++ options.entry name f)).Nodup ∧
      (Text.names (texts f ++ options.entry name f)).count name = 1 := by
  have hnew : name ∉ Text.names (texts f) := by
    cases f with
    | passwd => exact hpasswd
    | group => exact henters.group
    | shadow => exact henters.shadow
  rw [Text.names_append (hended f)]
  rcases eq_or_ne f .passwd with rfl | hne
  · rw [names_entry_passwd hcolon hfeed]
    have hfurther : name ∉ Text.furtherNames options.loginShell := fun hmem ↦
      (henters.further_new name hmem).1 rfl
    refine ⟨List.nodup_append.mpr ⟨hnodup _, List.nodup_cons.mpr ⟨hfurther, henters.further⟩,
      fun a ha b hb ↦ ?_⟩, ?_⟩
    · rintro rfl
      obtain rfl | hb := List.mem_cons.mp hb
      · exact hnew ha
      · exact (henters.further_new a hb).2 ha
    · rw [List.count_append, List.count_eq_zero_of_not_mem hnew, List.count_cons_self,
        List.count_eq_zero_of_not_mem hfurther]
  · rw [names_entry_other hcolon hfeed hne]
    refine ⟨List.nodup_append.mpr ⟨hnodup _, List.nodup_singleton _, fun a ha b hb ↦ ?_⟩, ?_⟩
    · rintro rfl
      obtain rfl := List.mem_singleton.mp hb
      exact hnew ha
    · rw [List.count_append, List.count_eq_zero_of_not_mem hnew, List.count_singleton_self]

/-- **`useradd`** enters its name once in each file, if there is nothing in its way. -/
theorem Books.useradd (h : Books s texts) (hnodup : ∀ f, (Text.names (texts f)).Nodup)
    (host : Host) (args : List Str)
    (hclean : ∀ name, (UseraddArgs.default.parse args).name = some name → ':' ∉ name ∧ '\n' ∉ name)
    (hmeets : ∀ name, (UseraddArgs.default.parse args).name = some name →
      name ∉ Text.names (texts .passwd) →
      s.vfs.contentBytes + Text.byteLen ((UseraddArgs.default.parse args).entry name .passwd) ≤
        maxVfsBytes →
      Enters s.vfs (fun f ↦ Text.names (texts f)) (UseraddArgs.default.parse args) name) :
    ∃ texts', Books (useradd host args s).1 texts' ∧ (∀ f, (Text.names (texts' f)).Nodup) ∧
      ((useradd host args s).2.status = 0 → ∀ name,
        (UseraddArgs.default.parse args).name = some name →
        ∀ f, (Text.names (texts' f)).count name = 1) := by
  rw [Accounts.useradd, if_neg (not_not.mpr h.root)]
  generalize UseraddArgs.default.parse args = options at hclean hmeets ⊢
  dsimp only
  split
  · exact ⟨texts, h, hnodup, nofun⟩
  rename_i name hname
  obtain ⟨hcolon, hfeed⟩ := hclean name hname
  split
  · exact ⟨texts, h, hnodup, nofun⟩
  rename_i hunlisted
  have hnew : name ∉ Text.names (texts .passwd) := fun hmem ↦
    hunlisted ((h.isListed_iff hcolon).mpr hmem)
  rw [h.readText_eq]
  by_cases hroom : s.vfs.contentBytes + Text.byteLen (options.entry name .passwd) ≤ maxVfsBytes
  swap
  · -- the first write is refused, and reported
    obtain ⟨hwrite, hwrote⟩ := h.write_refused host (mt (fits_append s _ .passwd).mp hroom)
    rw [hwrite, hwrote]
    exact ⟨texts, h, hnodup, nofun⟩
  have henters := hmeets name hname hnew hroom
  have hcap := henters.room
  obtain ⟨h₁, hwrote, hbytes₁⟩ := h.write host
    (Text.Ended.append (texts .passwd) (ended_entry options name .passwd))
    ((fits_append s _ .passwd).mpr hroom)
  rw [Text.byteLen_append] at hbytes₁
  obtain ⟨h₂, hbytes₂⟩ := h₁.append host .group (ended_entry options name .group) (by omega)
  obtain ⟨h₃, -⟩ := h₂.append host .shadow (ended_entry options name .shadow) (by omega)
  have htexts : Function.update (Function.update (Function.update texts .passwd
      (texts .passwd ++ options.entry name .passwd)) .group (texts .group ++
        options.entry name .group)) .shadow (texts .shadow ++ options.entry name .shadow) =
      fun f ↦ texts f ++ options.entry name f := funext fun f ↦ by cases f <;> rfl
  have hentered : Books _ fun f ↦ texts f ++ options.entry name f := htexts ▸ h₃
  have hnames := names_entered hcolon hfeed h.ended hnodup hnew henters
  have hone : ∀ name', options.name = some name' → ∀ f,
      (Text.names (texts f ++ options.entry name f)).count name' = 1 := fun name' hname' f ↦ by
    obtain rfl := Option.some.inj (hname.symm.trans hname')
    exact (hnames f).2
  rw [hwrote, if_neg (by simp)]
  split
  · obtain ⟨etc, file, hm⟩ := hentered.mounted
    exact ⟨_, ⟨hentered.root, hentered.prompt, ⟨etc, file, hm.mkdirP _ _ _ _ _⟩, hentered.ended⟩,
      fun f ↦ (hnames f).1, fun _ ↦ hone⟩
  · exact ⟨_, hentered, fun f ↦ (hnames f).1, fun _ ↦ hone⟩

end Useradd

/-! ### Sessions -/

/-- Whom a file has lines for. -/
def listed (host : Host) (s : Shell) (f : AccountFile) : List Str :=
  Text.names (readText host s f.path)

/-- Each file has at most one line for a name. -/
def Consistent (host : Host) (s : Shell) : Prop := ∀ f, (listed host s f).Nodup

/-- The names a step enters have no `:` and no line feed. -/
def Step.Clean : Step → Prop
  | .useradd args =>
    ∀ name, (UseraddArgs.default.parse args).name = some name → ':' ∉ name ∧ '\n' ∉ name
  | .groupadd args => ∀ name, operand args = some name → ':' ∉ name ∧ '\n' ∉ name
  | _ => True

/-- What is expected of a step: it keeps the database consistent, `useradd` enters its name in each
file, and `userdel` leaves it in neither of the two it is about. -/
def Leaves (host : Host) (step : Step) (s : Shell) : Prop :=
  Consistent host (act host step s) ∧
    match step with
    | .useradd args => (useradd host args s).2.status = 0 → ∀ name,
      (UseraddArgs.default.parse args).name = some name →
      ∀ f, (listed host (useradd host args s).1 f).count name = 1
    | .userdel args => (userdel host args s).2.status = 0 → ∀ name, operand args = some name →
      name ∉ listed host (userdel host args s).1 .passwd ∧
        name ∉ listed host (userdel host args s).1 .shadow
    | _ => True

/-- When a step does what is expected of it. -/
def Meets (host : Host) : Step → Shell → Prop
  | .useradd args, s => ∀ name, (UseraddArgs.default.parse args).name = some name →
    name ∉ listed host s .passwd →
    s.vfs.contentBytes + Text.byteLen ((UseraddArgs.default.parse args).entry name .passwd) ≤
      maxVfsBytes →
    Enters s.vfs (listed host s) (UseraddArgs.default.parse args) name
  | .userdel args, s => ∀ name, operand args = some name → name ∈ listed host s .passwd →
    name ∉ listed host s .shadow
  | _, _ => True

/-- The database is in order. -/
def Kept (s : Shell) : Prop :=
  ∃ texts, Books s texts ∧ ∀ f, (Text.names (texts f)).Nodup

theorem Books.listed_eq (h : Books s texts) (f : AccountFile) :
    listed host s f = Text.names (texts f) := by
  rw [listed, h.readText_eq]

theorem Kept.consistent (h : Kept s) : Consistent host s := by
  obtain ⟨texts, hbooks, hnodup⟩ := h
  intro f
  rw [hbooks.listed_eq]
  exact hnodup f

/-- **One step.** -/
theorem act_kept (step : Step) (hclean : step.Clean) (hmeets : Meets host step s) (h : Kept s) :
    Kept (act host step s) ∧ Leaves host step s := by
  obtain ⟨texts, hbooks, hnodup⟩ := h
  have hlisted : listed host s = fun f ↦ Text.names (texts f) := funext hbooks.listed_eq
  have hsame : ∀ {t : Shell} {texts' : AccountFile → Str}, Books t texts' →
      (∀ f, Text.names (texts' f) = Text.names (texts f)) → Kept t := fun hbooks' hnames ↦
    ⟨_, hbooks', fun f ↦ hnames f ▸ hnodup f⟩
  cases step with
  | useradd args =>
    rw [Meets, hlisted] at hmeets
    obtain ⟨texts', hbooks', hnodup', hone⟩ := hbooks.useradd hnodup host args hclean hmeets
    have hkept : Kept (act host (.useradd args) s) := ⟨texts', hbooks', hnodup'⟩
    refine ⟨hkept, hkept.consistent, fun hstatus name hname f ↦ ?_⟩
    rw [hbooks'.listed_eq]
    exact hone hstatus name hname f
  | userdel args =>
    rw [Meets, hlisted] at hmeets
    obtain ⟨texts', hbooks', hsub, hshadow, hexit, hgone⟩ := hbooks.userdel host args
    have hkept : Kept (act host (.userdel args) s) :=
      ⟨texts', hbooks', fun f ↦ (hnodup f).sublist (hsub f)⟩
    refine ⟨hkept, hkept.consistent, fun hstatus name hname ↦ ?_⟩
    rw [hbooks'.listed_eq, hbooks'.listed_eq, hshadow]
    refine ⟨hgone hstatus name hname, fun hmem ↦ ?_⟩
    obtain ⟨name', hname', hlisted⟩ := hexit.mp hstatus
    obtain rfl := Option.some.inj (hname.symm.trans hname')
    exact hmeets name hname ((hbooks.isListed_iff (Text.colon_not_mem_of_mem_names hmem)).mp
      hlisted)
      hmem
  | groupadd args =>
    obtain ⟨texts', hbooks', hnames⟩ := hbooks.groupadd host args hclean
    have hkept : Kept (act host (.groupadd args) s) := by
      refine ⟨texts', hbooks', fun f ↦ ?_⟩
      obtain hsame | ⟨name, hnew, hadded⟩ := hnames f
      · rw [hsame]
        exact hnodup f
      · rw [hadded]
        exact List.nodup_append.mpr ⟨hnodup f, List.nodup_singleton _, fun a ha b hb ↦ by
          rintro rfl
          exact hnew (List.mem_singleton.mp hb ▸ ha)⟩
    exact ⟨hkept, hkept.consistent, trivial⟩
  | chpasswd args input =>
    obtain ⟨texts', hbooks', hnames⟩ := hbooks.chpasswd host args input
    exact ⟨hsame hbooks' hnames, (hsame hbooks' hnames).consistent, trivial⟩
  | passwd args =>
    have hkept := hsame (hbooks.passwd host args) fun _ ↦ rfl
    exact ⟨hkept, hkept.consistent, trivial⟩
  | answer input =>
    obtain ⟨texts', hbooks', hnames⟩ := hbooks.answer host input
    exact ⟨hsame hbooks' hnames, (hsame hbooks' hnames).consistent, trivial⟩

/-! ### From the boot -/

/-- The lines of the files as the snapshot has them, each cut at its first `:`. -/
def bootLines : AccountFile → List (String × String)
  | .passwd => [("root", "x:0:0:root:/root:/bin/bash"),
    ("daemon", "x:1:1:daemon:/usr/sbin:/usr/sbin/nologin"),
    ("bin", "x:2:2:bin:/bin:/usr/sbin/nologin"), ("sys", "x:3:3:sys:/dev:/usr/sbin/nologin"),
    ("sync", "x:4:65534:sync:/bin:/bin/sync"),
    ("games", "x:5:60:games:/usr/games:/usr/sbin/nologin"),
    ("man", "x:6:12:man:/var/cache/man:/usr/sbin/nologin"),
    ("lp", "x:7:7:lp:/var/spool/lpd:/usr/sbin/nologin"),
    ("mail", "x:8:8:mail:/var/mail:/usr/sbin/nologin"),
    ("news", "x:9:9:news:/var/spool/news:/usr/sbin/nologin"),
    ("www-data", "x:33:33:www-data:/var/www:/usr/sbin/nologin"),
    ("backup", "x:34:34:backup:/var/backups:/usr/sbin/nologin"),
    ("nobody", "x:65534:65534:nobody:/nonexistent:/usr/sbin/nologin"),
    ("sshd", "x:100:65534::/run/sshd:/usr/sbin/nologin"),
    ("user", "x:1000:1000:user,,,:/home/user:/bin/bash")]
  | .group => [("root", "x:0:"), ("daemon", "x:1:"), ("bin", "x:2:"), ("sys", "x:3:"),
    ("adm", "x:4:"), ("tty", "x:5:"), ("disk", "x:6:"), ("sudo", "x:27:user"),
    ("www-data", "x:33:"), ("ssh", "x:114:"), ("user", "x:1000:")]
  | .shadow => [("root", "!:19000:0:99999:7:::"), ("daemon", "*:19000:0:99999:7:::"),
    ("sshd", "!:19000:0:99999:7:::"),
    ("user", "$6$rounds=656000$D1G7H204ckii$Abjn5s.euB1Z/rC2tdRk8fQxF5ucdtUgVpg.H.tPzMNktyVxhqoAcl" ++
      "DrdXCw29WpcY68HNAlSzrJwXX1kX/PvS:19000:0:99999:7:::")]

/-- The files as the snapshot has them. -/
def bootText (f : AccountFile) : Str :=
  (bootLines f).flatMap fun line ↦ line.1.toList ++ ':' :: line.2.toList ++ ['\n']

theorem bootText_eq (f : AccountFile) : bootText f = List.intercalate ['\n']
    ((bootLines f).map fun line ↦ line.1.toList ++ ':' :: line.2.toList) ++ ['\n'] := by
  have hne : bootLines f ≠ [] := by cases f <;> exact List.cons_ne_nil _ _
  rw [Text.rejoined_eq fun hnil ↦ hne (List.map_eq_nil_iff.mp hnil), List.flatMap_map]
  rfl

theorem ended_bootText (f : AccountFile) : Text.Ended (bootText f) := by
  rw [bootText_eq]
  exact Text.ended_snoc _

/-- The files are short, and their lines are lines. -/
theorem bootText_plain (f : AccountFile) : Text.byteLen (bootText f) ≤ 1000 ∧
    ((bootLines f).all fun line ↦ decide (':' ∉ line.1.toList) &&
      decide ('\n' ∉ line.1.toList ++ ':' :: line.2.toList)) = true := by
  cases f <;> decide +kernel

/-- The names of the snapshot are those in front of the `:`. -/
theorem names_bootText (f : AccountFile) :
    Text.names (bootText f) = (bootLines f).map fun line ↦ line.1.toList := by
  have hplain := (bootText_plain f).2
  simp only [List.all_eq_true, Bool.and_eq_true, decide_eq_true_eq] at hplain
  rw [bootText_eq, Text.names_rejoined]
  · rw [List.filterMap_map, ← List.filterMap_eq_map]
    exact List.filterMap_congr fun line hline ↦ Text.lineName_append (hplain line hline).1 _
  · intro line hline
    obtain ⟨pair, hpair, rfl⟩ := List.mem_map.mp hline
    exact (hplain pair hpair).2

theorem nodup_bootText (f : AccountFile) : (Text.names (bootText f)).Nodup := by
  rw [names_bootText]
  cases f <;> decide +kernel

/-- A session of root on the box as installed. -/
structure Booted (s : Shell) : Prop where
  root : s.uid = 0
  prompt : s.pending = none
  mounted : ∃ etc file, Mounted s.vfs etc file bootText

theorem Booted.books (h : Booted s) : Books s bootText := by
  refine ⟨h.root, fun p hp ↦ ?_, h.mounted, ended_bootText⟩
  rw [h.prompt] at hp
  cases hp

theorem Booted.kept (h : Booted s) : Kept s := ⟨bootText, h.books, nodup_bootText⟩

/-- Whom the files have lines for after the boot. -/
theorem Booted.listed_eq (h : Booted s) (f : AccountFile) :
    listed host s f = (bootLines f).map fun line ↦ line.1.toList := by
  rw [h.books.listed_eq, names_bootText]

/-- What `snapshot::build` makes of these files, on a filesystem with nothing else. -/
def snapshot (now : Timestamp) (texts : AccountFile → Str) : Vfs :=
  let made := (Vfs.new now).mkdir now 0 "etc".toList 0o755 0 0
  let v := (made.1.addFile now made.2 "passwd".toList (Text.toUtf8 (texts .passwd)) 0o644 0 0).1
  let v := (v.addFile now made.2 "group".toList (Text.toUtf8 (texts .group)) 0o644 0 0).1
  (v.addFile now made.2 "shadow".toList (Text.toUtf8 (texts .shadow)) 0o640 0 42).1

/-- The nodes of the files in it. -/
def snapshotFile : AccountFile → NodeId
  | .passwd => 2
  | .group => 3
  | .shadow => 4

/-- A new file for which there is room. -/
theorem addFile_fresh (now : Timestamp) (name : Str) (contents : Bytes) (perms uid gid : UInt32)
    {parent : NodeId} (hv : v.Funded) (hp : parent < v.nodes.length)
    (hnone : v.child parent name = none)
    (hfull : v.isFull parent = false) (hroom : v.contentBytes + contents.length ≤ maxVfsBytes) :
    (v.addFile now parent name contents perms uid gid).1 =
        { v.graft parent name (.file contents) (Metadata.new now sIfReg perms uid gid) with
          contentBytes := v.contentBytes + contents.length } ∧
      (v.addFile now parent name contents perms uid gid).1.Funded := by
  have hcrowded : ¬ v.Crowded parent name contents := by
    rintro (hbytes | ⟨-, hfull'⟩)
    · rw [hnone] at hbytes
      exact absurd hbytes (not_lt.mpr hroom)
    · rw [hfull] at hfull'
      cases hfull'
  constructor
  · rw [Vfs.addFile_eq_of_none now perms uid gid hp hcrowded hnone]
  · exact Vfs.Call.funded (.mutator (.addFile now parent name contents perms uid gid))
      (by simpa [Vfs.Call.InRange, Vfs.Mutator.ids] using hp) hv

theorem mounted_snapshot (now : Timestamp) (texts : AccountFile → Str)
    (hlen : ∀ f, Text.byteLen (texts f) ≤ 1000) :
    Mounted (snapshot now texts) 1 snapshotFile texts ∧
      (snapshot now texts).contentBytes ≤ 3000 := by
  have hfits : ∀ f, (Text.toUtf8 (texts f)).length ≤ 1000 := fun f ↦ by
    rw [Text.length_toUtf8]
    exact hlen f
  have hcap : maxVfsBytes = 8388608 := rfl
  have hetc : (Vfs.new now).mkdir now 0 "etc".toList 0o755 0 0 =
    ((Vfs.new now).graftDir (Metadata.new now sIfDir 0o755 0 0) 0 "etc".toList, 1) := rfl
  have hfunded : ((Vfs.new now).mkdir now 0 "etc".toList 0o755 0 0).1.Funded :=
    Vfs.Call.funded (.mutator (.mkdir now 0 "etc".toList 0o755 0 0))
      (fun id hid ↦ by obtain rfl := List.mem_singleton.mp hid; exact Nat.zero_lt_one)
      (Vfs.funded_new now)
  rw [hetc] at hfunded
  have hpasswd := hfits .passwd
  have hgroup := hfits .group
  have hshadow := hfits .shadow
  -- each file is entered behind the ones before it
  obtain ⟨h₁, hfunded₁⟩ := addFile_fresh now "passwd".toList (Text.toUtf8 (texts .passwd))
    0o644 0 0 hfunded Nat.one_lt_two rfl rfl (by show 0 + _ ≤ _; omega)
  rw [h₁] at hfunded₁
  obtain ⟨h₂, hfunded₂⟩ := addFile_fresh now "group".toList (Text.toUtf8 (texts .group))
    0o644 0 0 hfunded₁ (show 1 < 3 by decide) rfl rfl (by show 0 + _ + _ ≤ _; omega)
  rw [h₂] at hfunded₂
  obtain ⟨h₃, hfunded₃⟩ := addFile_fresh now "shadow".toList (Text.toUtf8 (texts .shadow))
    0o640 0 42 hfunded₂ (show 1 < 4 by decide) rfl rfl (by show 0 + _ + _ + _ ≤ _; omega)
  rw [h₃] at hfunded₃
  rw [snapshot, hetc]
  dsimp only
  rw [h₁, h₂, h₃]
  refine ⟨⟨hfunded₃, rfl, fun f ↦ ?_, fun f ↦ ?_⟩, ?_⟩
  · cases f <;> rfl
  · cases f <;> rfl
  · show 0 + _ + _ + _ ≤ _
    omega

/-- **The account database stays consistent** in a session from the boot, as long as no step is one
of these: `userdel` of a name that `/etc/shadow` has; `useradd` of a new name that `/etc/group` or
`/etc/shadow` has, or for which only the first of the three lines has room, or with a login shell
that goes on with lines for names that are there. -/
theorem accounts_consistent (host : Host) (s : Shell) (steps : List Step) (hboot : Booted s)
    (hclean : ∀ step ∈ steps, step.Clean) (h : Admissible (act host) (Meets host) s steps) :
    Admissible (act host) (Leaves host) s steps := by
  have hguarded : Admissible (act host) (fun step s ↦ step.Clean ∧ Meets host step s) s steps :=
    h.and_forall hclean
  refine hguarded.mono (I := Kept) ?_ ?_ hboot.kept
  · exact fun step _ hstep hkept ↦ (act_kept step hstep.1 hstep.2 hkept).1
  · exact fun step _ hstep hkept ↦ (act_kept step hstep.1 hstep.2 hkept).2

/-- Root's session on a filesystem. -/
def Shell.over (v : Vfs) : Shell := { Shell.bare with vfs := v }

@[simp] theorem Shell.vfs_over (v : Vfs) : (Shell.over v).vfs = v := rfl

theorem booted_over (h : Mounted v etc file bootText) : Booted (Shell.over v) :=
  ⟨rfl, rfl, etc, file, h⟩

theorem booted_snapshot : Booted (Shell.over (snapshot 0 bootText)) :=
  booted_over (mounted_snapshot 0 bootText fun f ↦ (bootText_plain f).1).1

/-- `useradd bob`, `passwd bob` with its two answers, and `groupadd wheel`. -/
theorem accounts_consistent_bob : Admissible (act bareHost) (Leaves bareHost)
    (Shell.over (snapshot 0 bootText)) [.useradd ["bob".toList], .passwd ["bob".toList],
      .answer ['s'], .answer ['s'], .groupadd ["wheel".toList]] := by
  have hparse : UseraddArgs.default.parse ["bob".toList] =
      ⟨"/bin/sh".toList, 1001, false, some "bob".toList⟩ := by decide
  refine accounts_consistent bareHost _ _ booted_snapshot ?_
    ⟨?_, trivial, trivial, trivial, trivial, trivial⟩
  · simp only [List.forall_mem_cons, Step.Clean, hparse, true_and]
    refine ⟨fun name hname ↦ ?_, fun name hname ↦ ?_, nofun⟩
    · obtain rfl := Option.some.inj hname
      decide
    · obtain rfl : "wheel".toList = name := by simpa [operand] using hname
      decide
  · rw [Meets, hparse]
    intro name hname _ _
    obtain rfl := Option.some.inj hname
    have hbytes := (mounted_snapshot 0 bootText fun f ↦ (bootText_plain f).1).2
    have hcap : maxVfsBytes = 8388608 := rfl
    have hentries : ∀ f, Text.byteLen (UseraddArgs.entry
        ⟨"/bin/sh".toList, 1001, false, some "bob".toList⟩ "bob".toList f) ≤ 100 := fun f ↦ by
      cases f <;> decide +kernel
    have hpasswd := hentries .passwd
    have hgroup := hentries .group
    have hshadow := hentries .shadow
    constructor
    · rw [booted_snapshot.listed_eq]
      decide +kernel
    · rw [booted_snapshot.listed_eq]
      decide +kernel
    · rw [Shell.vfs_over]
      omega
    · decide
    · rw [Text.furtherNames_of_not_mem (by decide)]
      nofun

/-- `userdel user` leaves the line of `user` in `/etc/shadow`. -/
theorem userdel_leaves_shadow : Booted (Shell.over (snapshot 0 bootText)) ∧
    (∀ step ∈ [Step.userdel ["user".toList]], step.Clean) ∧
    ¬ Admissible (act bareHost) (Leaves bareHost) (Shell.over (snapshot 0 bootText))
      [.userdel ["user".toList]] := by
  refine ⟨booted_snapshot, by simp [Step.Clean], fun hleaves ↦ ?_⟩
  have hbooks := booted_snapshot.books
  obtain ⟨texts, hbooks', -, hshadow, hexit, -⟩ := hbooks.userdel bareHost ["user".toList]
  have hlisted :
      isListed bareHost (Shell.over (snapshot 0 bootText)) .passwd "user".toList = true := by
    rw [hbooks.isListed_iff (by decide), names_bootText]
    decide +kernel
  have hgone := (hleaves.1.2 (hexit.mpr ⟨_, rfl, hlisted⟩) "user".toList rfl).2
  rw [hbooks'.listed_eq, hshadow, names_bootText] at hgone
  exact hgone (by decide +kernel)

end Accounts

end Interp

end Mimic
