import Mimic.Commands.Tar
import Mimic.Vfs.Placement

/-!
# The commands on files

`touch`, `mkdir`, `rmdir`, `rm`, `cp`, `mv` and `ln` of `commands/fs.rs`. Each goes through its
operands and collects what it has to complain about, and a complaint makes the exit status 1
(`Progress`).

A command that is given one thing to work on and fails leaves the filesystem as it was. The one
exception is `ln -sf`: it removes the entry that is in its way before it knows that there is room
for the link (`intact_iff`).
-/

namespace Mimic

namespace Interp

namespace Files

open Vfs Tar

/-- How far a command has come: the session, what it has complained about, and its exit status. -/
structure Progress where
  shell : Shell
  out : Str
  status : ℤ

namespace Progress

/-- Before the first operand. -/
def start (s : Shell) : Progress := ⟨s, [], 0⟩

/-- Complain. -/
def fail (p : Progress) (message : Str) : Progress :=
  { p with out := p.out ++ message, status := 1 }

/-- Change the filesystem. -/
def setVfs (p : Progress) (v : Vfs) : Progress := { p with shell := { p.shell with vfs := v } }

/-- `finish`: these commands say nothing on success, so everything collected is stderr. -/
def finish (p : Progress) : Shell × CommandResult := (p.shell, .err p.out p.status)

end Progress

/-- `command: what 'path': why`, and the end of the line. -/
def complaint (what : String) (path : Str) (why : String) : Str :=
  what.toList ++ " '".toList ++ path ++ "': ".toList ++ why.toList ++ ['\n']

/-- What is reported for a command line without the operands it needs. -/
def misses (command what : String) : CommandResult :=
  .err (command ++ ": missing " ++ what ++ "\nTry '" ++ command ++
    " --help' for more information.\n").toList 1

/-- An option of several letters behind one dash, or of one. -/
def isBundle (arg : Str) : Bool :=
  arg.head? = some '-' && decide (1 < Text.byteLen arg) && arg.take 2 ≠ ['-', '-']

/-- Anything that starts with a dash and is not just one. -/
def isOption (arg : Str) : Bool := arg.head? = some '-' && decide (1 < Text.byteLen arg)

/-- The basename of a path operand. -/
def basename (path : Str) : Str := (splitPath (stripTrailingSlashes path)).2

variable (now : Timestamp)

/-! ### Creating -/

/-- The options and operands of `touch`. -/
structure TouchArgs where
  noCreate : Bool
  operands : List Str
  deriving DecidableEq

/-- The loop of `touch` over its arguments. -/
def TouchArgs.parse (o : TouchArgs) : List Str → TouchArgs
  | [] => o
  | arg :: args =>
    if arg = "-c".toList ∨ arg = "--no-create".toList then parse { o with noCreate := true } args
    else if arg = "-r".toList ∨ arg = "--reference".toList ∨ arg = "-d".toList ∨
        arg = "--date".toList ∨ arg = "-t".toList then
      -- options that take a following value
      match args with
      | [] => o
      | _ :: args => parse o args
    else if arg = "-a".toList ∨ arg = "-m".toList ∨ arg = "--time".toList then parse o args
    else if isBundle arg then parse o args
    else parse { o with operands := o.operands ++ [arg] } args

/-- One operand of `touch`. -/
def touchOne (noCreate : Bool) (p : Progress) (path : Str) : Progress :=
  let v := p.shell.vfs
  match resolveParent p.shell path with
  | none => p.fail (complaint "touch: cannot touch" path "No such file or directory")
  | some (parent, name) =>
    if noCreate ∧ v.child parent name = none then p
    else if v.child parent name = none ∧ v.isFull parent = true then
      p.fail (complaint "touch: cannot touch" path "No space left on device")
    else p.setVfs (v.touch now parent name p.shell.uid p.shell.gid).1

/-- `touch [OPTION]... FILE...` -/
def touch (args : List Str) (s : Shell) : Shell × CommandResult :=
  let o := TouchArgs.parse ⟨false, []⟩ args
  if o.operands = [] then (s, misses "touch" "file operand")
  else (o.operands.foldl (touchOne now o.noCreate) (.start s)).finish

/-- The options and operands of `mkdir`. -/
structure MkdirArgs where
  parents : Bool
  operands : List Str
  deriving DecidableEq

/-- The loop of `mkdir` over its arguments. -/
def MkdirArgs.parse (o : MkdirArgs) : List Str → MkdirArgs
  | [] => o
  | arg :: args =>
    if arg = "-p".toList ∨ arg = "--parents".toList then parse { o with parents := true } args
    else if arg = "-v".toList ∨ arg = "--verbose".toList then parse o args
    else if arg = "-m".toList ∨ arg = "--mode".toList then
      match args with
      | [] => o
      | _ :: args => parse o args
    else if arg.take 2 = ['-', 'm'] ∧ 2 < Text.byteLen arg then parse o args
    else if isBundle arg then parse { o with parents := o.parents || arg.contains 'p' } args
    else parse { o with operands := o.operands ++ [arg] } args

/-- What `mkdir` complains with. -/
def mkdirComplaint (path : Str) (why : String) : Str :=
  complaint "mkdir: cannot create directory" path why

/-- The loop of `mkdir -p` over the components of `path`. -/
def mkdirLoop (path : Str) : List Str → NodeId → Progress → Progress
  | [], _, p => p
  | comp :: comps, current, p =>
    let v := p.shell.vfs
    if comp = [] ∨ comp = ['.'] then mkdirLoop path comps current p
    else if comp = ['.', '.'] then mkdirLoop path comps ((v.parentOf current).getD current) p
    else
      match v.child current comp with
      | some child =>
        if !(v.node child).metadata.isDir then p.fail (mkdirComplaint path "Not a directory")
        else mkdirLoop path comps child p
      | none =>
        if v.isFull current then p.fail (mkdirComplaint path "No space left on device")
        else
          let made := v.mkdir now current comp 0o755 p.shell.uid p.shell.gid
          mkdirLoop path comps made.2 (p.setVfs made.1)

/-- One operand of `mkdir`. -/
def mkdirOne (parents : Bool) (p : Progress) (path : Str) : Progress :=
  let v := p.shell.vfs
  if parents then
    let current := if path.head? = some '/' then v.root else p.shell.cwd
    mkdirLoop now path (splitSlash (stripTrailingSlashes path)) current p
  else
    match resolveParent p.shell path with
    | none => p.fail (mkdirComplaint path "No such file or directory")
    | some (parent, name) =>
      if v.child parent name ≠ none then p.fail (mkdirComplaint path "File exists")
      else if v.isFull parent then p.fail (mkdirComplaint path "No space left on device")
      else p.setVfs (v.mkdir now parent name 0o755 p.shell.uid p.shell.gid).1

/-- `mkdir [OPTION]... DIRECTORY...` -/
def mkdir (args : List Str) (s : Shell) : Shell × CommandResult :=
  let o := MkdirArgs.parse ⟨false, []⟩ args
  if o.operands = [] then (s, misses "mkdir" "operand")
  else (o.operands.foldl (mkdirOne now o.parents) (.start s)).finish

/-! ### Removing -/

/-- The options and operands of `rmdir`. -/
structure RmdirArgs where
  parents : Bool
  operands : List Str
  deriving DecidableEq

/-- One argument of `rmdir`. -/
def RmdirArgs.read (o : RmdirArgs) (arg : Str) : RmdirArgs :=
  if arg = "-p".toList ∨ arg = "--parents".toList then { o with parents := true }
  else if isOption arg then o
  else { o with operands := o.operands ++ [arg] }

/-- Whether a directory has no entries. -/
def isEmpty (v : Vfs) (id : NodeId) : Bool := ((v.entries id).map List.isEmpty).getD true

/-- The loop of `rmdir` over an operand and, with `-p`, the directories in front of it. A path has
fewer of these than characters, so that `fuel` is not what ends the loop
(`rmdirLoop_fuel_irrelevant`). -/
def rmdirLoop (parents : Bool) : ℕ → Str → Progress → Progress
  | 0, _, p => p
  | fuel + 1, path, p =>
    let v := p.shell.vfs
    let fail := fun why ↦ p.fail (complaint "rmdir: failed to remove" path why)
    match resolveParent p.shell path with
    | none => fail "No such file or directory"
    | some (parent, name) =>
      match v.child parent name with
      | none => fail "No such file or directory"
      | some target =>
        if !(v.node target).metadata.isDir then fail "Not a directory"
        else if !isEmpty v target then fail "Directory not empty"
        else
          let p := p.setVfs (v.unlink parent name).1
          let dir := (splitPath path).1
          if !parents then p
          else if dir = ['.'] ∨ dir = ['/'] ∨ dir = [] then p
          else rmdirLoop parents fuel dir p

theorem length_splitPath_lt {path : Str} (hdot : (splitPath path).1 ≠ ['.'])
    (hroot : (splitPath path).1 ≠ ['/']) : (splitPath path).1.length < path.length := by
  rcases splitPath_cases path with ⟨-, hsplit⟩ | ⟨dir, name, hpath, -, hsplit⟩
  · rw [hsplit] at hdot
    exact absurd rfl hdot
  · rw [hsplit] at hroot ⊢
    dsimp only at hroot ⊢
    by_cases hdir : dir = []
    · exact absurd (if_pos hdir) hroot
    · rw [if_neg hdir, hpath, List.length_append, List.length_cons]
      omega

theorem rmdirLoop_fuel_irrelevant (parents : Bool) {fuel : ℕ} {path : Str} {p : Progress}
    (hne : path ≠ []) (hfuel : path.length ≤ fuel) :
    rmdirLoop parents fuel path p = rmdirLoop parents path.length path p := by
  induction fuel using Nat.strongRecOn generalizing path p with
  | ind fuel ih =>
    obtain ⟨n, hn⟩ := Nat.exists_eq_succ_of_ne_zero (mt List.length_eq_zero_iff.1 hne)
    obtain ⟨k, rfl⟩ := Nat.exists_eq_succ_of_ne_zero (n := fuel) (by omega)
    rw [hn, rmdirLoop, rmdirLoop]
    dsimp only
    split
    · rfl
    split
    · rfl
    split
    · rfl
    split
    · rfl
    split
    · rfl
    split
    · rfl
    · rename_i hdir
      push Not at hdir
      have hlt := length_splitPath_lt hdir.1 hdir.2.1
      rw [ih k (by omega) hdir.2.2 (by omega), ih n (by omega) hdir.2.2 (by omega)]

/-- One operand of `rmdir`. -/
def rmdirOne (parents : Bool) (p : Progress) (path : Str) : Progress :=
  let path := stripTrailingSlashes path
  rmdirLoop parents path.length path p

/-- `rmdir [OPTION]... DIRECTORY...` -/
def rmdir (args : List Str) (s : Shell) : Shell × CommandResult :=
  let o := args.foldl RmdirArgs.read ⟨false, []⟩
  if o.operands = [] then (s, misses "rmdir" "operand")
  else (o.operands.foldl (rmdirOne o.parents) (.start s)).finish

/-- The options and operands of `rm`. -/
structure RmArgs where
  recursive : Bool
  force : Bool
  dirOk : Bool
  operands : List Str
  deriving DecidableEq

/-- One argument of `rm`. -/
def RmArgs.read (o : RmArgs) (arg : Str) : RmArgs :=
  if arg = "-r".toList ∨ arg = "-R".toList ∨ arg = "--recursive".toList then
    { o with recursive := true }
  else if arg = "-f".toList ∨ arg = "--force".toList then { o with force := true }
  else if arg = "-d".toList ∨ arg = "--dir".toList then { o with dirOk := true }
  else if arg = "-v".toList ∨ arg = "--verbose".toList ∨ arg = "-i".toList then o
  else if isBundle arg then
    { o with
      recursive := o.recursive || arg.contains 'r' || arg.contains 'R'
      force := o.force || arg.contains 'f'
      dirOk := o.dirOk || arg.contains 'd' }
  else { o with operands := o.operands ++ [arg] }

/-- One operand of `rm`. -/
def rmOne (o : RmArgs) (p : Progress) (path : Str) : Progress :=
  let v := p.shell.vfs
  let fail := fun why ↦ p.fail (complaint "rm: cannot remove" path why)
  let base := basename path
  if base = ['.'] ∨ base = ['.', '.'] then
    p.fail ("rm: refusing to remove '.' or '..' directory: skipping '".toList ++ path ++
      "'\n".toList)
  else
    match resolveParent p.shell path with
    | none => if o.force then p else fail "No such file or directory"
    | some (parent, name) =>
      match v.child parent name with
      | none => if o.force then p else fail "No such file or directory"
      | some target =>
        if (v.node target).metadata.isDir ∧ !o.recursive ∧ !o.dirOk then fail "Is a directory"
        else if (v.node target).metadata.isDir ∧ !o.recursive ∧ !isEmpty v target then
          fail "Directory not empty"
        else p.setVfs (v.unlink parent name).1

/-- `rm [OPTION]... FILE...` -/
def rm (args : List Str) (s : Shell) : Shell × CommandResult :=
  let o := args.foldl RmArgs.read ⟨false, false, false, []⟩
  if o.operands = [] then (s, if o.force then .ok [] else misses "rm" "operand")
  else (o.operands.foldl (rmOne o) (.start s)).finish

/-! ### Copying and moving -/

/-- The directory that the last operand of `cp` or `mv` names, if it names one. -/
def destDir (s : Shell) (dest : Str) : Option NodeId :=
  (s.vfs.resolve s.cwd dest).filter fun id ↦ (s.vfs.node id).metadata.isDir

/-- The directory and the name that `src` goes to. -/
def placeFor (p : Progress) (dir : Option NodeId) (src dest : Str) : Option (NodeId × Str) :=
  match dir with
  | some dir => some (dir, basename src)
  | none => resolveParent p.shell dest

/-- What `cp` and `mv` do with their operands: what becomes of one of those in front of the last is
`one`. -/
def transfer (command : String) (one : Str → Option NodeId → Progress → Str → Progress)
    (operands : List Str) (s : Shell) : Shell × CommandResult :=
  match operands.getLast? with
  | none => (s, misses command "file operand")
  | some dest =>
    let sources := operands.dropLast
    let dir := destDir s dest
    if sources = [] then (s, misses command "destination file operand")
    else if 1 < sources.length ∧ dir = none then
      (s, .err (command.toList ++ ": target '".toList ++ dest ++ "' is not a directory\n".toList) 1)
    else (sources.foldl (one dest dir) (.start s)).finish

/-- The options and operands of `cp`. -/
structure CpArgs where
  recursive : Bool
  operands : List Str
  deriving DecidableEq

/-- One argument of `cp`. -/
def CpArgs.read (o : CpArgs) (arg : Str) : CpArgs :=
  if arg = "-r".toList ∨ arg = "-R".toList ∨ arg = "--recursive".toList ∨ arg = "-a".toList ∨
      arg = "--archive".toList then { o with recursive := true }
  else if arg = "-v".toList ∨ arg = "--verbose".toList ∨ arg = "-f".toList ∨ arg = "-p".toList ∨
      arg = "-i".toList then o
  else if isBundle arg then
    { o with recursive := o.recursive || arg.contains 'r' || arg.contains 'R' || arg.contains 'a' }
  else { o with operands := o.operands ++ [arg] }

/-- One operand of `cp` in front of the last. -/
def cpOne (recursive : Bool) (dest : Str) (dir : Option NodeId) (p : Progress) (src : Str) :
    Progress :=
  let v := p.shell.vfs
  match v.resolve p.shell.cwd src with
  | none => p.fail (complaint "cp: cannot stat" src "No such file or directory")
  | some srcId =>
    if (v.node srcId).metadata.isDir ∧ !recursive then
      p.fail ("cp: -r not specified; omitting directory '".toList ++ src ++ "'\n".toList)
    else
      match placeFor p dir src dest with
      | none => p.fail (complaint "cp: cannot create regular file" dest "No such file or directory")
      | some (parent, name) =>
        if v.child parent name = none ∧ v.isFull parent = true then
          p.fail (complaint "cp: cannot create regular file" name "No space left on device")
        else p.setVfs (v.deepCopy now srcId parent name).1

/-- `cp [OPTION]... SOURCE... DEST` -/
def cp (args : List Str) (s : Shell) : Shell × CommandResult :=
  let o := args.foldl CpArgs.read ⟨false, []⟩
  transfer "cp" (cpOne now o.recursive) o.operands s

/-- The operands of `mv`; none of its options says anything to it. -/
def mvOperands (args : List Str) : List Str :=
  args.filter fun arg ↦ !(decide (arg = "--verbose".toList ∨ arg = "--no-clobber".toList) ||
    isBundle arg)

/-- One operand of `mv` in front of the last. -/
def mvOne (dest : Str) (dir : Option NodeId) (p : Progress) (src : Str) : Progress :=
  let v := p.shell.vfs
  let missing := p.fail (complaint "mv: cannot stat" src "No such file or directory")
  match resolveParent p.shell src with
  | none => missing
  | some (srcParent, srcName) =>
    match v.child srcParent srcName with
    | none => missing
    | some srcId =>
      match placeFor p dir src dest with
      | none =>
        p.fail (complaint "mv: cannot move" (src ++ "' to '".toList ++ dest)
          "No such file or directory")
      | some (parent, name) =>
        let moved := v.rename srcId parent name
        if moved.2 then p.setVfs moved.1
        else if moved.1.isAncestorOf srcId parent then
          (p.setVfs moved.1).fail ("mv: cannot move '".toList ++ src ++
            "' to a subdirectory of itself, '".toList ++ dest ++ ['/'] ++ name ++ "'\n".toList)
        else
          (p.setVfs moved.1).fail
            (complaint "mv: cannot move" (src ++ "' to '".toList ++ dest) "File name too long")

/-- `mv [OPTION]... SOURCE... DEST` -/
def mv (args : List Str) (s : Shell) : Shell × CommandResult :=
  transfer "mv" mvOne (mvOperands args) s

/-! ### Linking -/

/-- The options and operands of `ln`. -/
structure LnArgs where
  symbolic : Bool
  force : Bool
  operands : List Str
  deriving DecidableEq

/-- One argument of `ln`. -/
def LnArgs.read (o : LnArgs) (arg : Str) : LnArgs :=
  if arg = "-s".toList ∨ arg = "--symbolic".toList then { o with symbolic := true }
  else if arg = "-f".toList ∨ arg = "--force".toList then { o with force := true }
  else if arg = "-sf".toList ∨ arg = "-fs".toList then { o with symbolic := true, force := true }
  else if isOption arg then o
  else { o with operands := o.operands ++ [arg] }

/-- The directory and the name of the link: a link name that is an existing directory means a link
inside it. -/
def linkPlace (s : Shell) (target link : Str) : Option (NodeId × Str) :=
  match destDir s link with
  | some dir => some (dir, basename target)
  | none => resolveParent s link

/-- What `ln -s` complains with. -/
def lnComplaint (link : Str) (why : String) : CommandResult :=
  .err (complaint "ln: failed to create symbolic link" link why) 1

/-- `ln [-s] [-f] TARGET [LINK_NAME]` -/
def ln (args : List Str) (s : Shell) : Shell × CommandResult :=
  let o := args.foldl LnArgs.read ⟨false, false, []⟩
  match o.operands with
  | [] => (s, misses "ln" "file operand")
  | target :: rest =>
    let link := rest.head?.getD (basename target)
    if !o.symbolic then
      (s, .err ("ln: failed to create hard link '".toList ++ link ++ "' => '".toList ++ target ++
        "': Invalid cross-device link\n".toList) 1)
    else
      match linkPlace s target link with
      | none => (s, lnComplaint link "No such file or directory")
      | some (parent, name) =>
        if s.vfs.child parent name ≠ none ∧ !o.force then (s, lnComplaint name "File exists")
        else
          let cleared :=
            if s.vfs.child parent name ≠ none then (s.vfs.unlink parent name).1 else s.vfs
          let added := cleared.addSymlink now parent name target
          let s := { s with vfs := added.1 }
          if added.2 = parent then (s, lnComplaint name "No space left on device") else (s, .ok [])

/-! ### What a failure leaves -/

/-- The commands. -/
inductive FileCommand
  | touch | mkdir | rmdir | rm | cp | mv | ln
  deriving DecidableEq

namespace FileCommand

def run : FileCommand → List Str → Shell → Shell × CommandResult
  | touch => Files.touch now
  | mkdir => Files.mkdir now
  | rmdir => Files.rmdir
  | rm => Files.rm
  | cp => Files.cp now
  | mv => Files.mv
  | ln => Files.ln now

/-- The arguments give the command one thing to work on, and do not ask it for the directories in
front of that as well. -/
def Single : FileCommand → List Str → Prop
  | touch, args => (TouchArgs.parse ⟨false, []⟩ args).operands.length = 1
  | mkdir, args =>
    (MkdirArgs.parse ⟨false, []⟩ args).parents = false ∧
      (MkdirArgs.parse ⟨false, []⟩ args).operands.length = 1
  | rmdir, args =>
    (args.foldl RmdirArgs.read ⟨false, []⟩).parents = false ∧
      (args.foldl RmdirArgs.read ⟨false, []⟩).operands.length = 1
  | rm, args => (args.foldl RmArgs.read ⟨false, false, false, []⟩).operands.length = 1
  | cp, args => (args.foldl CpArgs.read ⟨false, []⟩).operands.length = 2
  | mv, args => (mvOperands args).length = 2
  | ln, args =>
    (args.foldl LnArgs.read ⟨false, false, []⟩).operands.length = 1 ∨
      (args.foldl LnArgs.read ⟨false, false, []⟩).operands.length = 2

/-- `ln -sf` finds an entry in the place of the link, in a directory without room for another. -/
def Forfeits : FileCommand → List Str → Shell → Prop
  | ln, args, s =>
    let o := args.foldl LnArgs.read ⟨false, false, []⟩
    o.symbolic = true ∧ o.force = true ∧ ∃ target rest parent name, o.operands = target :: rest ∧
      linkPlace s target (rest.head?.getD (basename target)) = some (parent, name) ∧
        s.vfs.child parent name ≠ none ∧ s.vfs.isFull parent = true
  | _, _, _ => False

end FileCommand

variable {now} {s : Shell} {p q : Progress} {path src dest target link name : Str}
  {dir : Option NodeId} {parent : NodeId} {v : Vfs} {args operands : List Str}

/-- What an operand comes to: the filesystem is left alone, or there is nothing to complain about.
-/
def Clean (p q : Progress) : Prop := q.shell.vfs = p.shell.vfs ∨ q.status = p.status

theorem clean_fail (p : Progress) (message : Str) : Clean p (p.fail message) := Or.inl rfl

theorem clean_setVfs (p : Progress) (v : Vfs) : Clean p (p.setVfs v) := Or.inr rfl

theorem clean_touchOne (noCreate : Bool) (p : Progress) (path : Str) :
    Clean p (touchOne now noCreate p path) := by
  rw [touchOne]
  split
  · exact clean_fail p _
  split
  · exact Or.inl rfl
  split
  · exact clean_fail p _
  · exact clean_setVfs p _

theorem clean_mkdirOne (p : Progress) (path : Str) : Clean p (mkdirOne now false p path) := by
  rw [mkdirOne, if_neg Bool.false_ne_true]
  split
  · exact clean_fail p _
  split
  · exact clean_fail p _
  split
  · exact clean_fail p _
  · exact clean_setVfs p _

theorem clean_rmdirLoop (fuel : ℕ) (path : Str) (p : Progress) :
    Clean p (rmdirLoop false fuel path p) := by
  cases fuel with
  | zero => exact Or.inl rfl
  | succ fuel =>
    rw [rmdirLoop]
    dsimp only
    split
    · exact clean_fail p _
    split
    · exact clean_fail p _
    split
    · exact clean_fail p _
    split
    · exact clean_fail p _
    · exact clean_setVfs p _

theorem clean_rmOne (o : RmArgs) (p : Progress) (path : Str) : Clean p (rmOne o p path) := by
  rw [rmOne]
  split
  · exact clean_fail p _
  split
  · split
    · exact Or.inl rfl
    · exact clean_fail p _
  split
  · split
    · exact Or.inl rfl
    · exact clean_fail p _
  split
  · exact clean_fail p _
  split
  · exact clean_fail p _
  · exact clean_setVfs p _

theorem clean_cpOne (recursive : Bool) (dest : Str) (dir : Option NodeId) (p : Progress)
    (src : Str) : Clean p (cpOne now recursive dest dir p src) := by
  rw [cpOne]
  split
  · exact clean_fail p _
  split
  · exact clean_fail p _
  split
  · exact clean_fail p _
  split
  · exact clean_fail p _
  · exact clean_setVfs p _

/-- A move that is refused has not begun. -/
theorem rename_refused (v : Vfs) (id newParent : NodeId) (newName : Str)
    (h : (v.rename id newParent newName).2 ≠ true) : (v.rename id newParent newName).1 = v := by
  rw [rename] at h ⊢
  split_ifs at h ⊢ <;> first | rfl | exact absurd rfl h

theorem clean_mvOne (dest : Str) (dir : Option NodeId) (p : Progress) (src : Str) :
    Clean p (mvOne dest dir p src) := by
  rw [mvOne]
  dsimp only
  split
  · exact clean_fail p _
  split
  · exact clean_fail p _
  split
  · exact clean_fail p _
  split
  · exact clean_setVfs p _
  · rename_i hmoved
    split <;> exact Or.inl (rename_refused _ _ _ _ hmoved)

/-- A command with one operand that does not succeed leaves the filesystem alone. -/
theorem intact_of_clean {one : Progress → Str → Progress}
    (hone : ∀ path, Clean (.start s) (one (.start s) path)) (hlen : operands.length = 1)
    (hstatus : (operands.foldl one (.start s)).finish.2.status ≠ 0) :
    (operands.foldl one (.start s)).finish.1.vfs = s.vfs := by
  obtain ⟨path, rfl⟩ := List.length_eq_one_iff.1 hlen
  exact (hone path).resolve_right hstatus

theorem intact_transfer {command : String} {one : Str → Option NodeId → Progress → Str → Progress}
    (hone : ∀ dest dir path, Clean (.start s) (one dest dir (.start s) path))
    (hlen : operands.length = 2) (hstatus : (transfer command one operands s).2.status ≠ 0) :
    (transfer command one operands s).1.vfs = s.vfs := by
  obtain ⟨src, dest, rfl⟩ := List.length_eq_two.1 hlen
  exact (hone dest (destDir s dest) src).resolve_right hstatus

/-! ### The one exception -/

theorem isDir_of_destDir (h : destDir s dest = some parent) :
    (s.vfs.node parent).metadata.isDir = true :=
  (Option.filter_eq_some_iff.1 h).2

theorem isDir_of_linkPlace (h : linkPlace s target link = some (parent, name)) :
    (s.vfs.node parent).metadata.isDir = true := by
  rw [linkPlace] at h
  split at h
  · rename_i hdir
    cases h
    exact isDir_of_destDir hdir
  · exact isDir_of_resolveParent h

theorem child_unlink_self (v : Vfs) (parent : NodeId) (name : Str) :
    (v.unlink parent name).1.child parent name = none := by
  rw [unlink, child_modifyChildren_erase, if_pos ⟨rfl, rfl⟩]

/-- A place that is cleared has no entry, and as much room as before. -/
theorem cleared_spec (v : Vfs) (parent : NodeId) (name : Str) :
    let cleared := if v.child parent name ≠ none then (v.unlink parent name).1 else v
    cleared.child parent name = none ∧ cleared.isFull parent = v.isFull parent ∧
      cleared.nodes.length = v.nodes.length := by
  dsimp only
  split
  · have hprunes := Prunes.unlink v parent name
    exact ⟨child_unlink_self v parent name, hprunes.isFull parent, hprunes.length⟩
  · rename_i h
    exact ⟨not_not.1 h, rfl, rfl⟩

/-- What `ln -s` does in the place it has found. -/
theorem ln_of_place {rest : List Str} {o : LnArgs}
    (ho : args.foldl LnArgs.read ⟨false, false, []⟩ = o) (hs : o.symbolic = true)
    (hoperands : o.operands = target :: rest)
    (hplace : linkPlace s target (rest.head?.getD (basename target)) = some (parent, name)) :
    ln now args s =
      if s.vfs.child parent name ≠ none ∧ o.force = false then (s, lnComplaint name "File exists")
      else
        let cleared :=
          if s.vfs.child parent name ≠ none then (s.vfs.unlink parent name).1 else s.vfs
        if s.vfs.isFull parent = true then
          ({ s with vfs := cleared }, lnComplaint name "No space left on device")
        else
          let metadata := Metadata.new now sIfLnk 0o777 0 0
          ({ s with vfs := cleared.graft parent name (.symlink target) metadata }, .ok []) := by
  obtain ⟨hchild, hfull, hlen⟩ := cleared_spec s.vfs parent name
  have hlt : parent < s.vfs.nodes.length := lt_of_isDir (isDir_of_linkPlace hplace)
  rw [ln]
  dsimp only
  rw [ho, hoperands, hs]
  dsimp only
  rw [hplace]
  dsimp only
  simp only [Bool.not_eq_true']
  rw [if_neg (by simp), addSymlink, hchild]
  dsimp only
  rw [insert_eq, hfull, hlen]
  split
  · rfl
  split
  · rw [if_pos rfl]
  · rw [if_neg (Nat.ne_of_gt hlt)]

/-- `ln` fails with a changed filesystem if and only if it forfeits an entry. -/
theorem ln_intact_iff :
    ((ln now args s).2.status ≠ 0 → (ln now args s).1.vfs = s.vfs) ↔
      ¬ FileCommand.ln.Forfeits args s := by
  simp only [FileCommand.Forfeits]
  generalize ho : args.foldl LnArgs.read ⟨false, false, []⟩ = o
  rcases hoperands : o.operands with - | ⟨target, rest⟩
  · have hln : (ln now args s).1 = s := by
      rw [ln]
      dsimp only
      rw [ho, hoperands]
    exact iff_of_true (fun _ ↦ by rw [hln]) (by rintro ⟨-, -, _, _, _, _, h, -⟩; cases h)
  rcases hs : o.symbolic with - | -
  · have hln : (ln now args s).1 = s := by
      rw [ln]
      dsimp only
      rw [ho, hoperands, hs]
      rfl
    exact iff_of_true (fun _ ↦ by rw [hln]) (by rintro ⟨h, -⟩; cases h)
  rcases hplace : linkPlace s target (rest.head?.getD (basename target)) with - | ⟨parent, name⟩
  · have hln : (ln now args s).1 = s := by
      rw [ln]
      dsimp only
      rw [ho, hoperands, hs]
      dsimp only
      rw [hplace]
      rfl
    refine iff_of_true (fun _ ↦ by rw [hln]) ?_
    rintro ⟨-, -, target, rest, parent, name, h, hplace', -⟩
    obtain ⟨rfl, rfl⟩ := List.cons.inj h
    rw [hplace] at hplace'
    cases hplace'
  have hforfeits : (true = true ∧ o.force = true ∧ ∃ target' rest' parent' name',
      target :: rest = target' :: rest' ∧
        linkPlace s target' (rest'.head?.getD (basename target')) = some (parent', name') ∧
          s.vfs.child parent' name' ≠ none ∧ s.vfs.isFull parent' = true) ↔
      o.force = true ∧ s.vfs.child parent name ≠ none ∧ s.vfs.isFull parent = true := by
    constructor
    · rintro ⟨-, hforce, _, _, _, _, h, hplace', hrest⟩
      obtain ⟨rfl, rfl⟩ := List.cons.inj h
      obtain ⟨rfl, rfl⟩ := Prod.mk.inj (Option.some.inj (hplace.symm.trans hplace'))
      exact ⟨hforce, hrest⟩
    · rintro ⟨hforce, hrest⟩
      exact ⟨rfl, hforce, target, rest, parent, name, rfl, hplace, hrest⟩
  rw [hforfeits, ln_of_place ho hs hoperands hplace]
  by_cases hchild : s.vfs.child parent name = none
  · rw [if_neg (fun h ↦ h.1 hchild)]
    dsimp only
    rw [if_neg (not_not.2 hchild)]
    refine iff_of_true ?_ fun h ↦ h.2.1 hchild
    split
    · exact fun _ ↦ rfl
    · exact fun h ↦ absurd rfl h
  rcases hforce : o.force with - | -
  · rw [if_pos ⟨hchild, rfl⟩]
    exact iff_of_true (fun _ ↦ rfl) fun h ↦ Bool.false_ne_true h.1
  rw [if_neg (fun h ↦ Bool.false_ne_true h.2.symm)]
  dsimp only
  rw [if_pos hchild]
  by_cases hfull : s.vfs.isFull parent = true
  · rw [if_pos hfull]
    refine iff_of_false (fun h ↦ ?_) fun h ↦ h ⟨rfl, hchild, hfull⟩
    -- the entry is gone
    have hsame : (s.vfs.unlink parent name).1 = s.vfs := h Int.one_ne_zero
    exact hchild (hsame ▸ child_unlink_self s.vfs parent name)
  · rw [if_neg hfull]
    exact iff_of_true (fun h ↦ absurd rfl h) fun h ↦ hfull h.2.2

/-- **The exact condition for a failed command to leave the filesystem as it was.** -/
theorem intact_iff (now : Timestamp) (c : FileCommand) (args : List Str) (s : Shell)
    (hsingle : c.Single args) :
    ((c.run now args s).2.status ≠ 0 → (c.run now args s).1.vfs = s.vfs) ↔ ¬ c.Forfeits args s := by
  cases c with
  | ln => exact ln_intact_iff
  | touch =>
    refine iff_of_true ?_ id
    rw [FileCommand.run, touch]
    split
    · exact fun _ ↦ rfl
    · exact intact_of_clean (clean_touchOne _ _) hsingle
  | mkdir =>
    refine iff_of_true ?_ id
    rw [FileCommand.run, mkdir]
    split
    · exact fun _ ↦ rfl
    · rw [hsingle.1]
      exact intact_of_clean (clean_mkdirOne _) hsingle.2
  | rmdir =>
    refine iff_of_true ?_ id
    rw [FileCommand.run, rmdir]
    split
    · exact fun _ ↦ rfl
    · rw [hsingle.1]
      exact intact_of_clean (fun path ↦ clean_rmdirLoop _ _ _) hsingle.2
  | rm =>
    refine iff_of_true ?_ id
    rw [FileCommand.run, rm]
    split
    · exact fun _ ↦ rfl
    · exact intact_of_clean (clean_rmOne _ _) hsingle
  | cp =>
    exact iff_of_true (intact_transfer (fun dest dir ↦ clean_cpOne _ dest dir _) hsingle) id
  | mv =>
    exact iff_of_true (intact_transfer (fun dest dir ↦ clean_mvOne dest dir _) hsingle) id

/-- A filesystem with the file `/a`, in which 1998 more files were made and removed. -/
def usedUp : Vfs where
  nodes := ⟨[], none, .directory ((∅ : Std.ExtTreeMap Str NodeId).insert ['a'] 1),
      Metadata.new 0 sIfDir 0o755 0 0⟩ ::
    ⟨['a'], some 0, .file [], Metadata.new 0 sIfReg 0o644 0 0⟩ ::
      List.replicate 1998 ⟨['b'], some 0, .file [], Metadata.new 0 sIfReg 0o644 0 0⟩
  root := 0
  contentBytes := 0

/-- `touch a` refreshes the file there. -/
theorem intact_iff_touch :
    FileCommand.touch.Single [['a']] ∧
      ((FileCommand.touch.run 0 [['a']] { Shell.bare with vfs := usedUp }).2.status ≠ 0 →
        (FileCommand.touch.run 0 [['a']] { Shell.bare with vfs := usedUp }).1.vfs = usedUp) :=
  ⟨rfl, (intact_iff 0 .touch [['a']] { Shell.bare with vfs := usedUp } rfl).2 id⟩

/-- `ln -sf x a` fails, and the file `/a` is gone. -/
theorem intact_iff_forfeited :
    FileCommand.ln.Single ["-sf".toList, ['x'], ['a']] ∧
      (FileCommand.ln.run 0 ["-sf".toList, ['x'], ['a']]
        { Shell.bare with vfs := usedUp }).2.status = 1 ∧
      usedUp.child 0 ['a'] = some 1 ∧
        (FileCommand.ln.run 0 ["-sf".toList, ['x'], ['a']]
          { Shell.bare with vfs := usedUp }).1.vfs.child 0 ['a'] = none :=
  ⟨Or.inr rfl, by decide +kernel⟩

end Files

end Interp

end Mimic
