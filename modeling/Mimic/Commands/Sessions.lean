import Mimic.Commands.Accounts
import Mimic.Commands.Downloads
import Mimic.Commands.Extraction
import Mimic.Commands.Modes
import Mimic.Commands.Seq
import Mimic.Shell.FileSteps
import Mimic.Shell.Identity

/-!
# Sessions and their filesystem

Of the commands in the table of `commands/mod.rs`, these change the filesystem or move about in it:
`cd`, `tee`, those of `Files`, `chmod`, `chown` and `chgrp`, `tar`, those on accounts, `su`, `wget`
and `curl`. None of the others assigns a node or a directory of the session (`Host.withTools`).

Each of them does to the arena what mutator calls do (`keepsFiles_withTools`), and so does the
interpreter around them (`FileSteps`).
-/

namespace Mimic

namespace Interp

open Vfs Files Downloads

/-! ### `cd` and `tee` -/

/-- `Metadata::executable_by` -/
def executableBy (m : Metadata) (uid gid : UInt32) : Bool :=
  if uid = 0 then true
  else if uid = m.uid then m.mode &&& 0o100 != 0
  else if gid = m.gid then m.mode &&& 0o010 != 0
  else m.mode &&& 0o001 != 0

/-- The path that `cd` is to go to. -/
def cdPath (s : Shell) : Option Str → Str
  | none => s.vfs.pathOf s.home
  | some arg =>
    if arg = ['~'] then s.vfs.pathOf s.home
    else if arg = ['-'] then s.vfs.pathOf s.prevCwd
    else if arg.take 2 = ['~', '/'] then s.vfs.pathOf s.home ++ '/' :: arg.drop 2
    else arg

/-- `cd [DIR]` -/
def cd (args : List Str) (s : Shell) : Shell × CommandResult :=
  let path := cdPath s args.head?
  let fail := fun (why : String) ↦ (s, .err ("-bash: cd: ".toList ++ path ++ why.toList) 1)
  match s.vfs.resolve s.cwd path with
  | none => fail ": No such file or directory\n"
  | some target =>
    let metadata := (s.vfs.node target).metadata
    if !metadata.isDir then fail ": Not a directory\n"
    else if !executableBy metadata s.uid s.gid then fail ": Permission denied\n"
    else
      let pwd := s.vfs.pathOf target
      ({ s with prevCwd := s.cwd, cwd := target, env := setVar s.env "PWD".toList pwd },
        .ok (if args.head? = some ['-'] then pwd ++ ['\n'] else []))

/-- One operand of `tee`. -/
def teeOne (now : Timestamp) (text : Str) (append : Bool) (p : Files.Progress) (path : Str) :
    Files.Progress :=
  let v := p.shell.vfs
  let full := "tee: ".toList ++ path ++ ": No space left on device\n".toList
  match resolveParent p.shell path with
  | none => p.fail ("tee: ".toList ++ path ++ ": No such file or directory\n".toList)
  | some (parent, name) =>
    match v.child parent name with
    | some id =>
      let wrote := v.writeFile now id (Text.toUtf8 text) append
      if wrote.2 then p.setVfs wrote.1 else (p.setVfs wrote.1).fail full
    | none =>
      if v.isFull parent then p.fail full
      else p.setVfs (v.addFile now parent name (Text.toUtf8 text) 0o644 p.shell.uid p.shell.gid).1

/-- `tee [-a] FILE...` -/
def tee (now : Timestamp) (args : List Str) (s : Shell) : Shell × CommandResult :=
  let split := Seq.splitArgs args
  let append := split.1.any fun flag ↦ flag.contains 'a'
  let text := s.stdin.getD []
  let p := split.2.foldl (teeOne now text append) (.start s)
  (p.shell, .streams text p.out p.status)

/-! ### The table -/

/-- The commands that change the filesystem or move about in it. -/
inductive Tool
  | cd | tee | file (c : FileCommand) | chmod | chown | chgrp | tar
  | useradd | userdel | groupadd | chpasswd | passwd | su | wget | curl
  deriving DecidableEq

/-- Their names. -/
def Tool.names : List (String × Tool) :=
  [("cd", .cd), ("tee", .tee), ("touch", .file .touch), ("mkdir", .file .mkdir),
    ("rmdir", .file .rmdir), ("rm", .file .rm), ("cp", .file .cp), ("mv", .file .mv),
    ("ln", .file .ln), ("chmod", .chmod), ("chown", .chown), ("chgrp", .chgrp), ("tar", .tar),
    ("useradd", .useradd), ("adduser", .useradd), ("userdel", .userdel), ("deluser", .userdel),
    ("groupadd", .groupadd), ("addgroup", .groupadd), ("chpasswd", .chpasswd), ("passwd", .passwd),
    ("su", .su), ("wget", .wget), ("curl", .curl)]

/-- The command of this name. -/
def Tool.named (cmd : Str) : Option Tool :=
  (Tool.names.find? fun entry ↦ entry.1.toList = cmd).map Prod.snd

/-- What a command run in `s` has done. -/
def effectOf (s : Shell) (done : Shell × CommandResult) : Effect :=
  { done.1.report done.2 with captures := done.1.captures.drop s.captures.length }

/-- Run a command. -/
def Tool.run (host : Host) (display : Display) (tool : Tool) (args : List Str) (s : Shell) :
    Effect :=
  match tool with
  | .cd => effectOf s (Interp.cd args s)
  | .tee => effectOf s (Interp.tee host.now args s)
  | .file c => effectOf s (c.run host.now args s)
  | .chmod => effectOf s (Modes.chmod args s)
  | .chown => effectOf s (Modes.chown args s)
  | .chgrp => effectOf s (Modes.chgrp args s)
  | .tar => effectOf s (Tar.tar host.now args s)
  | .useradd => effectOf s (Accounts.useradd host args s)
  | .userdel => effectOf s (Accounts.userdel host args s)
  | .groupadd => effectOf s (Accounts.groupadd host args s)
  | .chpasswd => effectOf s (Accounts.chpasswd host args s)
  | .passwd => effectOf s (Accounts.passwd host args s)
  | .su => Interp.su host.now args s
  | .wget => effectOf s (Downloads.wget display host.now args s)
  | .curl => effectOf s (Downloads.curl display host.now args s)

/-- The host with the source's commands on files. No other of its commands assigns a node or a
directory of the session. -/
def Host.withTools (host : Host) (display : Display) : Host :=
  { host with
    isCommand := fun cmd ↦ (Tool.named cmd).isSome || host.isCommand cmd
    command := fun cmd args s ↦
      match Tool.named cmd with
      | some tool => tool.run host display args s
      | none =>
        { host.command cmd args s with
          vfs := s.vfs, cwd := s.cwd, home := s.home, prevCwd := s.prevCwd } }

/-! ### What a command does to the arena -/

variable {now : Timestamp} {host : Host} {display : Display} {s t : Shell} {p : Files.Progress}
  {v : Vfs}

theorem lt_of_resolveParent {path name : Str} {parent : NodeId}
    (h : resolveParent s path = some (parent, name)) : parent < s.vfs.nodes.length :=
  lt_of_isDir (isDir_of_resolveParent h)

namespace Kept

theorem effectOf {done : Shell × CommandResult} (h : Kept s done.1) :
    Kept s (s.apply (effectOf s done)) := h.quiet rfl rfl

theorem setVfs (h : p.shell.Seated → p.shell.vfs.Edits v) : Kept p.shell (p.setVfs v).shell :=
  .edit h rfl rfl

/-- A node of the session that was there before. -/
theorem lt (h : Kept s t) (hs : s.Seated) {x : NodeId} (hx : x < s.vfs.nodes.length) :
    x < t.vfs.nodes.length := hx.trans_le ((h hs).2.length_le hs.wellFormed)

/-- A loop keeps what each of its steps keeps. -/
theorem foldl {σ α : Type} (shell : σ → Shell) {step : σ → α → σ}
    (hstep : ∀ p a, Kept s (shell p) → Kept (shell p) (shell (step p a))) (as : List α) {p : σ}
    (hp : Kept s (shell p)) : Kept s (shell (as.foldl step p)) := by
  induction as generalizing p with
  | nil => exact hp
  | cons a as ih => exact ih (hp.trans (hstep p a hp))

end Kept

theorem kept_cd (args : List Str) (s : Shell) : Kept s (cd args s).1 := by
  rw [cd]
  dsimp only
  split
  · exact .refl s
  rename_i target htarget
  split
  · exact .refl s
  split
  · exact .refl s
  · exact fun hs ↦ ⟨⟨hs.wellFormed, List.forall_mem_cons.mpr ⟨hs.resolve_lt htarget,
      List.forall_mem_cons.mpr ⟨hs.seats _ (by simp [Shell.seats]),
        List.forall_mem_singleton.mpr hs.cwd_lt⟩⟩⟩, .refl _⟩

theorem kept_teeOne (text : Str) (append : Bool) (p : Files.Progress) (path : Str) :
    Kept p.shell (teeOne now text append p path).shell := by
  rw [teeOne]
  dsimp only
  split
  · exact .refl _
  rename_i parent name hparent
  split
  · rename_i id hid
    have hwrite : Kept p.shell
        (p.setVfs (p.shell.vfs.writeFile now id (Text.toUtf8 text) append).1).shell :=
      .setVfs fun hs ↦ .writeFile (hs.wellFormed.entry_lt hid) _ _
    split
    · exact hwrite
    · exact hwrite
  split
  · exact .refl _
  · exact .setVfs fun _ ↦ .addFile (lt_of_resolveParent hparent) _ _ _ _

theorem kept_tee (args : List Str) (s : Shell) : Kept s (tee now args s).1 :=
  Kept.foldl Files.Progress.shell (fun p path _ ↦ kept_teeOne _ _ p path) _ (.refl s)

/-! ### Files -/

theorem kept_touchOne (noCreate : Bool) (p : Files.Progress) (path : Str) :
    Kept p.shell (touchOne now noCreate p path).shell := by
  rw [touchOne]
  split
  · exact .refl _
  rename_i parent name hparent
  split
  · exact .refl _
  split
  · exact .refl _
  · exact .setVfs fun _ ↦ .touch (lt_of_resolveParent hparent) _ _

/-- The directory that the loop has come to stays there. -/
theorem kept_mkdirLoop (path : Str) (comps : List Str) (current : NodeId) (p : Files.Progress)
    (hcurrent : p.shell.Seated → current < p.shell.vfs.nodes.length) :
    Kept p.shell (mkdirLoop now path comps current p).shell := by
  induction comps generalizing current p with
  | nil => exact .refl _
  | cons comp comps ih =>
    rw [mkdirLoop]
    dsimp only
    split
    · exact ih current p hcurrent
    split
    · refine ih _ p fun hs ↦ ?_
      rcases hparent : p.shell.vfs.parentOf current with - | parent
      · exact hcurrent hs
      · exact hs.wellFormed.parent_lt (hcurrent hs) hparent
    split
    · rename_i child hchild
      split
      · exact .refl _
      · exact ih child p fun hs ↦ hs.wellFormed.entry_lt hchild
    split
    · exact .refl _
    · intro hs
      have hmade : Kept p.shell
          (p.setVfs (p.shell.vfs.mkdir now current comp 0o755 p.shell.uid p.shell.gid).1).shell :=
        .setVfs fun _ ↦ .mkdir (hcurrent hs) _ _ _
      exact hmade.trans (ih _ _ fun _ ↦ mkdir_snd_lt hs.wellFormed (hcurrent hs)) hs

theorem kept_mkdirOne (parents : Bool) (p : Files.Progress) (path : Str) :
    Kept p.shell (mkdirOne now parents p path).shell := by
  rw [mkdirOne]
  dsimp only
  split
  · refine kept_mkdirLoop _ _ _ p fun hs ↦ ?_
    split
    · exact hs.wellFormed.root_lt
    · exact hs.cwd_lt
  split
  · exact .refl _
  rename_i parent name hparent
  split
  · exact .refl _
  split
  · exact .refl _
  · exact .setVfs fun _ ↦ .mkdir (lt_of_resolveParent hparent) _ _ _

theorem kept_rmdirLoop (parents : Bool) (fuel : ℕ) (path : Str) (p : Files.Progress) :
    Kept p.shell (rmdirLoop parents fuel path p).shell := by
  induction fuel generalizing path p with
  | zero => exact .refl _
  | succ fuel ih =>
    rw [rmdirLoop]
    dsimp only
    split
    · exact .refl _
    rename_i parent name hparent
    split
    · exact .refl _
    split
    · exact .refl _
    split
    · exact .refl _
    have hgone : Kept p.shell (p.setVfs (p.shell.vfs.unlink parent name).1).shell :=
      .setVfs fun _ ↦ .unlink (lt_of_resolveParent hparent)
    split
    · exact hgone
    split
    · exact hgone
    · exact hgone.trans (ih _ _)

theorem kept_rmOne (o : RmArgs) (p : Files.Progress) (path : Str) :
    Kept p.shell (rmOne o p path).shell := by
  rw [rmOne]
  dsimp only
  split
  · exact .refl _
  split
  · split
    · exact .refl _
    · exact .refl _
  rename_i parent name hparent
  split
  · split
    · exact .refl _
    · exact .refl _
  split
  · exact .refl _
  split
  · exact .refl _
  · exact .setVfs fun _ ↦ .unlink (lt_of_resolveParent hparent)

theorem placeFor_lt {dir : Option NodeId} {src dest name : Str} {parent : NodeId}
    (hdir : ∀ d ∈ dir, d < p.shell.vfs.nodes.length)
    (h : placeFor p dir src dest = some (parent, name)) : parent < p.shell.vfs.nodes.length := by
  cases dir with
  | some d =>
    obtain ⟨rfl, -⟩ := Prod.mk.inj (Option.some.inj h)
    exact hdir _ rfl
  | none => exact lt_of_resolveParent h

theorem kept_cpOne (recursive : Bool) (dest : Str) {dir : Option NodeId} (p : Files.Progress)
    (src : Str) (hdir : p.shell.Seated → ∀ d ∈ dir, d < p.shell.vfs.nodes.length) :
    Kept p.shell (cpOne now recursive dest dir p src).shell := by
  rw [cpOne]
  split
  · exact .refl _
  rename_i srcId hsrc
  split
  · exact .refl _
  split
  · exact .refl _
  rename_i parent name hplace
  split
  · exact .refl _
  · exact .setVfs fun hs ↦ .deepCopy (hs.resolve_lt hsrc) (placeFor_lt (hdir hs) hplace)

theorem kept_mvOne (dest : Str) {dir : Option NodeId} (p : Files.Progress) (src : Str)
    (hdir : p.shell.Seated → ∀ d ∈ dir, d < p.shell.vfs.nodes.length) :
    Kept p.shell (mvOne dest dir p src).shell := by
  rw [mvOne]
  dsimp only
  split
  · exact .refl _
  rename_i srcParent srcName _
  split
  · exact .refl _
  rename_i srcId hsrc
  split
  · exact .refl _
  rename_i parent name hplace
  have hmoved : Kept p.shell (p.setVfs (p.shell.vfs.rename srcId parent name).1).shell :=
    .setVfs fun hs ↦ .rename (hs.wellFormed.entry_lt hsrc) (placeFor_lt (hdir hs) hplace)
  split
  · exact hmoved
  split
  · exact hmoved
  · exact hmoved

/-- The directory that the operands go to is the one that the last of them named at the start. -/
theorem kept_transfer {command : String}
    {one : Str → Option NodeId → Files.Progress → Str → Files.Progress}
    (hone : ∀ dest dir p src, (p.shell.Seated → ∀ d ∈ dir, d < p.shell.vfs.nodes.length) →
      Kept p.shell (one dest dir p src).shell)
    (operands : List Str) (s : Shell) : Kept s (transfer command one operands s).1 := by
  rw [transfer]
  split
  · exact .refl s
  rename_i dest _
  dsimp only
  split
  · exact .refl s
  split
  · exact .refl s
  · intro hs
    refine Kept.foldl Files.Progress.shell (fun p src hp ↦ hone dest _ p src fun _ d hd ↦ ?_)
      _ (p := .start s) (.refl s) hs
    exact hp.lt hs (lt_of_isDir (isDir_of_destDir hd))

theorem kept_ln (args : List Str) (s : Shell) : Kept s (ln now args s).1 := by
  rw [ln]
  dsimp only
  split
  · exact .refl s
  rename_i target rest _
  split
  · exact .refl s
  split
  · exact .refl s
  rename_i parent name hplace
  split
  · exact .refl s
  have hlt : parent < s.vfs.nodes.length := lt_of_isDir (isDir_of_linkPlace hplace)
  set cleared := if s.vfs.child parent name ≠ none then (s.vfs.unlink parent name).1 else s.vfs
  have hclear : s.vfs.Edits cleared := by
    show s.vfs.Edits (if _ then _ else _)
    split
    · exact .unlink hlt
    · exact .refl _
  have hlink : Kept s { s with vfs := (cleared.addSymlink now parent name target).1 } :=
    .edit (fun hs ↦ hclear.trans (.addSymlink (hlt.trans_le (hclear.length_le hs.wellFormed)) _))
      rfl rfl
  split
  · exact hlink
  · exact hlink

theorem kept_run (c : FileCommand) (args : List Str) (s : Shell) :
    Kept s (c.run now args s).1 := by
  cases c with
  | touch =>
    show Kept s (Files.touch now args s).1
    rw [Files.touch]
    split
    · exact .refl s
    · exact Kept.foldl Files.Progress.shell (fun p path _ ↦ kept_touchOne _ p path) _ (.refl s)
  | mkdir =>
    show Kept s (Files.mkdir now args s).1
    rw [Files.mkdir]
    split
    · exact .refl s
    · exact Kept.foldl Files.Progress.shell (fun p path _ ↦ kept_mkdirOne _ p path) _ (.refl s)
  | rmdir =>
    show Kept s (Files.rmdir args s).1
    rw [Files.rmdir]
    split
    · exact .refl s
    · exact Kept.foldl Files.Progress.shell
        (fun p path _ ↦ kept_rmdirLoop _ _ (Tar.stripTrailingSlashes path) p) _ (.refl s)
  | rm =>
    show Kept s (Files.rm args s).1
    rw [Files.rm]
    split
    · exact .refl s
    · exact Kept.foldl Files.Progress.shell (fun p path _ ↦ kept_rmOne _ p path) _ (.refl s)
  | cp => exact kept_transfer (fun dest _ p src ↦ kept_cpOne _ dest p src) _ s
  | mv => exact kept_transfer (fun dest _ p src ↦ kept_mvOne dest p src) _ s
  | ln => exact kept_ln args s

/-! ### Modes and owners -/

theorem entries_lt {w : Vfs} (hw : w.WellFormed) {x : NodeId} {e : Str × NodeId}
    (he : e ∈ (w.entries x).getD []) : e.2 < w.nodes.length := by
  obtain ⟨name, c⟩ := e
  exact hw.entry_lt (mem_entries_iff.mp he)

/-- A walk that does one thing to a node and then goes through the entries it has edits the arena,
if that one thing does. -/
theorem edits_entries {walk : Vfs → Str × NodeId → Vfs} {w : Vfs} {x : NodeId} (hw : w.WellFormed)
    (hwalk : ∀ (u : Vfs) (e : Str × NodeId), u.WellFormed → e.2 < u.nodes.length →
      u.Edits (walk u e)) :
    w.Edits (((w.entries x).getD []).foldl walk w) := by
  refine (Edits.foldl id
    (P := fun u ↦ u.WellFormed ∧ w.nodes.length ≤ u.nodes.length) _ (fun u e he hu ↦ ?_)
    ⟨hw, le_rfl⟩).1
  have hedit := hwalk u e hu.1 ((entries_lt hw he).trans_le hu.2)
  exact ⟨hedit, hedit.wellFormed hu.1, hu.2.trans (hedit.length_le hu.1)⟩

theorem edits_applyChmod (spec : Str) (recursive : Bool) (levels : ℕ) (v : Vfs) (id : NodeId)
    (perms : UInt32) (hv : v.WellFormed) (hid : id < v.nodes.length) :
    v.Edits (Modes.applyChmod spec recursive levels v id perms) := by
  induction levels generalizing v id perms with
  | zero => exact .refl v
  | succ levels ih =>
    have hedit : v.Edits (v.chmod id perms) := .chmod hid perms
    rw [Modes.applyChmod]
    split
    · exact hedit.trans (edits_entries (hedit.wellFormed hv) fun u e hu he ↦ ih u _ _ hu he)
    · exact hedit

theorem edits_applyChown (owner : Modes.Owner) (recursive : Bool) (levels : ℕ) (v : Vfs)
    (id : NodeId) (hv : v.WellFormed) (hid : id < v.nodes.length) :
    v.Edits (Modes.applyChown owner recursive levels v id) := by
  induction levels generalizing v id with
  | zero => exact .refl v
  | succ levels ih =>
    rw [Modes.applyChown]
    have hedit : v.Edits (v.chown id (owner.uid.getD (v.node id).metadata.uid)
        (owner.gid.getD (v.node id).metadata.gid)) := .chown hid _ _
    split
    · exact hedit.trans (edits_entries (hedit.wellFormed hv) fun u e hu he ↦ ih u _ hu he)
    · exact hedit

theorem kept_chmodLoop (spec : Str) (recursive : Bool) (paths : List Str) (p : Files.Progress) :
    Kept p.shell (Modes.chmodLoop spec recursive p paths).1 := by
  induction paths generalizing p with
  | nil => exact .refl _
  | cons path paths ih =>
    rw [Modes.chmodLoop]
    split
    · exact ih (p.fail _)
    rename_i id hid
    split
    · exact .refl _
    rename_i perms _
    have hedit : Kept p.shell (p.setVfs (Modes.applyChmod spec recursive
        (p.shell.vfs.nodes.length + 1) p.shell.vfs id perms)).shell :=
      .setVfs fun hs ↦ edits_applyChmod _ _ _ _ _ _ hs.wellFormed (hs.resolve_lt hid)
    exact hedit.trans (ih _)

theorem kept_chmod (args : List Str) (s : Shell) : Kept s (Modes.chmod args s).1 := by
  rw [Modes.chmod]
  split
  split
  · exact kept_chmodLoop _ _ _ (.start s)
  · exact .refl s

theorem kept_chownOne (tool : String) (owner : Modes.Owner) (recursive : Bool) (p : Files.Progress)
    (path : Str) : Kept p.shell (Modes.chownOne tool owner recursive p path).shell := by
  rw [Modes.chownOne]
  split
  · exact .refl _
  rename_i id hid
  split
  · exact .refl _
  · exact .setVfs fun hs ↦ edits_applyChown _ _ _ _ _ hs.wellFormed (hs.resolve_lt hid)

theorem kept_chownLike (tool : String) (args : List Str) (s : Shell) :
    Kept s (Modes.chownLike tool args s).1 := by
  rw [Modes.chownLike]
  split
  split
  · split
    · exact .refl s
    · exact Kept.foldl Files.Progress.shell (fun p path _ ↦ kept_chownOne tool _ _ p path) _
        (.refl s)
  · exact .refl s

/-! ### Archives -/

/-- Made of `v`, with a directory in it. -/
def Inside (v w : Vfs) (dir : NodeId) : Prop :=
  v.Edits w ∧ w.WellFormed ∧ dir < w.nodes.length

theorem Inside.edit {w u : Vfs} {dir : NodeId} (h : Inside v w dir) (hedit : w.Edits u) :
    v.Edits u := h.1.trans hedit

theorem inside_tarDestLoop (now : Timestamp) (s : Shell) {dir : NodeId} (comps : List Str) {w : Vfs}
    (h : Inside v w dir) :
    v.Edits (Tar.tarDestLoop now s w dir comps).1 ∧
      ∀ d ∈ (Tar.tarDestLoop now s w dir comps).2,
        Inside v (Tar.tarDestLoop now s w dir comps).1 d := by
  obtain ⟨⟨d, hd⟩, hall⟩ := Tar.tarDestLoop_rule now s comps (P := Inside v)
    (fun w d comp _ x hP hchild _ ↦ ⟨hP.1, hP.2.1, hP.2.1.entry_lt hchild⟩)
    (fun w d comp _ hP _ ↦
      have hmade : w.Edits (w.mkdir now d comp 0o755 s.uid s.gid).1 := .mkdir hP.2.2 _ _ _
      ⟨hP.1.trans hmade, hmade.wellFormed hP.2.1, mkdir_snd_lt hP.2.1 hP.2.2⟩) h
  exact ⟨hd.1, hall⟩

theorem edits_makeMember (s : Shell) (data : Bytes) (entry : Tar.TarEntry) (member : Str)
    {parent : NodeId} (name : Str) (e : Tar.Extraction) (hparent : parent < e.vfs.nodes.length) :
    e.vfs.Edits (Tar.makeMember now s data entry member parent name e).vfs := by
  rw [Tar.makeMember]
  dsimp only
  generalize (if s.uid = 0 then (entry.uid, entry.gid) else (s.uid, s.gid)) = owner
  split
  · exact .mkdir hparent _ _ _
  split
  · exact .addSymlink hparent _
  split
  · rw [apply_ite Tar.Extraction.vfs, Tar.Extraction.fail, ite_self]
    exact .addFile hparent _ _ _ _
  · exact .refl _

theorem edits_extractMember (now : Timestamp) (s : Shell) (data : Bytes) (verbose : Bool)
    (members : List Str) (entry : Tar.TarEntry) (e : Tar.Extraction) (he : e.vfs.WellFormed)
    (hcwd : s.cwd < e.vfs.nodes.length) :
    e.vfs.Edits (Tar.extractMember now s data verbose members entry e).vfs := by
  cases htarget : Tar.target members entry with
  | none => exact (Tar.extractMember_of_none htarget).symm ▸ .refl _
  | some dest =>
    obtain ⟨dirs, last⟩ := dest
    obtain ⟨hdirs, hdest⟩ := inside_tarDestLoop now s dirs ⟨.refl e.vfs, he, hcwd⟩
    rw [Tar.extractMember_of_some htarget]
    dsimp only
    split
    · exact hdirs
    rename_i dir hdir
    split
    · exact hdirs
    · exact hdirs.trans (edits_makeMember s data entry _ last
        { Tar.announced verbose entry e with vfs := (Tar.tarDestLoop now s e.vfs s.cwd dirs).1 }
        (hdest dir hdir).2.2)

theorem kept_create (verbose : Bool) (archivePath : Str) (members : List Str) (s : Shell) :
    Kept s (Tar.create now verbose archivePath members s).1 := by
  rw [Tar.create]
  split
  · exact .refl s
  split
  · exact .refl s
  rename_i parent name hparent
  split
  · exact .refl s
  dsimp only
  have hadd : ∀ bytes, Kept s
      { s with vfs := (s.vfs.addFile now parent name bytes 0o644 s.uid s.gid).1 } := fun _ ↦
    .edit (fun _ ↦ .addFile (lt_of_resolveParent hparent) _ _ _ _) rfl rfl
  split_ifs
  · exact hadd _
  · exact hadd _
  · exact hadd _

theorem kept_extract (verbose : Bool) (archivePath : Str) (members : List Str) (s : Shell) :
    Kept s (Tar.extract now verbose archivePath members s).1 := by
  rw [Tar.extract]
  split
  · exact .refl s
  · rename_i data entries _
    refine .edit (fun hs ↦ (Edits.foldl Tar.Extraction.vfs
      (P := fun e ↦ e.vfs.WellFormed ∧ s.cwd < e.vfs.nodes.length) _ (fun e entry _ he ↦ ?_)
      (s := ⟨s.vfs, [], [], 0, []⟩) ⟨hs.wellFormed, hs.cwd_lt⟩).1) rfl rfl
    have hedit := edits_extractMember now s data verbose members entry e he.1 he.2
    exact ⟨hedit, hedit.wellFormed he.1, he.2.trans_le (hedit.length_le he.1)⟩

theorem kept_tar (args : List Str) (s : Shell) : Kept s (Tar.tar now args s).1 := by
  rw [Tar.tar]
  split
  · exact .refl s
  split
  · exact .refl s
  dsimp only
  split
  · exact kept_create _ _ _ s
  split
  · exact .refl s
  split
  · exact kept_extract _ _ _ s
  · exact .refl s

/-! ### Accounts -/

theorem kept_useradd (args : List Str) (s : Shell) : Kept s (Accounts.useradd host args s).1 := by
  rw [Accounts.useradd]
  split
  · exact .refl s
  dsimp only
  split
  · exact .refl s
  split
  · exact .refl s
  split
  · exact kept_writeText host s _ _
  have happend : ∀ file text (t : Shell), Kept t (Accounts.appendText host t file text) :=
    fun _ _ t ↦ kept_writeText host t _ _
  split
  · exact (((kept_writeText host s _ _).trans (happend _ _ _)).trans (happend _ _ _)).trans
      (.edit (fun _ ↦ .mkdirP _ _ _ _) rfl rfl)
  · exact ((kept_writeText host s _ _).trans (happend _ _ _)).trans (happend _ _ _)

theorem kept_chpasswdLoop (lines : List Str) (errs : Str) (status : ℤ) (s : Shell) :
    Kept s (Accounts.chpasswdLoop host s errs status lines).1 := by
  induction lines generalizing errs status s with
  | nil => exact .refl s
  | cons line lines ih =>
    rw [Accounts.chpasswdLoop]
    dsimp only
    split
    · exact ih _ _ s
    split
    · exact ih _ _ s
    split
    · exact ih _ _ s
    · have hpush : ∀ c, Kept s (s.pushCapture c) := fun _ ↦ (Kept.refl s).quiet rfl rfl
      exact ((hpush _).trans (kept_writeText _ _ _ _)).trans (ih _ _ _)

theorem kept_userdel (args : List Str) (s : Shell) :
    Kept s (Accounts.userdel host args s).1 := by
  rw [Accounts.userdel]
  split
  · exact .refl s
  split
  · exact .refl s
  split
  · exact .refl s
  · exact kept_writeText host s _ _

theorem kept_groupadd (args : List Str) (s : Shell) :
    Kept s (Accounts.groupadd host args s).1 := by
  rw [Accounts.groupadd]
  split
  · exact .refl s
  split
  · exact .refl s
  split
  · exact .refl s
  · exact kept_writeText host s _ _

theorem kept_chpasswd (args : List Str) (s : Shell) :
    Kept s (Accounts.chpasswd host args s).1 := by
  rw [Accounts.chpasswd]
  split
  · exact .refl s
  split
  · exact .refl s
  · exact kept_chpasswdLoop _ _ _ s

theorem kept_passwd (args : List Str) (s : Shell) : Kept s (Accounts.passwd host args s).1 := by
  rw [Accounts.passwd]
  split
  · exact .refl s
  split
  · exact .refl s
  · exact (Kept.refl s).quiet rfl rfl

theorem kept_su (args : List Str) (s : Shell) : Kept s (s.apply (su now args s)) := by
  rw [su]
  dsimp only
  split
  · exact (kept_switchUser now _ s).quiet rfl rfl
  · exact (Kept.refl s).quiet rfl rfl

/-! ### Downloads -/

theorem kept_fetch (tool : String) (f : Fetch) (s : Shell) : Kept s (fetch now tool s f).1 := by
  have hdrop : Kept s (dropFile now s f.dest (body f.url)).1 := by
    rw [dropFile]
    split
    · exact .refl s
    dsimp only
    split
    · exact .refl s
    split
    · rename_i hdir
      exact .edit (fun _ ↦ .addFile (lt_of_isDir hdir) _ _ _ _) rfl rfl
    · exact .refl s
  rw [fetch]
  dsimp only
  split
  · exact (Kept.refl s).quiet rfl rfl
  · exact hdrop.quiet rfl rfl

theorem kept_wget (args : List Str) (s : Shell) : Kept s (wget display now args s).1 := by
  rw [wget]
  dsimp only
  split
  · exact .refl s
  · exact Kept.foldl (Prod.fst : Shell × Str → Shell) (fun t url _ ↦ kept_fetch "wget" _ t.1) _
      (.refl s)

theorem kept_curl (args : List Str) (s : Shell) : Kept s (curl display now args s).1 := by
  rw [curl]
  dsimp only
  split
  · exact .refl s
  · exact Kept.foldl (Prod.fst : Shell × Str → Shell) (fun t url _ ↦ kept_fetch "curl" _ t.1) _
      (.refl s)

/-! ### Sessions -/

theorem keepsFiles_withTools (host : Host) (display : Display) :
    (host.withTools display).KeepsFiles := fun cmd args s ↦ by
  show Kept s (s.apply (match Tool.named cmd with | some tool => _ | none => _))
  split
  · rename_i tool _
    cases tool with
    | cd => exact .effectOf (kept_cd args s)
    | tee => exact .effectOf (kept_tee args s)
    | file c => exact .effectOf (kept_run c args s)
    | chmod => exact .effectOf (kept_chmod args s)
    | chown => exact .effectOf (kept_chownLike _ args s)
    | chgrp => exact .effectOf (kept_chownLike _ args s)
    | tar => exact .effectOf (kept_tar args s)
    | useradd => exact .effectOf (kept_useradd args s)
    | userdel => exact .effectOf (kept_userdel args s)
    | groupadd => exact .effectOf (kept_groupadd args s)
    | chpasswd => exact .effectOf (kept_chpasswd args s)
    | passwd => exact .effectOf (kept_passwd args s)
    | su => exact kept_su args s
    | wget => exact .effectOf (kept_wget args s)
    | curl => exact .effectOf (kept_curl args s)
  · exact (Kept.refl s).quiet rfl rfl

theorem seated_withPersona {snapshot : Vfs} (hsnapshot : snapshot.WellFormed) (now : Timestamp)
    (username hostname : Str) : (Shell.withPersona now snapshot username hostname).Seated ∧
      snapshot.Edits (Shell.withPersona now snapshot username hostname).vfs := by
  simp only [Shell.withPersona]
  set home := ensureHome now snapshot _ _ _
  obtain ⟨hedits, hlt⟩ : snapshot.Edits home.1 ∧ home.2 < home.1.nodes.length :=
    edits_ensureHome hsnapshot _ _ _
  exact ⟨⟨hedits.wellFormed hsnapshot, List.forall_mem_cons.mpr
    ⟨hlt, List.forall_mem_cons.mpr ⟨hlt, List.forall_mem_singleton.mpr hlt⟩⟩⟩, hedits⟩

end Interp

end Mimic
