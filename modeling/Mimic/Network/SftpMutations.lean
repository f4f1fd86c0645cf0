import Mimic.Network.Uploads
import Mimic.Vfs.Lookup

/-!
# What an OK answers for

`REMOVE`, `MKDIR`, `RMDIR`, `RENAME` and `SYMLINK` put a path together, look the directory up and
call one mutator. `RMDIR` looks at what it removes. The others answer OK on what the mutator makes
of it: an existing entry, a full arena or a directory that is none count as made, `REMOVE` takes a
directory, and `RENAME` moves what the old path leads to (`effective_iff`).
-/

namespace Mimic

namespace Sftp

open Wire BigEndian GuardedRun Vfs Uploads

/-- A request that changes the tree, with its paths. -/
inductive Mutation
  | remove (path : Str)
  | mkdir (path : Str)
  | rmdir (path : Str)
  | rename (oldpath newpath : Str)
  | symlink (linkpath targetpath : Str)
  deriving DecidableEq

/-- Two paths in a row. -/
def getStrPair (cursor : Bytes) : Option (Str × Str) :=
  (getStr cursor).bind fun a ↦ (getStr a.2).map fun b ↦ (a.1, b.1)

/-- The paths of a request, if it is such a one. -/
def Mutation.parse (msgType : UInt8) (cursor : Bytes) : Option Mutation :=
  if msgType = sshFxpRemove then (getStr cursor).map fun a ↦ remove a.1
  else if msgType = sshFxpMkdir then (getStr cursor).map fun a ↦ mkdir a.1
  else if msgType = sshFxpRmdir then (getStr cursor).map fun a ↦ rmdir a.1
  else if msgType = sshFxpRename then (getStrPair cursor).map fun a ↦ rename a.1 a.2
  else if msgType = sshFxpSymlink then (getStrPair cursor).map fun a ↦ symlink a.1 a.2
  else none

/-- The entry that a path of a request names in a filesystem. -/
def Exchange.entry (x : Exchange) (v : Vfs) (path : Str) : Option NodeId :=
  v.entryAt x.shell.cwd (x.absolute path)

/-- The directory of that entry. -/
def Exchange.dirOf (x : Exchange) (path : Str) : Option NodeId :=
  x.resolve (splitPath (x.absolute path)).1

/-- Its name. -/
def Exchange.nameOf (x : Exchange) (path : Str) : Str := (splitPath (x.absolute path)).2

namespace Mutation

/-- The path names something that was not there, of the given kind. -/
def Made (x y : Exchange) (path : Str) (kind : NodeKind) : Prop :=
  x.entry x.shell.vfs path = none ∧ ∃ node, x.entry y.shell.vfs path = some node ∧
    x.shell.vfs.nodes.length ≤ node ∧ (y.shell.vfs.node node).kind = kind

/-- The request did what it is for, from `x` to `y`. The directories of a move are those that the
paths had before it. -/
def Effective (x y : Exchange) : Mutation → Prop
  | mkdir path => Made x y path (.directory ∅)
  | symlink linkpath targetpath => Made x y linkpath (.symlink (sanitize targetpath))
  | remove path => ∃ node, x.entry x.shell.vfs path = some node ∧
      (x.shell.vfs.node node).kind.isDirectory = false ∧ x.entry y.shell.vfs path = none
  | rmdir path => ∃ node, x.entry x.shell.vfs path = some node ∧
      x.shell.vfs.entries node = some [] ∧ x.entry y.shell.vfs path = none
  | rename oldpath newpath => ∃ oldDir newDir node, x.dirOf oldpath = some oldDir ∧
      x.shell.vfs.child oldDir (x.nameOf oldpath) = some node ∧ x.dirOf newpath = some newDir ∧
      y.shell.vfs.child newDir (x.nameOf newpath) = some node ∧
      ((oldDir, x.nameOf oldpath) ≠ (newDir, x.nameOf newpath) →
        y.shell.vfs.child oldDir (x.nameOf oldpath) = none)

/-- There is a place for a new entry. -/
def Vacant (x : Exchange) (path : Str) : Prop :=
  ∀ dir, x.dirOf path = some dir → (x.shell.vfs.node dir).kind.isDirectory = true ∧
    x.shell.vfs.isFull dir = false ∧ x.shell.vfs.child dir (x.nameOf path) = none

/-- The request does not ask for what the mutator takes otherwise. -/
def Plain (x : Exchange) : Mutation → Prop
  | mkdir path => Vacant x path
  | symlink linkpath _ => Vacant x linkpath
  | remove path => ∀ node, x.entry x.shell.vfs path = some node →
      (x.shell.vfs.node node).kind.isDirectory = false
  | rmdir _ => True
  | rename oldpath _ => ∀ node, x.entry x.shell.vfs oldpath = some node →
      ∀ target, (x.shell.vfs.node node).kind ≠ .symlink target

end Mutation

section Statuses

variable {x y : Exchange} {id code : UInt32} {msg : String}

/-- The four bytes behind the id. -/
theorem take_drop_frame (pktType : UInt8) (id n : ℕ) (rest : Bytes) :
    ((frame pktType (encode 4 id ++ (encode 4 n ++ rest))).drop 9).take 4 = encode 4 n := by
  have hassoc : ∀ len : ℕ, encode 4 len ++ pktType :: (encode 4 id ++ (encode 4 n ++ rest)) =
      (encode 4 len ++ pktType :: encode 4 id) ++ (encode 4 n ++ rest) := fun len ↦ by
    rw [List.append_assoc, List.cons_append]
  rw [frame, hassoc, List.drop_left', List.take_left' (length_encode 4 n)]
  rw [List.length_append, List.length_cons, length_encode, length_encode]

theorem putStatus_eq (out : Bytes) (id code : UInt32) (msg : Str) : ∃ rest,
    putStatus out id code msg =
      out ++ frame sshFxpStatus (encode 4 id.toNat ++ (encode 4 code.toNat ++ rest)) :=
  ⟨_, sendPacket_eq ((appends_putU32 id).comp ((appends_putU32 code).comp
    ((appends_putBytes (Text.toUtf8 msg)).comp (appends_putBytes (Text.toUtf8 [])))))⟩

/-- **Statuses can be told apart.** -/
theorem code_eq_ok (hout : x.out = y.out) (h : (x.status id code msg).out = (y.ok id).out) :
    code = sshFxOk := by
  obtain ⟨rest, hstatus⟩ := putStatus_eq x.out id code msg.toList
  obtain ⟨rest', hok⟩ := putStatus_eq y.out id sshFxOk "OK".toList
  replace h : putStatus x.out id code msg.toList = putStatus y.out id sshFxOk "OK".toList := h
  rw [hstatus, hok, hout] at h
  have hfields := congrArg (fun bytes ↦ decode ((bytes.drop 9).take 4)) (List.append_cancel_left h)
  rw [take_drop_frame, take_drop_frame, decode_encode_of_lt code.toNat_lt,
    decode_encode_of_lt sshFxOk.toNat_lt] at hfields
  exact UInt32.toNat_inj.mp hfields

theorem not_ok (hcode : code ≠ sshFxOk) : (x.status id code msg).out ≠ (x.ok id).out := fun h ↦
  hcode (code_eq_ok rfl h)

end Statuses

namespace Mutation

section Handlers

variable {ambient : Ambient} {id : UInt32} {cursor rest : Bytes} {x y : Exchange} {dir : NodeId}
  {path : Str} {kind : NodeKind} {metadata : Metadata}

theorem entry_of_dirOf (hdir : x.dirOf path = some dir) :
    x.entry x.shell.vfs path = x.shell.vfs.child dir (x.nameOf path) := by
  rw [Exchange.entry, entryAt]
  show (x.dirOf path).bind _ = _
  rw [hdir]
  rfl

/-- An arena with a new node, unless there is an entry of that name. -/
def enter (v : Vfs) (dir : NodeId) (name : Str) (kind : NodeKind) (metadata : Metadata) : Vfs :=
  match v.child dir name with
  | some _ => v
  | none => (v.insert dir name kind metadata).1

/-- **A new entry is there exactly if there was a place for it.** -/
theorem made_iff (hv : x.shell.vfs.WellFormed) (hdir : x.dirOf path = some dir)
    (hkind : kind.children = ∅)
    (hy : y.shell.vfs = enter x.shell.vfs dir (x.nameOf path) kind metadata) :
    Made x y path kind ↔ Vacant x path := by
  have hentry := entry_of_dirOf hdir
  have hp : dir < x.shell.vfs.nodes.length := resolve_parent_lt hv hdir
  rw [Made, hy, enter]
  constructor
  · rintro ⟨hnone, node, hnode, hfresh, -⟩ dir' hdir'
    cases hdir.symm.trans hdir'
    rw [hentry] at hnone
    rw [hnone, insert_eq] at hnode
    rcases hroom : x.shell.vfs.isFull dir with - | -
    · rw [hroom] at hnode
      refine ⟨?_, rfl, hnone⟩
      by_contra hisdir
      -- the new node has no entry
      obtain ⟨d, -, hchild⟩ := Option.bind_eq_some_iff.mp hnode
      rw [if_neg Bool.false_ne_true, child_graft hp hkind, if_neg fun h ↦ hisdir h.2.2] at hchild
      exact absurd (hv.entry_lt hchild) (Nat.not_lt.mpr hfresh)
    · rw [hroom] at hnode
      exact absurd ((hentry.trans hnone).symm.trans hnode) nofun
  · intro hvacant
    obtain ⟨hisdir, hroom, hnone⟩ := hvacant dir hdir
    rw [hnone, insert_eq, hroom]
    refine ⟨hentry.trans hnone, x.shell.vfs.nodes.length, ?_, le_rfl, ?_⟩
    · exact entryAt_graft hv rfl hdir hkind hisdir hnone
    · exact congrArg Node.kind (node_graft_self hp)

theorem mkdir_fst (v : Vfs) (dir : NodeId) (name : Str) (now : Timestamp) (perms uid gid : UInt32) :
    (v.mkdir now dir name perms uid gid).1 =
      enter v dir name (.directory ∅) (Metadata.new now sIfDir perms uid gid) := by
  rw [Vfs.mkdir, enter]
  cases v.child dir name <;> rfl

theorem addSymlink_fst (v : Vfs) (dir : NodeId) (name target : Str) (now : Timestamp) :
    (v.addSymlink now dir name target).1 =
      enter v dir name (.symlink target) (Metadata.new now sIfLnk 0o777 0 0) := by
  rw [addSymlink, enter]
  cases v.child dir name <;> rfl

/-- What the handlers do with a path, in front of what is their own. -/
def atDir (id : UInt32) (x : Exchange) (path : Str) (handle : NodeId → Exchange) : Exchange :=
  if x.nameOf path = [] then x.invalidPath id
  else
    match x.dirOf path with
    | some dir => handle dir
    | none => x.noSuchFile id

theorem atDir_of_ok {handle : NodeId → Exchange}
    (hok : (atDir id x path handle).out = (x.ok id).out) :
    x.nameOf path ≠ [] ∧ ∃ dir, x.dirOf path = some dir ∧ atDir id x path handle = handle dir := by
  rw [atDir] at hok ⊢
  split at hok
  · exact absurd hok (not_ok (by decide))
  rename_i hname
  rw [if_neg hname]
  split at hok
  · rename_i dir hdir
    exact ⟨hname, dir, hdir, rfl⟩
  · exact absurd hok (not_ok (by decide))

theorem mkdir_iff (hv : x.shell.vfs.WellFormed) (hget : getStr cursor = some (path, rest))
    (hok : (handleMkdir ambient id cursor x).out = (x.ok id).out) :
    Effective x (handleMkdir ambient id cursor x) (.mkdir path) ↔ Plain x (.mkdir path) := by
  have hhandle : handleMkdir ambient id cursor x = atDir id x path fun dir ↦
      (x.setVfs (x.shell.vfs.mkdir ambient.now dir (x.nameOf path)
        (((getAttrs rest).bind ParsedAttrs.permissions).getD 0o755 &&& 0o7777) x.shell.uid
        x.shell.gid).1).ok id := by
    rw [handleMkdir, hget]
    rfl
  rw [hhandle] at hok ⊢
  obtain ⟨-, dir, hdir, heq⟩ := atDir_of_ok hok
  rw [heq]
  exact made_iff hv hdir rfl (mkdir_fst ..)

theorem symlink_iff {linkpath targetpath : Str} (hv : x.shell.vfs.WellFormed)
    (hget : getStrPair cursor = some (linkpath, targetpath))
    (hok : (handleSymlink ambient id cursor x).out = (x.ok id).out) :
    Effective x (handleSymlink ambient id cursor x) (.symlink linkpath targetpath) ↔
      Plain x (.symlink linkpath targetpath) := by
  obtain ⟨⟨link, cursor'⟩, hlink, hget⟩ := Option.bind_eq_some_iff.mp hget
  obtain ⟨⟨target, cursor''⟩, htarget, hpaths⟩ := Option.map_eq_some_iff.mp hget
  cases hpaths
  have hhandle : handleSymlink ambient id cursor x = atDir id x link fun dir ↦
      (x.setVfs (x.shell.vfs.addSymlink ambient.now dir (x.nameOf link) (sanitize target)).1).ok
        id := by
    rw [handleSymlink, hlink]
    dsimp only
    rw [htarget]
    rfl
  rw [hhandle] at hok ⊢
  obtain ⟨-, dir, hdir, heq⟩ := atDir_of_ok hok
  rw [heq]
  exact made_iff hv hdir rfl (addSymlink_fst ..)

theorem remove_iff (hv : x.shell.vfs.WellFormed) (hget : getStr cursor = some (path, rest))
    (hok : (handleRemove id cursor x).out = (x.ok id).out) :
    Effective x (handleRemove id cursor x) (.remove path) ↔ Plain x (.remove path) := by
  have hhandle : handleRemove id cursor x = atDir id x path fun dir ↦
      if (x.shell.vfs.unlink dir (x.nameOf path)).2.isSome then
        (x.setVfs (x.shell.vfs.unlink dir (x.nameOf path)).1).ok id
      else (x.setVfs (x.shell.vfs.unlink dir (x.nameOf path)).1).noSuchFile id := by
    rw [handleRemove, hget]
    rfl
  rw [hhandle] at hok ⊢
  obtain ⟨-, dir, hdir, heq⟩ := atDir_of_ok hok
  rw [heq] at hok ⊢
  split at hok
  · rename_i hfound
    obtain ⟨node, hchild⟩ := Option.isSome_iff_exists.mp hfound
    have hentry : x.entry x.shell.vfs path = some node := (entry_of_dirOf hdir).trans hchild
    have hgone : x.entry (x.shell.vfs.unlink dir (x.nameOf path)).1 path = none :=
      entryAt_unlink hv rfl hdir
    rw [if_pos hfound]
    constructor
    · rintro ⟨node', hnode', hkind, -⟩ node'' hnode''
      cases hnode'.symm.trans hnode''
      exact hkind
    · exact fun hplain ↦ ⟨node, hentry, hplain node hentry, hgone⟩
  · exact absurd (code_eq_ok rfl hok) (by decide)

theorem rmdir_iff (hv : x.shell.vfs.WellFormed) (hget : getStr cursor = some (path, rest))
    (hok : (handleRmdir id cursor x).out = (x.ok id).out) :
    Effective x (handleRmdir id cursor x) (.rmdir path) ↔ Plain x (.rmdir path) := by
  have hsent := hok
  rw [handleRmdir, hget] at hsent
  obtain ⟨-, dir, hdir, heq⟩ := atDir_of_ok hsent
  have hhandle := Eq.trans (a := handleRmdir id cursor x) (by rw [handleRmdir, hget]; rfl) heq
  rw [hhandle] at hok ⊢
  split at hok
  · rename_i node hchild
    split at hok
    · rename_i entries hentries
      split at hok
      · rename_i hempty
        rw [List.isEmpty_iff] at hempty
        subst hempty
        have hentry : x.entry x.shell.vfs path = some node := (entry_of_dirOf hdir).trans hchild
        have hgone : x.entry (x.shell.vfs.unlink dir (x.nameOf path)).1 path = none :=
          entryAt_unlink hv rfl hdir
        exact iff_of_true ⟨node, hentry, hentries, hgone⟩ trivial
      · exact absurd hok (not_ok (by decide))
    · exact absurd hok (not_ok (by decide))
  · exact absurd hok (not_ok (by decide))

/-- An absolute path ends in a name, or is that of the root. -/
theorem nameOf_cases (x : Exchange) (path : Str) :
    IsName (x.nameOf path) ∨ x.nameOf path = [] ∧ x.absolute path = ['/'] := by
  obtain ⟨names, hnames, habs⟩ := normalizePath_eq (x.shell.vfs.pathOf x.shell.cwd) path
  have hname : x.nameOf path = names.getLastD [] := by
    rw [Exchange.nameOf, Exchange.absolute, habs]
    exact splitPath_snd fun name h ↦ (hnames name h).2
  rcases List.eq_nil_or_concat names with rfl | ⟨init, last, rfl⟩
  · exact .inr ⟨hname, habs⟩
  · rw [List.concat_eq_append] at hname hnames
    rw [hname, List.getLastD_concat]
    exact .inl (hnames last (List.mem_append_right _ (List.mem_singleton_self _))).1

/-- The root is not moved. -/
theorem rename_root {newParent : NodeId} {name : Str} {v : Vfs} (hv : v.WellFormed)
    (hp : newParent < v.nodes.length) : (v.rename v.root newParent name).2 = false := by
  have hanc : v.isAncestorOf v.root newParent = true := isAncestorOf_of_isAncestor (hv.grounded hp)
  rw [rename_eq, if_neg]
  rintro ⟨-, hfalse, -⟩
  exact absurd (hanc.symm.trans hfalse) nofun

/-- The entry that is moved, when the path of it does not end in a link. -/
theorem effective_rename {v : Vfs} {node oldDir newDir : NodeId} {oldName newName : Str}
    (hv : v.WellFormed) (hchild : v.child oldDir oldName = some node)
    (hmoved : (v.rename node newDir newName).2 = true) :
    (v.rename node newDir newName).1.child newDir newName = some node ∧
      ((oldDir, oldName) ≠ (newDir, newName) →
        (v.rename node newDir newName).1.child oldDir oldName = none) := by
  rw [rename_eq] at hmoved ⊢
  split at hmoved
  · rename_i hguard
    rw [if_pos hguard]
    refine ⟨?_, fun hne ↦ ?_⟩
    · rw [child_reattach hguard.1, if_pos ⟨rfl, rfl⟩]
    · rw [child_reattach hguard.1, if_neg fun h ↦ hne (Prod.ext h.1 h.2), if_pos]
      exact ⟨hv.entry_parent hchild, (hv.entry_name hchild).symm⟩
  · cases hmoved

/-- What an OK for a move says: both paths lead somewhere, and the node was moved. -/
theorem handleRename_of_ok {oldpath newpath : Str} (hv : x.shell.vfs.WellFormed)
    (hget : getStrPair cursor = some (oldpath, newpath))
    (hok : (handleRename id cursor x).out = (x.ok id).out) :
    ∃ old newDir, x.resolve (x.absolute oldpath) = some old ∧ x.dirOf newpath = some newDir ∧
      IsName (x.nameOf oldpath) ∧ (x.shell.vfs.rename old newDir (x.nameOf newpath)).2 = true ∧
      (handleRename id cursor x).shell.vfs =
        (x.shell.vfs.rename old newDir (x.nameOf newpath)).1 := by
  obtain ⟨⟨oldpath', cursor'⟩, hold, hget⟩ := Option.bind_eq_some_iff.mp hget
  obtain ⟨⟨newpath', cursor''⟩, hnew, hpaths⟩ := Option.map_eq_some_iff.mp hget
  cases hpaths
  rw [handleRename, hold] at hok ⊢
  dsimp only at hok ⊢
  rw [hnew] at hok ⊢
  dsimp only at hok ⊢
  split at hok
  · exact absurd hok (not_ok (by decide))
  rename_i hname
  rw [if_neg hname]
  split at hok
  · rename_i old newDir hres hdir
    split at hok
    · rename_i hmoved
      rw [if_pos hmoved]
      refine ⟨old, newDir, hres, hdir, ?_, hmoved, rfl⟩
      rcases nameOf_cases x oldpath' with hisname | ⟨-, hroot⟩
      · exact hisname
      · rw [hroot] at hres
        cases hres.symm.trans (resolve_slash x.shell.vfs x.shell.cwd)
        cases hmoved.symm.trans (rename_root hv (resolve_parent_lt hv hdir))
    · exact absurd (code_eq_ok rfl hok) (by decide)
  · exact absurd hok (not_ok (by decide))

theorem rename_iff {oldpath newpath : Str} (hv : x.shell.vfs.WellFormed)
    (hget : getStrPair cursor = some (oldpath, newpath))
    (hok : (handleRename id cursor x).out = (x.ok id).out) :
    Effective x (handleRename id cursor x) (.rename oldpath newpath) ↔
      Plain x (.rename oldpath newpath) := by
  obtain ⟨old, newDir, hres, hdir, hname, hmoved, hvfs⟩ := handleRename_of_ok hv hget hok
  obtain ⟨oldDir, e, holdDir, hchild, hsame, hold⟩ := entryAt_of_resolve hv rfl hname hres
  have hentry : x.entry x.shell.vfs oldpath = some e := (entry_of_dirOf holdDir).trans hchild
  rw [Effective, hvfs]
  constructor
  · rintro ⟨oldDir', newDir', node, holdDir', hchild', hdir', hnew, -⟩ e' he' target hlink
    cases holdDir.symm.trans holdDir'
    cases hdir.symm.trans hdir'
    cases hentry.symm.trans he'
    cases hchild.symm.trans hchild'
    -- what was moved is not the link
    rw [rename_eq] at hmoved hnew
    split at hmoved
    · rename_i hguard
      rw [if_pos hguard, child_reattach hguard.1, if_pos ⟨rfl, rfl⟩] at hnew
      cases hnew
      exact hold target hlink
    · cases hmoved
  · intro hplain
    obtain rfl := hsame (hplain e hentry)
    exact ⟨oldDir, newDir, old, holdDir, hchild, hdir, effective_rename hv hchild hmoved⟩

end Handlers

end Mutation

/-- **What an OK answers for**, in every reachable session: the request did what it is for exactly
if it did not ask for what the mutator takes otherwise. -/
theorem effective_iff (now : Timestamp) (cwd : NodeId) (uid gid : UInt32) {events : List Event}
    (hrun : Admissible Event.apply Event.InRange (start now cwd uid gid) events)
    {ambient : Ambient} {maxUploadBytes : ℕ} {id : UInt32} {msgType : UInt8} {cursor : Bytes}
    {m : Mutation} (hm : Mutation.parse msgType cursor = some m)
    (hok : (handleRequest ambient maxUploadBytes id cursor
      (run Event.apply (start now cwd uid gid) events) msgType).out =
        ((run Event.apply (start now cwd uid gid) events).ok id).out) :
    m.Effective (run Event.apply (start now cwd uid gid) events)
        (handleRequest ambient maxUploadBytes id cursor
          (run Event.apply (start now cwd uid gid) events) msgType) ↔
      m.Plain (run Event.apply (start now cwd uid gid) events) := by
  have hv := (sound_run now cwd uid gid hrun).wellFormed
  generalize run Event.apply (start now cwd uid gid) events = x at hok hv ⊢
  rw [Mutation.parse] at hm
  split at hm
  · rename_i htype
    subst htype
    obtain ⟨⟨path, rest⟩, hget, rfl⟩ := Option.map_eq_some_iff.mp hm
    exact Mutation.remove_iff hv hget hok
  split at hm
  · rename_i htype
    subst htype
    obtain ⟨⟨path, rest⟩, hget, rfl⟩ := Option.map_eq_some_iff.mp hm
    exact Mutation.mkdir_iff hv hget hok
  split at hm
  · rename_i htype
    subst htype
    obtain ⟨⟨path, rest⟩, hget, rfl⟩ := Option.map_eq_some_iff.mp hm
    exact Mutation.rmdir_iff hv hget hok
  split at hm
  · rename_i htype
    subst htype
    obtain ⟨⟨oldpath, newpath⟩, hget, rfl⟩ := Option.map_eq_some_iff.mp hm
    exact Mutation.rename_iff hv hget hok
  split at hm
  · rename_i htype
    subst htype
    obtain ⟨⟨linkpath, targetpath⟩, hget, rfl⟩ := Option.map_eq_some_iff.mp hm
    exact Mutation.symlink_iff hv hget hok
  · cases hm

/-- A command makes a directory `/d` and a link `/l` to it. -/
def linkedEvents : List Event :=
  [.command [.mutator (.mkdir 0 0 ['d'] 0o755 0 0), .mutator (.addSymlink 0 0 ['l'] "/d".toList)]
    0 0 0]

def linked : Exchange := run Event.apply (start 0 0 0 0) linkedEvents

/-- A path of a request. -/
def pathField (path : Bytes) : Bytes := encode 4 path.length ++ path

def answer (msgType : UInt8) (cursor : Bytes) : Exchange :=
  handleRequest ⟨0, fun _ ↦ hiDigest⟩ 1024 7 cursor linked msgType

/-- `MKDIR /n`. -/
theorem effective_iff_new :
    Mutation.Effective linked (answer sshFxpMkdir (pathField [0x2f, 0x6e])) (.mkdir "/n".toList) ↔
      Mutation.Plain linked (.mkdir "/n".toList) :=
  have hrun : Admissible Event.apply Event.InRange (start 0 0 0 0) linkedEvents :=
    ⟨show Admissible Op.apply Op.InRange _ _ by decide +kernel, trivial⟩
  effective_iff 0 0 0 0 hrun (by decide +kernel) (by decide +kernel)

/-- `MKDIR /d`, `SYMLINK /l /d`, `REMOVE /d` and `RENAME /l /m`. -/
def refusable : List (UInt8 × Bytes × Mutation) :=
  [(sshFxpMkdir, pathField [0x2f, 0x64], .mkdir "/d".toList),
    (sshFxpSymlink, pathField [0x2f, 0x6c] ++ pathField [0x2f, 0x64],
      .symlink "/l".toList "/d".toList),
    (sshFxpRemove, pathField [0x2f, 0x64], .remove "/d".toList),
    (sshFxpRename, pathField [0x2f, 0x6c] ++ pathField [0x2f, 0x6d],
      .rename "/l".toList "/m".toList)]

/-- A request that is answered OK and has not done what it asks for. -/
def ClaimedOnly (r : UInt8 × Bytes × Mutation) : Prop :=
  Mutation.parse r.1 r.2.1 = some r.2.2 ∧ (answer r.1 r.2.1).out = (linked.ok 7).out ∧
    ¬ r.2.2.Effective linked (answer r.1 r.2.1)

/-- All of them are answered OK: nothing is made, a directory is removed, and the directory is moved
in place of the link. -/
theorem refusable_ok : refusable.Forall ClaimedOnly := by
  have hd : linked.entry linked.shell.vfs "/d".toList = some 1 := by decide +kernel
  have hl : linked.entry linked.shell.vfs "/l".toList = some 2 := by decide +kernel
  have hmoved : (answer sshFxpRename (pathField [0x2f, 0x6c] ++
      pathField [0x2f, 0x6d])).shell.vfs.child 0 ['m'] = some 1 := by decide +kernel
  rw [List.forall_iff_forall_mem]
  simp only [refusable, List.forall_mem_cons, ClaimedOnly]
  refine ⟨⟨by decide +kernel, by decide +kernel, ?_⟩, ⟨by decide +kernel, by decide +kernel, ?_⟩,
    ⟨by decide +kernel, by decide +kernel, ?_⟩, ⟨by decide +kernel, by decide +kernel, ?_⟩, nofun⟩
  · rintro ⟨hnone, -⟩
    exact absurd (hnone.symm.trans hd) nofun
  · rintro ⟨hnone, -⟩
    exact absurd (hnone.symm.trans hl) nofun
  · rintro ⟨node, hnode, hkind, -⟩
    cases hd.symm.trans hnode
    exact absurd hkind (by decide +kernel)
  · rintro ⟨oldDir, newDir, node, holdDir, hchild, hnewDir, hnew, -⟩
    have hold : linked.dirOf "/l".toList = some 0 := by decide +kernel
    have hdir : linked.dirOf "/m".toList = some 0 := by decide +kernel
    have hlink : linked.shell.vfs.child 0 (linked.nameOf "/l".toList) = some 2 := by decide +kernel
    have hname : linked.nameOf "/m".toList = ['m'] := by decide +kernel
    cases holdDir.symm.trans hold
    cases hnewDir.symm.trans hdir
    cases hchild.symm.trans hlink
    rw [hname] at hnew
    exact absurd (hnew.symm.trans hmoved) (by decide)

end Sftp

end Mimic
