import Mimic.Foundation.PathTree
import Mimic.Vfs.Calls
import Mimic.Vfs.EntryPath

/-!
# The filesystem as a tree of paths

What a user of the filesystem thinks of is a tree: a path leads to an entry or to nothing, and an
operation changes what is at a path or behind it. `FileTree` is that, with two numbers that the caps
are about. It knows no node ids, no arena, no parent links and no tombstones.

The operations here are stated on paths and say what `vfs/mod.rs` is to do; they are not translated
from it. `Edit` names them, `Edit.spec` is what one does to a tree, and `Edit.apply` is the call of
the mutator it stands for on the nodes that its paths lead to. `Vfs/Refinement` shows that the two
agree, over whole runs.
-/

namespace Mimic

open PathTree

/-- What a path leads to: the payload of a node, without its table of entries, and its metadata. -/
structure Entry where
  kind : NodeKind
  metadata : Metadata

/-- The tree under the root. -/
structure FileTree where
  tree : List Str → Option Entry
  /-- The nodes made so far. Those taken off the tree count. -/
  used : ℕ
  /-- The bytes of contents that are charged. -/
  bytes : ℕ

namespace FileTree

variable (t : FileTree)

/-! ### Operations -/

/-- The path leads to a directory. -/
def isDirectory (path : List Str) : Bool := (t.tree path).any fun e ↦ e.kind.isDirectory

/-- There is no room for a node in the directory. -/
def Full (dir : List Str) : Prop := maxVfsNodes ≤ t.used ∨ maxVfsDepth ≤ dir.length

instance (dir : List Str) : Decidable (t.Full dir) :=
  inferInstanceAs (Decidable (maxVfsNodes ≤ t.used ∨ maxVfsDepth ≤ dir.length))

/-- Make an entry, if there is room for it. Where no directory is, it is lost. -/
def insert (dir : List Str) (name : Str) (kind : NodeKind) (metadata : Metadata) : FileTree :=
  if t.Full dir then t
  else
    { t with
      tree := if t.isDirectory dir then plant t.tree (dir ++ [name]) ⟨kind, metadata⟩ else t.tree
      used := t.used + 1 }

/-- Put a leaf in the place of what is at a path. -/
def replace (path : List Str) (kind : NodeKind) (metadata : Metadata) : FileTree :=
  { t with tree := plant t.tree path ⟨kind, metadata⟩ }

/-- Change the metadata at a path. -/
def setMetadata (path : List Str) (f : Metadata → Metadata) : FileTree :=
  { t with tree := relabel t.tree path fun e ↦ { e with metadata := f e.metadata } }

def mkdir (now : Timestamp) (dir : List Str) (name : Str) (perms uid gid : UInt32) : FileTree :=
  if (t.tree (dir ++ [name])).isSome then t
  else t.insert dir name (.directory ∅) (Metadata.new now sIfDir perms uid gid)

/-- The contents that a file at the path has now. -/
def contentLen (path : List Str) : ℕ := ((t.tree path).map fun e ↦ e.kind.contentLen).getD 0

/-- The new contents of a path are over the cap. -/
def Over (path : List Str) (contents : Bytes) : Prop :=
  maxVfsBytes < t.bytes - t.contentLen path + contents.length

instance (path : List Str) (contents : Bytes) : Decidable (t.Over path contents) :=
  inferInstanceAs (Decidable (maxVfsBytes < t.bytes - t.contentLen path + contents.length))

/-- A file in the place of what is at a path, or a new one. -/
def addFile (now : Timestamp) (dir : List Str) (name : Str) (contents : Bytes)
    (perms uid gid : UInt32) : FileTree :=
  let path := dir ++ [name]
  let metadata := Metadata.new now sIfReg perms uid gid
  if t.Over path contents then t
  else if (t.tree path).isSome then
    { t.replace path (.file contents) metadata with
      bytes := t.bytes - t.contentLen path + contents.length }
  else if t.Full dir then t
  else { t.insert dir name (.file contents) metadata with bytes := t.bytes + contents.length }

def addDynamicFile (now : Timestamp) (dir : List Str) (name : Str) (generator : Generator)
    (perms uid gid : UInt32) : FileTree :=
  let metadata := Metadata.new now sIfReg perms uid gid
  if (t.tree (dir ++ [name])).isSome then
    t.replace (dir ++ [name]) (.dynamicFile generator) metadata
  else t.insert dir name (.dynamicFile generator) metadata

/-- Other contents for the file at a path. -/
def writeFile (now : Timestamp) (path : List Str) (data : Bytes) (append : Bool) : FileTree :=
  match t.tree path with
  | some ⟨.file contents, metadata⟩ =>
    let new := if append then contents ++ data else data
    if t.Over path new then t
    else
      { t.replace path (.file new) { metadata with mtime := now } with
        bytes := t.bytes - contents.length + new.length }
  | _ => t

def addSymlink (now : Timestamp) (dir : List Str) (name target : Str) : FileTree :=
  if (t.tree (dir ++ [name])).isSome then t
  else t.insert dir name (.symlink target) (Metadata.new now sIfLnk 0o777 0 0)

def setMtime (path : List Str) (mtime : Timestamp) : FileTree :=
  t.setMetadata path fun m ↦ { m with mtime := mtime }

/-- Refresh what is at a path, or make an empty file. A refused one refreshes the directory. -/
def touch (now : Timestamp) (dir : List Str) (name : Str) (uid gid : UInt32) : FileTree :=
  if (t.tree (dir ++ [name])).isSome then t.setMtime (dir ++ [name]) now
  else if t.Over (dir ++ [name]) [] ∨ t.Full dir then t.setMtime dir now
  else t.addFile now dir name [] 0o644 uid gid

def chmod (path : List Str) (perms : UInt32) : FileTree :=
  t.setMetadata path fun m ↦ { m with mode := (m.mode &&& sIfMt) ||| (perms &&& 0o7777) }

def chown (path : List Str) (uid gid : UInt32) : FileTree :=
  t.setMetadata path fun m ↦ { m with uid := uid, gid := gid }

def setAllMtimes (ts : Timestamp) : FileTree :=
  { t with tree := fun path ↦
      (t.tree path).map fun e ↦ { e with metadata := { e.metadata with mtime := ts } } }

def unlink (dir : List Str) (name : Str) : FileTree :=
  { t with tree := cut t.tree (dir ++ [name]) }

/-- Some of what is behind the path would be too deep in the directory. -/
def TooDeep (path dir : List Str) : Prop :=
  ∃ rest, (t.tree (path ++ rest)).isSome ∧ maxVfsDepth < dir.length + 1 + rest.length

open Classical in
/-- Move what is behind a path into a directory that is not behind it itself. -/
noncomputable def rename (path dir : List Str) (newName : Str) : FileTree :=
  if t.isDirectory dir ∧ ¬ path <+: dir ∧ ¬ t.TooDeep path dir then
    { t with tree := move t.tree path (dir ++ [newName]) }
  else t

/-! ### Looking up paths -/

/-- The components of a path text from the path `at'`, each entry followed. -/
def walk (follow : List Str → Option (List Str)) : List Str → List Str → Option (List Str)
  | at', [] => some at'
  | at', comp :: rest =>
    if comp = [] ∨ comp = ['.'] then walk follow at' rest
    else if comp = ['.', '.'] then walk follow at'.dropLast rest
    else if (t.tree (at' ++ [comp])).isSome then
      (follow (at' ++ [comp])).bind fun next ↦ walk follow next rest
    else none

/-- A link leads where its target leads from the directory it is in. -/
def follow (lookup : List Str → Str → Option (List Str)) (path : List Str) :
    Option (List Str) :=
  match t.tree path with
  | some ⟨.symlink target, _⟩ => lookup path.dropLast target
  | _ => some path

/-- The path that a path text means, with so many levels of links. -/
def lookup : ℕ → List Str → Str → Option (List Str)
  | 0, _, _ => none
  | budget + 1, start, text =>
    t.walk (t.follow (lookup budget)) (if text.head? = some '/' then [] else start)
      (Vfs.splitSlash text)

end FileTree

/-! ### Edits -/

/-- An operation on nodes that are given by their paths. -/
inductive Edit
  | mkdir (now : Timestamp) (dir : List Str) (name : Str) (perms uid gid : UInt32)
  | addFile (now : Timestamp) (dir : List Str) (name : Str) (contents : Bytes)
      (perms uid gid : UInt32)
  | addDynamicFile (now : Timestamp) (dir : List Str) (name : Str) (generator : Generator)
      (perms uid gid : UInt32)
  | writeFile (now : Timestamp) (path : List Str) (data : Bytes) (append : Bool)
  | addSymlink (now : Timestamp) (dir : List Str) (name target : Str)
  | touch (now : Timestamp) (dir : List Str) (name : Str) (uid gid : UInt32)
  | chmod (path : List Str) (perms : UInt32)
  | chown (path : List Str) (uid gid : UInt32)
  | setMtime (path : List Str) (mtime : Timestamp)
  | setAllMtimes (ts : Timestamp)
  | unlink (dir : List Str) (name : Str)
  | rename (path dir : List Str) (newName : Str)

namespace Edit

/-- What it does to a tree in which its paths are there. -/
noncomputable def act : Edit → FileTree → FileTree
  | mkdir now dir name perms uid gid, t => t.mkdir now dir name perms uid gid
  | addFile now dir name contents perms uid gid, t =>
    t.addFile now dir name contents perms uid gid
  | addDynamicFile now dir name generator perms uid gid, t =>
    t.addDynamicFile now dir name generator perms uid gid
  | writeFile now path data append, t => t.writeFile now path data append
  | addSymlink now dir name target, t => t.addSymlink now dir name target
  | touch now dir name uid gid, t => t.touch now dir name uid gid
  | chmod path perms, t => t.chmod path perms
  | chown path uid gid, t => t.chown path uid gid
  | setMtime path mtime, t => t.setMtime path mtime
  | setAllMtimes ts, t => t.setAllMtimes ts
  | unlink dir name, t => t.unlink dir name
  | rename path dir newName, t => t.rename path dir newName

/-- The paths that have to be there. -/
def paths : Edit → List (List Str)
  | mkdir _ dir _ _ _ _ | addFile _ dir _ _ _ _ _ | addDynamicFile _ dir _ _ _ _ _
  | addSymlink _ dir _ _ | touch _ dir _ _ _ | unlink dir _ => [dir]
  | writeFile _ path _ _ | chmod path _ | chown path _ _ | setMtime path _ => [path]
  | setAllMtimes _ => []
  | rename path dir _ => [path, dir]

/-- What it does to a tree: nothing if a path of it is not there. -/
noncomputable def spec (e : Edit) (t : FileTree) : FileTree :=
  if ∀ path ∈ e.paths, (t.tree path).isSome = true then e.act t else t

theorem spec_of_present (e : Edit) {t : FileTree}
    (h : ∀ path ∈ e.paths, (t.tree path).isSome = true) : e.spec t = e.act t := if_pos h

theorem spec_of_missing (e : Edit) {t : FileTree} {path : List Str} (hpath : path ∈ e.paths)
    (h : (t.tree path).isSome = false) : e.spec t = t :=
  if_neg fun hall ↦ Bool.false_ne_true (h.symm.trans (hall path hpath))

/-- The call it stands for. -/
def mutator (v : Vfs) : Edit → Option Vfs.Mutator
  | mkdir now dir name perms uid gid =>
    (v.descend v.root dir).map fun parent ↦ .mkdir now parent name perms uid gid
  | addFile now dir name contents perms uid gid =>
    (v.descend v.root dir).map fun parent ↦ .addFile now parent name contents perms uid gid
  | addDynamicFile now dir name generator perms uid gid =>
    (v.descend v.root dir).map fun parent ↦
      .addDynamicFile now parent name generator perms uid gid
  | writeFile now path data append =>
    (v.descend v.root path).map fun id ↦ .writeFile now id data append
  | addSymlink now dir name target =>
    (v.descend v.root dir).map fun parent ↦ .addSymlink now parent name target
  | touch now dir name uid gid =>
    (v.descend v.root dir).map fun parent ↦ .touch now parent name uid gid
  | chmod path perms => (v.descend v.root path).map fun id ↦ .chmod id perms
  | chown path uid gid => (v.descend v.root path).map fun id ↦ .chown id uid gid
  | setMtime path mtime => (v.descend v.root path).map fun id ↦ .setMtime id mtime
  | setAllMtimes ts => some (.setAllMtimes ts)
  | unlink dir name => (v.descend v.root dir).map fun parent ↦ .unlink parent name
  | rename path dir newName =>
    (v.descend v.root path).bind fun id ↦
      (v.descend v.root dir).map fun newParent ↦ .rename id newParent newName

/-- The arena it leaves behind. -/
def apply (e : Edit) (v : Vfs) : Vfs := ((e.mutator v).map fun m ↦ m.apply v).getD v

end Edit

end Mimic
