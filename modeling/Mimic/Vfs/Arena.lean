import Mimic.Vfs.Nodes

/-!
# The arena and its mutators

`vfs/mod.rs` without path resolution: the arena type, the read helpers the mutators use, and every
public mutator, each returning the new arena together with the source's return value.

An index past the end of the arena panics in the source. The model reads a default node there and
writes nothing, and every statement about a mutator assumes the indices it is handed are in range.

Loops become structural recursion on a bound:

* `depth_of` and `is_ancestor_of` carry the source's own bound, the size of the arena;
* `height_of` has no bound in the source. Here it may pop as many stack entries as the arena has
  nodes, which `heightLoop_fuel_irrelevant` shows is never the reason it stops;
* `deep_copy_inner` counts the levels it may still descend, `MAX_COPY_DEPTH + 1 - depth`.

The `clock::now()` calls of one mutator call share a single reading `now`.
-/

namespace Mimic

/-- Hard ceiling on the number of nodes in the arena. -/
def maxVfsNodes : ℕ := 2000

/-- Hard ceiling on total file-content bytes held in the arena. -/
def maxVfsBytes : ℕ := 8 * 1024 * 1024

/-- Hard ceiling on how deep below `/` a node may sit. -/
def maxVfsDepth : ℕ := 128

/-- Levels of nesting `deep_copy` follows. -/
def maxCopyDepth : ℕ := 64

/-- An in-memory filesystem tree. -/
structure Vfs where
  nodes : List Node
  root : NodeId
  /-- Total file-content bytes allocated in the arena, including orphaned tombstones. -/
  contentBytes : ℕ

namespace Vfs

/-- A filesystem containing only an empty root directory owned by root. -/
def new (now : Timestamp) : Vfs where
  nodes := [⟨[], none, .directory ∅, Metadata.new now sIfDir 0o755 0 0⟩]
  root := 0
  contentBytes := 0

variable (v : Vfs)

/-! ### Reading -/

/-- Borrow a node by id. -/
def node (id : NodeId) : Node := v.nodes.getD id default

/-- The parent link of a node. -/
def parentOf (id : NodeId) : Option NodeId := (v.node id).parent

/-- Look up a single named child of `dir` without following symlinks on the result. -/
def child (dir : NodeId) (name : Str) : Option NodeId :=
  match (v.node dir).kind with
  | .directory children => children[name]?
  | _ => none

/-- Sorted `(name, id)` entries of a directory. -/
def entries (id : NodeId) : Option (List (Str × NodeId)) :=
  match (v.node id).kind with
  | .directory children => some children.toList
  | _ => none

/-- The loop of `depth_of`, with at most `fuel` more links to follow. -/
def depthLoop : ℕ → NodeId → ℕ → ℕ
  | 0, _, depth => depth
  | fuel + 1, current, depth =>
    match v.parentOf current with
    | none => depth
    | some parent =>
      if depth + 1 > v.nodes.length then depth + 1 else depthLoop fuel parent (depth + 1)

/-- How many levels below `/` a node sits; the root is 0. -/
def depthOf (id : NodeId) : ℕ := v.depthLoop (v.nodes.length + 1) id 0

/-- The loop of `height_of`: pop a node, raise the running maximum, push its children one level
further down. The head of the list is the top of the source's stack. -/
def heightLoop : ℕ → List (NodeId × ℕ) → ℕ → ℕ
  | 0, _, height => height
  | _ + 1, [], height => height
  | fuel + 1, (node, h) :: stack, height =>
    let pushed := (v.node node).kind.children.toList.map fun e ↦ (e.2, h + 1)
    heightLoop fuel (pushed.reverse ++ stack) (max height h)

/-- How many levels the subtree under `id` spans; a leaf is 0. -/
def heightOf (id : NodeId) : ℕ := v.heightLoop v.nodes.length [(id, 0)] 0

/-- Whether a new child under `parent` would be dropped. -/
def isFull (parent : NodeId) : Bool :=
  decide (v.nodes.length ≥ maxVfsNodes) || decide (v.depthOf parent ≥ maxVfsDepth)

/-- The loop of `is_ancestor_of`; running out of iterations counts as a hit. -/
def ancestorLoop (id : NodeId) : ℕ → Option NodeId → Bool
  | 0, _ => true
  | _ + 1, none => false
  | fuel + 1, some c => if c = id then true else ancestorLoop id fuel (v.parentOf c)

/-- Whether `id` is `other` itself or one of its ancestors. -/
def isAncestorOf (id other : NodeId) : Bool := v.ancestorLoop id v.nodes.length (some other)

/-! ### Writing -/

/-- Update one node in place. -/
def modifyNode (id : NodeId) (f : Node → Node) : Vfs :=
  { v with nodes := v.nodes.modify id f }

/-- Update the entry table of `id` in place, if it is a directory. -/
def modifyChildren (id : NodeId) (f : Std.ExtTreeMap Str NodeId → Std.ExtTreeMap Str NodeId) :
    Vfs :=
  v.modifyNode id fun n ↦ { n with kind := n.kind.mapChildren f }

/-- Insert a freshly built node under `parent`, returning its id. At the node cap or the depth cap
the insert is dropped and `parent` is returned unchanged. -/
def insert (parent : NodeId) (name : Str) (kind : NodeKind) (metadata : Metadata) :
    Vfs × NodeId :=
  if v.isFull parent then (v, parent)
  else
    let id := v.nodes.length
    let pushed : Vfs := { v with nodes := v.nodes ++ [⟨name, some parent, kind, metadata⟩] }
    (pushed.modifyChildren parent fun children ↦ children.insert name id, id)

/-- Create a child directory, or return the existing node of that name. -/
def mkdir (now : Timestamp) (parent : NodeId) (name : Str) (perms uid gid : UInt32) :
    Vfs × NodeId :=
  match v.child parent name with
  | some existing => (v, existing)
  | none => v.insert parent name (.directory ∅) (Metadata.new now sIfDir perms uid gid)

/-- Create or overwrite a regular file. A write that would push the arena past the byte cap is
dropped. -/
def addFile (now : Timestamp) (parent : NodeId) (name : Str) (contents : Bytes)
    (perms uid gid : UInt32) : Vfs × NodeId :=
  let newLen := contents.length
  let existing := v.child parent name
  -- only an in-place file overwrite frees its old buffer
  let oldLen := (existing.map fun id ↦ (v.node id).kind.contentLen).getD 0
  if v.contentBytes - oldLen + newLen > maxVfsBytes then (v, existing.getD parent)
  else
    let kind := NodeKind.file contents
    let metadata := Metadata.new now sIfReg perms uid gid
    match existing with
    | some existing =>
      ({ v.modifyNode existing (fun n ↦ { n with kind := kind, metadata := metadata }) with
          contentBytes := v.contentBytes - oldLen + newLen }, existing)
    | none =>
      let inserted := v.insert parent name kind metadata
      if inserted.2 ≠ parent then
        ({ inserted.1 with contentBytes := inserted.1.contentBytes + newLen }, inserted.2)
      else inserted

/-- Create a virtual file whose content is generated on read. -/
def addDynamicFile (now : Timestamp) (parent : NodeId) (name : Str) (generator : Generator)
    (perms uid gid : UInt32) : Vfs × NodeId :=
  let kind := NodeKind.dynamicFile generator
  let metadata := Metadata.new now sIfReg perms uid gid
  match v.child parent name with
  | some existing =>
    (v.modifyNode existing fun n ↦ { n with kind := kind, metadata := metadata }, existing)
  | none => v.insert parent name kind metadata

/-- Overwrite or extend an existing regular file, keeping its permissions and ownership. `false`
leaves the file untouched. -/
def writeFile (now : Timestamp) (id : NodeId) (data : Bytes) (append : Bool) : Vfs × Bool :=
  match (v.node id).kind with
  | .file contents =>
    let oldLen := contents.length
    let newLen := if append then oldLen + data.length else data.length
    if v.contentBytes - oldLen + newLen > maxVfsBytes then (v, false)
    else
      let kind := NodeKind.file (if append then contents ++ data else data)
      ({ v.modifyNode id (fun n ↦
            { n with kind := kind, metadata := { n.metadata with mtime := now } }) with
          contentBytes := v.contentBytes - oldLen + newLen }, true)
  | _ => (v, false)

/-- Create a symbolic link pointing at `target`, or return the existing node of that name. -/
def addSymlink (now : Timestamp) (parent : NodeId) (name target : Str) : Vfs × NodeId :=
  match v.child parent name with
  | some existing => (v, existing)
  | none => v.insert parent name (.symlink target) (Metadata.new now sIfLnk 0o777 0 0)

/-- The components of a path, as `path.split('/')` yields them. -/
def splitSlash (path : Str) : List Str := path.splitOn '/'

/-- The loop of `mkdir_p` over the remaining components. -/
def mkdirPLoop (now : Timestamp) (perms uid gid : UInt32) :
    Vfs → NodeId → List Str → Vfs × Option NodeId
  | v, current, [] => (v, some current)
  | v, current, comp :: rest =>
    if comp = [] ∨ comp = ['.'] then mkdirPLoop now perms uid gid v current rest
    else
      let made := v.mkdir now current comp perms uid gid
      if made.2 = current then (made.1, none)
      else mkdirPLoop now perms uid gid made.1 made.2 rest

/-- Create every directory along `path`, returning the id of the final directory. -/
def mkdirP (now : Timestamp) (path : Str) (perms uid gid : UInt32) : Vfs × Option NodeId :=
  mkdirPLoop now perms uid gid v v.root (splitSlash path)

/-- Set the modification time of `id`. -/
def setMtime (id : NodeId) (mtime : Timestamp) : Vfs :=
  v.modifyNode id fun n ↦ { n with metadata := { n.metadata with mtime := mtime } }

/-- Create an empty regular file, or refresh the mtime of the existing node. -/
def touch (now : Timestamp) (parent : NodeId) (name : Str) (uid gid : UInt32) : Vfs × NodeId :=
  match v.child parent name with
  | some existing => (v.setMtime existing now, existing)
  | none =>
    let added := v.addFile now parent name [] 0o644 uid gid
    (added.1.setMtime added.2 now, added.2)

/-- Stamp every node in the arena with `ts`. -/
def setAllMtimes (ts : Timestamp) : Vfs :=
  { v with nodes := v.nodes.map fun n ↦ { n with metadata := { n.metadata with mtime := ts } } }

/-- Set the permission bits of `id`, preserving the file-type bits. -/
def chmod (id : NodeId) (perms : UInt32) : Vfs :=
  v.modifyNode id fun n ↦
    { n with metadata :=
        { n.metadata with mode := (n.metadata.mode &&& sIfMt) ||| (perms &&& 0o7777) } }

/-- Set the owner and group of `id`. -/
def chown (id : NodeId) (uid gid : UInt32) : Vfs :=
  v.modifyNode id fun n ↦ { n with metadata := { n.metadata with uid := uid, gid := gid } }

/-- Detach the child `name` from directory `parent`, returning its id if it existed. The node stays
in the arena as a tombstone. -/
def unlink (parent : NodeId) (name : Str) : Vfs × Option NodeId :=
  (v.modifyChildren parent fun children ↦ children.erase name, v.child parent name)

/-- Move `id` to be the child `newName` of `newParent`, detaching whatever was there. -/
def rename (id newParent : NodeId) (newName : Str) : Vfs × Bool :=
  if !(v.node newParent).kind.isDirectory then (v, false)
  else if v.isAncestorOf id newParent then (v, false)
  else if v.depthOf newParent + 1 + v.heightOf id > maxVfsDepth then (v, false)
  else
    let detached := match v.parentOf id with
      | some oldParent => v.modifyChildren oldParent fun children ↦
          children.erase (v.node id).name
      | none => v
    let cleared := detached.modifyChildren newParent fun children ↦ children.erase newName
    let moved := cleared.modifyNode id fun n ↦ { n with name := newName, parent := some newParent }
    (moved.modifyChildren newParent fun children ↦ children.insert newName id, true)

/-- The recursion of `deep_copy`, with `fuel` levels left of `MAX_COPY_DEPTH`. The entries of a
copied directory are read **after** its copy exists, so a copy into itself sees the copy. -/
def deepCopyInner (now : Timestamp) : ℕ → Vfs → NodeId → NodeId → Str → Vfs × NodeId
  | 0, v, _, dstParent, _ => (v, dstParent)
  | fuel + 1, v, src, dstParent, dstName =>
    let metadata := { (v.node src).metadata with mtime := now }
    match (v.node src).kind with
    | .file contents =>
      v.addFile now dstParent dstName contents (metadata.mode &&& 0o7777) metadata.uid metadata.gid
    | .dynamicFile generator =>
      v.addDynamicFile now dstParent dstName generator (metadata.mode &&& 0o7777) metadata.uid
        metadata.gid
    | .symlink target =>
      (v.unlink dstParent dstName).1.insert dstParent dstName (.symlink target) metadata
    | .directory _ =>
      let made :=
        v.mkdir now dstParent dstName (metadata.mode &&& 0o7777) metadata.uid metadata.gid
      let children := (made.1.entries src).getD []
      (children.foldl (fun w e ↦ (deepCopyInner now fuel w e.2 made.2 e.1).1) made.1, made.2)

/-- Recursively copy the subtree at `src` into `dstParent` under `dstName`, returning the id of the
copy. -/
def deepCopy (now : Timestamp) (src dstParent : NodeId) (dstName : Str) : Vfs × NodeId :=
  deepCopyInner now (maxCopyDepth + 1) v src dstParent dstName

end Vfs

end Mimic
