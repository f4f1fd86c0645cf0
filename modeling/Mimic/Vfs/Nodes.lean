import Mimic.Text

/-!
# Node types of the in-memory filesystem

The payloads and metadata of `vfs/nodes.rs`. Nodes live in an arena and name each other by index,
so nothing here is recursive: a directory holds a table from names to indices.

Two types of the source are read as follows.

* `BTreeMap` is `Std.ExtTreeMap`, whose equality is equality of all lookups.
* A `fn() -> Vec<u8>` generator reads the clock and nothing else, so it is a function of the
  clock reading (`Generator`).

Clock readings are passed in wherever the source calls `clock::now()`.
-/

namespace Mimic

/-- An index into the arena. -/
abbrev NodeId := ℕ

/-- Unix seconds, as `clock::now()` returns them. -/
abbrev Timestamp := ℤ

/-- A `fn() -> Vec<u8>`: the bytes it returns when the clock shows the given time. -/
abbrev Generator := Timestamp → Bytes

/-- File-type bit for a directory. -/
def sIfDir : UInt32 := 0o040000
/-- File-type bit for a regular file. -/
def sIfReg : UInt32 := 0o100000
/-- File-type bit for a symbolic link. -/
def sIfLnk : UInt32 := 0o120000
/-- Mask isolating the file-type bits of a mode. -/
def sIfMt : UInt32 := 0o170000

/-- Ownership and permission metadata. `mode` holds the permission bits **plus** the file-type
bits. -/
structure Metadata where
  mode : UInt32
  uid : UInt32
  gid : UInt32
  mtime : Timestamp

namespace Metadata

/-- Build metadata, OR-ing the file-type bits into `perms`. -/
def new (now : Timestamp) (fileType perms uid gid : UInt32) : Metadata where
  mode := fileType ||| (perms &&& 0o7777)
  uid := uid
  gid := gid
  mtime := now

/-- Whether the mode says directory. -/
def isDir (m : Metadata) : Bool := m.mode &&& sIfMt == sIfDir

end Metadata

/-- The payload of a node. -/
inductive NodeKind
  | directory (children : Std.ExtTreeMap Str NodeId)
  | file (contents : Bytes)
  | symlink (target : Str)
  | dynamicFile (generator : Generator)

namespace NodeKind

/-- The file-type bits a node of this kind is created with. -/
def fileType : NodeKind → UInt32
  | directory _ => sIfDir
  | file _ => sIfReg
  | symlink _ => sIfLnk
  | dynamicFile _ => sIfReg

/-- The entry table, empty for anything but a directory. -/
def children : NodeKind → Std.ExtTreeMap Str NodeId
  | directory children => children
  | _ => ∅

/-- Whether the payload is a directory. -/
def isDirectory : NodeKind → Bool
  | directory _ => true
  | _ => false

/-- The bytes of a regular file the payload keeps resident. -/
def contentLen : NodeKind → ℕ
  | file contents => contents.length
  | _ => 0

/-- Rewrite the entry table of a directory in place; other payloads are left alone. This is the
source's `if let NodeKind::Directory { children } = &mut kind`. -/
def mapChildren (f : Std.ExtTreeMap Str NodeId → Std.ExtTreeMap Str NodeId) :
    NodeKind → NodeKind
  | directory children => directory (f children)
  | kind => kind

@[simp] theorem children_directory (t : Std.ExtTreeMap Str NodeId) :
    (directory t).children = t := rfl

@[simp] theorem fileType_mapChildren (f : Std.ExtTreeMap Str NodeId → Std.ExtTreeMap Str NodeId)
    (k : NodeKind) : (k.mapChildren f).fileType = k.fileType := by
  cases k <;> rfl

@[simp] theorem contentLen_mapChildren
    (f : Std.ExtTreeMap Str NodeId → Std.ExtTreeMap Str NodeId) (k : NodeKind) :
    (k.mapChildren f).contentLen = k.contentLen := by
  cases k <;> rfl

@[simp] theorem isDirectory_mapChildren
    (f : Std.ExtTreeMap Str NodeId → Std.ExtTreeMap Str NodeId) (k : NodeKind) :
    (k.mapChildren f).isDirectory = k.isDirectory := by
  cases k <;> rfl

theorem children_mapChildren (f : Std.ExtTreeMap Str NodeId → Std.ExtTreeMap Str NodeId)
    (k : NodeKind) :
    (k.mapChildren f).children = if k.isDirectory then f k.children else k.children := by
  cases k <;> rfl

/-- A payload without its entries. -/
def bare (k : NodeKind) : NodeKind := k.mapChildren fun _ ↦ ∅

@[simp] theorem bare_mapChildren (f : Std.ExtTreeMap Str NodeId → Std.ExtTreeMap Str NodeId)
    (k : NodeKind) : (k.mapChildren f).bare = k.bare := by
  cases k <;> rfl

theorem bare_eq_symlink_iff (k : NodeKind) (target : Str) :
    k.bare = .symlink target ↔ k = .symlink target := by
  cases k <;> simp [bare, mapChildren]

theorem bare_eq_file_iff (k : NodeKind) (contents : Bytes) :
    k.bare = .file contents ↔ k = .file contents := by
  cases k <;> simp [bare, mapChildren]

/-- Only directories have entries. -/
theorem isDirectory_of_getElem? {k : NodeKind} {name : Str} {c : NodeId}
    (h : k.children[name]? = some c) : k.isDirectory = true := by
  cases k with
  | directory t => rfl
  | _ => simp [children] at h

end NodeKind

/-- A single filesystem entry. The root has an empty name and no parent. -/
structure Node where
  name : Str
  parent : Option NodeId
  kind : NodeKind
  metadata : Metadata

instance : Inhabited Node :=
  ⟨⟨[], none, .file [], ⟨sIfReg, 0, 0, 0⟩⟩⟩

namespace Node

/-- The payload agrees with the file-type bits of the mode. -/
def Coherent (n : Node) : Prop :=
  n.metadata.mode &&& sIfMt = n.kind.fileType

/-- The bytes a read of the node yields: contents of a regular file, freshly generated bytes of a
dynamic one. -/
def fileBytes (now : Timestamp) (n : Node) : Option Bytes :=
  match n.kind with
  | .file contents => some contents
  | .dynamicFile generator => some (generator now)
  | _ => none

end Node

/-! ### The mode word -/

private theorem or_and_distrib (a b c : UInt32) : (a ||| b) &&& c = a &&& c ||| b &&& c := by
  rw [← UInt32.toBitVec_inj]
  exact BitVec.and_or_distrib_right

/-- OR-ing permission bits under the mask `0o7777` into a file type leaves the type readable. -/
theorem mode_and_sIfMt {fileType : UInt32} (h : fileType &&& sIfMt = fileType) (perms : UInt32) :
    (fileType ||| (perms &&& 0o7777)) &&& sIfMt = fileType := by
  rw [or_and_distrib, h, UInt32.and_assoc, show (0o7777 : UInt32) &&& sIfMt = 0 by decide]
  simp

/-- And it leaves the permissions readable. -/
theorem mode_and_perms {fileType : UInt32} (h : fileType &&& 0o7777 = 0) (perms : UInt32) :
    (fileType ||| (perms &&& 0o7777)) &&& 0o7777 = perms &&& 0o7777 := by
  rw [or_and_distrib, h, UInt32.and_assoc, UInt32.and_self, UInt32.zero_or]

/-- The type bits of a kind survive the mask: the three types are disjoint from the permissions. -/
theorem NodeKind.fileType_and_sIfMt (k : NodeKind) : k.fileType &&& sIfMt = k.fileType := by
  cases k <;> simp only [fileType] <;> decide

/-- **Metadata built for a kind is coherent with it**, whatever the permission argument. -/
theorem Metadata.new_mode_and_sIfMt (now : Timestamp) (k : NodeKind) (perms uid gid : UInt32) :
    (Metadata.new now k.fileType perms uid gid).mode &&& sIfMt = k.fileType :=
  mode_and_sIfMt k.fileType_and_sIfMt perms

end Mimic
