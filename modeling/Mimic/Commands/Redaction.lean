import Mimic.Commands.Grep
import Mimic.Commands.Tar

/-!
# What a reader tells of files that may not be read

A session sees no more of the filesystem than one in which every file that it may not read has been
emptied (`Shell.redacted`): `cat`, `head`, `tail`, `wc` and `grep` answer alike in the two, for any
arguments, and `tar` builds the same archive (`readers_redacted`). So the answers tell nothing of
the contents of those files, through messages and counts and exit statuses neither.

Paths lead to the same nodes in both filesystems, and there they find the same metadata and the same
entries. What is left is that nothing reads a node before it has asked for the right to.
-/

namespace Mimic

/-- A payload with no contents. -/
def NodeKind.emptied : NodeKind → NodeKind
  | .file _ => .file []
  | .dynamicFile _ => .file []
  | kind => kind

/-- A node as a session sees it. -/
def Node.redacted (uid gid : UInt32) (n : Node) : Node :=
  if Interp.readableBy n.metadata uid gid then n else { n with kind := n.kind.emptied }

/-- The filesystem as a session sees it. -/
def Vfs.redacted (uid gid : UInt32) (v : Vfs) : Vfs :=
  { v with nodes := v.nodes.map (Node.redacted uid gid) }

namespace Interp

/-- The session with every file emptied that it may not read. -/
def Shell.redacted (s : Shell) : Shell := { s with vfs := s.vfs.redacted s.uid s.gid }

namespace Redaction

open Readers Grep Tar

variable {v : Vfs} {uid gid : UInt32} {x : NodeId} {now : Timestamp} {s : Shell} {n : Node}

/-! ### Nodes -/

@[simp] theorem metadata_redacted : (n.redacted uid gid).metadata = n.metadata := by
  rw [Node.redacted]
  split <;> rfl

theorem redacted_of_readable (h : readableBy n.metadata uid gid = true) :
    n.redacted uid gid = n := if_pos h

theorem kind_redacted (n : Node) (uid gid : UInt32) : (n.redacted uid gid).kind = n.kind ∨
    (n.redacted uid gid).kind = n.kind.emptied := by
  rw [Node.redacted]
  split
  · exact .inl rfl
  · exact .inr rfl

theorem length_redacted (v : Vfs) : (v.redacted uid gid).nodes.length = v.nodes.length :=
  List.length_map _

theorem node_redacted (v : Vfs) (x : NodeId) :
    (v.redacted uid gid).node x = (v.node x).redacted uid gid := by
  have hdefault : (default : Node).redacted uid gid = default := by
    rw [Node.redacted]
    split <;> rfl
  show (v.nodes.map (Node.redacted uid gid)).getD x default = (v.nodes.getD x default).redacted _ _
  rw [List.getD_eq_getElem?_getD, List.getD_eq_getElem?_getD, List.getElem?_map]
  rcases v.nodes[x]? with - | n
  · exact hdefault.symm
  · rfl

/-! ### Paths -/

theorem child_redacted (v : Vfs) (d : NodeId) (name : Str) :
    (v.redacted uid gid).child d name = v.child d name := by
  rw [Vfs.child, Vfs.child, node_redacted]
  rcases kind_redacted (v.node d) uid gid with h | h <;> rw [h]
  cases (v.node d).kind <;> rfl

theorem entries_redacted (v : Vfs) (d : NodeId) :
    (v.redacted uid gid).entries d = v.entries d := by
  rw [Vfs.entries, Vfs.entries, node_redacted]
  rcases kind_redacted (v.node d) uid gid with h | h <;> rw [h]
  cases (v.node d).kind <;> rfl

theorem parentOf_redacted (v : Vfs) (x : NodeId) :
    (v.redacted uid gid).parentOf x = v.parentOf x := by
  rw [Vfs.parentOf, Vfs.parentOf, node_redacted, Node.redacted]
  split <;> rfl

theorem symlink_redacted_iff (target : Str) :
    ((v.redacted uid gid).node x).kind = .symlink target ↔ (v.node x).kind = .symlink target := by
  rw [node_redacted]
  rcases kind_redacted (v.node x) uid gid with h | h <;> rw [h]
  cases (v.node x).kind <;> simp [NodeKind.emptied]

/-- **Paths lead to the same nodes.** -/
theorem resolve_redacted (v : Vfs) (start : NodeId) (path : Str) :
    (v.redacted uid gid).resolve start path = v.resolve start path :=
  Vfs.resolve_congr (show (v.redacted uid gid).root = v.root from rfl) (child_redacted v)
    (parentOf_redacted v) (fun _ ↦ symlink_redacted_iff) start path

/-! ### Readers -/

theorem metadata_node_redacted (v : Vfs) (x : NodeId) :
    ((v.redacted uid gid).node x).metadata = (v.node x).metadata := by
  rw [node_redacted, metadata_redacted]

theorem node_redacted_of_readable (h : readableBy (v.node x).metadata uid gid = true) :
    (v.redacted uid gid).node x = v.node x := by
  rw [node_redacted, redacted_of_readable h]

@[simp] theorem vfs_redacted (s : Shell) : s.redacted.vfs = s.vfs.redacted s.uid s.gid := rfl
@[simp] theorem uid_redacted (s : Shell) : s.redacted.uid = s.uid := rfl
@[simp] theorem gid_redacted (s : Shell) : s.redacted.gid = s.gid := rfl
@[simp] theorem cwd_redacted (s : Shell) : s.redacted.cwd = s.cwd := rfl
@[simp] theorem stdin_redacted (s : Shell) : s.redacted.stdin = s.stdin := rfl

theorem opened_redacted (now : Timestamp) (s : Shell) : opened now s.redacted = opened now s := by
  funext path
  simp only [opened, vfs_redacted, cwd_redacted, uid_redacted, gid_redacted, resolve_redacted,
    metadata_node_redacted]
  rcases s.vfs.resolve s.cwd path with - | id
  · rfl
  by_cases h : readableBy (s.vfs.node id).metadata s.uid s.gid = true
  · simp only [node_redacted_of_readable h]
  · simp only [h, Bool.not_false, if_true]

theorem catLoop_redacted (out errs : Str) (status : ℤ) (args : List Str) :
    catLoop now s.redacted out errs status args = catLoop now s out errs status args := by
  induction args generalizing out errs status with
  | nil => rfl
  | cons arg args ih =>
    simp only [catLoop, vfs_redacted, cwd_redacted, uid_redacted, gid_redacted, resolve_redacted,
      metadata_node_redacted, ih]
    rcases s.vfs.resolve s.cwd arg with - | id
    · rfl
    by_cases h : readableBy (s.vfs.node id).metadata s.uid s.gid = true
    · simp only [node_redacted_of_readable h]
    · simp only [h, Bool.not_false, if_true]

/-- **A search reads a node that may be read.** -/
theorem grepFile_redacted (u : Unicode) (flags : GrepFlags) (needle : Str) (path : Str) (f : Found)
    (h : readableBy (v.node x).metadata uid gid = true) :
    grepFile u flags needle now (v.redacted uid gid) x path f =
      grepFile u flags needle now v x path f := by
  rw [grepFile, grepFile, node_redacted_of_readable h]

theorem grepDir_redacted (u : Unicode) (needle : Str) (levels : ℕ) (flags : GrepFlags)
    (dir : NodeId) (path : Str) (f : Found) :
    grepDir u now (v.redacted uid gid) needle uid gid levels flags dir path f =
      grepDir u now v needle uid gid levels flags dir path f := by
  induction levels generalizing flags dir path f with
  | zero => rfl
  | succ levels ih =>
    rw [grepDir, grepDir, entries_redacted]
    rcases v.entries dir with - | entries
    · rfl
    refine List.foldl_ext _ _ _ fun f e _ ↦ ?_
    simp only [metadata_node_redacted, ih]
    by_cases h : readableBy (v.node e.2).metadata uid gid = true
    · simp only [h, grepFile_redacted u _ needle _ f h]
    · simp only [h, Bool.false_eq_true, if_false]

theorem grepPath_redacted (u : Unicode) (o : GrepArgs) (needle : Str) (flags : GrepFlags) :
    grepPath u now s.redacted o needle flags = grepPath u now s o needle flags := by
  funext f path
  simp only [grepPath, length_redacted, vfs_redacted, cwd_redacted, uid_redacted, gid_redacted,
    resolve_redacted, metadata_node_redacted, grepDir_redacted]
  rcases s.vfs.resolve s.cwd path with - | id
  · rfl
  by_cases h : readableBy (s.vfs.node id).metadata s.uid s.gid = true
  · simp only [h, grepFile_redacted u _ needle _ f h]
  · simp only [h, Bool.not_false, if_true]

/-! ### `tar` -/

theorem tarWalk_redacted (levels : ℕ) (id : NodeId) (name : Str) (build : TarBuild) :
    tarWalk now s.redacted levels id name build = tarWalk now s levels id name build := by
  induction levels generalizing id name build with
  | zero => rfl
  | succ levels ih =>
    simp only [tarWalk, vfs_redacted, uid_redacted, gid_redacted, metadata_node_redacted, ih]
    by_cases h : readableBy (s.vfs.node id).metadata s.uid s.gid = true
    · simp only [node_redacted_of_readable h]
    · have hkind : ((s.vfs.redacted s.uid s.gid).node id).kind = (s.vfs.node id).kind.emptied := by
        rw [node_redacted, Node.redacted, if_neg h]
      simp only [h, hkind, Bool.not_false, if_true]
      rcases (s.vfs.node id).kind with - | - | - | - <;> rfl

/-- **Readers ask first.** What `cat`, `head`, `tail`, `wc` and `grep` answer, and the archive that
`tar` builds, are the same as if every file that the session may not read were empty. -/
theorem readers_redacted (u : Unicode) (now : Timestamp) (s : Shell) (args : List Str) :
    cat now s.redacted args = cat now s args ∧
      head now s.redacted args = head now s args ∧
      tail now s.redacted args = tail now s args ∧
      wc now s.redacted args = wc now s args ∧
      grep u now s.redacted args = grep u now s args ∧
      ∀ levels id name build,
        tarWalk now s.redacted levels id name build = tarWalk now s levels id name build := by
  refine ⟨?_, ?_, ?_, ?_, ?_, tarWalk_redacted⟩
  · rw [cat, cat, stdin_redacted, catLoop_redacted]
  · rw [head, head, headTail, headTail, opened_redacted, stdin_redacted]
  · rw [tail, tail, headTail, headTail, opened_redacted, stdin_redacted]
  · rw [wc, wc, opened_redacted, stdin_redacted]
  · rw [grep, grep, grepRun, grepRun]
    simp only [stdin_redacted, grepPath_redacted]

end Redaction

end Interp

end Mimic
