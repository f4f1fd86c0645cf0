import Mimic.Foundation.GuardedRun
import Mimic.Vfs.Arena

/-!
# Sequences of mutator calls

The public mutators as data, so that a session's use of the filesystem is a list of operations and
the reachable arenas are the ends of runs.

Two of the mutators are loops over others: `mkdir_p` calls `mkdir` once per component and
`deep_copy` calls `mkdir`, `add_file`, `add_dynamic_file` and, for a link, `unlink` and `insert`.
`Op.calls` lists the calls an operation makes when it is started in a given arena, and
`Op.apply_eq_run` says that the operation is exactly these calls, one after the other. The single
call that is not itself public is the link arm of `deep_copy`, which enters a link **with the
metadata of its source** (`Call.copySymlink`).
-/

namespace Mimic

open GuardedRun

namespace Vfs

/-- The public mutators that make no call to another public mutator in a loop. -/
inductive Mutator
  | mkdir (now : Timestamp) (parent : NodeId) (name : Str) (perms uid gid : UInt32)
  | addFile (now : Timestamp) (parent : NodeId) (name : Str) (contents : Bytes)
      (perms uid gid : UInt32)
  | addDynamicFile (now : Timestamp) (parent : NodeId) (name : Str) (generator : Generator)
      (perms uid gid : UInt32)
  | writeFile (now : Timestamp) (id : NodeId) (data : Bytes) (append : Bool)
  | addSymlink (now : Timestamp) (parent : NodeId) (name target : Str)
  | touch (now : Timestamp) (parent : NodeId) (name : Str) (uid gid : UInt32)
  | chmod (id : NodeId) (perms : UInt32)
  | chown (id : NodeId) (uid gid : UInt32)
  | setMtime (id : NodeId) (mtime : Timestamp)
  | setAllMtimes (ts : Timestamp)
  | unlink (parent : NodeId) (name : Str)
  | rename (id newParent : NodeId) (newName : Str)

namespace Mutator

/-- The arena a call leaves behind. -/
def apply : Mutator → Vfs → Vfs
  | mkdir now parent name perms uid gid, v => (v.mkdir now parent name perms uid gid).1
  | addFile now parent name contents perms uid gid, v =>
    (v.addFile now parent name contents perms uid gid).1
  | addDynamicFile now parent name generator perms uid gid, v =>
    (v.addDynamicFile now parent name generator perms uid gid).1
  | writeFile now id data append, v => (v.writeFile now id data append).1
  | addSymlink now parent name target, v => (v.addSymlink now parent name target).1
  | touch now parent name uid gid, v => (v.touch now parent name uid gid).1
  | chmod id perms, v => v.chmod id perms
  | chown id uid gid, v => v.chown id uid gid
  | setMtime id mtime, v => v.setMtime id mtime
  | setAllMtimes ts, v => v.setAllMtimes ts
  | unlink parent name, v => (v.unlink parent name).1
  | rename id newParent newName, v => (v.rename id newParent newName).1

/-- The node ids among the arguments. -/
def ids : Mutator → List NodeId
  | mkdir _ parent _ _ _ _ | addFile _ parent _ _ _ _ _ | addDynamicFile _ parent _ _ _ _ _
  | addSymlink _ parent _ _ | touch _ parent _ _ _ | unlink parent _ => [parent]
  | writeFile _ id _ _ | chmod id _ | chown id _ _ | setMtime id _ => [id]
  | setAllMtimes _ => []
  | rename id newParent _ => [id, newParent]

end Mutator

/-- The public mutators. -/
inductive Op
  | mutator (m : Mutator)
  | mkdirP (now : Timestamp) (path : Str) (perms uid gid : UInt32)
  | deepCopy (now : Timestamp) (src dstParent : NodeId) (dstName : Str)

namespace Op

/-- The arena an operation leaves behind. -/
def apply : Op → Vfs → Vfs
  | mutator m, v => m.apply v
  | mkdirP now path perms uid gid, v => (v.mkdirP now path perms uid gid).1
  | deepCopy now src dstParent dstName, v => (v.deepCopy now src dstParent dstName).1

/-- The node ids among the arguments. -/
def ids : Op → List NodeId
  | mutator m => m.ids
  | mkdirP .. => []
  | deepCopy _ src dstParent _ => [src, dstParent]

/-- Every node id among the arguments is an index of the arena. -/
def InRange (op : Op) (v : Vfs) : Prop := ∀ id ∈ op.ids, id < v.nodes.length

instance (op : Op) (v : Vfs) : Decidable (op.InRange v) :=
  inferInstanceAs (Decidable (∀ id ∈ op.ids, id < v.nodes.length))

end Op

/-- The calls the operations are made of. -/
inductive Call
  | mutator (m : Mutator)
  /-- The link arm of `deep_copy`: drop what is at the destination and enter a link there. -/
  | copySymlink (parent : NodeId) (name target : Str) (metadata : Metadata)

namespace Call

/-- The arena a call leaves behind. -/
def apply : Call → Vfs → Vfs
  | mutator m, v => m.apply v
  | copySymlink parent name target metadata, v =>
    ((v.unlink parent name).1.insert parent name (.symlink target) metadata).1

/-- In-range arguments; the metadata of a copied link is that of a link. -/
def InRange : Call → Vfs → Prop
  | mutator m, v => ∀ id ∈ m.ids, id < v.nodes.length
  | copySymlink parent _ _ metadata, v =>
    parent < v.nodes.length ∧ metadata.mode &&& sIfMt = sIfLnk

end Call

/-! ### Operations as runs of calls -/

/-- The calls of `mkdir_p` over the remaining components. -/
def mkdirPCalls (now : Timestamp) (perms uid gid : UInt32) : Vfs → NodeId → List Str → List Call
  | _, _, [] => []
  | v, current, comp :: rest =>
    if comp = [] ∨ comp = ['.'] then mkdirPCalls now perms uid gid v current rest
    else
      let made := v.mkdir now current comp perms uid gid
      .mutator (.mkdir now current comp perms uid gid) ::
        if made.2 = current then [] else mkdirPCalls now perms uid gid made.1 made.2 rest

/-- The calls of `deep_copy`. -/
def deepCopyCalls (now : Timestamp) : ℕ → Vfs → NodeId → NodeId → Str → List Call
  | 0, _, _, _, _ => []
  | fuel + 1, v, src, dstParent, dstName =>
    let metadata := { (v.node src).metadata with mtime := now }
    match (v.node src).kind with
    | .file contents =>
      [.mutator (.addFile now dstParent dstName contents (metadata.mode &&& 0o7777) metadata.uid
        metadata.gid)]
    | .dynamicFile generator =>
      [.mutator (.addDynamicFile now dstParent dstName generator (metadata.mode &&& 0o7777)
        metadata.uid metadata.gid)]
    | .symlink target => [.copySymlink dstParent dstName target metadata]
    | .directory _ =>
      let made :=
        v.mkdir now dstParent dstName (metadata.mode &&& 0o7777) metadata.uid metadata.gid
      .mutator (.mkdir now dstParent dstName (metadata.mode &&& 0o7777) metadata.uid metadata.gid)
        :: (((made.1.entries src).getD []).foldl (fun acc e ↦
          ((deepCopyInner now fuel acc.1 e.2 made.2 e.1).1,
            acc.2 ++ deepCopyCalls now fuel acc.1 e.2 made.2 e.1)) (made.1, [])).2

/-- The calls an operation makes when started in `v`. -/
def Op.calls : Op → Vfs → List Call
  | mutator m, _ => [.mutator m]
  | mkdirP now path perms uid gid, v => mkdirPCalls now perms uid gid v v.root (splitSlash path)
  | deepCopy now src dstParent dstName, v =>
    deepCopyCalls now (maxCopyDepth + 1) v src dstParent dstName

theorem mkdirPLoop_eq_run (now : Timestamp) (perms uid gid : UInt32) (comps : List Str) :
    ∀ (v : Vfs) (current : NodeId), (mkdirPLoop now perms uid gid v current comps).1 =
      run Call.apply v (mkdirPCalls now perms uid gid v current comps) := by
  induction comps with
  | nil => intro v current; rfl
  | cons comp rest ih =>
    intro v current
    rw [mkdirPLoop, mkdirPCalls]
    split
    · exact ih v current
    · by_cases hnext : (v.mkdir now current comp perms uid gid).2 = current
      · simp only [hnext, if_true]
        rfl
      · simp only [hnext, if_false]
        exact ih _ _

/-- Copying the entries of a directory one after the other runs their calls one after the other. -/
theorem foldl_deepCopy_eq_run {now : Timestamp} {fuel : ℕ} {newDir : NodeId}
    (ih : ∀ v src dst name, (deepCopyInner now fuel v src dst name).1 =
      run Call.apply v (deepCopyCalls now fuel v src dst name))
    (v₀ : Vfs) (es : List (Str × NodeId)) :
    ∀ (v : Vfs) (done : List Call), v = run Call.apply v₀ done →
      es.foldl (fun w e ↦ (deepCopyInner now fuel w e.2 newDir e.1).1) v =
        run Call.apply v₀ (es.foldl (fun acc e ↦ ((deepCopyInner now fuel acc.1 e.2 newDir e.1).1,
          acc.2 ++ deepCopyCalls now fuel acc.1 e.2 newDir e.1)) (v, done)).2 := by
  induction es with
  | nil => intro v done h; exact h
  | cons e es ihes =>
    intro v done h
    rw [List.foldl_cons, List.foldl_cons]
    refine ihes _ _ ?_
    rw [run_append, ← h, ih]

theorem deepCopyInner_eq_run (now : Timestamp) (fuel : ℕ) :
    ∀ (v : Vfs) (src dst : NodeId) (name : Str), (deepCopyInner now fuel v src dst name).1 =
      run Call.apply v (deepCopyCalls now fuel v src dst name) := by
  induction fuel with
  | zero => intro v src dst name; rfl
  | succ fuel ih =>
    intro v src dst name
    rw [deepCopyInner, deepCopyCalls]
    rcases (v.node src).kind with t | contents | target | generator
    · exact foldl_deepCopy_eq_run ih _ _ _ [] rfl
    · rfl
    · rfl
    · rfl

/-- **An operation is the run of its calls.** -/
theorem Op.apply_eq_run (op : Op) (v : Vfs) : op.apply v = run Call.apply v (op.calls v) := by
  cases op with
  | mutator m => rfl
  | mkdirP now path perms uid gid => exact mkdirPLoop_eq_run now perms uid gid _ v v.root
  | deepCopy now src dstParent dstName =>
    exact deepCopyInner_eq_run now (maxCopyDepth + 1) v src dstParent dstName

/-- The calls a run of operations makes. -/
def callsOf : Vfs → List Op → List Call
  | _, [] => []
  | v, op :: ops => op.calls v ++ callsOf (op.apply v) ops

/-- **A run of operations is the run of their calls.** -/
theorem run_ops_eq_run_calls (ops : List Op) :
    ∀ v : Vfs, run Op.apply v ops = run Call.apply v (callsOf v ops) := by
  induction ops with
  | nil => intro v; rfl
  | cons op ops ih => intro v; rw [run_cons, ih, callsOf, run_append, op.apply_eq_run]

end Vfs

end Mimic
