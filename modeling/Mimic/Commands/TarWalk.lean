import Mimic.Commands.MemberNames
import Mimic.Commands.TarRecords
import Mimic.Shell.Redirects
import Mimic.Vfs.Preorder

/-!
# What `tar -c` writes

For root, `tar_walk` leaves nothing out: it appends a member for every node of the tree, in preorder
(`tarWalk_eq`), and `tar -c` of an operand writes these members as an archive (`create_eq`).
-/

namespace Mimic

namespace Interp

namespace Tar

open Vfs

variable {now : Timestamp} {s : Shell} {v : Vfs} {id parent : NodeId} {name stored : Str}
  {levels : ℕ} {build : TarBuild} {n : Node}

/-! ### Members of a tree -/

/-- The member that `tar_walk` writes for a node. -/
def memberOf (now : Timestamp) (n : Node) (name : Str) : Member :=
  match n.kind with
  | .directory _ => ⟨dirName name, [], n.metadata, 53, []⟩
  | .file contents => ⟨name, [], n.metadata, 48, contents⟩
  | .symlink target => ⟨name, target, n.metadata, 50, []⟩
  | .dynamicFile generator => ⟨name, [], n.metadata, 48, generator now⟩

/-- The member of a path of a tree that is called `stored`. -/
def memberAt (now : Timestamp) (v : Vfs) (stored : Str) (at' : List Str × NodeId) : Member :=
  memberOf now (v.node at'.2) (nameAt stored at'.1)

/-- The members of the tree under a node. -/
def dumped (now : Timestamp) (v : Vfs) (levels : ℕ) (id : NodeId) (stored : Str) : List Member :=
  (v.preorder levels id).map (memberAt now v stored)

theorem dumped_succ (now : Timestamp) (v : Vfs) (levels : ℕ) (id : NodeId) (stored : Str) :
    dumped now v (levels + 1) id stored = memberOf now (v.node id) stored ::
      ((v.entries id).getD []).flatMap fun e ↦ dumped now v levels e.2 (dirName stored ++ e.1) := by
  rw [dumped, preorder, List.map_cons, List.map_flatMap]
  refine congrArg _ (List.flatMap_congr fun e _ ↦ ?_)
  rw [List.map_map]
  rfl

/-! ### The walk -/

/-- The archive with more members, and more of a listing. -/
def TarBuild.Gains (build : TarBuild) (members : List Member) (build' : TarBuild) : Prop :=
  ∃ log, build' = { build with
    bytes := build.bytes ++ members.flatMap Member.encode
    log := log }

theorem TarBuild.Gains.trans {members members' : List Member} {build' build'' : TarBuild}
    (h : build.Gains members build') (h' : build'.Gains members' build'') :
    build.Gains (members ++ members') build'' := by
  obtain ⟨log, rfl⟩ := h
  obtain ⟨log', rfl⟩ := h'
  exact ⟨log', by rw [List.flatMap_append, List.append_assoc]⟩

theorem TarBuild.Gains.archive {members : List Member} {build' : TarBuild}
    (h : build.Gains members build') : build'.archive = build.archive := by
  obtain ⟨log, rfl⟩ := h
  rfl

theorem gains_logged {members : List Member} {build' : TarBuild} (h : build.Gains members build')
    (name : Str) : build.Gains members (build'.logged name) := by
  obtain ⟨log, rfl⟩ := h
  rw [TarBuild.logged]
  split
  · exact ⟨_, rfl⟩
  · exact ⟨_, rfl⟩

theorem gains_withFile (build : TarBuild) (name : Str) (metadata : Metadata) (contents : Bytes) :
    build.Gains [⟨name, [], metadata, 48, contents⟩] (build.withFile name metadata contents) := by
  refine gains_logged ⟨build.log, ?_⟩ name
  rw [List.flatMap_singleton, Member.encode, Member.header, TarBuild.withHeader, tarWriteHeader]
  simp only [List.append_assoc]

theorem gains_withHeader (build : TarBuild) (name link : Str) (metadata : Metadata)
    (typeflag : UInt8) :
    build.Gains [⟨name, link, metadata, typeflag, []⟩]
      (build.withHeader name link metadata typeflag 0) := by
  refine ⟨build.log, ?_⟩
  rw [List.flatMap_singleton, Member.encode, Member.header, TarBuild.withHeader, tarWriteHeader]
  have hpad : nextMultipleOf 0 tarBlock = 0 := by decide
  simp only [List.length_nil, hpad, Nat.sub_self, List.replicate_zero, List.append_nil]

theorem readableBy_root (metadata : Metadata) (gid : UInt32) :
    readableBy metadata 0 gid = true := by
  rw [readableBy]
  exact if_pos rfl

/-- Walks one after the other. -/
theorem gains_foldl {es : List (Str × NodeId)} {step : TarBuild → Str × NodeId → TarBuild}
    {members : Str × NodeId → List Member}
    (hstep : ∀ e ∈ es, ∀ build' : TarBuild, build'.archive = build.archive →
      build'.Gains (members e) (step build' e)) :
    build.Gains (es.flatMap members) (es.foldl step build) := by
  induction es generalizing build with
  | nil => exact ⟨build.log, by simp⟩
  | cons e es ih =>
    have hfirst := hstep e List.mem_cons_self build rfl
    rw [List.flatMap_cons, List.foldl_cons]
    exact hfirst.trans (ih fun e' he' build' hbuild' ↦
      hstep e' (List.mem_cons_of_mem e he') build' (hbuild'.trans hfirst.archive))

/-- **The walk writes the members of the tree**, if the archive is not in it. -/
theorem tarWalk_eq (hroot : s.uid = 0)
    (hout : ∀ at' ∈ s.vfs.preorder levels id, build.archive ≠ some at'.2) :
    build.Gains (dumped now s.vfs levels id name) (tarWalk now s levels id name build) := by
  induction levels generalizing id name build with
  | zero => exact ⟨build.log, by rw [tarWalk, dumped, preorder]; simp⟩
  | succ levels ih =>
    have hself : ¬ build.archive = some id := hout ([], id) (by rw [preorder]; simp)
    have hreadable : readableBy (s.vfs.node id).metadata s.uid s.gid = true := by
      rw [hroot]
      exact readableBy_root _ _
    rw [tarWalk, if_neg hself, dumped_succ, entries_getD_eq, memberOf]
    dsimp only
    cases hkind : (s.vfs.node id).kind with
    | symlink target =>
      exact gains_logged (gains_withHeader build name target _ 50) name
    | file contents =>
      dsimp only
      rw [hreadable]
      exact gains_withFile build name _ contents
    | dynamicFile generator =>
      dsimp only
      rw [hreadable]
      exact gains_withFile build name _ (generator now)
    | directory children =>
      dsimp only
      rw [hreadable]
      have hentries : ∀ e ∈ children.toList, ∀ at' ∈ s.vfs.preorder levels e.2,
          build.archive ≠ some at'.2 := fun e he at' hat ↦ by
        refine hout (e.1 :: at'.1, at'.2) ?_
        rw [preorder, entries_getD_eq, hkind]
        exact List.mem_cons_of_mem _ (List.mem_flatMap.mpr ⟨e, he, List.mem_map_of_mem hat⟩)
      have hheader := gains_logged
        (gains_withHeader build (dirName name) [] (s.vfs.node id).metadata 53) (dirName name)
      refine hheader.trans (gains_foldl fun e he build' hbuild' ↦ ih fun at' hat ↦ ?_)
      rw [hbuild', hheader.archive]
      exact hentries e he at' hat

/-! ### The archive -/

/-- The archive of the tree under a node. -/
def archiveOf (now : Timestamp) (v : Vfs) (id : NodeId) (stored : Str) : Bytes :=
  finish ((dumped now v v.nodes.length id stored).flatMap Member.encode)

theorem writableBy_root (metadata : Metadata) (gid : UInt32) :
    writableBy metadata 0 gid = true := by
  rw [writableBy]
  exact if_pos rfl

/-- **What `tar -c` does to the filesystem**, for root and an operand that names something. -/
theorem create_eq {archivePath operand : Str} {verbose : Bool} (hroot : s.uid = 0)
    (hparent : resolveParent s archivePath = some (parent, name))
    (hsrc : s.vfs.resolve s.cwd operand = some id)
    (hout : ∀ at' ∈ s.vfs.preorder s.vfs.nodes.length id, s.vfs.child parent name ≠ some at'.2) :
    (create now verbose archivePath [operand] s).1.vfs =
      (s.vfs.addFile now parent name (archiveOf now s.vfs id (storedName operand)) 0o644 s.uid
        s.gid).1 := by
  have hwritable : writableBy (s.vfs.node parent).metadata s.uid s.gid = true := by
    rw [hroot]
    exact writableBy_root _ _
  have hloop : (createLoop now s ⟨[], [], [], 0, verbose, s.vfs.child parent name⟩ []
      [operand]).bytes =
        (dumped now s.vfs s.vfs.nodes.length id (storedName operand)).flatMap Member.encode := by
    rw [createLoop, hsrc]
    dsimp only
    rw [createLoop, tarStripLeading_fst]
    have hwalk : TarBuild.Gains
        ⟨[], [], (tarStripLeading (stripTrailingSlashes operand) [] []).2.2, 0, verbose,
          s.vfs.child parent name⟩
        (dumped now s.vfs s.vfs.nodes.length id (storedName operand)) _ := tarWalk_eq hroot hout
    obtain ⟨log, hbuild⟩ := hwalk
    exact congrArg TarBuild.bytes hbuild
  rw [create, if_neg (List.cons_ne_nil _ _), hparent]
  dsimp only
  rw [hwritable, hloop]
  rw [if_neg (by simp), archiveOf]
  split_ifs <;> rfl

variable (now) in
/-- **What is written is there**, unless a cap refuses it. -/
theorem exists_archive {bytes : Bytes} (perms uid gid : UInt32) (hv : v.WellFormed)
    (hdir : (v.node parent).kind.isDirectory = true) (hroom : ¬ v.Crowded parent name bytes) :
    ∃ file, (v.addFile now parent name bytes perms uid gid).1.child parent name = some file ∧
      ((v.addFile now parent name bytes perms uid gid).1.node file).kind = .file bytes := by
  have hp := lt_of_isDirectory hdir
  cases hchild : v.child parent name with
  | none =>
    rw [addFile_eq_of_none now perms uid gid hp hroom hchild]
    refine ⟨v.nodes.length, (child_graft hp rfl parent name).trans (if_pos ⟨rfl, rfl, hdir⟩), ?_⟩
    exact congrArg Node.kind (node_graft_self hp)
  | some file =>
    rw [addFile_eq_of_some now perms uid gid hroom hchild]
    refine ⟨file, ?_, congrArg Node.kind (node_modifyNode_self (hv.entry_lt hchild))⟩
    have hne : parent ≠ file := fun heq ↦ ne_of_child hv hchild heq.symm
    exact (child_eq _ _ _).trans ((congrArg (fun n : Node ↦ n.kind.children[name]?)
      (node_modifyNode_of_ne hne)).trans ((child_eq _ _ _).symm.trans hchild))

end Tar

end Interp

end Mimic
