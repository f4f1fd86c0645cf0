import Mimic.Commands.TarWalk
import Mimic.Vfs.EntryNames

/-!
# What `tar -x` makes of an archive

The members of a tree stand in an archive in preorder, so when one of them is extracted the
directory it goes into is there, and the member is entered in it (`extractMember_graft`). Only the
first one may have directories in front of it that are missing. What an extraction makes of a node
is said by `Made`: a link gets the permissions that every link gets, and owners are not asked for.

After every member, the current directory has the paths of the members so far and nothing else
(`Sown`), and after the last one a copy of the tree (`sown_extractAll`).
-/

namespace Mimic

namespace Interp

namespace Tar

open Vfs

variable {now later : Timestamp} {s : Shell} {u v w : Vfs} {c d p src : NodeId} {name last : Str}
  {base comps dirs rel : List Str} {data : Bytes} {verbose : Bool} {entry : TarEntry}
  {e : Extraction} {n m : Node} {count bytes : ℕ}

/-! ### Directories on the way -/

/-- **Directories that are there are entered.** -/
theorem tarDestLoop_descend (hw : w.WellFormed) (h : w.descend d comps = some p)
    (hdir : (w.node p).kind.isDirectory = true) :
    tarDestLoop later s w d comps = (w, some p) := by
  induction comps generalizing d with
  | nil => rw [tarDestLoop, Option.some.inj h]
  | cons comp comps ih =>
    obtain ⟨x, hx, hrest⟩ := descend_cons.mp h
    have hxdir : (w.node x).kind.isDirectory = true := by
      rcases comps with - | ⟨comp', comps⟩
      · rwa [Option.some.inj hrest]
      · obtain ⟨y, hy, -⟩ := descend_cons.mp hrest
        exact isDirectory_of_child hy
    rw [tarDestLoop, hx]
    dsimp only
    rw [(hw.isDir_iff (lt_of_isDirectory hxdir)).mpr hxdir, if_neg (by decide),
      if_neg (ne_of_child hw hx)]
    exact ih hrest

variable (later s comps) in
/-- **Directories that are missing are made**, in an empty one. -/
theorem tarDestLoop_grown (h : Grown u w c count bytes (· <+: rel))
    (hat : w.descend c rel = some d) (hdir : (w.node d).kind.isDirectory = true)
    (hnodes : u.nodes.length + count + comps.length ≤ maxVfsNodes)
    (hdepth : u.depthOf c + rel.length + comps.length ≤ maxVfsDepth) :
    ∃ w' p, tarDestLoop later s w d comps = (w', some p) ∧
      Grown u w' c (count + comps.length) bytes (· <+: rel ++ comps) ∧
        w'.descend c (rel ++ comps) = some p ∧ (w'.node p).kind.isDirectory = true := by
  induction comps generalizing w d rel count with
  | nil => exact ⟨w, d, rfl, by rwa [List.append_nil], by rwa [List.append_nil], hdir⟩
  | cons comp comps ih =>
    rw [List.length_cons] at hnodes hdepth
    have hnew : ¬ rel ++ [comp] <+: rel := fun hpre ↦ by
      have hle := hpre.length_le
      rw [List.length_append, List.length_singleton] at hle
      omega
    have hnone := h.child_eq_none hat hnew
    have hfull : w.isFull d = false := h.isFull_eq_false hat (by omega) (by omega)
    have hd := lt_of_isDirectory hdir
    have hgraft : Grown u
        (w.graft d comp (.directory ∅) (Metadata.new later sIfDir 0o755 s.uid s.gid)) c (count + 1)
        bytes (· <+: rel ++ [comp]) := by
      refine (h.graft hat hdir rfl ?_ hnew 0).congr fun names ↦ ?_
      · exact Metadata.new_mode_and_sIfMt later (.directory ∅) 0o755 s.uid s.gid
      · rw [List.prefix_concat_iff, or_comm]
    have hmade : (w.graft d comp (.directory ∅)
        (Metadata.new later sIfDir 0o755 s.uid s.gid)).child d comp = some w.nodes.length := by
      rw [child_graft hd rfl, if_pos ⟨rfl, rfl, hdir⟩]
    obtain ⟨w', p, hloop, hgrown, hp, hpdir⟩ := ih hgraft
      (descend_snoc.mpr ⟨d, descend_graft_of_descend hd rfl hnone hat, hmade⟩)
      (by rw [node_graft_self hd]; rfl) (by omega)
      (by rw [List.length_append, List.length_singleton]; omega)
    refine ⟨w', p, ?_, ?_, ?_, hpdir⟩
    · rw [tarDestLoop, hnone]
      dsimp only
      rw [mkdir, hnone]
      dsimp only
      rw [insert_eq, hfull, if_neg Bool.false_ne_true, if_neg (Nat.ne_of_gt hd)]
      exact hloop
    · rw [List.append_cons, List.length_cons, Nat.add_comm comps.length, ← Nat.add_assoc]
      exact hgrown
    · rw [List.append_cons]
      exact hp

/-! ### One member -/

/-- The payload that an archive keeps of a node, without entries. -/
def archivedKind (now : Timestamp) (n : Node) : NodeKind :=
  match n.kind with
  | .directory _ => .directory ∅
  | .dynamicFile generator => .file (generator now)
  | kind => kind

/-- The metadata that a node gets when it is extracted. -/
def extractedMetadata (later : Timestamp) (n : Node) : Metadata :=
  match n.kind with
  | .symlink _ => Metadata.new later sIfLnk 0o777 0 0
  | kind => Metadata.new later kind.fileType (n.metadata.mode &&& 0o7777) n.metadata.uid
    n.metadata.gid

/-- `m` is what is extracted of `n`. -/
def Made (now later : Timestamp) (n m : Node) : Prop :=
  m.kind.bare = archivedKind now n ∧ m.metadata = extractedMetadata later n

theorem children_archivedKind : (archivedKind now n).children = ∅ := by
  rw [archivedKind]
  cases n.kind <;> rfl

theorem bare_archivedKind : (archivedKind now n).bare = archivedKind now n := by
  rw [archivedKind]
  cases n.kind <;> rfl

theorem coherent_extracted :
    (extractedMetadata later n).mode &&& sIfMt = (archivedKind now n).fileType := by
  rw [extractedMetadata, archivedKind]
  cases hkind : n.kind with
  | directory | file | dynamicFile => exact mode_and_sIfMt (NodeKind.fileType_and_sIfMt _) _
  | symlink target => exact mode_and_sIfMt (by decide) _

theorem Made.isDirectory (h : Made now later n m) (hdir : n.kind.isDirectory = true) :
    m.kind.isDirectory = true := by
  have hbare := congrArg NodeKind.isDirectory h.1
  rw [NodeKind.bare, NodeKind.isDirectory_mapChildren, archivedKind] at hbare
  rw [hbare]
  cases hkind : n.kind with
  | directory => rfl
  | _ =>
    rw [hkind] at hdir
    cases hdir

variable (later s data entry) in
/-- What is made of a member. -/
theorem vfs_makeMember (member : Str) (parent : NodeId) (name : Str) (e : Extraction)
    (hroot : s.uid = 0) :
    (makeMember later s data entry member parent name e).vfs =
      if entry.typeflag = 53 then
        (e.vfs.mkdir later parent name entry.mode entry.uid entry.gid).1
      else if entry.typeflag = 50 then (e.vfs.addSymlink later parent name entry.link).1
      else if entry.typeflag = 48 ∨ entry.typeflag = 0 then
        (e.vfs.addFile later parent name (body data entry) entry.mode entry.uid entry.gid).1
      else e.vfs := by
  rw [makeMember, if_pos hroot]
  dsimp only
  split_ifs <;> rfl

/-- **What is made of a member** where there is room for it. -/
theorem extractMember_graft {m : Member} (hroot : s.uid = 0) (hm : m = memberOf now n name)
    (hd : Describes data entry m) (htarget : target [] entry = some (dirs, last))
    (hdest : tarDestLoop later s e.vfs s.cwd dirs = (w, some p)) (hp : p < w.nodes.length)
    (hnone : w.child p last = none) (hfull : w.isFull p = false)
    (hbytes : w.contentBytes + m.contents.length ≤ maxVfsBytes) :
    (extractMember later s data verbose [] entry e).vfs =
      { w.graft p last (archivedKind now n) (extractedMetadata later n) with
        contentBytes := w.contentBytes + m.contents.length } := by
  have hwritable : writableBy (w.node p).metadata s.uid s.gid = true := by
    rw [hroot]
    exact writableBy_root _ _
  have hfile : ¬ w.Crowded p last m.contents := by
    rw [Crowded, hnone, hfull, Option.map_none, Option.getD_none, not_or]
    exact ⟨Nat.not_lt.mpr hbytes, fun h ↦ Bool.false_ne_true h.2⟩
  rw [extractMember_of_some htarget, hdest]
  dsimp only
  rw [hwritable, if_neg (by decide), vfs_makeMember _ _ _ _ _ _ _ _ hroot, hd.typeflag, hd.mode,
    hd.uid, hd.gid, hd.link, hd.body, addFile_eq_of_none _ _ _ _ hp hfile hnone, mkdir, addSymlink,
    hnone, archivedKind, extractedMetadata]
  dsimp only
  rw [insert_eq, insert_eq, hfull, hm, memberOf]
  cases n.kind <;> rfl

/-! ### A whole archive -/

theorem memberOf_name : (memberOf now n name).name =
    if n.kind.isDirectory = true then dirName name else name := by
  rw [memberOf]
  cases n.kind <;> rfl

theorem components_memberOf : components (memberOf now n name).name = components name := by
  rw [memberOf_name]
  split
  · exact components_dirName name
  · rfl

theorem Extractable.memberOf (h : Extractable name) : Extractable (memberOf now n name).name := by
  rw [memberOf_name]
  split
  · exact h.dirName
  · exact h

theorem length_contents_memberOf :
    (memberOf now n name).contents.length = (archivedKind now n).contentLen := by
  rw [memberOf, archivedKind]
  cases n.kind <;> rfl

/-- **The size of an archive** is a matter of the sizes of the files in it. -/
theorem length_archiveOf (now : Timestamp) (v : Vfs) (src : NodeId) (stored : Str) :
    (archiveOf now v src stored).length =
      nextMultipleOf (((v.preorder v.nodes.length src).map fun at' ↦
        tarBlock + nextMultipleOf (archivedKind now (v.node at'.2)).contentLen tarBlock).sum +
          2 * tarBlock) tarBlocking := by
  rw [archiveOf, length_finish, List.length_flatMap, dumped, List.map_map]
  simp only [Function.comp_def, length_encode, memberAt, length_contents_memberOf]

/-- The bytes of contents that an archive has of nodes. -/
def weight (now : Timestamp) (v : Vfs) (tree : List (List Str × NodeId)) : ℕ :=
  (tree.map fun at' ↦ (archivedKind now (v.node at'.2)).contentLen).sum

/-- After the members of the root of a tree and of `done`: the paths under `c` are those in front of
the tree and those of `done`, and each of them has what is made of its node. -/
structure Sown (now later : Timestamp) (v : Vfs) (src : NodeId) (base : List Str) (u : Vfs)
    (c : NodeId) (done : List (List Str × NodeId)) (w : Vfs) : Prop where
  grown : Grown u w c (base.length + done.length) (weight now v (([], src) :: done)) fun names ↦
    names <+: base ∨ ∃ at' ∈ done, names = base ++ at'.1
  made : ∀ at' ∈ ([], src) :: done, base ++ at'.1 ≠ [] →
    ∃ y, w.descend c (base ++ at'.1) = some y ∧ Made now later (v.node at'.2) (w.node y)

/-- What is made stays as it is when something else is. -/
theorem Made.graft {kind : NodeKind} {metadata : Metadata} {y : NodeId}
    (h : Made now later n (w.node y)) (hy : y < w.nodes.length) :
    Made now later n ((w.graft p name kind metadata).node y) :=
  ⟨(bare_graft_of_lt hy).trans h.1, (metadata_graft_of_lt hy).trans h.2⟩

theorem made_graft_self (hp : p < w.nodes.length) : Made now later n
    ((w.graft p name (archivedKind now n) (extractedMetadata later n)).node w.nodes.length) := by
  rw [node_graft_self hp]
  exact ⟨bare_archivedKind, rfl⟩

theorem target_memberOf (h : Extractable name) (hname : entry.name = (memberOf now n name).name)
    (hcomps : components name = dirs ++ [last]) : target [] entry = some (dirs, last) := by
  rw [target_eq (hname ▸ h.memberOf), hname, components_memberOf, hcomps, List.getLast?_concat,
    List.dropLast_concat, Option.map_some]

theorem not_snoc_prefix {names : List Str} {nm : Str} : ¬ names ++ [nm] <+: names := by
  intro hpre
  have hle := hpre.length_le
  rw [List.length_append, List.length_singleton] at hle
  omega

variable (later verbose) in
/-- **One more member**: its path is there with what is made of its node, and what is at other paths
stays. -/
theorem extractMember_grown {paths : List Str → Prop} (h : Grown u w s.cwd count bytes paths)
    (hroot : s.uid = 0) (hname : Extractable name) (hd : Describes data entry (memberOf now n name))
    (hcomps : components name = dirs ++ [last])
    (hdest : tarDestLoop later s e.vfs s.cwd dirs = (w, some p))
    (hp : w.descend s.cwd dirs = some p) (hdir : (w.node p).kind.isDirectory = true)
    (hnew : ¬ paths (dirs ++ [last])) (hnodes : u.nodes.length + count < maxVfsNodes)
    (hbytes : u.contentBytes + (bytes + (archivedKind now n).contentLen) ≤ maxVfsBytes)
    (hdepth : u.depthOf s.cwd + dirs.length < maxVfsDepth) :
    let w' := (extractMember later s data verbose [] entry e).vfs
    Grown u w' s.cwd (count + 1) (bytes + (archivedKind now n).contentLen)
        (fun names ↦ paths names ∨ names = dirs ++ [last]) ∧
      (∃ y, w'.descend s.cwd (dirs ++ [last]) = some y ∧ Made now later n (w'.node y)) ∧
        ∀ m names y, w.descend s.cwd names = some y → Made now later m (w.node y) →
          w'.descend s.cwd names = some y ∧ Made now later m (w'.node y) := by
  have hplt := lt_of_isDirectory hdir
  have hnone := h.child_eq_none hp hnew
  have hlen : (memberOf now n name).contents.length = (archivedKind now n).contentLen :=
    length_contents_memberOf
  have hroom : w.contentBytes + (memberOf now n name).contents.length ≤ maxVfsBytes := by
    have hle := h.contentBytes
    omega
  dsimp only
  rw [extractMember_graft hroot rfl hd (target_memberOf hname hd.name hcomps) hdest hplt hnone
    (h.isFull_eq_false hp hnodes hdepth) hroom, hlen]
  refine ⟨h.graft hp hdir children_archivedKind coherent_extracted hnew _,
    ⟨w.nodes.length, ?_, made_graft_self hplt⟩, fun m names y hy hmade ↦ ⟨?_, hmade.graft ?_⟩⟩
  · rw [descend_setContentBytes, descend_snoc]
    refine ⟨p, descend_graft_of_descend hplt children_archivedKind hnone hp, ?_⟩
    rw [child_graft hplt children_archivedKind, if_pos ⟨rfl, rfl, hdir⟩]
  · rw [descend_setContentBytes]
    exact descend_graft_of_descend hplt children_archivedKind hnone hy
  · exact lt_of_descend h.wellFormed (lt_of_isDirectory h.dir) hy

variable (later verbose) in
/-- **The root of a tree.** -/
theorem sown_first {stored : Str} (hroot : s.uid = 0) (hv : s.vfs.WellFormed)
    (hempty : (s.vfs.node s.cwd).kind = .directory ∅) (hname : Extractable stored)
    (hd : Describes data entry (memberAt now v stored ([], src))) (he : e.vfs = s.vfs)
    (hnodes : s.vfs.nodes.length + (components stored).length ≤ maxVfsNodes)
    (hbytes : s.vfs.contentBytes + weight now v [([], src)] ≤ maxVfsBytes)
    (hdepth : s.vfs.depthOf s.cwd + (components stored).length ≤ maxVfsDepth) :
    Sown now later v src (components stored) s.vfs s.cwd []
      (extractMember later s data verbose [] entry e).vfs := by
  rcases List.eq_nil_or_concat (components stored) with hbase | ⟨dirs, last, hbase⟩
  · -- the root of the tree has no name, and nothing is made of it
    have htarget : target [] entry = none := by
      rw [target_eq (hd.name ▸ hname.memberOf), hd.name, memberAt, components_memberOf]
      exact congrArg (fun comps : List Str ↦ comps.getLast?.map fun last ↦ (comps.dropLast, last))
        hbase
    rw [extractMember_of_none htarget, he, hbase]
    refine ⟨(Grown.start hv hempty _).congr fun names ↦ by simp, fun at' hat hne ↦ ?_⟩
    rw [List.mem_singleton.mp hat] at hne
    exact absurd rfl hne
  · rw [List.concat_eq_append] at hbase
    rw [hbase, List.length_append, List.length_singleton] at hnodes hdepth
    have hstart := Grown.start hv hempty 0
    obtain ⟨w, p, hdest, hgrown, hp, hdir⟩ := tarDestLoop_grown later s dirs hstart rfl hstart.dir
      (by omega) (by rw [List.length_nil]; omega)
    rw [Nat.zero_add, List.nil_append] at hgrown
    rw [List.nil_append] at hp
    have hweight : weight now v [([], src)] = (archivedKind now (v.node src)).contentLen :=
      List.sum_singleton
    obtain ⟨hafter, hself, -⟩ := extractMember_grown later verbose hgrown hroot hname hd hbase
      (he ▸ hdest) hp hdir not_snoc_prefix (by omega)
      (by rw [Nat.zero_add]; exact hweight ▸ hbytes) (by omega)
    rw [hbase]
    refine ⟨?_, fun at' hat _ ↦ ?_⟩
    · rw [hweight, List.length_append, List.length_singleton, List.length_nil, Nat.add_zero]
      rw [Nat.zero_add] at hafter
      refine hafter.congr fun names ↦ ?_
      rw [List.prefix_concat_iff, or_comm]
      simp
    · rw [List.mem_singleton.mp hat, List.append_nil]
      exact hself

theorem weight_snoc (done : List (List Str × NodeId)) (at' : List Str × NodeId) :
    weight now v (done ++ [at']) =
      weight now v done + (archivedKind now (v.node at'.2)).contentLen := by
  rw [weight, weight, List.map_append, List.sum_append, List.map_singleton, List.sum_singleton]

variable (verbose) in
/-- **A member below the root of a tree**, whose directory was extracted before. -/
theorem Sown.step {stored nm : Str} {done : List (List Str × NodeId)} {x : NodeId}
    (h : Sown now later v src (components stored) s.vfs s.cwd done e.vfs) (hroot : s.uid = 0)
    (hname : Extractable (nameAt stored (rel ++ [nm])))
    (hnames : ∀ name ∈ rel ++ [nm], IsEntryName name)
    (hd : Describes data entry (memberAt now v stored (rel ++ [nm], x)))
    (hparent : (rel, p) ∈ ([], src) :: done) (hchild : v.child p nm = some x)
    (hfresh : ∀ y, (rel ++ [nm], y) ∉ done)
    (hnodes : s.vfs.nodes.length + (components stored).length + done.length < maxVfsNodes)
    (hbytes : s.vfs.contentBytes +
      weight now v (([], src) :: (done ++ [(rel ++ [nm], x)])) ≤ maxVfsBytes)
    (hdepth : s.vfs.depthOf s.cwd + (components stored).length + rel.length < maxVfsDepth) :
    Sown now later v src (components stored) s.vfs s.cwd (done ++ [(rel ++ [nm], x)])
      (extractMember later s data verbose [] entry e).vfs := by
  -- the directory that the member goes into
  obtain ⟨q, hq, hdir⟩ : ∃ q, e.vfs.descend s.cwd (components stored ++ rel) = some q ∧
      (e.vfs.node q).kind.isDirectory = true := by
    by_cases hnil : components stored ++ rel = []
    · exact ⟨s.cwd, by rw [hnil]; rfl, h.grown.dir⟩
    · obtain ⟨q, hq, hmade⟩ := h.made (rel, p) hparent hnil
      exact ⟨q, hq, hmade.isDirectory (isDirectory_of_child hchild)⟩
  have hcomps : components (nameAt stored (rel ++ [nm])) = components stored ++ rel ++ [nm] := by
    rw [components_nameAt stored hnames, List.append_assoc]
  have hnew : ¬ (components stored ++ rel ++ [nm] <+: components stored ∨
      ∃ at' ∈ done, components stored ++ rel ++ [nm] = components stored ++ at'.1) := by
    rintro (hpre | ⟨at', hat, heq⟩)
    · have hle := hpre.length_le
      rw [List.length_append, List.length_append, List.length_singleton] at hle
      omega
    · rw [List.append_assoc] at heq
      exact hfresh at'.2 (List.append_cancel_left heq ▸ hat)
  rw [← List.cons_append, weight_snoc] at hbytes
  obtain ⟨hafter, hself, hkept⟩ := extractMember_grown later verbose h.grown hroot hname hd hcomps
    (tarDestLoop_descend h.grown.wellFormed hq hdir) hq hdir hnew (by omega) hbytes
    (by rw [List.length_append]; omega)
  refine ⟨?_, fun at' hat hne ↦ ?_⟩
  · rw [← List.cons_append, weight_snoc, List.length_append, List.length_singleton, ← Nat.add_assoc]
    refine hafter.congr fun names ↦ ?_
    rw [or_assoc]
    refine or_congr_right ?_
    simp only [List.mem_append, List.mem_singleton, or_and_right, exists_or, exists_eq_left,
      List.append_assoc]
  · rw [← List.cons_append, List.mem_append, List.mem_singleton] at hat
    rcases hat with hat | rfl
    · obtain ⟨y, hy, hmade⟩ := h.made at' hat hne
      exact ⟨y, hkept _ _ y hy hmade⟩
    · rw [← List.append_assoc]
      exact hself

/-- There is room below `c` for the tree under `src` of `v`, with the directories of `base` in front
of it: for its nodes, its contents and its levels. -/
structure Room (now : Timestamp) (v : Vfs) (src : NodeId) (base : List Str) (u : Vfs)
    (c : NodeId) : Prop where
  nodes : u.nodes.length + base.length + ((v.preorder v.nodes.length src).length - 1) ≤ maxVfsNodes
  bytes : u.contentBytes + weight now v (v.preorder v.nodes.length src) ≤ maxVfsBytes
  depth : ∀ at' ∈ v.preorder v.nodes.length src,
    u.depthOf c + base.length + at'.1.length ≤ maxVfsDepth

instance (now : Timestamp) (v : Vfs) (src : NodeId) (base : List Str) (u : Vfs) (c : NodeId) :
    Decidable (Room now v src base u c) :=
  decidable_of_iff (_ ∧ _ ∧ _) ⟨fun h ↦ ⟨h.1, h.2.1, h.2.2⟩, fun h ↦ ⟨h.nodes, h.bytes, h.depth⟩⟩

theorem weight_le_of_append (done rest : List (List Str × NodeId)) :
    weight now v done ≤ weight now v (done ++ rest) := by
  rw [weight, weight, List.map_append, List.sum_append]
  exact Nat.le_add_right _ _

variable (verbose) in
/-- **The members of a tree one after the other**, from any of them on. -/
theorem Sown.run {stored : Str} {done rest : List (List Str × NodeId)} {entries : List TarEntry}
    (h : Sown now later v src (components stored) s.vfs s.cwd done e.vfs) (hroot : s.uid = 0)
    (hv : v.WellFormed) (hsrc : src < v.nodes.length)
    (hname : ∀ rel, (∀ nm ∈ rel, IsEntryName nm) → Extractable (nameAt stored rel))
    (hnames : ∀ rel x, v.descend src rel = some x → ∀ nm ∈ rel, IsEntryName nm)
    (htree : v.preorder v.nodes.length src = ([], src) :: (done ++ rest))
    (hd : List.Forall₂ (Describes data) entries (rest.map (memberAt now v stored)))
    (hroom : Room now v src (components stored) s.vfs s.cwd) :
    Sown now later v src (components stored) s.vfs s.cwd (done ++ rest)
      (extractAll later s data verbose [] entries e).vfs := by
  induction rest generalizing done entries e with
  | nil =>
    rw [List.map_nil, List.forall₂_nil_right_iff] at hd
    rwa [hd, List.append_nil]
  | cons at' rest ih =>
    obtain ⟨names, x⟩ := at'
    rw [List.map_cons] at hd
    obtain ⟨entry, entries, hentry, hentries, rfl⟩ := List.forall₂_cons_right_iff.mp hd
    have hmem : (names, x) ∈ v.preorder v.nodes.length src := by
      rw [htree]
      simp
    have hdesc := (mem_preorder_length_iff hv hsrc).mp hmem
    have hne : names ≠ [] := fun hnil ↦ by
      have hpairs := htree ▸ v.pairwise_preorder v.nodes.length src
      exact (List.pairwise_cons.mp hpairs).1 (names, x) (by simp) (hnil ▸ List.nil_prefix)
    obtain ⟨rel, nm, rfl⟩ := (List.eq_nil_or_concat names).resolve_left hne
    rw [List.concat_eq_append] at *
    rw [← List.cons_append] at htree
    obtain ⟨⟨p, hp, hchild⟩, hfresh⟩ := preorder_split htree
    have hnodes := hroom.nodes
    have hbytes := hroom.bytes
    have hdepth := hroom.depth _ hmem
    rw [htree] at hnodes hbytes
    simp only [List.length_cons, List.length_append, List.length_nil] at hnodes hdepth
    rw [List.append_cons, List.cons_append] at hbytes
    have hstep := h.step verbose hroot (hname _ (hnames _ _ hdesc)) (hnames _ _ hdesc) hentry hp
      hchild (fun y hy ↦ hfresh y (List.mem_cons_of_mem _ hy)) (by omega)
      ((Nat.add_le_add_left (weight_le_of_append _ _) _).trans hbytes) (by omega)
    rw [List.cons_append, List.append_cons] at htree
    rw [List.append_cons, extractAll, List.foldl_cons]
    exact ih hstep htree hentries

/-- **The tree that an extraction leaves.** Its paths are those of the tree in the archive, and what
is at each of them is made of the node there, except at the root of a tree that has no name. -/
theorem Sown.exists_copy {rest : List (List Str × NodeId)} {w : Vfs}
    (h : Sown now later v src base u c rest w) (hv : v.WellFormed) (hsrc : src < v.nodes.length)
    (htree : v.preorder v.nodes.length src = ([], src) :: rest) :
    ∃ y, w.descend c base = some y ∧
      (∀ rel, (w.descend y rel).isSome = (v.descend src rel).isSome) ∧
        ∀ rel a b, base ++ rel ≠ [] → v.descend src rel = some a → w.descend y rel = some b →
          Made now later (v.node a) (w.node b) := by
  have hmem : ∀ rel x, v.descend src rel = some x ↔ (rel, x) ∈ ([], src) :: rest := fun rel x ↦ by
    rw [← htree, mem_preorder_length_iff hv hsrc]
  have hbase := (h.grown.paths base).mpr (.inl (List.prefix_refl base))
  obtain ⟨y, hy⟩ := Option.isSome_iff_exists.mp hbase
  have happend : ∀ rel, w.descend c (base ++ rel) = w.descend y rel := fun rel ↦ by
    rw [descend_append, hy, Option.bind_some]
  refine ⟨y, hy, fun rel ↦ Bool.eq_iff_iff.mpr ?_, fun rel a b hne ha hb ↦ ?_⟩
  · rw [← happend, h.grown.paths, Option.isSome_iff_exists]
    simp only [hmem, List.mem_cons, Prod.mk.injEq, List.append_cancel_left_eq]
    constructor
    · rintro (hpre | ⟨at', hat, rfl⟩)
      · refine ⟨src, .inl ⟨?_, rfl⟩⟩
        have hle := hpre.length_le
        rw [List.length_append] at hle
        exact List.eq_nil_of_length_eq_zero (by omega)
      · exact ⟨at'.2, .inr hat⟩
    · rintro ⟨x, ⟨rfl, -⟩ | hat⟩
      · exact .inl (by rw [List.append_nil])
      · exact .inr ⟨(rel, x), hat, rfl⟩
  · obtain ⟨b', hb', hmade⟩ := h.made (rel, a) ((hmem rel a).mp ha) hne
    rw [happend, hb] at hb'
    rwa [Option.some.inj hb']

/-- **An extraction enters names that can be looked up.** -/
theorem entersIn_extractAll {entries : List TarEntry} {members : List Str}
    (h : EntersIn IsEntryName v e.vfs) :
    EntersIn IsEntryName v (extractAll later s data verbose members entries e).vfs := by
  rw [extractAll_eq_run]
  refine GuardedRun.invariant_run (I := fun (e : Extraction) ↦ EntersIn IsEntryName v e.vfs)
    GuardedRun.admissible_true (fun entry e _ he ↦ ?_) h
  obtain ⟨_, hd⟩ := extractMember_makes later s data verbose members entry
    (P := fun w _ ↦ EntersIn IsEntryName v w)
    (fun w u d comp x hname hP hm ↦ hP.makes hname hm) he
  exact hd

end Tar

end Interp

end Mimic
