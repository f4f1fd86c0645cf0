import Mimic.Vfs.FileTree
import Mimic.Vfs.Accounting
import Mimic.Vfs.Renaming

/-!
# The arena refines the tree of paths

An arena has a tree of paths (`Vfs.fileTree`): what its paths lead to from the root, the number of
its nodes and the bytes it is charged with. A mutator called on nodes of the tree does to the tree
what the operation on paths says (`fileTree_apply`), so a run of edits may be followed on trees
alone, and what a path text means in the arena at the end of the run is what it means in the tree
at the end (`runs_refine`).

The entries of the arena after each elementary change are those before it with one table emptied or
one or two entries given another target, and `Foundation/PathTree` says what that does to a tree.
-/

namespace Mimic

open GuardedRun ParentForest PathTree

namespace Vfs

variable {v w : Vfs} {p x id newParent : NodeId} {name newName : Str} {dir path : List Str}
  {kind : NodeKind} {metadata : Metadata} {now : Timestamp} {perms uid gid : UInt32}

/-- A node without its table of entries. -/
def entry (v : Vfs) (x : NodeId) : Entry := ⟨(v.node x).kind.bare, (v.node x).metadata⟩

/-- The tree of an arena. -/
def fileTree (v : Vfs) : FileTree := ⟨tree v.child v.entry v.root, v.nodes.length, v.contentBytes⟩

/-- An update that changes nothing. -/
theorem modifyNode_eq_self {f : Node → Node} (h : f (v.node id) = v.node id) :
    v.modifyNode id f = v := by
  have hnodes : v.nodes.modify id f = v.nodes := by
    refine List.ext_getElem? fun i ↦ ?_
    rw [List.getElem?_modify]
    rcases hi : v.nodes[i]? with - | n
    · rfl
    · show some (if id = i then f n else n) = some n
      split
      · rename_i heq
        have hn : v.node id = n := by
          rw [node, List.getD_eq_getElem?_getD, heq, hi, Option.getD_some]
        rw [← hn, h]
      · rfl
  rw [modifyNode, hnodes]

/-! ### Paths of an arena -/

theorem reach_child (v : Vfs) (c : NodeId) (names : List Str) :
    reach v.child c names = v.descend c names := by
  induction names generalizing c with
  | nil => rfl
  | cons name names ih => exact congrArg _ (funext fun y ↦ ih y)

theorem fileTree_tree (v : Vfs) (path : List Str) :
    v.fileTree.tree path = (v.descend v.root path).map v.entry := by
  rw [← reach_child]
  rfl

theorem tree_of_descend (h : v.descend v.root path = some x) :
    v.fileTree.tree path = some (v.entry x) := by
  rw [fileTree_tree, h]
  rfl

theorem tree_snoc (h : v.descend v.root dir = some p) (name : Str) :
    v.fileTree.tree (dir ++ [name]) = (v.child p name).map v.entry := by
  rw [fileTree_tree, ← reach_child, reach_snoc, reach_child, h]
  rfl

theorem isDirectory_bare (k : NodeKind) : k.bare.isDirectory = k.isDirectory :=
  NodeKind.isDirectory_mapChildren _ k

theorem bare_of_children (h : kind.children = ∅) : kind.bare = kind := by
  cases kind with
  | directory children =>
    show NodeKind.directory ∅ = .directory children
    exact congrArg _ h.symm
  | _ => rfl

theorem fileTree_isDirectory (h : v.descend v.root dir = some p) :
    v.fileTree.isDirectory dir = (v.node p).kind.isDirectory := by
  rw [FileTree.isDirectory, tree_of_descend h]
  exact isDirectory_bare _

theorem contentLen_snoc (h : v.descend v.root dir = some p) (name : Str) :
    v.fileTree.contentLen (dir ++ [name]) =
      ((v.child p name).map fun id ↦ (v.node id).kind.contentLen).getD 0 := by
  rw [FileTree.contentLen, tree_snoc h]
  rcases v.child p name with - | id
  · rfl
  · exact NodeKind.contentLen_mapChildren _ _

section Arena

variable (hv : v.WellFormed)

include hv

/-- One path alone leads to a node. -/
theorem reach_unique (h : v.descend v.root path = some x) (names : List Str)
    (h' : reach v.child v.root names = some x) : names = path :=
  descend_unique hv (reach_child v v.root names ▸ h') h

theorem full_iff (h : v.descend v.root dir = some p) :
    v.isFull p = true ↔ v.fileTree.Full dir := by
  rw [isFull, depthOf_of_below hv (below_of_descend h), Bool.or_eq_true, decide_eq_true_eq,
    decide_eq_true_eq]
  rfl

/-- What is attached is in the arena. -/
theorem lt_of_reach {names : List Str} (h : reach v.child v.root names = some x) :
    x < v.nodes.length := lt_of_descend hv hv.root_lt (reach_child v v.root names ▸ h)

/-! ### Elementary changes -/

theorem fileTree_graft (hat : v.descend v.root dir = some p) (hkind : kind.children = ∅) :
    (v.graft p name kind metadata).fileTree =
      { v.fileTree with
        tree := if v.fileTree.isDirectory dir then
            plant v.fileTree.tree (dir ++ [name]) ⟨kind, metadata⟩
          else v.fileTree.tree
        used := v.fileTree.used + 1 } := by
  have hp := lt_of_descend hv hv.root_lt hat
  have hold : tree v.child (v.graft p name kind metadata).entry v.root = v.fileTree.tree :=
    tree_congr fun names y hy ↦ by
      rw [entry, entry, bare_graft_of_lt (lt_of_reach hv hy),
        metadata_graft_of_lt (lt_of_reach hv hy)]
  have hnew : (v.graft p name kind metadata).entry v.nodes.length = ⟨kind, metadata⟩ := by
    rw [entry, node_graft_self hp]
    exact congrArg (Entry.mk · metadata) (bare_of_children hkind)
  have htree : tree (v.graft p name kind metadata).child (v.graft p name kind metadata).entry
      v.root = if v.fileTree.isDirectory dir then
        plant v.fileTree.tree (dir ++ [name]) ⟨kind, metadata⟩ else v.fileTree.tree := by
    rw [fileTree_isDirectory hat]
    split
    · rename_i hdir
      have hchild : (v.graft p name kind metadata).child =
          rewire v.child p name (some v.nodes.length) := by
        funext d nm
        rw [child_graft hp hkind, rewire, hdir]
        simp only [and_true]
      rw [hchild, tree_enter ((reach_child v v.root dir).trans hat) (reach_unique hv hat), hold,
        hnew]
      intro nm
      rw [← hchild, child_eq, node_graft_self hp, hkind]
      rfl
    · rename_i hdir
      have hchild : (v.graft p name kind metadata).child = v.child := by
        funext d nm
        rw [child_graft hp hkind, if_neg fun h ↦ hdir h.2.2]
      rw [hchild, hold]
  rw [fileTree, root_graft, htree, length_graft]
  rfl

theorem fileTree_insert (hat : v.descend v.root dir = some p) (hkind : kind.children = ∅) :
    (v.insert p name kind metadata).1.fileTree = v.fileTree.insert dir name kind metadata := by
  rw [insert_eq, FileTree.insert]
  by_cases hfull : v.isFull p = true
  · rw [if_pos hfull, if_pos ((full_iff hv hat).mp hfull)]
  · rw [if_neg hfull, if_neg fun h ↦ hfull ((full_iff hv hat).mpr h)]
    exact fileTree_graft hv hat hkind

theorem fileTree_replace (hat : v.descend v.root path = some id) (hkind : kind.children = ∅)
    (f : Metadata → Metadata) :
    (v.modifyNode id fun n ↦ { n with kind := kind, metadata := f n.metadata }).fileTree =
      v.fileTree.replace path kind (f (v.node id).metadata) := by
  have hid := lt_of_descend hv hv.root_lt hat
  have hchild : (v.modifyNode id fun n ↦ { n with kind := kind, metadata := f n.metadata }).child =
      emptied v.child id := by
    funext d nm
    rw [emptied]
    split
    · rename_i hd
      rw [hd, child_eq, node_modifyNode_self hid, hkind]
      rfl
    · rename_i hd
      rw [child_eq, node_modifyNode_of_ne hd, ← child_eq]
  have hplanted : tree (emptied v.child id)
      (v.modifyNode id fun n ↦ { n with kind := kind, metadata := f n.metadata }).entry v.root =
      plant (tree v.child v.entry v.root) path ⟨kind, f (v.node id).metadata⟩ := by
    refine tree_plant ((reach_child v v.root path).trans hat) (reach_unique hv hat) ?_ ?_
    · intro y hy
      rw [entry, node_modifyNode_of_ne hy, entry]
    · rw [entry, node_modifyNode_self hid]
      exact congrArg (Entry.mk · _) (bare_of_children hkind)
  rw [fileTree, root_modifyNode, hchild, length_modifyNode, FileTree.replace, hplanted]
  rfl

theorem fileTree_setMetadata (hat : v.descend v.root path = some id) (f : Metadata → Metadata) :
    (v.modifyNode id fun n ↦ { n with metadata := f n.metadata }).fileTree =
      v.fileTree.setMetadata path f := by
  have hid := lt_of_descend hv hv.root_lt hat
  have hchild : (v.modifyNode id fun n ↦ { n with metadata := f n.metadata }).child = v.child := by
    funext d nm
    rw [child_eq, child_eq, modifyNode_field Node.kind rfl]
  have hrelabelled : tree v.child
      (v.modifyNode id fun n ↦ { n with metadata := f n.metadata }).entry v.root =
      relabel (tree v.child v.entry v.root) path fun e ↦
        { e with metadata := f e.metadata } := by
    refine tree_relabel ((reach_child v v.root path).trans hat) (reach_unique hv hat) ?_ ?_
    · intro y hy
      rw [entry, node_modifyNode_of_ne hy, entry]
    · rw [entry, node_modifyNode_self hid]
      rfl
  rw [fileTree, root_modifyNode, hchild, length_modifyNode, FileTree.setMetadata, hrelabelled]
  rfl

theorem fileTree_unlink (hat : v.descend v.root dir = some p) (name : Str) :
    (v.unlink p name).1.fileTree = v.fileTree.unlink dir name := by
  have hchild : (v.unlink p name).1.child = rewire v.child p name none := by
    funext d nm
    exact child_modifyChildren_erase v p name d nm
  have hentry : (v.unlink p name).1.entry = v.entry := by
    funext y
    rw [entry, entry, unlink, metadata_modifyChildren]
    refine congrArg (Entry.mk · _) ?_
    exact modifyNode_field (fun n ↦ n.kind.bare) (NodeKind.bare_mapChildren _ _) y
  rw [fileTree, hchild, hentry]
  show FileTree.mk (tree (rewire v.child p name none) v.entry v.root) _ _ = _
  rw [tree_erase ((reach_child v v.root dir).trans hat) (reach_unique hv hat)]
  show FileTree.mk _ (v.unlink p name).1.nodes.length _ = _
  rw [unlink, length_modifyChildren]
  rfl

theorem fileTree_reattach (hid : v.descend v.root path = some id) (hpath : path ≠ [])
    (hnew : v.descend v.root dir = some newParent)
    (hdir : (v.node newParent).kind.isDirectory = true)
    (hout : ∀ rel, v.descend id rel ≠ some newParent) (newName : Str) :
    (v.reattach id newParent newName).fileTree =
      { v.fileTree with tree := move v.fileTree.tree path (dir ++ [newName]) } := by
  obtain ⟨init, last, rfl⟩ := (List.eq_nil_or_concat path).resolve_left hpath
  rw [List.concat_eq_append] at hid ⊢
  obtain ⟨oldParent, hinit, hlast⟩ := descend_snoc.mp hid
  have hchild : (v.reattach id newParent newName).child =
      rewire (rewire v.child oldParent last none) newParent newName (some id) := by
    funext d nm
    rw [child_reattach hdir, hv.entry_parent hlast, hv.entry_name hlast, rewire, rewire]
    simp only [Option.some_inj, eq_comm (a := oldParent)]
  have hentry : (v.reattach id newParent newName).entry = v.entry := by
    funext y
    rw [entry, entry, reattach_field (fun n ↦ n.kind.bare) (fun _ _ ↦ NodeKind.bare_mapChildren _ _)
      (fun _ ↦ rfl), reattach_field Node.metadata (fun _ _ ↦ rfl) fun _ ↦ rfl]
  have hback : ∀ names, v.descend id names ≠ some oldParent := fun names hnames ↦
    climb_ne_self hv.root_parent (hv.grounded (lt_of_descend hv hv.root_lt hinit))
      ((below_of_descend hnames).head hlast |>.climb hv)
  rw [fileTree, root_reattach, hchild, hentry, length_reattach, contentBytes_reattach,
    tree_move ((reach_child v v.root init).trans hinit) (reach_unique hv hinit) hlast
      ((reach_child v v.root dir).trans hnew) (reach_unique hv hnew)
      (fun names ↦ by rw [reach_child]; exact hback names)
      (fun names ↦ by rw [reach_child]; exact hout names)]
  rfl

/-! ### The mutators -/

theorem fileTree_mkdir (hat : v.descend v.root dir = some p) :
    (v.mkdir now p name perms uid gid).1.fileTree =
      v.fileTree.mkdir now dir name perms uid gid := by
  rw [mkdir, FileTree.mkdir, tree_snoc hat]
  rcases hchild : v.child p name with - | e
  · exact fileTree_insert hv hat rfl
  · rfl

theorem fileTree_addSymlink (hat : v.descend v.root dir = some p) (target : Str) :
    (v.addSymlink now p name target).1.fileTree = v.fileTree.addSymlink now dir name target := by
  rw [addSymlink, FileTree.addSymlink, tree_snoc hat]
  rcases hchild : v.child p name with - | e
  · exact fileTree_insert hv hat rfl
  · rfl

theorem fileTree_addDynamicFile (hat : v.descend v.root dir = some p) (generator : Generator) :
    (v.addDynamicFile now p name generator perms uid gid).1.fileTree =
      v.fileTree.addDynamicFile now dir name generator perms uid gid := by
  rw [addDynamicFile, FileTree.addDynamicFile, tree_snoc hat]
  rcases hchild : v.child p name with - | e
  · exact fileTree_insert hv hat rfl
  · exact fileTree_replace hv (descend_snoc.mpr ⟨p, hat, hchild⟩) rfl fun _ ↦ _

omit hv in
/-- A new file in a directory without room. -/
theorem addFile_of_full {contents : Bytes} (hfull : v.isFull p = true)
    (hchild : v.child p name = none) :
    v.addFile now p name contents perms uid gid = (v, p) := by
  rw [addFile, hchild]
  show (if _ > maxVfsBytes then (v, p)
    else if (v.insert p name _ _).2 ≠ p then _ else v.insert p name _ _) = (v, p)
  rw [insert_eq, if_pos hfull, if_neg (not_not_intro rfl), ite_self]

omit hv in
/-- What `add_file` compares with the cap. -/
theorem over_snoc_iff (hat : v.descend v.root dir = some p) (contents : Bytes) :
    v.fileTree.Over (dir ++ [name]) contents ↔ maxVfsBytes < v.contentBytes -
      ((v.child p name).map fun id ↦ (v.node id).kind.contentLen).getD 0 + contents.length := by
  rw [FileTree.Over, contentLen_snoc hat]
  rfl

theorem fileTree_addFile (hat : v.descend v.root dir = some p) (contents : Bytes) :
    (v.addFile now p name contents perms uid gid).1.fileTree =
      v.fileTree.addFile now dir name contents perms uid gid := by
  have hp := lt_of_descend hv hv.root_lt hat
  rw [FileTree.addFile, tree_snoc hat, contentLen_snoc hat]
  by_cases hover : v.fileTree.Over (dir ++ [name]) contents
  · rw [if_pos hover, addFile, if_pos ((over_snoc_iff hat contents).mp hover)]
  have hfits : ¬ v.contentBytes - ((v.child p name).map fun id ↦
      (v.node id).kind.contentLen).getD 0 + contents.length > maxVfsBytes := fun h ↦
    hover ((over_snoc_iff hat contents).mpr h)
  rw [if_neg hover, addFile, if_neg hfits]
  rcases hchild : v.child p name with - | e
  · show (if (v.insert p name _ _).2 ≠ p then _ else v.insert p name _ _).1.fileTree =
      if v.fileTree.Full dir then _ else _
    rw [insert_eq]
    by_cases hfull : v.isFull p = true
    · rw [if_pos hfull, if_neg (not_not_intro rfl), if_pos ((full_iff hv hat).mp hfull)]
    · rw [if_neg hfull, if_pos (Nat.ne_of_gt hp), if_neg fun h ↦ hfull ((full_iff hv hat).mpr h)]
      have hgraft : (v.graft p name (.file contents)
          (Metadata.new now sIfReg perms uid gid)).fileTree = _ := fileTree_graft hv hat rfl
      rw [FileTree.insert, if_neg fun h ↦ hfull ((full_iff hv hat).mpr h), ← hgraft]
      rfl
  · have hreplace := fileTree_replace hv (descend_snoc.mpr ⟨p, hat, hchild⟩)
      (show (NodeKind.file contents).children = ∅ from rfl)
      fun _ ↦ Metadata.new now sIfReg perms uid gid
    rw [if_pos (show (Option.map v.entry (some e)).isSome = true from rfl), ← hreplace]
    rfl

theorem fileTree_writeFile (hat : v.descend v.root path = some id) (data : Bytes)
    (append : Bool) :
    (v.writeFile now id data append).1.fileTree = v.fileTree.writeFile now path data append := by
  rw [writeFile, FileTree.writeFile, tree_of_descend hat, entry]
  rcases hkind : (v.node id).kind with children | contents | target | generator
  · rfl
  · have hlen : v.fileTree.contentLen path = contents.length := by
      rw [FileTree.contentLen, tree_of_descend hat, entry, hkind]
      rfl
    have hreplace := fileTree_replace hv hat
      (show (NodeKind.file (if append then contents ++ data else data)).children = ∅ from rfl)
      fun m ↦ { m with mtime := now }
    have hnew : (if append then contents ++ data else data).length =
        if append then contents.length + data.length else data.length := by
      split
      · exact List.length_append
      · rfl
    have hover : v.fileTree.Over path (if append then contents ++ data else data) ↔
        maxVfsBytes < v.contentBytes - contents.length +
          if append then contents.length + data.length else data.length := by
      rw [FileTree.Over, hlen, hnew]
      rfl
    by_cases h : v.fileTree.Over path (if append then contents ++ data else data)
    · exact (congrArg (fun r : Vfs × Bool ↦ r.1.fileTree) (if_pos (hover.mp h))).trans
        (if_pos h).symm
    · refine (congrArg (fun r : Vfs × Bool ↦ r.1.fileTree) (if_neg (mt hover.mpr h))).trans
        (Eq.trans ?_ (if_neg h).symm)
      rw [← hreplace, hnew]
      rfl
  · rfl
  · rfl

theorem fileTree_setMtime (hat : v.descend v.root path = some id) (mtime : Timestamp) :
    (v.setMtime id mtime).fileTree = v.fileTree.setMtime path mtime :=
  fileTree_setMetadata hv hat fun m ↦ { m with mtime := mtime }

theorem fileTree_touch (hat : v.descend v.root dir = some p) :
    (v.touch now p name uid gid).1.fileTree = v.fileTree.touch now dir name uid gid := by
  have hp := lt_of_descend hv hv.root_lt hat
  rw [FileTree.touch, tree_snoc hat, touch]
  rcases hchild : v.child p name with - | e
  · show ((v.addFile now p name [] 0o644 uid gid).1.setMtime
      (v.addFile now p name [] 0o644 uid gid).2 now).fileTree = if _ then _ else _
    by_cases hrefused : v.fileTree.Over (dir ++ [name]) [] ∨ v.fileTree.Full dir
    · have hsame : v.addFile now p name [] 0o644 uid gid = (v, p) := by
        rcases hrefused with hover | hfull
        · have hover := (over_snoc_iff hat []).mp hover
          rw [addFile, if_pos hover, hchild]
          rfl
        · exact addFile_of_full ((full_iff hv hat).mpr hfull) hchild
      rw [hsame, if_pos hrefused]
      exact fileTree_setMtime hv hat now
    · rw [if_neg hrefused, ← fileTree_addFile hv hat]
      rw [not_or] at hrefused
      have hroom : ¬ v.Crowded p name [] := by
        rw [Crowded, not_or]
        exact ⟨mt (over_snoc_iff hat []).mpr hrefused.1,
          fun h ↦ hrefused.2 ((full_iff hv hat).mp h.2)⟩
      rw [addFile_eq_of_none now 0o644 uid gid hp hroom hchild]
      -- the new file has this time already
      have hnode : (v.graft p name (.file [])
          (Metadata.new now sIfReg 0o644 uid gid)).node v.nodes.length = _ := node_graft_self hp
      exact congrArg fileTree (modifyNode_eq_self ((congrArg (fun n : Node ↦
        { n with metadata := { n.metadata with mtime := now } }) hnode).trans hnode.symm))
  · exact fileTree_setMtime hv (descend_snoc.mpr ⟨p, hat, hchild⟩) now

theorem fileTree_setAllMtimes (ts : Timestamp) :
    (v.setAllMtimes ts).fileTree = v.fileTree.setAllMtimes ts := by
  have hchild : (v.setAllMtimes ts).child = v.child := by
    funext d nm
    rw [child_eq, child_eq, setAllMtimes_field Node.kind fun _ ↦ rfl]
  let refresh : Entry → Entry := fun e ↦ { e with metadata := { e.metadata with mtime := ts } }
  have htree : tree v.child (v.setAllMtimes ts).entry v.root = fun path ↦
      (v.fileTree.tree path).map refresh := by
    have hentry : ∀ names y, reach v.child v.root names = some y →
        (v.setAllMtimes ts).entry y = refresh (v.entry y) := fun names y hy ↦ by
      have hlt := lt_of_reach hv hy
      have hnode : (v.setAllMtimes ts).node y =
          { v.node y with metadata := { (v.node y).metadata with mtime := ts } } := by
        rw [node, setAllMtimes, List.getD_eq_getElem?_getD, List.getElem?_map,
          List.getElem?_eq_getElem hlt, getElem_eq_node hlt]
        rfl
      rw [entry, hnode]
      rfl
    funext path
    rw [tree_congr hentry, fileTree_tree, ← reach_child,
      Option.map_map]
    rfl
  rw [fileTree, hchild]
  show FileTree.mk (tree v.child (v.setAllMtimes ts).entry v.root) _ _ = _
  rw [htree]
  show FileTree.mk _ (v.setAllMtimes ts).nodes.length _ = _
  rw [setAllMtimes, List.length_map]
  rfl

theorem fileTree_rename (hid : v.descend v.root path = some id)
    (hnew : v.descend v.root dir = some newParent) (newName : Str) :
    (v.rename id newParent newName).1.fileTree = v.fileTree.rename path dir newName := by
  have hbehind : ∀ rel, v.descend v.root (path ++ rel) = v.descend id rel := fun rel ↦ by
    rw [descend_append, hid, Option.bind_some]
  have hfront : (∃ rel, v.descend id rel = some newParent) ↔ path <+: dir := by
    constructor
    · rintro ⟨rel, hrel⟩
      exact ⟨rel, descend_unique hv ((hbehind rel).trans hrel) hnew⟩
    · rintro ⟨rel, rfl⟩
      exact ⟨rel, (hbehind rel).symm.trans hnew⟩
  have hdeep : (∃ rel x, v.descend id rel = some x ∧
      maxVfsDepth < dir.length + 1 + rel.length) ↔ v.fileTree.TooDeep path dir := by
    refine exists_congr fun rel ↦ ?_
    rw [exists_and_right, fileTree_tree, hbehind, Option.isSome_map, Option.isSome_iff_exists]
  have hrefused := rename_refused_iff hv ⟨path, hid⟩ hnew newName
  rw [hfront, hdeep, ← fileTree_isDirectory hnew] at hrefused
  rw [FileTree.rename]
  split
  · rename_i hmoves
    have hdone : (v.rename id newParent newName).2 ≠ false := fun h ↦ by
      rcases hrefused.mp h with hdir | hpre | hdeep
      · exact absurd hmoves.1 (by rw [hdir]; exact Bool.false_ne_true)
      · exact hmoves.2.1 hpre
      · exact hmoves.2.2 hdeep
    rw [rename_eq] at hdone ⊢
    split at hdone
    · rename_i hguard
      rw [if_pos hguard]
      refine fileTree_reattach hv hid (fun hnil ↦ ?_) hnew hguard.1
        (fun rel hrel ↦ hmoves.2.1 (hfront.mp ⟨rel, hrel⟩)) newName
      exact hmoves.2.1 (hnil ▸ List.nil_prefix)
    · exact absurd rfl hdone
  · rename_i hstays
    have hnot : (v.rename id newParent newName).2 = false := by
      refine hrefused.mpr ?_
      by_contra h
      rw [not_or, not_or, Bool.not_eq_false] at h
      exact hstays h
    rw [rename_eq] at hnot ⊢
    split at hnot
    · cases hnot
    · rename_i hguard
      rw [if_neg hguard]

/-! ### Edits -/

/-- The ids that paths lead to are in the arena. -/
theorem lt_of_mutator {e : Edit} {m : Mutator} (h : e.mutator v = some m) :
    ∀ id ∈ m.ids, id < v.nodes.length := by
  have hlt : ∀ {path : List Str} {id}, v.descend v.root path = some id → id < v.nodes.length :=
    fun hat ↦ lt_of_descend hv hv.root_lt hat
  cases e with
  | setAllMtimes ts =>
    cases h
    exact fun id hid ↦ absurd hid List.not_mem_nil
  | rename path dir newName =>
    obtain ⟨id, hid, h⟩ := Option.bind_eq_some_iff.mp h
    obtain ⟨newParent, hnew, rfl⟩ := Option.map_eq_some_iff.mp h
    exact List.forall_mem_cons.mpr ⟨hlt hid, List.forall_mem_singleton.mpr (hlt hnew)⟩
  | _ =>
    obtain ⟨id, hid, rfl⟩ := Option.map_eq_some_iff.mp h
    exact List.forall_mem_singleton.mpr (hlt hid)

theorem wellFormed_apply (e : Edit) : (e.apply v).WellFormed := by
  rw [Edit.apply]
  rcases hm : e.mutator v with - | m
  · exact hv
  · exact Op.wellFormed (.mutator m) (lt_of_mutator hv hm) hv

omit hv in
/-- An edit of one path. -/
theorem fileTree_apply_of {e : Edit} {f : NodeId → Mutator}
    (hmutator : e.mutator v = (v.descend v.root path).map f) (hpaths : e.paths = [path])
    (hact : ∀ id, v.descend v.root path = some id →
      ((f id).apply v).fileTree = e.act v.fileTree) :
    (e.apply v).fileTree = e.spec v.fileTree := by
  rw [Edit.apply, hmutator]
  rcases hat : v.descend v.root path with - | id
  · refine (e.spec_of_missing (t := v.fileTree) (by rw [hpaths]; exact List.mem_cons_self) ?_).symm
    rw [fileTree_tree, hat]
    rfl
  · refine (hact id hat).trans (e.spec_of_present ?_).symm
    rw [hpaths, List.forall_mem_singleton, tree_of_descend hat]
    rfl

/-- **An edit does to the tree what it says.** -/
theorem fileTree_apply (e : Edit) : (e.apply v).fileTree = e.spec v.fileTree := by
  cases e with
  | mkdir => exact fileTree_apply_of rfl rfl fun _ hat ↦ fileTree_mkdir hv hat
  | addFile => exact fileTree_apply_of rfl rfl fun _ hat ↦ fileTree_addFile hv hat _
  | addDynamicFile =>
    exact fileTree_apply_of rfl rfl fun _ hat ↦ fileTree_addDynamicFile hv hat _
  | writeFile => exact fileTree_apply_of rfl rfl fun _ hat ↦ fileTree_writeFile hv hat _ _
  | addSymlink => exact fileTree_apply_of rfl rfl fun _ hat ↦ fileTree_addSymlink hv hat _
  | touch => exact fileTree_apply_of rfl rfl fun _ hat ↦ fileTree_touch hv hat
  | chmod path perms =>
    exact fileTree_apply_of rfl rfl fun _ hat ↦ fileTree_setMetadata hv hat fun m ↦
      { m with mode := (m.mode &&& sIfMt) ||| (perms &&& 0o7777) }
  | chown path uid gid =>
    exact fileTree_apply_of rfl rfl fun _ hat ↦ fileTree_setMetadata hv hat fun m ↦
      { m with uid := uid, gid := gid }
  | setMtime => exact fileTree_apply_of rfl rfl fun _ hat ↦ fileTree_setMtime hv hat _
  | setAllMtimes ts =>
    refine (fileTree_setAllMtimes hv ts).trans (Edit.spec_of_present (.setAllMtimes ts) ?_).symm
    exact fun path h ↦ absurd h List.not_mem_nil
  | unlink => exact fileTree_apply_of rfl rfl fun _ hat ↦ fileTree_unlink hv hat _
  | rename path dir newName =>
    rw [Edit.apply, Edit.mutator]
    rcases hid : v.descend v.root path with - | id
    · refine (Edit.spec_of_missing _ (t := v.fileTree) List.mem_cons_self ?_).symm
      rw [fileTree_tree, hid]
      rfl
    rcases hnew : v.descend v.root dir with - | newParent
    · refine (Edit.spec_of_missing _ (t := v.fileTree) (List.mem_cons_of_mem _ List.mem_cons_self)
        ?_).symm
      rw [fileTree_tree, hnew]
      rfl
    · refine (fileTree_rename hv hid hnew newName).trans
        (Edit.spec_of_present (.rename path dir newName) ?_).symm
      refine List.forall_mem_cons.mpr ⟨?_, List.forall_mem_singleton.mpr ?_⟩
      · rw [tree_of_descend hid]
        rfl
      · rw [tree_of_descend hnew]
        rfl

/-! ### Path texts -/

/-- A node and the path that leads to it, or neither. -/
abbrev Agrees (v : Vfs) : Option NodeId → Option (List Str) → Prop :=
  Option.Rel fun x path ↦ v.descend v.root path = some x

theorem descend_dropLast (hat : v.descend v.root path = some x) :
    v.descend v.root path.dropLast = some (v.parentOrRoot x) := by
  rcases List.eq_nil_or_concat path with rfl | ⟨init, last, rfl⟩
  · obtain rfl := Option.some.inj hat
    rw [parentOrRoot, hv.root_parent]
    rfl
  · rw [List.concat_eq_append] at hat ⊢
    obtain ⟨y, hy, hlast⟩ := descend_snoc.mp hat
    rw [List.dropLast_concat, parentOrRoot, hv.entry_parent hlast]
    exact hy

theorem agrees_walk {followNode : NodeId → Option NodeId}
    {followPath : List Str → Option (List Str)}
    (hfollow : ∀ y path, v.descend v.root path = some y →
      v.Agrees (followNode y) (followPath path))
    (comps : List Str) (hat : v.descend v.root path = some x) :
    v.Agrees (walkComps v followNode x comps) (v.fileTree.walk followPath path comps) := by
  induction comps generalizing x path with
  | nil => exact .some hat
  | cons comp comps ih =>
    rw [walkComps, FileTree.walk]
    split
    · exact ih hat
    split
    · exact ih (descend_dropLast hv hat)
    rw [tree_snoc hat, Option.isSome_map]
    rcases hchild : v.child x comp with - | y
    · exact .none
    have hy := hfollow y _ (descend_snoc.mpr ⟨x, hat, hchild⟩)
    rw [if_pos (show (some y).isSome = true from rfl)]
    rcases hnode : followNode y with - | next <;>
      rcases htarget : followPath (path ++ [comp]) with - | target <;>
      rw [hnode, htarget] at hy
    · rw [Option.bind_none]
      simp only [hnode]
      exact .none
    · cases hy
    · cases hy
    · rcases hy with ⟨hnext⟩
      rw [Option.bind_some]
      simp only [hnode]
      exact ih hnext

/-- **A path text means in the arena what it means in its tree.** -/
theorem agrees_resolveInner (budget : ℕ) (text : Str) (hat : v.descend v.root path = some x) :
    v.Agrees (v.resolveInner budget x text) (v.fileTree.lookup budget path text) := by
  induction budget generalizing x path text with
  | zero => exact .none
  | succ budget ih =>
    have hstart : v.descend v.root (if text.head? = some '/' then [] else path) =
        some (v.origin x text) := by
      rw [origin]
      split
      · rfl
      · exact hat
    refine agrees_walk hv (fun y at' hy ↦ ?_) (splitSlash text) hstart
    rw [follow, FileTree.follow, tree_of_descend hy, entry]
    rcases hkind : (v.node y).kind with children | contents | target | generator
    · exact .some hy
    · exact .some hy
    · exact ih target (descend_dropLast hv hy)
    · exact .some hy

/-! ### Runs -/

/-- **Runs of edits may be followed on trees**: the tree of the arena at the end is what the
operations on paths make of the tree at the start, and there a path text means the same from every
directory. -/
theorem runs_refine (edits : List Edit) :
    (run Edit.apply v edits).fileTree = run Edit.spec v.fileTree edits ∧
      ∀ start c text, (run Edit.apply v edits).descend (run Edit.apply v edits).root start =
          some c →
        (run Edit.apply v edits).Agrees ((run Edit.apply v edits).resolve c text)
          ((run Edit.spec v.fileTree edits).lookup (maxSymlinkDepth + 1) start text) := by
  induction edits generalizing v with
  | nil => exact ⟨rfl, fun start c text hat ↦ agrees_resolveInner hv _ text hat⟩
  | cons e edits ih =>
    rw [run_cons, run_cons, ← fileTree_apply hv e]
    exact ih (wellFormed_apply hv e)

end Arena

/-- `/a` with a file in it, moved to `/b/c`. -/
theorem runs_refine_moved :
    let edits : List Edit := [.mkdir 0 [] ['a'] 0o755 0 0, .addFile 0 [['a']] ['f'] [1] 0o644 0 0,
      .mkdir 0 [] ['b'] 0o755 0 0, .rename [['a']] [['b']] ['c']]
    (run Edit.apply (new 0) edits).fileTree = run Edit.spec (new 0).fileTree edits ∧
      ∀ start c text, (run Edit.apply (new 0) edits).descend
          (run Edit.apply (new 0) edits).root start = some c →
        (run Edit.apply (new 0) edits).Agrees ((run Edit.apply (new 0) edits).resolve c text)
          ((run Edit.spec (new 0).fileTree edits).lookup (maxSymlinkDepth + 1) start text) :=
  runs_refine (wellFormed_new 0) _

/-- **The calls of mutators on attached nodes are edits.** -/
theorem exists_edit {m : Mutator} (h : ∀ id ∈ m.ids, v.Attached id) :
    ∃ e : Edit, e.mutator v = some m := by
  have hat : ∀ {id}, id ∈ m.ids → ∃ path, v.descend v.root path = some id := fun hid ↦ h _ hid
  cases m with
  | mkdir now parent name perms uid gid =>
    obtain ⟨dir, hdir⟩ := hat List.mem_cons_self
    exact ⟨.mkdir now dir name perms uid gid, Option.map_eq_some_iff.mpr ⟨parent, hdir, rfl⟩⟩
  | addFile now parent name contents perms uid gid =>
    obtain ⟨dir, hdir⟩ := hat List.mem_cons_self
    exact ⟨.addFile now dir name contents perms uid gid,
      Option.map_eq_some_iff.mpr ⟨parent, hdir, rfl⟩⟩
  | addDynamicFile now parent name generator perms uid gid =>
    obtain ⟨dir, hdir⟩ := hat List.mem_cons_self
    exact ⟨.addDynamicFile now dir name generator perms uid gid,
      Option.map_eq_some_iff.mpr ⟨parent, hdir, rfl⟩⟩
  | writeFile now id data append =>
    obtain ⟨path, hpath⟩ := hat List.mem_cons_self
    exact ⟨.writeFile now path data append, Option.map_eq_some_iff.mpr ⟨id, hpath, rfl⟩⟩
  | addSymlink now parent name target =>
    obtain ⟨dir, hdir⟩ := hat List.mem_cons_self
    exact ⟨.addSymlink now dir name target, Option.map_eq_some_iff.mpr ⟨parent, hdir, rfl⟩⟩
  | touch now parent name uid gid =>
    obtain ⟨dir, hdir⟩ := hat List.mem_cons_self
    exact ⟨.touch now dir name uid gid, Option.map_eq_some_iff.mpr ⟨parent, hdir, rfl⟩⟩
  | chmod id perms =>
    obtain ⟨path, hpath⟩ := hat List.mem_cons_self
    exact ⟨.chmod path perms, Option.map_eq_some_iff.mpr ⟨id, hpath, rfl⟩⟩
  | chown id uid gid =>
    obtain ⟨path, hpath⟩ := hat List.mem_cons_self
    exact ⟨.chown path uid gid, Option.map_eq_some_iff.mpr ⟨id, hpath, rfl⟩⟩
  | setMtime id mtime =>
    obtain ⟨path, hpath⟩ := hat List.mem_cons_self
    exact ⟨.setMtime path mtime, Option.map_eq_some_iff.mpr ⟨id, hpath, rfl⟩⟩
  | setAllMtimes ts => exact ⟨.setAllMtimes ts, rfl⟩
  | unlink parent name =>
    obtain ⟨dir, hdir⟩ := hat List.mem_cons_self
    exact ⟨.unlink dir name, Option.map_eq_some_iff.mpr ⟨parent, hdir, rfl⟩⟩
  | rename id newParent newName =>
    obtain ⟨path, hpath⟩ := hat List.mem_cons_self
    obtain ⟨dir, hdir⟩ := hat (List.mem_cons_of_mem _ List.mem_cons_self)
    exact ⟨.rename path dir newName, Option.bind_eq_some_iff.mpr
      ⟨id, hpath, Option.map_eq_some_iff.mpr ⟨newParent, hdir, rfl⟩⟩⟩

end Vfs

end Mimic
