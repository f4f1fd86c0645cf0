import Mimic.Vfs.Arena

/-!
# What a write does to names, parents and entry tables

Thirteen mutators write to the arena, but the tree structure only ever changes in three ways:

* a **prune** (`Prunes`) keeps every node, name and parent link, and adds no entry. In-place
  overwrites, metadata changes and `unlink` are prunes;
* a **graft** (`graft`) appends one node and enters it in its parent's table;
* a **reattachment** (`reattach`) moves one node to another place, which is what is left of `rename`
  once its three guards have passed.

`insert_eq` and `rename_eq` say that `insert` and `rename` do nothing else. Everything later that is
about tree shape is proved for these three and never unfolds a mutator again.
-/

namespace Mimic

namespace Vfs

variable {v w : Vfs} {id parent x d c : NodeId} {name : Str} {f : Node → Node}

/-! ### Reads after writes -/

theorem node_of_le (h : v.nodes.length ≤ x) : v.node x = default := by
  rw [node, List.getD_eq_getElem?_getD, List.getElem?_eq_none h, Option.getD_none]

theorem child_eq (v : Vfs) (d : NodeId) (name : Str) :
    v.child d name = (v.node d).kind.children[name]? := by
  rw [child]
  cases (v.node d).kind <;> simp [NodeKind.children]

theorem entries_getD_eq (v : Vfs) (d : NodeId) :
    (v.entries d).getD [] = (v.node d).kind.children.toList := by
  rw [entries]
  cases (v.node d).kind <;> simp [NodeKind.children]

/-- The entries of a directory are exactly its children. -/
theorem mem_entries_iff : (name, c) ∈ (v.entries d).getD [] ↔ v.child d name = some c := by
  rw [entries_getD_eq, child_eq, Std.ExtTreeMap.mem_toList_iff_getElem?_eq_some]

/-- Entries are sorted by name. -/
theorem pairwise_entries (v : Vfs) (d : NodeId) :
    (((v.entries d).getD []).map Prod.fst).Pairwise fun a b ↦ compare a b = .lt := by
  rw [entries_getD_eq, List.pairwise_map]
  exact Std.ExtTreeMap.ordered_keys_toList

theorem nodup_entries (v : Vfs) (d : NodeId) : (((v.entries d).getD []).map Prod.fst).Nodup := by
  rw [entries_getD_eq, List.Nodup, List.pairwise_map]
  exact (Std.ExtTreeMap.distinct_keys_toList).imp fun {a b} hab heq ↦ hab (by rw [heq]; simp)

theorem isDirectory_of_child (h : v.child d name = some c) :
    (v.node d).kind.isDirectory = true :=
  NodeKind.isDirectory_of_getElem? (child_eq v d name ▸ h)

theorem lt_of_isDirectory (h : (v.node d).kind.isDirectory = true) : d < v.nodes.length := by
  by_contra hge
  rw [node_of_le (Nat.le_of_not_lt hge)] at h
  cases h

theorem lt_of_isDir (h : (v.node d).metadata.isDir = true) : d < v.nodes.length := by
  by_contra hge
  rw [node_of_le (Nat.le_of_not_lt hge)] at h
  exact absurd h (by decide)

/-- Whatever has an entry is in the arena. -/
theorem lt_of_child (h : v.child d name = some c) : d < v.nodes.length :=
  lt_of_isDirectory (isDirectory_of_child h)

@[simp] theorem length_modifyNode : (v.modifyNode id f).nodes.length = v.nodes.length :=
  List.length_modify f v.nodes id

@[simp] theorem root_modifyNode : (v.modifyNode id f).root = v.root := rfl

@[simp] theorem contentBytes_modifyNode : (v.modifyNode id f).contentBytes = v.contentBytes := rfl

theorem node_modifyNode_self (h : id < v.nodes.length) :
    (v.modifyNode id f).node id = f (v.node id) := by
  simp only [node, modifyNode, List.getD_eq_getElem?_getD, List.getElem?_modify]
  rw [List.getElem?_eq_getElem h]
  simp

theorem node_modifyNode_of_ne (h : x ≠ id) : (v.modifyNode id f).node x = v.node x := by
  simp only [node, modifyNode, List.getD_eq_getElem?_getD, List.getElem?_modify]
  rcases v.nodes[x]? with - | n <;> simp [Ne.symm h]

/-- A field the update leaves alone is left alone everywhere. -/
theorem modifyNode_field {β : Type*} (p : Node → β) (hf : p (f (v.node id)) = p (v.node id))
    (x : NodeId) : p ((v.modifyNode id f).node x) = p (v.node x) := by
  by_cases hx : x = id
  · subst hx
    by_cases hlt : x < v.nodes.length
    · rw [node_modifyNode_self hlt, hf]
    · have hle := Nat.le_of_not_lt hlt
      rw [node_of_le hle, node_of_le (by rwa [length_modifyNode])]
  · rw [node_modifyNode_of_ne hx]

@[simp] theorem length_modifyChildren
    {g : Std.ExtTreeMap Str NodeId → Std.ExtTreeMap Str NodeId} :
    (v.modifyChildren id g).nodes.length = v.nodes.length :=
  length_modifyNode

@[simp] theorem root_modifyChildren {g : Std.ExtTreeMap Str NodeId → Std.ExtTreeMap Str NodeId} :
    (v.modifyChildren id g).root = v.root := rfl

@[simp] theorem name_modifyChildren {g : Std.ExtTreeMap Str NodeId → Std.ExtTreeMap Str NodeId}
    (x : NodeId) : ((v.modifyChildren id g).node x).name = (v.node x).name :=
  modifyNode_field Node.name rfl x

@[simp] theorem parentOf_modifyChildren
    {g : Std.ExtTreeMap Str NodeId → Std.ExtTreeMap Str NodeId} (x : NodeId) :
    (v.modifyChildren id g).parentOf x = v.parentOf x :=
  modifyNode_field Node.parent rfl x

@[simp] theorem metadata_modifyChildren
    {g : Std.ExtTreeMap Str NodeId → Std.ExtTreeMap Str NodeId} (x : NodeId) :
    ((v.modifyChildren id g).node x).metadata = (v.node x).metadata :=
  modifyNode_field Node.metadata rfl x

@[simp] theorem fileType_modifyChildren
    {g : Std.ExtTreeMap Str NodeId → Std.ExtTreeMap Str NodeId} (x : NodeId) :
    ((v.modifyChildren id g).node x).kind.fileType = (v.node x).kind.fileType :=
  modifyNode_field (fun n ↦ n.kind.fileType) (NodeKind.fileType_mapChildren _ _) x

@[simp] theorem isDirectory_modifyChildren
    {g : Std.ExtTreeMap Str NodeId → Std.ExtTreeMap Str NodeId} (x : NodeId) :
    ((v.modifyChildren id g).node x).kind.isDirectory = (v.node x).kind.isDirectory :=
  modifyNode_field (fun n ↦ n.kind.isDirectory) (NodeKind.isDirectory_mapChildren _ _) x

theorem child_modifyChildren_of_ne {g : Std.ExtTreeMap Str NodeId → Std.ExtTreeMap Str NodeId}
    (h : d ≠ id) : (v.modifyChildren id g).child d name = v.child d name := by
  rw [child_eq, child_eq, modifyChildren, node_modifyNode_of_ne h]

/-- The one lookup a table update can change. -/
theorem child_modifyChildren_self {g : Std.ExtTreeMap Str NodeId → Std.ExtTreeMap Str NodeId}
    (hdir : (v.node id).kind.isDirectory = true) :
    (v.modifyChildren id g).child id name = (g (v.node id).kind.children)[name]? := by
  have hlt : id < v.nodes.length := by
    by_contra hlt
    rw [node_of_le (Nat.le_of_not_lt hlt)] at hdir
    cases hdir
  rw [child_eq, modifyChildren, node_modifyNode_self hlt, NodeKind.children_mapChildren,
    if_pos hdir]

theorem child_modifyChildren_of_not_dir
    {g : Std.ExtTreeMap Str NodeId → Std.ExtTreeMap Str NodeId}
    (hdir : (v.node id).kind.isDirectory = false) :
    (v.modifyChildren id g).child d name = v.child d name := by
  by_cases hd : d = id
  · subst hd
    rw [child_eq, child_eq]
    refine congrArg (fun t : Std.ExtTreeMap Str NodeId ↦ t[name]?)
      (modifyNode_field (fun n ↦ n.kind.children) ?_ d)
    rw [NodeKind.children_mapChildren, hdir]
    rfl
  · exact child_modifyChildren_of_ne hd

/-- Erasing an entry: the lookup at `(id, name)` is gone, every other is as before. -/
theorem child_modifyChildren_erase (v : Vfs) (id : NodeId) (name : Str) (d : NodeId) (nm : Str) :
    (v.modifyChildren id fun children ↦ children.erase name).child d nm =
      if d = id ∧ nm = name then none else v.child d nm := by
  by_cases hd : d = id
  · subst hd
    rcases hdir : (v.node d).kind.isDirectory with - | -
    · rw [child_modifyChildren_of_not_dir hdir]
      have hnone : v.child d nm = none := by
        rcases hc : v.child d nm with - | c
        · rfl
        · rw [isDirectory_of_child hc] at hdir; cases hdir
      rw [hnone, ite_self]
    · rw [child_modifyChildren_self hdir, Std.ExtTreeMap.getElem?_erase, child_eq]
      by_cases hnm : name = nm
      · simp [hnm]
      · simp [hnm, Ne.symm hnm]
  · rw [child_modifyChildren_of_ne hd, if_neg fun h ↦ hd h.1]

/-- Entering a node: only the lookup at `(id, name)` changes, and only in a directory. -/
theorem child_modifyChildren_insert (v : Vfs) (id : NodeId) (name : Str) (c d : NodeId)
    (nm : Str) :
    (v.modifyChildren id fun children ↦ children.insert name c).child d nm =
      if d = id ∧ nm = name ∧ (v.node id).kind.isDirectory = true then some c
      else v.child d nm := by
  by_cases hd : d = id
  · subst hd
    rcases hdir : (v.node d).kind.isDirectory with - | -
    · rw [child_modifyChildren_of_not_dir hdir]
      simp
    · rw [child_modifyChildren_self hdir, Std.ExtTreeMap.getElem?_insert, child_eq]
      by_cases hnm : name = nm
      · simp [hnm]
      · simp [hnm, Ne.symm hnm]
  · rw [child_modifyChildren_of_ne hd, if_neg fun h ↦ hd h.1]

/-! ### Prunes -/

/-- `w` has the nodes, names and parent links of `v` and no entry that `v` does not have. -/
structure Prunes (v w : Vfs) : Prop where
  root : w.root = v.root
  length : w.nodes.length = v.nodes.length
  name : ∀ x, (w.node x).name = (v.node x).name
  parentOf : ∀ x, w.parentOf x = v.parentOf x
  child : ∀ d name c, w.child d name = some c → v.child d name = some c
  coherent : ∀ x < v.nodes.length, (v.node x).Coherent → (w.node x).Coherent

theorem Prunes.refl (v : Vfs) : Prunes v v :=
  ⟨rfl, rfl, fun _ ↦ rfl, fun _ ↦ rfl, fun _ _ _ h ↦ h, fun _ _ h ↦ h⟩

/-- Updating one node prunes when the update keeps its place, shrinks its table and stays
coherent. -/
theorem Prunes.modifyNode (hname : (f (v.node id)).name = (v.node id).name)
    (hparent : (f (v.node id)).parent = (v.node id).parent)
    (hchild : ∀ (nm : Str) (c : NodeId), (f (v.node id)).kind.children[nm]? = some c →
      (v.node id).kind.children[nm]? = some c)
    (hcoh : (v.node id).Coherent → (f (v.node id)).Coherent) : Prunes v (v.modifyNode id f) where
  root := rfl
  length := length_modifyNode
  name := modifyNode_field Node.name hname
  parentOf := modifyNode_field Node.parent hparent
  child d nm c h := by
    rw [child_eq] at h ⊢
    by_cases hd : d = id
    · subst hd
      have hlt : d < v.nodes.length := by
        have := lt_of_child ((child_eq (v.modifyNode d f) d nm).trans h)
        rwa [length_modifyNode] at this
      rw [node_modifyNode_self hlt] at h
      exact hchild nm c h
    · rwa [node_modifyNode_of_ne hd] at h
  coherent x hx h := by
    by_cases hxid : x = id
    · subst hxid
      rw [node_modifyNode_self hx]
      exact hcoh h
    · rwa [node_modifyNode_of_ne hxid]

/-- Replacing a payload by one without entries is a prune. -/
theorem Prunes.replace {kind : NodeKind} {metadata : Metadata} (hkind : kind.children = ∅)
    (hcoh : metadata.mode &&& sIfMt = kind.fileType) :
    Prunes v (v.modifyNode id fun n ↦ { n with kind := kind, metadata := metadata }) := by
  refine Prunes.modifyNode rfl rfl (fun nm c h ↦ ?_) fun _ ↦ hcoh
  simp only [hkind] at h
  simp at h

/-- Changing metadata alone is a prune as long as the type bits stay. -/
theorem Prunes.setMetadata {g : Metadata → Metadata}
    (hg : ∀ m, (g m).mode &&& sIfMt = m.mode &&& sIfMt) :
    Prunes v (v.modifyNode id fun n ↦ { n with metadata := g n.metadata }) :=
  Prunes.modifyNode rfl rfl (fun _ _ h ↦ h) fun h ↦ (hg _).trans h

/-- The content counter is no part of the skeleton. -/
theorem Prunes.setContentBytes (h : Prunes v w) (bytes : ℕ) :
    Prunes v { w with contentBytes := bytes } :=
  ⟨h.root, h.length, h.name, h.parentOf, h.child, h.coherent⟩

theorem Prunes.unlink (v : Vfs) (parent : NodeId) (name : Str) :
    Prunes v (v.unlink parent name).1 where
  root := rfl
  length := length_modifyChildren
  name := name_modifyChildren
  parentOf := parentOf_modifyChildren
  child d nm c h := by
    rw [Vfs.unlink, child_modifyChildren_erase] at h
    split at h
    · cases h
    · exact h
  coherent x _ h := by
    simpa only [Node.Coherent, Vfs.unlink, metadata_modifyChildren, fileType_modifyChildren] using h

/-- A field that does not read the mtime survives stamping the whole arena. -/
theorem setAllMtimes_field {β : Type*} {ts : Timestamp} (p : Node → β)
    (hp : ∀ n : Node, p { n with metadata := { n.metadata with mtime := ts } } = p n) (x : NodeId) :
    p ((v.setAllMtimes ts).node x) = p (v.node x) := by
  simp only [node, setAllMtimes, List.getD_eq_getElem?_getD, List.getElem?_map]
  rcases v.nodes[x]? with - | n
  · rfl
  · exact hp n

theorem Prunes.setAllMtimes (v : Vfs) (ts : Timestamp) : Prunes v (v.setAllMtimes ts) where
  root := rfl
  length := List.length_map _
  name := setAllMtimes_field Node.name fun _ ↦ rfl
  parentOf := setAllMtimes_field Node.parent fun _ ↦ rfl
  child d nm c h := by
    rw [child_eq] at h ⊢
    rwa [setAllMtimes_field Node.kind fun _ ↦ rfl] at h
  coherent x _ h := by
    rwa [Node.Coherent, setAllMtimes_field Node.kind fun _ ↦ rfl,
      setAllMtimes_field (fun n ↦ n.metadata.mode) fun _ ↦ rfl]

/-! ### Grafts -/

/-- Append a node under `parent` and enter it there: an `insert` that no cap refuses. -/
def graft (v : Vfs) (parent : NodeId) (name : Str) (kind : NodeKind) (metadata : Metadata) : Vfs :=
  ({ v with nodes := v.nodes ++ [⟨name, some parent, kind, metadata⟩] } : Vfs).modifyChildren parent
    fun children ↦ children.insert name v.nodes.length

theorem insert_eq (v : Vfs) (parent : NodeId) (name : Str) (kind : NodeKind)
    (metadata : Metadata) :
    v.insert parent name kind metadata =
      if v.isFull parent then (v, parent)
      else (v.graft parent name kind metadata, v.nodes.length) := rfl

section Graft

variable {kind : NodeKind} {metadata : Metadata}

@[simp] theorem length_graft :
    (v.graft parent name kind metadata).nodes.length = v.nodes.length + 1 := by
  rw [graft, length_modifyChildren, List.length_append, List.length_singleton]

theorem length_lt_length_graft :
    v.nodes.length < (v.graft parent name kind metadata).nodes.length := by
  rw [length_graft]
  exact Nat.lt_succ_self _

@[simp] theorem root_graft : (v.graft parent name kind metadata).root = v.root := rfl

private theorem node_push_of_lt {n : Node} (hx : x < v.nodes.length) :
    ({ v with nodes := v.nodes ++ [n] } : Vfs).node x = v.node x := by
  simp only [node, List.getD_eq_getElem?_getD, List.getElem?_append_left hx]

private theorem node_push_self {n : Node} :
    ({ v with nodes := v.nodes ++ [n] } : Vfs).node v.nodes.length = n := by
  simp [node, List.getD_eq_getElem?_getD]

theorem node_graft_self_of_ne (hne : v.nodes.length ≠ parent) :
    (v.graft parent name kind metadata).node v.nodes.length =
      ⟨name, some parent, kind, metadata⟩ := by
  rw [graft, modifyChildren, node_modifyNode_of_ne hne, node_push_self]

theorem node_graft_self (hp : parent < v.nodes.length) :
    (v.graft parent name kind metadata).node v.nodes.length =
      ⟨name, some parent, kind, metadata⟩ :=
  node_graft_self_of_ne (Nat.ne_of_gt hp)

theorem metadata_graft_of_lt (hx : x < v.nodes.length) :
    ((v.graft parent name kind metadata).node x).metadata = (v.node x).metadata := by
  rw [graft, metadata_modifyChildren, node_push_of_lt hx]

theorem node_graft_of_ne (hx : x < v.nodes.length) (hne : x ≠ parent) :
    (v.graft parent name kind metadata).node x = v.node x := by
  rw [graft, modifyChildren, node_modifyNode_of_ne hne, node_push_of_lt hx]

theorem name_graft_of_lt (hx : x < v.nodes.length) :
    ((v.graft parent name kind metadata).node x).name = (v.node x).name := by
  rw [graft, name_modifyChildren, node_push_of_lt hx]

theorem bare_graft_of_lt (hx : x < v.nodes.length) :
    ((v.graft parent name kind metadata).node x).kind.bare = (v.node x).kind.bare := by
  rw [graft, modifyChildren, modifyNode_field (fun n ↦ n.kind.bare) (NodeKind.bare_mapChildren _ _),
    node_push_of_lt hx]

theorem parentOf_graft_of_lt (hx : x < v.nodes.length) :
    (v.graft parent name kind metadata).parentOf x = v.parentOf x := by
  rw [graft, parentOf_modifyChildren, parentOf, node_push_of_lt hx, parentOf]

theorem parentOf_graft_self (hp : parent < v.nodes.length) :
    (v.graft parent name kind metadata).parentOf v.nodes.length = some parent := by
  rw [parentOf, node_graft_self hp]

theorem coherent_graft_of_lt (hx : x < v.nodes.length) (h : (v.node x).Coherent) :
    ((v.graft parent name kind metadata).node x).Coherent := by
  simpa only [Node.Coherent, graft, metadata_modifyChildren, fileType_modifyChildren,
    node_push_of_lt hx] using h

/-- A node without entries adds no entries. -/
theorem child_push {n : Node} (hkind : n.kind.children = ∅) (d : NodeId) (nm : Str) :
    ({ v with nodes := v.nodes ++ [n] } : Vfs).child d nm = v.child d nm := by
  rw [child_eq, child_eq]
  rcases Nat.lt_trichotomy d v.nodes.length with hd | hd | hd
  · rw [node_push_of_lt hd]
  · subst hd
    rw [node_push_self, hkind, node_of_le le_rfl]
    rfl
  · rw [node_of_le (Nat.le_of_lt hd), node_of_le (by simpa using hd)]

/-- **The entries after a graft**: the new one, and those there were. -/
theorem child_graft (hp : parent < v.nodes.length) (hkind : kind.children = ∅) (d : NodeId)
    (nm : Str) :
    (v.graft parent name kind metadata).child d nm =
      if d = parent ∧ nm = name ∧ (v.node parent).kind.isDirectory = true then some v.nodes.length
      else v.child d nm := by
  rw [graft, child_modifyChildren_insert, child_push hkind, node_push_of_lt hp]

end Graft

/-! ### Reattachment -/

/-- Move `id` under `newParent` as `newName`: the four writes of `rename` after its guards. -/
def reattach (v : Vfs) (id newParent : NodeId) (newName : Str) : Vfs :=
  let detached := match v.parentOf id with
    | some oldParent => v.modifyChildren oldParent fun children ↦ children.erase (v.node id).name
    | none => v
  let cleared := detached.modifyChildren newParent fun children ↦ children.erase newName
  let moved := cleared.modifyNode id fun n ↦ { n with name := newName, parent := some newParent }
  moved.modifyChildren newParent fun children ↦ children.insert newName id

theorem rename_eq (v : Vfs) (id newParent : NodeId) (newName : Str) :
    v.rename id newParent newName =
      if (v.node newParent).kind.isDirectory = true ∧ v.isAncestorOf id newParent = false ∧
          v.depthOf newParent + 1 + v.heightOf id ≤ maxVfsDepth then
        (v.reattach id newParent newName, true)
      else (v, false) := by
  rw [rename]
  rcases (v.node newParent).kind.isDirectory with - | -
  · simp
  · rcases v.isAncestorOf id newParent with - | -
    · by_cases hdepth : v.depthOf newParent + 1 + v.heightOf id ≤ maxVfsDepth
      · rw [if_neg (by decide), if_neg (by decide), if_neg (Nat.not_lt.2 hdepth),
          if_pos ⟨rfl, rfl, hdepth⟩]
        rfl
      · simp [hdepth, Nat.lt_of_not_le hdepth]
    · simp

section Reattach

variable {newParent : NodeId} {newName : Str}

/-- The arena once the old entry of `id` and the entry at its destination are gone. -/
private def cleared (v : Vfs) (id newParent : NodeId) (newName : Str) : Vfs :=
  (match v.parentOf id with
    | some oldParent => v.modifyChildren oldParent fun children ↦ children.erase (v.node id).name
    | none => v).modifyChildren newParent fun children ↦ children.erase newName

private theorem reattach_eq : v.reattach id newParent newName =
    ((v.cleared id newParent newName).modifyNode id fun n ↦
      { n with name := newName, parent := some newParent }).modifyChildren newParent
        fun children ↦ children.insert newName id := rfl

/-- Detaching changes entry tables only. -/
private theorem cleared_field {β : Type*} (p : Node → β)
    (hp : ∀ (n : Node) g, p { n with kind := n.kind.mapChildren g } = p n) (x : NodeId) :
    p ((v.cleared id newParent newName).node x) = p (v.node x) := by
  rw [cleared, modifyChildren, modifyNode_field p (hp _ _)]
  rcases v.parentOf id with - | oldParent
  · rfl
  · exact modifyNode_field p (hp _ _) x

private theorem length_cleared :
    (v.cleared id newParent newName).nodes.length = v.nodes.length := by
  rw [cleared, length_modifyChildren]
  cases v.parentOf id <;> simp

private theorem child_cleared (d : NodeId) (nm : Str) :
    (v.cleared id newParent newName).child d nm =
      if d = newParent ∧ nm = newName then none
      else if v.parentOf id = some d ∧ nm = (v.node id).name then none
      else v.child d nm := by
  rw [cleared, child_modifyChildren_erase]
  rcases v.parentOf id with - | oldParent
  · simp
  · rw [child_modifyChildren_erase]
    simp only [Option.some.injEq, eq_comm]

@[simp] theorem root_reattach : (v.reattach id newParent newName).root = v.root := by
  simp only [reattach, root_modifyChildren, root_modifyNode]
  cases v.parentOf id <;> rfl

@[simp] theorem contentBytes_reattach :
    (v.reattach id newParent newName).contentBytes = v.contentBytes := by
  simp only [reattach, modifyChildren, contentBytes_modifyNode]
  cases v.parentOf id <;> rfl

@[simp] theorem length_reattach :
    (v.reattach id newParent newName).nodes.length = v.nodes.length := by
  rw [reattach_eq, length_modifyChildren, length_modifyNode, length_cleared]

/-- A field other than name, parent and entry table survives a reattachment everywhere. -/
theorem reattach_field {β : Type*} (p : Node → β)
    (hp : ∀ (n : Node) g, p { n with kind := n.kind.mapChildren g } = p n)
    (hplace : ∀ n : Node, p { n with name := newName, parent := some newParent } = p n)
    (x : NodeId) : p ((v.reattach id newParent newName).node x) = p (v.node x) := by
  rw [reattach_eq, modifyChildren, modifyNode_field p (hp _ _), modifyNode_field p (hplace _),
    cleared_field p hp]

theorem coherent_reattach :
    ((v.reattach id newParent newName).node x).Coherent ↔ (v.node x).Coherent := by
  rw [Node.Coherent, Node.Coherent,
    reattach_field (fun n ↦ n.metadata.mode) (fun _ _ ↦ rfl) fun _ ↦ rfl,
    reattach_field (fun n ↦ n.kind.fileType) (fun _ _ ↦ NodeKind.fileType_mapChildren _ _)
      fun _ ↦ rfl]

theorem name_reattach_self (hid : id < v.nodes.length) :
    ((v.reattach id newParent newName).node id).name = newName := by
  rw [reattach_eq, name_modifyChildren, node_modifyNode_self (by rwa [length_cleared])]

theorem name_reattach_of_ne (hx : x ≠ id) :
    ((v.reattach id newParent newName).node x).name = (v.node x).name := by
  rw [reattach_eq, name_modifyChildren, node_modifyNode_of_ne hx,
    cleared_field Node.name fun _ _ ↦ rfl]

/-- **One parent link changes**: that of the node moved. -/
theorem parentOf_reattach (hid : id < v.nodes.length) :
    (v.reattach id newParent newName).parentOf =
      Function.update v.parentOf id (some newParent) := by
  funext x
  rw [reattach_eq, parentOf_modifyChildren, parentOf]
  by_cases hx : x = id
  · subst hx
    rw [node_modifyNode_self (by rwa [length_cleared]), Function.update_self]
  · rw [node_modifyNode_of_ne hx, Function.update_of_ne hx, parentOf,
      cleared_field Node.parent fun _ _ ↦ rfl]

/-- **The entries after a reattachment**: the new one, and those there were minus the old one. -/
theorem child_reattach (hdir : (v.node newParent).kind.isDirectory = true) (d : NodeId)
    (nm : Str) :
    (v.reattach id newParent newName).child d nm =
      if d = newParent ∧ nm = newName then some id
      else if v.parentOf id = some d ∧ nm = (v.node id).name then none
      else v.child d nm := by
  have hkind : ∀ x, (((v.cleared id newParent newName).modifyNode id fun n ↦
      { n with name := newName, parent := some newParent }).node x).kind =
        ((v.cleared id newParent newName).node x).kind :=
    modifyNode_field Node.kind rfl
  rw [reattach_eq, child_modifyChildren_insert, hkind,
    cleared_field (fun n ↦ n.kind.isDirectory) fun _ _ ↦ NodeKind.isDirectory_mapChildren _ _,
    hdir, child_eq, hkind, ← child_eq, child_cleared]
  by_cases h : d = newParent ∧ nm = newName
  · simp [h]
  · rw [if_neg h, if_neg h, if_neg fun h' ↦ h ⟨h'.1, h'.2.1⟩]

end Reattach

end Vfs

end Mimic
