import Mimic.Vfs.Calls
import Mimic.Vfs.Preorder

/-!
# Going over a tree

The commands that go over a tree (`grep -r`, `find`, `du`, `chmod -R`, `chown -R`) call themselves
for the entries of a directory. They come to what `tree` lists, in its order: the node itself and
then the trees of its entries (`tree_eq`). No node is listed twice (`nodup_tree`), so a change made
at every node is made once at each (`node_foldl_modifyNode`).
-/

namespace Mimic

namespace Vfs

variable {v : Vfs} {x y : NodeId} {rel : List Str} {levels : ℕ} {f : Node → Node}

/-- The paths of the tree under a node and what they lead to, in preorder. -/
def tree (v : Vfs) (x : NodeId) : List (List Str × NodeId) := v.preorder v.nodes.length x

theorem isDirectory_of_entries {entries : List (Str × NodeId)} (h : v.entries x = some entries) :
    (v.node x).kind.isDirectory = true := by
  rw [Vfs.entries] at h
  split at h
  · rename_i hkind
    rw [hkind]
    rfl
  · cases h

/-- Only directories have entries. -/
theorem entries_eq_none (hv : v.WellFormed) (h : ¬ (v.node x).metadata.isDir = true) :
    v.entries x = none := by
  rcases hsome : v.entries x with - | entries
  · rfl
  · have hdir := isDirectory_of_entries hsome
    exact absurd ((hv.isDir_iff (lt_of_isDirectory hdir)).mpr hdir) h

theorem mem_tree_iff (hv : v.WellFormed) (hx : x < v.nodes.length) :
    (rel, y) ∈ v.tree x ↔ v.descend x rel = some y := mem_preorder_length_iff hv hx

/-- One more level adds nothing to a tree that has no path as long as that. -/
theorem preorder_succ_eq (h : ∀ rel y, v.descend x rel = some y → rel.length < levels) :
    v.preorder (levels + 1) x = v.preorder levels x := by
  induction levels generalizing x with
  | zero => exact absurd (h [] x descend_nil) (Nat.not_lt_zero _)
  | succ levels ih =>
    rw [preorder, preorder]
    refine congrArg _ (List.flatMap_congr fun e he ↦ ?_)
    have hchild : v.child x e.1 = some e.2 := mem_entries_iff.mp he
    rw [ih fun rel y hy ↦
      Nat.lt_of_succ_lt_succ (h (e.1 :: rel) y (descend_cons.mpr ⟨_, hchild, hy⟩))]

theorem preorder_eq_tree (hv : v.WellFormed) (hx : x < v.nodes.length)
    (h : v.nodes.length ≤ levels) : v.preorder levels x = v.tree x := by
  induction levels, h using Nat.le_induction with
  | base => rfl
  | succ levels hle ih =>
    rw [preorder_succ_eq fun rel y hy ↦ (length_lt_of_descend hv hx hy).trans_le hle, ih]

/-- **A tree is its node and the trees of its entries.** -/
theorem tree_eq (hv : v.WellFormed) (hx : x < v.nodes.length) :
    v.tree x = ([], x) :: ((v.entries x).getD []).flatMap fun e ↦
      (v.tree e.2).map fun at' ↦ (e.1 :: at'.1, at'.2) := by
  rw [← preorder_eq_tree hv hx (Nat.le_succ _), preorder]
  rfl

/-- **No node is listed twice.** -/
theorem nodup_tree (hv : v.WellFormed) (hx : x < v.nodes.length) :
    ((v.tree x).map Prod.snd).Nodup := by
  rw [List.Nodup, List.pairwise_map]
  refine (List.Pairwise.and_mem.mp (v.pairwise_preorder _ x)).imp ?_
  rintro ⟨rel, y⟩ ⟨rel', y'⟩ ⟨ha, hb, hne⟩ rfl
  have hsame := descend_injective hv hx ((mem_tree_iff hv hx).mp ha) ((mem_tree_iff hv hx).mp hb)
  exact hne (hsame ▸ List.prefix_refl _)

/-! ### Entries first -/

/-- The paths of the first levels of the tree under a node and what they lead to, each node behind
what is below it. -/
def postorder (v : Vfs) : ℕ → NodeId → List (List Str × NodeId)
  | 0, _ => []
  | levels + 1, x => (((v.entries x).getD []).flatMap fun e ↦
    (postorder v levels e.2).map fun at' ↦ (e.1 :: at'.1, at'.2)) ++ [([], x)]

/-- **The same nodes** in another order. -/
theorem postorder_perm (v : Vfs) (levels : ℕ) (x : NodeId) :
    (v.postorder levels x).Perm (v.preorder levels x) := by
  induction levels generalizing x with
  | zero => exact .nil
  | succ levels ih =>
    rw [postorder, preorder]
    refine (List.perm_append_singleton _ _).trans (.cons _ ?_)
    exact List.Perm.flatMap_left _ fun e _ ↦ (ih e.2).map _

/-- **A path stands in front of those that it starts with.** -/
theorem pairwise_postorder (v : Vfs) (levels : ℕ) (x : NodeId) :
    (v.postorder levels x).Pairwise fun a b ↦ ¬ a.1 <+: b.1 := by
  induction levels generalizing x with
  | zero => exact .nil
  | succ levels ih =>
    rw [postorder, List.pairwise_append, List.pairwise_flatMap]
    refine ⟨⟨fun e _ ↦ ?_, ?_⟩, List.pairwise_singleton _ _, fun a ha b hb hpre ↦ ?_⟩
    · rw [List.pairwise_map]
      exact (ih e.2).imp fun h hpre ↦ h (List.cons_prefix_cons.mp hpre).2
    · have hnames := List.pairwise_map.mp (nodup_entries v x)
      refine hnames.imp fun {e e'} hne a ha b hb hpre ↦ ?_
      obtain ⟨at', -, rfl⟩ := List.mem_map.mp ha
      obtain ⟨at'', -, rfl⟩ := List.mem_map.mp hb
      exact hne (List.cons_prefix_cons.mp hpre).1
    · obtain ⟨e, -, ha⟩ := List.mem_flatMap.mp ha
      obtain ⟨at', -, rfl⟩ := List.mem_map.mp ha
      rw [List.mem_singleton.mp hb] at hpre
      exact absurd (List.prefix_nil.mp hpre) (List.cons_ne_nil _ _)

/-! ### A change at every node -/

theorem lt_of_resolve {start : NodeId} {path : Str} (hv : v.WellFormed)
    (hstart : start < v.nodes.length) (h : v.resolve start path = some x) :
    x < v.nodes.length := by
  obtain ⟨n, -, hwalks⟩ := resolve_eq_some_iff.mp h
  exact hwalks.lt hv (origin_lt hv hstart path)

/-- Change these nodes. -/
def mapNodes (f : Node → Node) (ids : List NodeId) (v : Vfs) : Vfs :=
  { v with nodes := v.nodes.mapIdx fun x n ↦ if x ∈ ids then f n else n }

/-- Change nodes one after the other. -/
def modifyAll (f : Node → Node) (v : Vfs) (ids : List NodeId) : Vfs :=
  ids.foldl (fun w x ↦ w.modifyNode x f) v

theorem modifyAll_append (f : Node → Node) (v : Vfs) (ids ids' : List NodeId) :
    v.modifyAll f (ids ++ ids') = (v.modifyAll f ids).modifyAll f ids' := List.foldl_append

theorem getElem?_mapNodes (f : Node → Node) (ids : List NodeId) (v : Vfs) (x : NodeId) :
    (v.mapNodes f ids).nodes[x]? = (v.nodes[x]?).map fun n ↦ if x ∈ ids then f n else n :=
  List.getElem?_mapIdx

/-- Two changes of nodes are alike if they are alike everywhere. -/
theorem eq_of_nodes {w : Vfs} (hroot : w.root = v.root) (hbytes : w.contentBytes = v.contentBytes)
    (hnodes : ∀ x : ℕ, w.nodes[x]? = v.nodes[x]?) : w = v := by
  rcases w with ⟨nodes, root, bytes⟩
  obtain rfl : root = v.root := hroot
  obtain rfl : bytes = v.contentBytes := hbytes
  obtain rfl : nodes = v.nodes := List.ext_getElem? hnodes
  rfl

theorem mapNodes_congr {ids ids' : List NodeId} (h : ∀ x, x ∈ ids ↔ x ∈ ids') (v : Vfs) :
    v.mapNodes f ids = v.mapNodes f ids' := by
  refine eq_of_nodes rfl rfl fun x ↦ ?_
  rw [getElem?_mapNodes, getElem?_mapNodes]
  simp only [h]

/-- **One change is as good as two.** -/
theorem mapNodes_mapNodes (hf : ∀ n, f (f n) = f n) (v : Vfs) (ids ids' : List NodeId) :
    (v.mapNodes f ids).mapNodes f ids' = v.mapNodes f (ids ++ ids') := by
  refine eq_of_nodes rfl rfl fun x ↦ ?_
  rw [getElem?_mapNodes, getElem?_mapNodes, getElem?_mapNodes, Option.map_map]
  refine congrArg (Option.map · _) (funext fun n ↦ ?_)
  by_cases hx : x ∈ ids <;> by_cases hx' : x ∈ ids' <;>
    simp [hx, hx', hf]

/-- What a change makes of a node is all that there is to the change of that node. -/
theorem modifyNode_congr {g : Node → Node} (h : f (v.node x) = g (v.node x)) :
    v.modifyNode x f = v.modifyNode x g := by
  refine eq_of_nodes rfl rfl fun y ↦ ?_
  rw [modifyNode, modifyNode, List.getElem?_modify, List.getElem?_modify]
  rcases hy : v.nodes[y]? with - | n
  · rfl
  · refine congrArg some ?_
    split
    · rename_i heq
      subst heq
      rwa [node, List.getD_eq_getElem?_getD, hy] at h
    · rfl

theorem modifyNode_eq_mapNodes (f : Node → Node) (v : Vfs) (x : NodeId) :
    v.modifyNode x f = v.mapNodes f [x] := by
  refine eq_of_nodes rfl rfl fun y ↦ ?_
  rw [getElem?_mapNodes, modifyNode, List.getElem?_modify]
  refine congrArg (Option.map · _) (funext fun n ↦ ?_)
  exact if_congr (by rw [List.mem_singleton, eq_comm]) rfl rfl

theorem modifyAll_eq (hf : ∀ n, f (f n) = f n) (v : Vfs) (ids : List NodeId) :
    v.modifyAll f ids = v.mapNodes f ids := by
  induction ids generalizing v with
  | nil =>
    refine eq_of_nodes rfl rfl fun x ↦ ?_
    rw [getElem?_mapNodes]
    simp only [List.not_mem_nil, if_false, Option.map_id']
    rfl
  | cons x ids ih =>
    refine (ih (v.modifyNode x f)).trans ?_
    rw [modifyNode_eq_mapNodes, mapNodes_mapNodes hf, List.singleton_append]

/-- A change that leaves the payload of a node, its place and the type bits of its mode alone. -/
structure KeepsShape (f : Node → Node) : Prop where
  name : ∀ n, (f n).name = n.name
  parent : ∀ n, (f n).parent = n.parent
  kind : ∀ n, (f n).kind = n.kind
  typeBits : ∀ n, (f n).metadata.mode &&& sIfMt = n.metadata.mode &&& sIfMt

/-- The same but for metadata that are not the type bits. -/
structure SameShape (v w : Vfs) : Prop where
  root : w.root = v.root
  length : w.nodes.length = v.nodes.length
  name : ∀ x, (w.node x).name = (v.node x).name
  parent : ∀ x, (w.node x).parent = (v.node x).parent
  kind : ∀ x, (w.node x).kind = (v.node x).kind
  typeBits : ∀ x, (w.node x).metadata.mode &&& sIfMt = (v.node x).metadata.mode &&& sIfMt

theorem SameShape.refl (v : Vfs) : SameShape v v :=
  ⟨rfl, rfl, fun _ ↦ rfl, fun _ ↦ rfl, fun _ ↦ rfl, fun _ ↦ rfl⟩

theorem SameShape.modifyNode {w : Vfs} (h : SameShape v w) (hf : KeepsShape f) (x : NodeId) :
    SameShape v (w.modifyNode x f) where
  root := h.root
  length := length_modifyNode.trans h.length
  name y := (modifyNode_field Node.name (hf.name _) y).trans (h.name y)
  parent y := (modifyNode_field Node.parent (hf.parent _) y).trans (h.parent y)
  kind y := (modifyNode_field Node.kind (hf.kind _) y).trans (h.kind y)
  typeBits y :=
    (modifyNode_field (fun n ↦ n.metadata.mode &&& sIfMt) (hf.typeBits _) y).trans (h.typeBits y)

theorem SameShape.isDir {w : Vfs} (h : SameShape v w) (x : NodeId) :
    (w.node x).metadata.isDir = (v.node x).metadata.isDir := by
  rw [Metadata.isDir, Metadata.isDir, h.typeBits]

theorem SameShape.wellFormed {w : Vfs} (h : SameShape v w) (hv : v.WellFormed) : w.WellFormed := by
  refine Prunes.wellFormed ⟨h.root, h.length, h.name, h.parent, fun d name c hc ↦ ?_,
    fun x _ hx ↦ ?_⟩ hv
  · rwa [Vfs.child, h.kind] at hc
  · rwa [Node.Coherent, h.typeBits, h.kind]

theorem SameShape.modifyAll {w : Vfs} (h : SameShape v w) (hf : KeepsShape f)
    (ids : List NodeId) : SameShape v (w.modifyAll f ids) := by
  induction ids generalizing w with
  | nil => exact h
  | cons x ids ih => exact ih (h.modifyNode hf x)

theorem SameShape.entries {w : Vfs} (h : SameShape v w) (x : NodeId) :
    w.entries x = v.entries x := by
  rw [Vfs.entries, Vfs.entries, h.kind]

theorem SameShape.resolve {w : Vfs} (h : SameShape v w) (start : NodeId) (path : Str) :
    w.resolve start path = v.resolve start path :=
  resolve_congr h.root (fun d name ↦ by rw [Vfs.child, Vfs.child, h.kind])
    (fun x ↦ h.parent x) (fun x target ↦ by rw [h.kind]) start path

theorem SameShape.tree {w : Vfs} (h : SameShape v w) (x : NodeId) : w.tree x = v.tree x := by
  have hpreorder : ∀ levels x, w.preorder levels x = v.preorder levels x := by
    intro levels
    induction levels with
    | zero => exact fun _ ↦ rfl
    | succ levels ih =>
      intro x
      simp only [preorder, h.entries, ih]
  rw [Vfs.tree, Vfs.tree, h.length, hpreorder]

/-- The nodes that a command comes to from a node. -/
def reached (v : Vfs) (recursive : Bool) (x : NodeId) : List NodeId :=
  if recursive then (v.tree x).map Prod.snd else [x]

theorem SameShape.reached {w : Vfs} (h : SameShape v w) (recursive : Bool) (x : NodeId) :
    w.reached recursive x = v.reached recursive x := by
  rw [Vfs.reached, Vfs.reached, h.tree]

theorem SameShape.mapNodes {w : Vfs} (h : SameShape v w) (hf : KeepsShape f)
    (htwice : ∀ n, f (f n) = f n) (ids : List NodeId) : SameShape v (w.mapNodes f ids) := by
  rw [← modifyAll_eq htwice]
  exact h.modifyAll hf ids

section Spread

variable {spread : ℕ → Vfs → NodeId → Vfs} {recursive : Bool}

/-- `spread` changes a node and then calls itself for the entries of a directory. -/
structure Spreads (f : Node → Node) (recursive : Bool) (v : Vfs)
    (spread : ℕ → Vfs → NodeId → Vfs) : Prop where
  zero : ∀ w x, spread 0 w x = w
  succ : ∀ levels w x, SameShape v w → spread (levels + 1) w x =
    if recursive && ((w.modifyNode x f).node x).metadata.isDir then
      (((w.modifyNode x f).entries x).getD []).foldl (fun w e ↦ spread levels w e.2)
        (w.modifyNode x f)
    else w.modifyNode x f

theorem Spreads.eq_modifyAll (h : Spreads f true v spread) (hv : v.WellFormed) (hf : KeepsShape f)
    {w : Vfs} (hw : SameShape v w) (levels : ℕ) (x : NodeId) :
    spread levels w x = w.modifyAll f ((v.preorder levels x).map Prod.snd) := by
  induction levels generalizing w x with
  | zero => exact h.zero w x
  | succ levels ih =>
    have hx := hw.modifyNode hf x
    have hentries : ∀ (entries : List (Str × NodeId)) {w : Vfs}, SameShape v w →
        entries.foldl (fun w e ↦ spread levels w e.2) w = w.modifyAll f
          (entries.flatMap fun e ↦ (v.preorder levels e.2).map Prod.snd) := by
      intro entries
      induction entries with
      | nil => exact fun _ ↦ rfl
      | cons e entries ihe =>
        intro w hw
        rw [List.foldl_cons, ih hw, ihe (hw.modifyAll hf _), List.flatMap_cons, modifyAll_append]
    have hids : (v.preorder (levels + 1) x).map Prod.snd =
        x :: ((v.entries x).getD []).flatMap fun e ↦ (v.preorder levels e.2).map Prod.snd := by
      simp only [preorder, List.map_cons, List.map_flatMap, List.map_map, Function.comp_def]
    rw [h.succ levels w x hw, hids, hx.entries, hx.isDir, Bool.true_and]
    split
    · exact hentries _ hx
    · rw [entries_eq_none hv ‹_›]
      rfl

/-- **A change that spreads** comes to every node that is to be reached. -/
theorem Spreads.eq_mapNodes (h : Spreads f recursive v spread) (hv : v.WellFormed)
    (hf : KeepsShape f) (htwice : ∀ n, f (f n) = f n) {w : Vfs} (hw : SameShape v w)
    (hx : x < v.nodes.length) :
    spread (v.nodes.length + 1) w x = w.mapNodes f (v.reached recursive x) := by
  rw [← modifyAll_eq htwice, reached]
  rcases recursive with - | -
  · exact h.succ _ w x hw
  · rw [h.eq_modifyAll hv hf hw, preorder_eq_tree hv hx (Nat.le_succ _)]
    rfl

end Spread

/-! ### A small tree -/

/-- The directory `/d` of a file and a link, and an empty directory in it. -/
def shelf : Vfs := GuardedRun.run Op.apply (new 0)
  [.mutator (.mkdir 0 0 ['d'] 0o755 0 0),
    .mutator (.addFile 0 1 ['f'] [97, 98, 10, 99, 10] 0o640 0 0),
    .mutator (.addSymlink 0 1 ['l'] ['f']), .mutator (.mkdir 0 1 ['s'] 0o700 0 0)]

theorem wellFormed_shelf : shelf.WellFormed := by
  rw [shelf]
  exact (wellFormed_run 0 _ (by decide +kernel)).1

end Vfs

end Mimic
