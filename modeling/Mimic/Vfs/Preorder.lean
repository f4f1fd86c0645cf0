import Mimic.Vfs.Branches
import Mimic.Vfs.Lookup

/-!
# Trees path by path

The tree under a node is what its paths lead to. `preorder` lists them, each node before what is
below it and one entry after the other, as a walk over the tree comes to them. Two trees correspond
when they have the same paths and, at each of them, nodes in a given relation (`Corresponds`).

A tree is built in that order by grafts, and a graft adds one path (`descend_graft_iff`).
-/

namespace Mimic

open ParentForest

namespace Vfs

variable {v w : Vfs} {p c x y : NodeId} {name : Str} {rel names : List Str} {levels : ℕ}
  {kind : NodeKind} {metadata : Metadata}

/-! ### The paths of a tree -/

/-- The paths of the first levels of the tree under a node and what they lead to, in preorder. -/
def preorder (v : Vfs) : ℕ → NodeId → List (List Str × NodeId)
  | 0, _ => []
  | levels + 1, x => ([], x) :: ((v.entries x).getD []).flatMap fun e ↦
    (preorder v levels e.2).map fun at' ↦ (e.1 :: at'.1, at'.2)

theorem mem_preorder_iff :
    (rel, y) ∈ v.preorder levels x ↔ v.descend x rel = some y ∧ rel.length < levels := by
  induction levels generalizing x rel with
  | zero => simp [preorder]
  | succ levels ih =>
    rw [preorder, List.mem_cons, List.mem_flatMap]
    cases rel with
    | nil =>
      simp only [List.mem_map, Prod.mk.injEq, reduceCtorEq, false_and, and_false, exists_false,
        or_false, descend_nil, Option.some.injEq, true_and, List.length_nil, Nat.zero_lt_succ,
        and_true]
      exact eq_comm
    | cons nm rel =>
      rw [descend_cons, List.length_cons, Nat.succ_lt_succ_iff]
      constructor
      · rintro (h | ⟨⟨nm', c⟩, hentry, hmem⟩)
        · cases h
        · obtain ⟨⟨rel', y'⟩, hbelow, heq⟩ := List.mem_map.mp hmem
          cases heq
          obtain ⟨hdesc, hlt⟩ := ih.mp hbelow
          exact ⟨⟨c, mem_entries_iff.mp hentry, hdesc⟩, hlt⟩
      · rintro ⟨⟨c, hc, hdesc⟩, hlt⟩
        exact .inr ⟨(nm, c), mem_entries_iff.mpr hc,
          List.mem_map.mpr ⟨(rel, y), ih.mpr ⟨hdesc, hlt⟩, rfl⟩⟩

/-- **A path stands behind those in front of it**, once. -/
theorem pairwise_preorder (v : Vfs) (levels : ℕ) (x : NodeId) :
    (v.preorder levels x).Pairwise fun a b ↦ ¬ b.1 <+: a.1 := by
  induction levels generalizing x with
  | zero => exact .nil
  | succ levels ih =>
    rw [preorder, List.pairwise_cons, List.pairwise_flatMap]
    refine ⟨fun b hb hprefix ↦ ?_, fun e _ ↦ ?_, ?_⟩
    · obtain ⟨e, -, hb⟩ := List.mem_flatMap.mp hb
      obtain ⟨at', -, rfl⟩ := List.mem_map.mp hb
      exact absurd (List.prefix_nil.mp hprefix) (List.cons_ne_nil _ _)
    · rw [List.pairwise_map]
      exact (ih e.2).imp fun h hprefix ↦ h (List.cons_prefix_cons.mp hprefix).2
    · have hnames := List.pairwise_map.mp (nodup_entries v x)
      refine hnames.imp fun {e e'} hne a ha b hb hprefix ↦ ?_
      obtain ⟨at', -, rfl⟩ := List.mem_map.mp ha
      obtain ⟨at'', -, rfl⟩ := List.mem_map.mp hb
      exact hne (List.cons_prefix_cons.mp hprefix).1.symm

/-- What stands in front of a path: the one without its last entry, and not the path itself. -/
theorem preorder_split {done rest : List (List Str × NodeId)}
    (h : v.preorder levels x = done ++ (rel ++ [name], y) :: rest) :
    (∃ p, (rel, p) ∈ done ∧ v.child p name = some y) ∧ ∀ z, (rel ++ [name], z) ∉ done := by
  have hpairs := h ▸ v.pairwise_preorder levels x
  obtain ⟨-, hlater, hearlier⟩ := List.pairwise_append.mp hpairs
  have hmem : (rel ++ [name], y) ∈ v.preorder levels x :=
    h ▸ List.mem_append_right _ List.mem_cons_self
  obtain ⟨hdesc, hlt⟩ := mem_preorder_iff.mp hmem
  obtain ⟨p, hp, hchild⟩ := descend_snoc.mp hdesc
  rw [List.length_append, List.length_singleton] at hlt
  have hfront : (rel, p) ∈ done ++ (rel ++ [name], y) :: rest :=
    h ▸ mem_preorder_iff.mpr ⟨hp, by omega⟩
  refine ⟨⟨p, ?_, hchild⟩, fun z hz ↦ ?_⟩
  · rcases List.mem_append.mp hfront with hdone | hbehind
    · exact hdone
    · rcases List.mem_cons.mp hbehind with heq | hrest
      · simp at heq
      · exact absurd (List.prefix_append rel [name]) ((List.pairwise_cons.mp hlater).1 _ hrest)
  · exact hearlier _ hz _ List.mem_cons_self (List.prefix_refl _)

/-- A path is shorter than the arena is long. -/
theorem length_lt_of_descend (hv : v.WellFormed) (hx : x < v.nodes.length)
    (h : v.descend x rel = some y) : rel.length < v.nodes.length := by
  have hy := lt_of_descend hv hx h
  obtain ⟨k, hk⟩ := hv.grounded hx
  have hclimb := climb_trans ((below_of_descend h).climb hv) hk
  have := lt_of_climb_root (fun _ _ ↦ hv.parent_lt) hv.root_parent hy hclimb
  omega

/-- **All paths of a tree** are among those of as many levels as there are nodes. -/
theorem mem_preorder_length_iff (hv : v.WellFormed) (hx : x < v.nodes.length) :
    (rel, y) ∈ v.preorder v.nodes.length x ↔ v.descend x rel = some y :=
  mem_preorder_iff.trans (and_iff_left_of_imp fun h ↦ length_lt_of_descend hv hx h)

/-- **A path leads down** as many levels as it is long. -/
theorem depthOf_of_descend (hv : v.WellFormed) (hx : x < v.nodes.length)
    (h : v.descend x rel = some y) : v.depthOf y = v.depthOf x + rel.length := by
  obtain ⟨k, hk⟩ := hv.grounded hx
  rw [depthOf_eq hv hx hk, depthOf_eq hv (lt_of_descend hv hx h)
    (climb_trans ((below_of_descend h).climb hv) hk), Nat.add_comm]

/-! ### Trees that correspond -/

/-- The tree under `y` in `w` has the paths of the one under `x` in `v`, and at each of them a node
that is in relation to the one there. -/
structure Corresponds (R : Node → Node → Prop) (v : Vfs) (x : NodeId) (w : Vfs) (y : NodeId) :
    Prop where
  paths : ∀ rel, (w.descend y rel).isSome = (v.descend x rel).isSome
  nodes : ∀ rel a b, v.descend x rel = some a → w.descend y rel = some b →
    R (v.node a) (w.node b)

/-! ### One more node -/

theorem descend_graft_of_descend (hp : p < v.nodes.length) (hkind : kind.children = ∅)
    (hnone : v.child p name = none) (h : v.descend c names = some x) :
    (v.graft p name kind metadata).descend c names = some x :=
  descend_mono (fun _ _ _ ↦ (extends_graft hp hkind hnone).child) h

/-- **A graft adds one path**: that of the new node. -/
theorem descend_graft_iff (hv : v.WellFormed) (hc : c < v.nodes.length) (hp : p < v.nodes.length)
    (hdir : (v.node p).kind.isDirectory = true) (hkind : kind.children = ∅)
    (hnone : v.child p name = none) (hat : v.descend c rel = some p) :
    (v.graft p name kind metadata).descend c names = some x ↔
      v.descend c names = some x ∨ names = rel ++ [name] ∧ x = v.nodes.length := by
  constructor
  · intro h
    induction names using List.reverseRecOn generalizing x with
    | nil => exact .inl h
    | append_singleton names nm ih =>
      obtain ⟨y, hy, hx⟩ := descend_snoc.mp h
      rw [child_graft hp hkind] at hx
      rcases ih hy with hold | ⟨-, rfl⟩
      · split at hx
        · rename_i hnew
          obtain ⟨rfl, rfl, -⟩ := hnew
          rw [descend_injective hv hc hold hat]
          exact .inr ⟨rfl, (Option.some.inj hx).symm⟩
        · exact .inl (descend_snoc.mpr ⟨y, hold, hx⟩)
      · -- the new node has no entries
        rw [if_neg fun hnew ↦ Nat.ne_of_gt hp hnew.1] at hx
        exact absurd (lt_of_child hx) (lt_irrefl _)
  · rintro (h | ⟨rfl, rfl⟩)
    · exact descend_graft_of_descend hp hkind hnone h
    · refine descend_snoc.mpr ⟨p, descend_graft_of_descend hp hkind hnone hat, ?_⟩
      rw [child_graft hp hkind, if_pos ⟨rfl, rfl, hdir⟩]

theorem depthOf_setContentBytes (v : Vfs) (bytes : ℕ) (x : NodeId) :
    ({ v with contentBytes := bytes } : Vfs).depthOf x = v.depthOf x := by
  have hsame := (Prunes.refl v).setContentBytes bytes
  rw [depthOf, depthOf, hsame.length, depthLoop_congr hsame.length hsame.parentOf]

theorem depthOf_graft_of_lt (hv : v.WellFormed) (hp : p < v.nodes.length)
    (hkind : kind.children = ∅) (hcoh : metadata.mode &&& sIfMt = kind.fileType)
    (hx : x < v.nodes.length) : (v.graft p name kind metadata).depthOf x = v.depthOf x := by
  obtain ⟨k, hk⟩ := hv.grounded hx
  rw [depthOf_eq hv hx hk]
  refine depthOf_eq (hv.graft hp hkind hcoh) (hx.trans length_lt_length_graft) ?_
  rw [hv.climb_graft hx, root_graft, hk]

/-! ### A tree that grows -/

theorem kind_of_entries_nil (h : v.entries c = some []) : (v.node c).kind = .directory ∅ := by
  rw [entries] at h
  split at h
  · rename_i children hkind
    rw [hkind]
    refine congrArg _ (Std.ExtTreeMap.eq_empty_iff_size_eq_zero.mpr ?_)
    rw [← Std.ExtTreeMap.length_toList, Option.some.inj h, List.length_nil]
  · cases h

/-- `w` is `v` with `count` more nodes and at most `bytes` more bytes of contents, and the tree
under the directory `c` has just the given paths. -/
structure Grown (v w : Vfs) (c : NodeId) (count bytes : ℕ) (paths : List Str → Prop) : Prop where
  wellFormed : w.WellFormed
  dir : (w.node c).kind.isDirectory = true
  metadata : (w.node c).metadata = (v.node c).metadata
  depth : w.depthOf c = v.depthOf c
  length : w.nodes.length = v.nodes.length + count
  contentBytes : w.contentBytes ≤ v.contentBytes + bytes
  paths : ∀ names, (w.descend c names).isSome = true ↔ paths names

namespace Grown

variable {count bytes : ℕ} {paths paths' : List Str → Prop}

/-- An empty directory. -/
theorem start (hv : v.WellFormed) (hempty : (v.node c).kind = .directory ∅) (bytes : ℕ) :
    Grown v v c 0 bytes (· <+: []) where
  wellFormed := hv
  dir := by rw [hempty]; rfl
  metadata := rfl
  depth := rfl
  length := rfl
  contentBytes := Nat.le_add_right _ _
  paths names := by
    rw [List.prefix_nil]
    rcases names with - | ⟨nm, names⟩
    · exact iff_of_true rfl rfl
    · rw [descend, child_eq, hempty]
      simp [NodeKind.children]

theorem congr (h : Grown v w c count bytes paths) (hpaths : ∀ names, paths names ↔ paths' names) :
    Grown v w c count bytes paths' :=
  { h with paths := fun names ↦ (h.paths names).trans (hpaths names) }

section Entry

variable (h : Grown v w c count bytes paths) (hat : w.descend c rel = some p)

include h hat

theorem child_eq_none (hnew : ¬ paths (rel ++ [name])) : w.child p name = none := by
  rcases hchild : w.child p name with - | x
  · rfl
  · have hsome : w.descend c (rel ++ [name]) = some x := descend_snoc.mpr ⟨p, hat, hchild⟩
    exact absurd ((h.paths _).mp (Option.isSome_of_eq_some hsome)) hnew

/-- There is room for another node where the path is not too long. -/
theorem isFull_eq_false (hnodes : v.nodes.length + count < maxVfsNodes)
    (hdepth : v.depthOf c + rel.length < maxVfsDepth) : w.isFull p = false := by
  have hdeep := depthOf_of_descend h.wellFormed (lt_of_isDirectory h.dir) hat
  rw [isFull, Bool.or_eq_false_iff, decide_eq_false_iff_not, decide_eq_false_iff_not, h.length,
    hdeep, h.depth]
  omega

/-- **One more node.** -/
theorem graft (hdir : (w.node p).kind.isDirectory = true) (hkind : kind.children = ∅)
    (hcoh : metadata.mode &&& sIfMt = kind.fileType) (hnew : ¬ paths (rel ++ [name])) (more : ℕ) :
    Grown v { w.graft p name kind metadata with contentBytes := w.contentBytes + more } c
      (count + 1) (bytes + more) fun names ↦ paths names ∨ names = rel ++ [name] := by
  have hc := lt_of_isDirectory h.dir
  have hp := lt_of_isDirectory hdir
  have hnone := h.child_eq_none hat hnew
  refine ⟨?_, ?_, ?_, ?_, ?_, ?_, fun names ↦ ?_⟩
  · exact ((Prunes.refl _).setContentBytes _).wellFormed (h.wellFormed.graft hp hkind hcoh)
  · exact (isDirectory_graft_of_lt hc).trans h.dir
  · exact (metadata_graft_of_lt hc).trans h.metadata
  · rw [depthOf_setContentBytes, depthOf_graft_of_lt h.wellFormed hp hkind hcoh hc, h.depth]
  · rw [length_graft, h.length, Nat.add_assoc]
  · rw [← Nat.add_assoc]
    exact Nat.add_le_add_right h.contentBytes more
  · rw [descend_setContentBytes, ← h.paths names, Option.isSome_iff_exists,
      Option.isSome_iff_exists]
    simp only [descend_graft_iff h.wellFormed hc hp hdir hkind hnone hat, exists_or,
      exists_and_left, exists_eq, and_true]

end Entry

end Grown

end Vfs

end Mimic
