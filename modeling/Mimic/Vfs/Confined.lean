import Mimic.Vfs.EntryPath
import Mimic.Vfs.WellFormed

/-!
# Where making an entry is felt

`mkdir`, `add_file` and `add_symlink` leave the arena alone, or enter a node that has no entries, or
replace what an entry holds by such a node (`Makes`). Three consequences are followed through a
program that does nothing else.

* `Confined`: outside a set of nodes nothing is changed. The set has to hold what its own entries
  lead to, and this is kept as well, since a new entry leads to a new node.
* `Gains`: of the directories there were, only some get entries they did not have.
* `Persists`: a directory that is still one has its metadata and its entries still.
-/

namespace Mimic

namespace Vfs

variable {u v w : Vfs} {parent id x d : NodeId} {name : Str} {now : Timestamp}
  {perms uid gid : UInt32} {inside : NodeId → Prop} {allowed : NodeId → Prop}

/-! ### Making an entry -/

/-- An entry `name` of `parent` is made, or found, or refused. The last argument is what the source
returns. -/
inductive Makes (v : Vfs) (parent : NodeId) (name : Str) : Vfs → NodeId → Prop
  | refused {bytes} : Makes v parent name { v with contentBytes := bytes } parent
  | found {bytes id} : v.child parent name = some id →
      Makes v parent name { v with contentBytes := bytes } id
  | entered {bytes kind metadata} : v.child parent name = none → v.isFull parent = false →
      kind.children = ∅ →
      Makes v parent name { v.graft parent name kind metadata with contentBytes := bytes }
        v.nodes.length
  | replaced {bytes id kind metadata} : v.child parent name = some id → kind.isDirectory = false →
      Makes v parent name
        { v.modifyNode id (fun n ↦ { n with kind := kind, metadata := metadata }) with
          contentBytes := bytes } id

theorem makes_insert {kind : NodeKind} {metadata : Metadata} (hkind : kind.children = ∅)
    (hnone : v.child parent name = none) :
    Makes v parent name (v.insert parent name kind metadata).1
      (v.insert parent name kind metadata).2 := by
  rw [insert_eq]
  cases hfull : v.isFull parent with
  | true => exact .refused
  | false => exact .entered hnone hfull hkind

theorem makes_mkdir (v : Vfs) (now : Timestamp) (parent : NodeId) (name : Str)
    (perms uid gid : UInt32) :
    Makes v parent name (v.mkdir now parent name perms uid gid).1
      (v.mkdir now parent name perms uid gid).2 := by
  rw [mkdir]
  cases hchild : v.child parent name with
  | some existing => exact .found hchild
  | none => exact makes_insert rfl hchild

theorem makes_addSymlink (v : Vfs) (now : Timestamp) (parent : NodeId) (name target : Str) :
    Makes v parent name (v.addSymlink now parent name target).1
      (v.addSymlink now parent name target).2 := by
  rw [addSymlink]
  cases hchild : v.child parent name with
  | some existing => exact .found hchild
  | none => exact makes_insert rfl hchild

theorem makes_addFile (v : Vfs) (now : Timestamp) (parent : NodeId) (name : Str)
    (contents : Bytes) (perms uid gid : UInt32) :
    Makes v parent name (v.addFile now parent name contents perms uid gid).1
      (v.addFile now parent name contents perms uid gid).2 := by
  rw [addFile]
  cases hchild : v.child parent name with
  | some existing =>
    dsimp only
    split
    · exact .found hchild
    · exact .replaced hchild rfl
  | none =>
    dsimp only
    split
    · exact .refused
    rw [insert_eq]
    cases hfull : v.isFull parent with
    | true =>
      rw [if_pos rfl, if_neg (fun hne ↦ hne rfl)]
      exact .refused
    | false =>
      rw [if_neg Bool.false_ne_true]
      split
      · exact .entered hchild hfull rfl
      · exact .entered hchild hfull rfl

/-- What is made where there was no entry is new. -/
theorem Makes.le_of_ne (hm : Makes v parent name w x) (hnone : v.child parent name = none)
    (hne : x ≠ parent) : v.nodes.length ≤ x := by
  cases hm with
  | refused => exact absurd rfl hne
  | entered => exact le_rfl
  | found h | replaced h =>
    rw [hnone] at h
    cases h

/-- An entry of a graft is one there was, or the new one. -/
theorem child_graft_cases {kind : NodeKind} {metadata : Metadata} (hkind : kind.children = ∅)
    {nm : Str} {c : NodeId} (h : (v.graft parent name kind metadata).child d nm = some c) :
    v.child d nm = some c ∨ d = parent ∧ c = v.nodes.length := by
  rw [graft, child_modifyChildren_insert, child_push hkind] at h
  split at h
  · rename_i hnew
    exact Or.inr ⟨hnew.1, (Option.some.inj h).symm⟩
  · exact Or.inl h

/-- An entry that is left by replacing what an entry holds was there. -/
theorem child_replace_cases {kind : NodeKind} {metadata : Metadata}
    (hkind : kind.isDirectory = false) {nm : Str} {c : NodeId}
    (h : (v.modifyNode id fun n ↦ { n with kind := kind, metadata := metadata }).child d nm =
      some c) : v.child d nm = some c := by
  by_cases hd : d = id
  · subst hd
    have hdir := isDirectory_of_child h
    rw [node_modifyNode_self (length_modifyNode (v := v) ▸ lt_of_child h), hkind] at hdir
    cases hdir
  · rwa [child_eq, node_modifyNode_of_ne hd, ← child_eq] at h

/-! ### Changes in one place -/

/-- Outside a set of nodes `w` is `v`, and the set holds what is new and what its entries lead to.
-/
structure Confined (inside : NodeId → Prop) (v w : Vfs) : Prop where
  node : ∀ x, ¬ inside x → w.node x = v.node x
  fresh : ∀ x, w.nodes.length ≤ x → inside x
  closed : ∀ d name c, inside d → w.child d name = some c → inside c

theorem Confined.self (h : Confined inside v w) : Confined inside w w :=
  ⟨fun _ _ ↦ rfl, h.fresh, h.closed⟩

/-- `x` is `c` or below it through entry tables, if it is a node at all. -/
def Under (v : Vfs) (c x : NodeId) : Prop :=
  x < v.nodes.length → ∃ names, v.descend c names = some x

theorem confined_under (v : Vfs) (c : NodeId) : Confined (v.Under c) v v where
  node _ _ := rfl
  fresh _ hle hlt := absurd hlt (Nat.not_lt.mpr hle)
  closed d name x hd hchild _ := by
    obtain ⟨names, hnames⟩ := hd (lt_of_child hchild)
    exact ⟨names ++ [name], descend_snoc.2 ⟨d, hnames, hchild⟩⟩

/-- Behind an entry that is made, what is new holds what its entries lead to. -/
theorem Makes.confined_new (hm : Makes v parent name w x) :
    Confined (fun y ↦ v.nodes.length ≤ y) w w := by
  have hold : ∀ {d nm c}, v.nodes.length ≤ d → v.child d nm ≠ some c := fun hle hchild ↦
    absurd (lt_of_child hchild) (Nat.not_lt.mpr hle)
  refine ⟨fun _ _ ↦ rfl, fun y hle ↦ ?_, fun d nm c hd hchild ↦ ?_⟩
  · cases hm with
    | refused | found => exact hle
    | entered => exact length_lt_length_graft.le.trans hle
    | replaced => exact length_modifyNode.ge.trans hle
  · cases hm with
    | refused | found => exact absurd hchild (hold hd)
    | entered _ _ hkind =>
      rcases child_graft_cases hkind hchild with h | ⟨-, rfl⟩
      · exact absurd h (hold hd)
      · exact le_rfl
    | replaced _ hkind => exact absurd (child_replace_cases hkind hchild) (hold hd)

/-- **Making an entry inside changes nothing outside**, and leads to a node inside. -/
theorem Confined.makes (h : Confined inside v w) (hp : inside parent)
    (hm : Makes w parent name u x) :
    Confined inside v u ∧ inside x := by
  cases hm with
  | refused => exact ⟨⟨h.node, h.fresh, h.closed⟩, hp⟩
  | found hchild => exact ⟨⟨h.node, h.fresh, h.closed⟩, h.closed _ _ _ hp hchild⟩
  | @entered bytes kind metadata hnone hfull hkind =>
    have hnew : inside w.nodes.length := h.fresh _ le_rfl
    refine ⟨⟨fun x hx ↦ ?_, fun x hle ↦ h.fresh x ?_, fun d nm c hd hchild ↦ ?_⟩, hnew⟩
    · have hlt : x < w.nodes.length := Nat.lt_of_not_le fun hle ↦ hx (h.fresh x hle)
      have hne : x ≠ parent := fun heq ↦ hx (heq ▸ hp)
      exact (node_graft_of_ne hlt hne).trans (h.node x hx)
    · exact length_lt_length_graft.le.trans hle
    · rcases child_graft_cases hkind hchild with hold | ⟨-, rfl⟩
      · exact h.closed d nm c hd hold
      · exact hnew
  | @replaced bytes id kind metadata hfound hkind =>
    have hid : inside x := h.closed _ _ _ hp hfound
    refine ⟨⟨fun y hy ↦ ?_, fun y hle ↦ h.fresh y ?_, fun d nm c hd hchild ↦ ?_⟩, hid⟩
    · have hne : y ≠ x := fun heq ↦ hy (heq ▸ hid)
      exact (node_modifyNode_of_ne hne).trans (h.node y hy)
    · exact length_modifyNode.ge.trans hle
    · exact h.closed d nm c hd (child_replace_cases hkind hchild)

/-! ### New entries -/

/-- The directories there were that get an entry they did not have are allowed to. -/
structure Gains (allowed : NodeId → Prop) (v w : Vfs) : Prop where
  length_le : v.nodes.length ≤ w.nodes.length
  entry : ∀ d nm c, d < v.nodes.length → v.child d nm = none → w.child d nm = some c → allowed d

theorem Gains.refl (v : Vfs) : Gains allowed v v where
  length_le := le_rfl
  entry _ _ _ _ hnone hsome := absurd (hnone.symm.trans hsome) (by simp)

theorem Gains.trans (h : Gains allowed v w) (h' : Gains allowed w u) : Gains allowed v u where
  length_le := h.length_le.trans h'.length_le
  entry d nm c hd hnone hsome := by
    cases hw : w.child d nm with
    | none => exact h'.entry d nm c (hd.trans_le h.length_le) hw hsome
    | some y => exact h.entry d nm y hd hnone hw

/-- **Making an entry** is felt by its directory alone, and there only if no cap refuses it. -/
theorem Makes.gains (hm : Makes v parent name w x)
    (hallowed : (v.node parent).kind.isDirectory = true → v.isFull parent = false →
      v.child parent name = none → allowed parent) : Gains allowed v w := by
  cases hm with
  | refused => exact ⟨le_rfl, (Gains.refl v).entry⟩
  | found => exact ⟨le_rfl, (Gains.refl v).entry⟩
  | @entered bytes kind metadata hnone hfull hkind =>
    refine ⟨length_lt_length_graft.le, fun d nm c hd hbefore hafter ↦ ?_⟩
    have hchild : (v.graft parent name kind metadata).child d nm = some c := hafter
    rcases child_graft_cases hkind hchild with hold | ⟨rfl, -⟩
    · rw [hbefore] at hold
      cases hold
    · rw [child_graft hd hkind, hbefore] at hchild
      split at hchild
      · rename_i hnew
        exact hallowed hnew.2.2 hfull hnone
      · cases hchild
  | replaced hfound hkind =>
    refine ⟨(length_modifyNode (v := v)).ge, fun d nm c hd hbefore hafter ↦ ?_⟩
    rw [child_replace_cases hkind hafter] at hbefore
    cases hbefore

/-! ### Directories that stay -/

/-- The directories there were and that are directories still have what they had. -/
structure Persists (v w : Vfs) : Prop where
  length_le : v.nodes.length ≤ w.nodes.length
  metadata : ∀ d, d < v.nodes.length → (w.node d).kind.isDirectory = true →
    (w.node d).metadata = (v.node d).metadata
  entry : ∀ d nm c, d < v.nodes.length → (w.node d).kind.isDirectory = true →
    v.child d nm = some c → w.child d nm = some c

theorem Persists.refl (v : Vfs) : Persists v v :=
  ⟨le_rfl, fun _ _ _ ↦ rfl, fun _ _ _ _ _ h ↦ h⟩

theorem isDirectory_graft_of_lt {kind : NodeKind} {metadata : Metadata} (hx : x < v.nodes.length) :
    ((v.graft parent name kind metadata).node x).kind.isDirectory =
      (v.node x).kind.isDirectory := by
  have hbare : ((v.graft parent name kind metadata).node x).kind.bare = (v.node x).kind.bare :=
    bare_graft_of_lt hx
  simpa only [NodeKind.bare, NodeKind.isDirectory_mapChildren] using
    congrArg NodeKind.isDirectory hbare

theorem Persists.makes (h : Persists v w) (hm : Makes w parent name u x) : Persists v u := by
  cases hm with
  | refused | found => exact ⟨h.length_le, h.metadata, h.entry⟩
  | @entered bytes kind metadata hnone _ hkind =>
    have hback : ∀ d, d < v.nodes.length →
        ((w.graft parent name kind metadata).node d).kind.isDirectory = true →
        (w.node d).kind.isDirectory = true := fun d hd hdir ↦ by
      rwa [isDirectory_graft_of_lt (hd.trans_le h.length_le)] at hdir
    refine ⟨h.length_le.trans length_lt_length_graft.le, fun d hd hdir ↦ ?_,
      fun d nm c hd hdir hchild ↦ ?_⟩
    · exact (metadata_graft_of_lt (hd.trans_le h.length_le)).trans
        (h.metadata d hd (hback d hd hdir))
    · have hw := h.entry d nm c hd (hback d hd hdir) hchild
      show (w.graft parent name kind metadata).child d nm = some c
      rw [graft, child_modifyChildren_insert, child_push hkind, if_neg]
      · exact hw
      · rintro ⟨rfl, rfl, -⟩
        rw [hnone] at hw
        cases hw
  | @replaced bytes x kind metadata hfound hkind =>
    have hne : ∀ d, ((w.modifyNode x fun n ↦ { n with kind := kind, metadata := metadata }).node
        d).kind.isDirectory = true → d ≠ x := by
      rintro d hdir rfl
      by_cases hlt : d < w.nodes.length
      · rw [node_modifyNode_self hlt, hkind] at hdir
        cases hdir
      · rw [node_of_le (length_modifyNode.trans_le (Nat.le_of_not_lt hlt))] at hdir
        cases hdir
    refine ⟨h.length_le.trans length_modifyNode.ge, fun d hd hdir ↦ ?_,
      fun d nm c hd hdir hchild ↦ ?_⟩
    · have hnode := node_modifyNode_of_ne (v := w)
        (f := fun n ↦ { n with kind := kind, metadata := metadata }) (hne d hdir)
      exact (congrArg Node.metadata hnode).trans (h.metadata d hd (hnode ▸ hdir))
    · have hnode := node_modifyNode_of_ne (v := w)
        (f := fun n ↦ { n with kind := kind, metadata := metadata }) (hne d hdir)
      have hw := h.entry d nm c hd (hnode ▸ hdir) hchild
      rw [child_eq] at hw
      exact (child_eq _ _ _).trans ((congrArg (fun n : Node ↦ n.kind.children[nm]?) hnode).trans hw)

end Vfs

end Mimic
