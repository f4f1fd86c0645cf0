import Mimic.Vfs.Confined
import Mimic.Vfs.Depth

/-!
# Changes behind entries

What happens behind some entries of one directory, `Altered`: every other node that was there is as
it was, the directory itself is but for these entries, and what is new is behind them.

Changes behind different entries of one directory add up (`Altered.trans`), since what is behind two
entries is disjoint (`descend_injective`). Changes behind entries of a directory that is itself
behind an entry are changes behind that (`Altered.fill`). So a recursion over a tree that makes one
entry after the other makes changes behind the first entry only, and what is left to prove about it
is that it does make an entry where it is asked to (`Makes.altered`).
-/

namespace Mimic

open GuardedRun ParentForest

namespace Vfs

variable {u v w : Vfs} {p d c x y id : NodeId} {name nm : Str} {names names' rel : List Str}
  {S T : Str → Prop}

/-! ### Descents -/

/-- A node does not lie below itself. -/
theorem descend_ne_self (hv : v.WellFormed) (hc : c < v.nodes.length) :
    v.descend c (name :: names) ≠ some c := fun h ↦
  climb_ne_self hv.root_parent (hv.grounded hc) ((below_of_descend h).climb hv)

/-- **From one node, a node is reached in one way.** -/
theorem descend_injective (hv : v.WellFormed) (hc : c < v.nodes.length)
    (h : v.descend c names = some x) (h' : v.descend c names' = some x) : names = names' := by
  induction names using List.reverseRecOn generalizing names' x with
  | nil =>
    obtain rfl := Option.some.inj h
    rcases names' with - | ⟨name, names'⟩
    · rfl
    · exact absurd h' (descend_ne_self hv hc)
  | append_singleton init last ih =>
    obtain ⟨y, hinit, hy⟩ := descend_snoc.1 h
    rcases List.eq_nil_or_concat names' with rfl | ⟨init', last', rfl⟩
    · obtain rfl := Option.some.inj h'
      obtain ⟨name, names, hnames⟩ := List.exists_cons_of_ne_nil (l := init ++ [last]) (by simp)
      exact absurd (hnames ▸ h) (descend_ne_self hv hc)
    · rw [List.concat_eq_append] at h' ⊢
      obtain ⟨y', hinit', hy'⟩ := descend_snoc.1 h'
      obtain ⟨rfl, rfl⟩ := hv.entry_unique hy hy'
      rw [ih hinit hinit']

/-- A descent through nodes that are the same is the same. -/
theorem descend_congr
    (h : ∀ pre y, pre <+: names → v.descend c pre = some y → w.node y = v.node y) :
    w.descend c names = v.descend c names := by
  induction names generalizing c with
  | nil => rfl
  | cons name names ih =>
    have hc : w.child c name = v.child c name := by
      rw [child_eq, child_eq, h [] c List.nil_prefix rfl]
    rw [descend, descend, hc]
    cases hchild : v.child c name with
    | none => rfl
    | some x =>
      exact ih fun pre y hpre hy ↦ h (name :: pre) y (List.cons_prefix_cons.2 ⟨rfl, hpre⟩)
        (descend_cons.2 ⟨x, hchild, hy⟩)

/-- Where entries lead to nodes that there were only if they did, so do descents. -/
theorem descend_of_old (hold : ∀ d nm c, w.child d nm = some c → c < v.nodes.length →
      v.child d nm = some c) (hx : x < v.nodes.length) (h : w.descend c names = some x) :
    v.descend c names = some x := by
  induction names using List.reverseRecOn generalizing x with
  | nil => exact h
  | append_singleton init last ih =>
    obtain ⟨y, hinit, hy⟩ := descend_snoc.1 h
    have hchild := hold y last x hy hx
    exact descend_snoc.2 ⟨y, ih (lt_of_child hchild) hinit, hchild⟩

/-! ### What is behind an entry -/

/-- `x` is what the entry `name` of `p` leads to, or below that. -/
def Behind (v : Vfs) (p : NodeId) (name : Str) (x : NodeId) : Prop :=
  ∃ rel, v.descend p (name :: rel) = some x

theorem Behind.ne (hv : v.WellFormed) (hp : p < v.nodes.length) (h : v.Behind p name x) :
    x ≠ p := by
  rintro rfl
  obtain ⟨rel, hrel⟩ := h
  exact descend_ne_self hv hp hrel

/-- What is behind one entry is not behind another. -/
theorem Behind.unique (hv : v.WellFormed) (hp : p < v.nodes.length) (h : v.Behind p name x)
    (h' : v.Behind p nm x) : name = nm := by
  obtain ⟨rel, hrel⟩ := h
  obtain ⟨rel', hrel'⟩ := h'
  exact (List.cons.inj (descend_injective hv hp hrel hrel')).1

theorem behind_self (h : v.child p name = some c) : v.Behind p name c :=
  ⟨[], descend_cons.2 ⟨c, h, rfl⟩⟩

theorem behind_of_child (h : v.child p name = some c) (hrel : v.descend c rel = some x) :
    v.Behind p name x := ⟨rel, descend_cons.2 ⟨c, h, hrel⟩⟩

/-- No node of `v` is entered anew in `w`. -/
structure Sprouts (v w : Vfs) : Prop where
  length_le : v.nodes.length ≤ w.nodes.length
  old : ∀ d nm c, w.child d nm = some c → c < v.nodes.length → v.child d nm = some c

theorem Sprouts.refl (v : Vfs) : Sprouts v v := ⟨le_rfl, fun _ _ _ h _ ↦ h⟩

theorem Sprouts.trans (h : Sprouts v u) (h' : Sprouts u w) : Sprouts v w where
  length_le := h.length_le.trans h'.length_le
  old d nm c hc hlt := h.old d nm c (h'.old d nm c hc (hlt.trans_le h.length_le)) hlt

/-- What changes from `v` to `w` is behind the entries of `p` whose names are in `S`. -/
structure Altered (v w : Vfs) (p : NodeId) (S : Str → Prop) : Prop extends Sprouts v w where
  root : w.root = v.root
  outside : ∀ x, x < v.nodes.length → x ≠ p → (∀ nm, S nm → ¬ v.Behind p nm x) →
    w.node x = v.node x
  name : (w.node p).name = (v.node p).name
  parentOf : w.parentOf p = v.parentOf p
  metadata : (w.node p).metadata = (v.node p).metadata
  bare : (w.node p).kind.bare = (v.node p).kind.bare
  entry : ∀ nm, ¬ S nm → w.child p nm = v.child p nm
  /-- What is new is behind the entries. -/
  fresh : ∀ x, v.nodes.length ≤ x → x < w.nodes.length → ∃ nm, S nm ∧ w.Behind p nm x

namespace Altered

theorem refl (v : Vfs) (p : NodeId) (S : Str → Prop) : Altered v v p S where
  length_le := le_rfl
  root := rfl
  old _ _ _ h _ := h
  outside _ _ _ _ := rfl
  name := rfl
  parentOf := rfl
  metadata := rfl
  bare := rfl
  entry _ _ := rfl
  fresh _ hle hlt := absurd hlt (Nat.not_lt.2 hle)

theorem mono (h : Altered v w p S) (hST : ∀ nm, S nm → T nm) : Altered v w p T where
  length_le := h.length_le
  root := h.root
  old := h.old
  outside x hx hne hT := h.outside x hx hne fun nm hnm ↦ hT nm (hST nm hnm)
  name := h.name
  parentOf := h.parentOf
  metadata := h.metadata
  bare := h.bare
  entry nm hnm := h.entry nm fun hS ↦ hnm (hST nm hS)
  fresh x hle hlt := (h.fresh x hle hlt).imp fun nm hnm ↦ ⟨hST nm hnm.1, hnm.2⟩

theorem setContentBytes (h : Altered v w p S) (bytes : ℕ) :
    Altered v { w with contentBytes := bytes } p S := by
  refine ⟨⟨h.length_le, h.old⟩, h.root, h.outside, h.name, h.parentOf, h.metadata, h.bare, h.entry,
    fun x hle hlt ↦ ?_⟩
  obtain ⟨nm, hnm, rel, hrel⟩ := h.fresh x hle hlt
  have hsame : ({ w with contentBytes := bytes } : Vfs).descend p (nm :: rel) =
      w.descend p (nm :: rel) := descend_congr fun _ _ _ _ ↦ rfl
  exact ⟨nm, hnm, rel, hsame.trans hrel⟩

theorem isDirectory (h : Altered v w p S) :
    (w.node p).kind.isDirectory = (v.node p).kind.isDirectory := by
  rw [← NodeKind.isDirectory_mapChildren fun _ ↦ ∅]
  exact (congrArg NodeKind.isDirectory h.bare).trans (NodeKind.isDirectory_mapChildren _ _)

/-- A node that nothing touches leads where it led. -/
theorem descend_eq (h : Altered v w p S) (hv : v.WellFormed) (hc : c < v.nodes.length)
    (hout : ∀ rel y, v.descend c rel = some y → y ≠ p ∧ ∀ nm, S nm → ¬ v.Behind p nm y) :
    w.descend c names = v.descend c names :=
  descend_congr fun pre y _ hy ↦
    h.outside y (lt_of_descend hv hc hy) (hout pre y hy).1 (hout pre y hy).2

/-- What was behind an entry that nothing touches still is. -/
theorem behind (h : Altered v w p S) (hv : v.WellFormed) (hp : p < v.nodes.length) (hnm : ¬ S nm)
    (hx : v.Behind p nm x) : w.Behind p nm x := by
  obtain ⟨rel, hrel⟩ := hx
  obtain ⟨c, hchild, hrest⟩ := descend_cons.1 hrel
  refine behind_of_child ((h.entry nm hnm).trans hchild)
    ((h.descend_eq hv (hv.entry_lt hchild) fun rel' y hy ↦ ?_).trans hrest)
  have hbehind : v.Behind p nm y := behind_of_child hchild hy
  exact ⟨hbehind.ne hv hp, fun nm' hnm' hy' ↦ hnm (hbehind.unique hv hp hy' ▸ hnm')⟩

/-- **Changes behind different entries add up.** Where nothing is new yet, the entries may be the
same. -/
theorem trans (h : Altered v u p S) (h' : Altered u w p T) (hu : u.WellFormed)
    (hp : p < v.nodes.length)
    (hdisj : u.nodes.length = v.nodes.length ∨ ∀ nm, S nm → ¬ T nm) :
    Altered v w p fun nm ↦ S nm ∨ T nm where
  toSprouts := h.toSprouts.trans h'.toSprouts
  root := h'.root.trans h.root
  outside x hx hne hout := by
    rw [h'.outside x (hx.trans_le h.length_le) hne fun nm hnm ↦ ?_]
    · exact h.outside x hx hne fun nm hnm ↦ hout nm (.inl hnm)
    · rintro ⟨rel, hrel⟩
      exact hout nm (.inr hnm) ⟨rel, descend_of_old h.old hx hrel⟩
  name := h'.name.trans h.name
  parentOf := h'.parentOf.trans h.parentOf
  metadata := h'.metadata.trans h.metadata
  bare := h'.bare.trans h.bare
  entry nm hnm := (h'.entry nm fun hT ↦ hnm (.inr hT)).trans (h.entry nm fun hS ↦ hnm (.inl hS))
  fresh x hle hlt := by
    rcases Nat.lt_or_ge x u.nodes.length with hxu | hxu
    · rcases hdisj with hlen | hdisj
      · exact absurd (hlen ▸ hxu) (Nat.not_lt.2 hle)
      · obtain ⟨nm, hnm, hx⟩ := h.fresh x hle hxu
        exact ⟨nm, .inl hnm, h'.behind hu (hp.trans_le h.length_le) (hdisj nm hnm) hx⟩
    · obtain ⟨nm, hnm, hx⟩ := h'.fresh x hxu hlt
      exact ⟨nm, .inr hnm, hx⟩

/-- **Changes behind entries of a directory are changes behind the entry of the directory**, once
it is there. -/
theorem fill (h : Altered v u p (· = name)) (h' : Altered u w d T) (hu : u.WellFormed)
    (hp : p < v.nodes.length) (hchild : u.child p name = some d)
    (hnew : ∀ x, v.nodes.length ≤ x → x < u.nodes.length → x = d) :
    Altered v w p (· = name) := by
  have hpu : p < u.nodes.length := hp.trans_le h.length_le
  have hbehind : ∀ {x}, (x = d ∨ ∃ nm, T nm ∧ u.Behind d nm x) → u.Behind p name x := by
    rintro x (rfl | ⟨nm, -, rel, hrel⟩)
    · exact behind_self hchild
    · exact behind_of_child hchild hrel
  have hplace : w.node p = u.node p := by
    refine h'.outside p hpu (fun heq ↦ ?_) fun nm hnm hx ↦ ?_
    · exact (hbehind (.inl heq)).ne hu hpu rfl
    · exact (hbehind (.inr ⟨nm, hnm, hx⟩)).ne hu hpu rfl
  have hentry : ∀ nm, w.child p nm = u.child p nm := fun nm ↦ by rw [child_eq, child_eq, hplace]
  refine ⟨h.toSprouts.trans h'.toSprouts, h'.root.trans h.root, fun x hx hne hout ↦ ?_, ?_, ?_, ?_,
    ?_, fun nm hnm ↦ (hentry nm).trans (h.entry nm hnm), fun x hle hlt ↦ ⟨name, rfl, ?_⟩⟩
  · have hnot : ¬ u.Behind p name x := by
      rintro ⟨rel, hrel⟩
      exact hout name rfl ⟨rel, descend_of_old h.old hx hrel⟩
    rw [h'.outside x (hx.trans_le h.length_le) (fun heq ↦ hnot (hbehind (.inl heq)))
      fun nm hnm hx' ↦ hnot (hbehind (.inr ⟨nm, hnm, hx'⟩))]
    exact h.outside x hx hne hout
  · rw [hplace, h.name]
  · rw [Vfs.parentOf, hplace]
    exact h.parentOf
  · rw [hplace, h.metadata]
  · rw [hplace, h.bare]
  · have hd : w.child p name = some d := (hentry name).trans hchild
    rcases Nat.lt_or_ge x u.nodes.length with hxu | hxu
    · rw [hnew x hle hxu]
      exact behind_self hd
    · obtain ⟨nm, -, rel, hrel⟩ := h'.fresh x hxu hlt
      exact behind_of_child hd hrel

/-- **What is attached stays attached if it is above the changes.** -/
theorem attached (h : Altered v w p S) (hv : v.WellFormed) (hp : v.Attached p) : w.Attached p := by
  obtain ⟨names, hnames⟩ := hp
  have hlt := lt_of_descend hv hv.root_lt hnames
  refine ⟨names, ?_⟩
  rw [h.root]
  rcases List.eq_nil_or_concat names with rfl | ⟨init, last, rfl⟩
  · exact hnames
  rw [List.concat_eq_append] at hnames ⊢
  obtain ⟨y, hinit, hy⟩ := descend_snoc.1 hnames
  -- what is above `p` is not `p` and not behind it
  have habove : ∀ pre z, pre <+: init → v.descend v.root pre = some z → w.node z = v.node z := by
    rintro pre z ⟨rest, rfl⟩ hz
    have hp' : v.descend z (rest ++ [last]) = some p := by
      rw [List.append_assoc, descend_append, hz] at hnames
      exact hnames
    obtain ⟨nm, rel, hrel⟩ := List.exists_cons_of_ne_nil (l := rest ++ [last]) (by simp)
    refine h.outside z (lt_of_descend hv hv.root_lt hz) ?_ fun nm' _ ⟨rel', hrel'⟩ ↦ ?_
    · rintro rfl
      exact descend_ne_self hv hlt (hrel ▸ hp')
    · have hself : v.descend p (nm' :: rel' ++ (rest ++ [last])) = some p := by
        rw [descend_append, hrel']
        exact hp'
      exact descend_ne_self hv hlt hself
  refine descend_snoc.2 ⟨y, (descend_congr habove).trans hinit, ?_⟩
  rw [child_eq, habove init y List.prefix_rfl hinit, ← child_eq]
  exact hy

/-- **What is new is attached**, if the directory is. -/
theorem attached_of_le (h : Altered v w p S) (hv : v.WellFormed) (hp : v.Attached p)
    (hle : v.nodes.length ≤ x) (hlt : x < w.nodes.length) : w.Attached x := by
  obtain ⟨names, hnames⟩ := h.attached hv hp
  obtain ⟨nm, -, rel, hrel⟩ := h.fresh x hle hlt
  exact ⟨names ++ nm :: rel, by rw [descend_append, hnames]; exact hrel⟩

/-- The directory is as deep as it was. -/
theorem depthOf (h : Altered v w p S) (hv : v.WellFormed) (hw : w.WellFormed)
    (hp : p < v.nodes.length) : w.depthOf p = v.depthOf p := by
  obtain ⟨k, hk⟩ := hv.grounded hp
  rw [depthOf_eq hv hp hk]
  refine depthOf_eq hw (hp.trans_le h.length_le) ?_
  rw [h.root, ← hk]
  refine climb_congr fun y ⟨j, hj⟩ ↦ ?_
  rcases eq_or_ne y p with rfl | hne
  · exact h.parentOf
  refine congrArg Node.parent (h.outside y (hv.lt_of_climb hp hj) hne ?_)
  -- a node above `p` that is behind it would be above itself
  rintro nm - ⟨rel, hrel⟩
  have hback := climb_trans hj ((below_of_descend hrel).climb hv)
  exact climb_ne_self hv.root_parent (hv.grounded hp) hback

end Altered

/-! ### Making an entry -/

theorem makes_addDynamicFile (v : Vfs) (now : Timestamp) (parent : NodeId) (name : Str)
    (generator : Generator) (perms uid gid : UInt32) :
    Makes v parent name (v.addDynamicFile now parent name generator perms uid gid).1
      (v.addDynamicFile now parent name generator perms uid gid).2 := by
  rw [addDynamicFile]
  cases hchild : v.child parent name with
  | some existing => exact .replaced hchild rfl
  | none => exact makes_insert rfl hchild

theorem sprouts_graft {kind : NodeKind} {metadata : Metadata} (hkind : kind.children = ∅) :
    Sprouts v (v.graft p name kind metadata) := by
  refine ⟨length_lt_length_graft.le, fun d nm c hc hlt ↦ ?_⟩
  rcases child_graft_cases hkind hc with h | ⟨-, rfl⟩
  · exact h
  · exact absurd hlt (lt_irrefl _)

/-- Making an entry enters no other node than a new one. -/
theorem Makes.sprouts (hm : Makes v p name w x) : Sprouts v w := by
  cases hm with
  | refused | found => exact ⟨le_rfl, (Sprouts.refl v).old⟩
  | @entered bytes kind metadata _ _ hkind =>
    have hgraft : Sprouts v (v.graft p name kind metadata) := sprouts_graft hkind
    exact ⟨hgraft.length_le, hgraft.old⟩
  | replaced _ hkind =>
    exact ⟨length_modifyNode.ge, fun d nm c hc _ ↦ child_replace_cases hkind hc⟩

theorem Prunes.sprouts (h : Prunes v w) : Sprouts v w :=
  ⟨h.length.ge, fun d nm c hc _ ↦ h.child d nm c hc⟩

theorem altered_graft {kind : NodeKind} {metadata : Metadata} (hkind : kind.children = ∅)
    (hp : p < v.nodes.length) (hdir : (v.node p).kind.isDirectory = true) :
    Altered v (v.graft p name kind metadata) p (· = name) where
  toSprouts := sprouts_graft hkind
  root := rfl
  outside x hx hne _ := node_graft_of_ne hx hne
  name := name_graft_of_lt hp
  parentOf := parentOf_graft_of_lt hp
  metadata := metadata_graft_of_lt hp
  bare := bare_graft_of_lt hp
  entry nm hnm := by rw [child_graft hp hkind, if_neg fun h ↦ hnm h.2.1]
  fresh x hle hlt := by
    obtain rfl : x = v.nodes.length := Nat.le_antisymm (by rw [length_graft] at hlt; omega) hle
    refine ⟨name, rfl, behind_self ?_⟩
    rw [child_graft hp hkind, if_pos ⟨rfl, rfl, hdir⟩]

theorem altered_replace {kind : NodeKind} {metadata : Metadata} (hv : v.WellFormed)
    (hkind : kind.isDirectory = false) (hchild : v.child p name = some id) :
    Altered v (v.modifyNode id fun n ↦ { n with kind := kind, metadata := metadata }) p
      (· = name) := by
  have hbehind : v.Behind p name id := behind_self hchild
  have hne : p ≠ id := (hbehind.ne hv (lt_of_child hchild)).symm
  have hnode : (v.modifyNode id fun n ↦ { n with kind := kind, metadata := metadata }).node p =
      v.node p := node_modifyNode_of_ne hne
  refine ⟨⟨length_modifyNode.ge, fun d nm c hc _ ↦ child_replace_cases hkind hc⟩, rfl,
    fun x _ _ hout ↦ node_modifyNode_of_ne ?_, ?_, ?_, ?_, ?_, fun nm _ ↦ ?_, fun x hle hlt ↦ ?_⟩
  · rintro rfl
    exact hout name rfl hbehind
  · rw [hnode]
  · rw [parentOf, hnode, parentOf]
  · rw [hnode]
  · rw [hnode]
  · rw [child_eq, child_eq, hnode]
  · rw [length_modifyNode] at hlt
    exact absurd hlt (Nat.not_lt.2 hle)

theorem altered_unlink (v : Vfs) (p : NodeId) (name : Str) :
    Altered v (v.unlink p name).1 p (· = name) where
  toSprouts := (Prunes.unlink v p name).sprouts
  root := rfl
  outside _ _ hne _ := node_modifyNode_of_ne hne
  name := (Prunes.unlink v p name).name p
  parentOf := (Prunes.unlink v p name).parentOf p
  metadata := metadata_modifyChildren p
  bare := modifyNode_field (fun n ↦ n.kind.bare) (NodeKind.bare_mapChildren _ _) p
  entry nm hnm := by rw [unlink, child_modifyChildren_erase, if_neg fun h ↦ hnm h.2]
  fresh x hle hlt := by
    rw [(Prunes.unlink v p name).length] at hlt
    exact absurd hlt (Nat.not_lt.2 hle)

/-- **What is made of an entry of a directory is behind it.** -/
theorem Makes.altered (hm : Makes v p name w x) (hv : v.WellFormed) (hp : p < v.nodes.length)
    (hdir : (v.node p).kind.isDirectory = true) : Altered v w p (· = name) := by
  cases hm with
  | refused | found => exact (Altered.refl v p _).setContentBytes _
  | entered _ _ hkind => exact (altered_graft hkind hp hdir).setContentBytes _
  | replaced hchild hkind => exact (altered_replace hv hkind hchild).setContentBytes _

/-- What is new behind an entry that was made is what it leads to. -/
theorem Makes.eq_of_le (hm : Makes v p name w x) (hle : v.nodes.length ≤ y)
    (hlt : y < w.nodes.length) : y = x := by
  cases hm with
  | refused | found => exact absurd hlt (Nat.not_lt.2 hle)
  | entered =>
    have hlt' : y < v.nodes.length + 1 := length_graft ▸ hlt
    exact Nat.le_antisymm (Nat.le_of_lt_succ hlt') hle
  | replaced =>
    have hlt' : y < v.nodes.length := length_modifyNode ▸ hlt
    exact absurd hlt' (Nat.not_lt.2 hle)

/-- **One entry after the other**: steps that each make changes behind an entry of their own make
changes behind these entries. -/
theorem altered_run {α : Type*} {step : α → Vfs → Vfs} {guard : α → Vfs → Prop} {nameOf : α → Str}
    {I : Vfs → Prop} {as : List α} (hnodup : (as.map nameOf).Nodup)
    (hI : ∀ u, I u → u.WellFormed ∧ p < u.nodes.length)
    (hstep : ∀ a u, guard a u → I u → I (step a u) ∧ Altered u (step a u) p (· = nameOf a))
    (h : Admissible step guard v as) (hv : I v) :
    Altered v (run step v as) p (· ∈ as.map nameOf) := by
  induction as generalizing v with
  | nil => exact .refl v p _
  | cons a as ih =>
    obtain ⟨hnot, hrest⟩ := List.nodup_cons.1 hnodup
    obtain ⟨hI', ha⟩ := hstep a v h.1 hv
    refine (ha.trans (ih hrest h.2 hI') (hI _ hI').1 (hI v hv).2 (.inr ?_)).mono fun nm hnm ↦ ?_
    · rintro nm rfl hmem
      exact hnot hmem
    · rw [List.map_cons, List.mem_cons]
      exact hnm

end Vfs

end Mimic
