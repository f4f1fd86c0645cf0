import Mimic.Vfs.Depth
import Mimic.Vfs.Placement

/-!
# Moving a subtree

`rename` asks three questions: whether the new parent is a directory, whether it is below the node
to be moved, and whether the subtree would reach too deep. The loops that answer the last two have a
bound, and give the right answer within it (`isAncestorOf_iff`, `exists_below_heightOf`).

A move that goes ahead takes out one entry and puts one in (`child_reattach`). So the entry paths of
a node are followed through it in two cases: below the node moved, and outside both the node moved
and what was at its destination (`rename_moves`).
-/

namespace Mimic

open GuardedRun ParentForest

namespace Vfs

variable {v w : Vfs} {id newParent a x d c : NodeId} {newName name : Str}
  {names rel path : List Str} {k : ℕ}

/-! ### The questions -/

/-- **The ancestors of an attached node are the nodes it is below.** -/
theorem isAncestor_iff_descend (hv : v.WellFormed) (hx : v.descend v.root names = some x) :
    IsAncestor v.parentOf a x ↔ ∃ rel, v.descend a rel = some x := by
  constructor
  · rintro ⟨k, hk⟩
    induction names using List.reverseRecOn generalizing x k with
    | nil =>
      obtain rfl := Option.some.inj hx
      cases k with
      | zero => exact ⟨[], congrArg some (Option.some.inj hk).symm⟩
      | succ k =>
        rw [climb_succ, hv.root_parent] at hk
        cases hk
    | append_singleton init last ih =>
      obtain ⟨y, hinit, hy⟩ := descend_snoc.1 hx
      cases k with
      | zero => exact ⟨[], congrArg some (Option.some.inj hk).symm⟩
      | succ k =>
        rw [climb_succ_of_parent (hv.entry_parent hy)] at hk
        obtain ⟨rel, hrel⟩ := ih hinit k hk
        exact ⟨rel ++ [last], descend_snoc.2 ⟨y, hrel, hy⟩⟩
  · rintro ⟨rel, hrel⟩
    exact ⟨_, (below_of_descend hrel).climb hv⟩

/-- A chain that ends before the bound does is followed to its end. -/
theorem ancestorLoop_eq_false {fuel : ℕ} (hroot : v.parentOf v.root = none)
    (hk : climb v.parentOf k x = some v.root) (hfuel : k + 1 < fuel)
    (hanc : ¬ IsAncestor v.parentOf id x) : v.ancestorLoop id fuel (some x) = false := by
  induction k generalizing fuel x with
  | zero =>
    obtain rfl := Option.some.inj hk
    obtain ⟨fuel, rfl⟩ : ∃ f, fuel = f + 2 := ⟨fuel - 2, by omega⟩
    rw [ancestorLoop, if_neg fun heq ↦ hanc ⟨0, congrArg some heq⟩, hroot]
    rfl
  | succ k ih =>
    obtain ⟨p, hp, hpk⟩ := exists_parent_of_climb_succ hk
    obtain ⟨fuel, rfl⟩ : ∃ f, fuel = f + 1 := ⟨fuel - 1, by omega⟩
    rw [ancestorLoop, if_neg fun heq ↦ hanc ⟨0, congrArg some heq⟩, hp]
    exact ih hpk (by omega) fun h ↦ hanc (h.of_parent hp)

/-- **`is_ancestor_of` is exact**: a chain without `id` is shorter than the arena by the root's end
and by `id`. -/
theorem isAncestorOf_iff (hv : v.WellFormed) (hid : id < v.nodes.length) (hx : x < v.nodes.length) :
    v.isAncestorOf id x = true ↔ IsAncestor v.parentOf id x := by
  refine ⟨fun h ↦ ?_, isAncestorOf_of_isAncestor⟩
  by_contra hanc
  obtain ⟨k, hk⟩ := hv.grounded hx
  have hcard := lt_card_of_climb_root (S := (Finset.range v.nodes.length).erase id) hv.root_parent
    (fun y hy ↦ Finset.mem_erase.2 ⟨fun heq ↦ hanc (heq ▸ hy),
      Finset.mem_range.2 (hy.elim fun j hj ↦ hv.lt_of_climb hx hj)⟩) hk
  rw [Finset.card_erase_of_mem (Finset.mem_range.2 hid), Finset.card_range] at hcard
  rw [isAncestorOf, ancestorLoop_eq_false hv.root_parent hk (by omega) hanc] at h
  cases h

/-- What `height_of` returns is the level of a node it has met. -/
theorem heightLoop_attained (fuel : ℕ) (stack : List (NodeId × ℕ)) (height : ℕ) :
    v.heightLoop fuel stack height = height ∨
      ∃ e ∈ stack, ∃ y r, Below v e.1 y r ∧ v.heightLoop fuel stack height = e.2 + r := by
  induction fuel generalizing stack height with
  | zero => exact Or.inl rfl
  | succ fuel ih =>
    rcases stack with - | ⟨⟨n, h⟩, stack⟩
    · exact Or.inl rfl
    rw [heightLoop]
    rcases ih _ (max height h) with hmax | ⟨e, he, y, r, hbelow, hr⟩
    · rcases max_choice height h with hm | hm
      · exact Or.inl (hmax.trans hm)
      · exact Or.inr ⟨(n, h), List.mem_cons_self, n, 0, .refl, hmax.trans hm⟩
    · right
      rcases List.mem_append.1 he with hpushed | hstack
      · obtain ⟨name, hchild, hlevel⟩ := mem_pushed_iff.1 hpushed
        exact ⟨(n, h), List.mem_cons_self, y, r + 1, hbelow.head hchild, by rw [hr, hlevel]; omega⟩
      · exact ⟨e, List.mem_cons_of_mem _ hstack, y, r, hbelow, hr⟩

theorem exists_below_heightOf (v : Vfs) (id : NodeId) : ∃ y, Below v id y (v.heightOf id) := by
  rcases heightLoop_attained (v := v) v.nodes.length [(id, 0)] 0 with h | ⟨e, he, y, r, hbelow, hr⟩
  · rw [heightOf, h]
    exact ⟨id, .refl⟩
  · obtain rfl := List.mem_singleton.1 he
    rw [heightOf, hr, Nat.zero_add]
    exact ⟨y, hbelow⟩

theorem exists_descend_of_below (h : Below v a x k) :
    ∃ rel, v.descend a rel = some x ∧ rel.length = k := by
  induction h with
  | refl => exact ⟨[], rfl, rfl⟩
  | @step d c name k _ hc ih =>
    obtain ⟨rel, hrel, hlen⟩ := ih
    exact ⟨rel ++ [name], descend_snoc.2 ⟨d, hrel, hc⟩, by rw [List.length_append, hlen]; rfl⟩

/-- **The height is a bound on what is below**, and no less. -/
theorem lt_heightOf_iff (hv : v.WellFormed) (hid : id < v.nodes.length) :
    k < v.heightOf id ↔ ∃ rel x, v.descend id rel = some x ∧ k < rel.length := by
  constructor
  · intro h
    obtain ⟨y, hy⟩ := exists_below_heightOf v id
    obtain ⟨rel, hrel, hlen⟩ := exists_descend_of_below hy
    exact ⟨rel, y, hrel, hlen ▸ h⟩
  · rintro ⟨rel, x, hrel, hlt⟩
    exact hlt.trans_le (le_heightOf hv hid (below_of_descend hrel))

/-- **When a move is refused.** -/
theorem rename_refused_iff (hv : v.WellFormed) (hid : v.Attached id)
    (hnew : v.descend v.root names = some newParent) (newName : Str) :
    (v.rename id newParent newName).2 = false ↔
      (v.node newParent).kind.isDirectory = false ∨ (∃ rel, v.descend id rel = some newParent) ∨
        ∃ rel x, v.descend id rel = some x ∧ maxVfsDepth < names.length + 1 + rel.length := by
  obtain ⟨path, hpath⟩ := hid
  have hlt : id < v.nodes.length := lt_of_descend hv hv.root_lt hpath
  have hdepth : v.depthOf newParent = names.length := depthOf_of_below hv (below_of_descend hnew)
  have hheight : (∃ rel x, v.descend id rel = some x ∧
    maxVfsDepth < names.length + 1 + rel.length) ↔
      maxVfsDepth < names.length + 1 + v.heightOf id := by
    constructor
    · rintro ⟨rel, x, hrel, hdeep⟩
      have := le_heightOf hv hlt (below_of_descend hrel)
      omega
    · intro hdeep
      obtain ⟨y, hy⟩ := exists_below_heightOf v id
      obtain ⟨rel, hrel, hlen⟩ := exists_descend_of_below hy
      exact ⟨rel, y, hrel, hlen ▸ hdeep⟩
  rw [hheight, ← isAncestor_iff_descend hv hnew,
    ← isAncestorOf_iff hv hlt (lt_of_descend hv hv.root_lt hnew), rename_eq, hdepth, ← not_le]
  cases (v.node newParent).kind.isDirectory <;> cases v.isAncestorOf id newParent <;>
    by_cases h : names.length + 1 + v.heightOf id ≤ maxVfsDepth <;> simp [h]

/-! ### Following entries through a move -/

/-- An attached node is an entry of its parent. -/
theorem child_of_parentOf (hv : v.WellFormed) (hx : v.Attached x)
    (hparent : v.parentOf x = some d) :
    v.child d (v.node x).name = some x := by
  obtain ⟨path, hpath⟩ := hx
  rcases List.eq_nil_or_concat path with rfl | ⟨init, last, rfl⟩
  · obtain rfl := Option.some.inj hpath
    rw [hv.root_parent] at hparent
    cases hparent
  · rw [List.concat_eq_append] at hpath
    obtain ⟨y, -, hlast⟩ := descend_snoc.1 hpath
    obtain rfl := Option.some.inj ((hv.entry_parent hlast).symm.trans hparent)
    rw [hv.entry_name hlast]
    exact hlast

section Reattach

variable (hv : v.WellFormed) (hdir : (v.node newParent).kind.isDirectory = true)
  (hout : ∀ rel, v.descend id rel ≠ some newParent)

include hv hdir hout

/-- Below the node moved nothing changes. -/
theorem descend_reattach_below (hid : id < v.nodes.length) (h : v.descend id rel = some x) :
    (v.reattach id newParent newName).descend id rel = some x := by
  -- at `c` is what `pre` leads to
  suffices hgen : ∀ rel c pre, v.descend id pre = some c → v.descend c rel = some x →
      (v.reattach id newParent newName).descend c rel = some x from hgen rel id [] rfl h
  intro rel
  induction rel with
  | nil => exact fun _ _ _ h ↦ h
  | cons name rel ih =>
    intro c pre hpre hrest
    obtain ⟨y, hy, hrest⟩ := descend_cons.1 hrest
    refine descend_cons.2 ⟨y, ?_, ih y _ (descend_snoc.2 ⟨c, hpre, hy⟩) hrest⟩
    rw [child_reattach hdir, if_neg, if_neg, hy]
    · rintro ⟨hparent, -⟩
      have hclimb := (below_of_descend hpre).climb hv
      exact climb_ne_self hv.root_parent (hv.grounded hid)
        ((climb_succ_of_parent hparent).trans hclimb)
    · rintro ⟨rfl, -⟩
      exact hout pre hpre

/-- Outside the node moved and what was at its destination nothing changes. -/
theorem descend_reattach_outside (hid : v.Attached id) (h : v.descend v.root path = some x)
    (hbelow : ∀ rel, v.descend id rel ≠ some x)
    (hdest : ∀ e rel, v.child newParent newName = some e → v.descend e rel ≠ some x) :
    (v.reattach id newParent newName).descend v.root path = some x := by
  induction path using List.reverseRecOn generalizing x with
  | nil => exact h
  | append_singleton init last ih =>
    obtain ⟨d, hinit, hlast⟩ := descend_snoc.1 h
    refine descend_snoc.2 ⟨d, ih hinit (fun rel hrel ↦ ?_) fun e rel he hrel ↦ ?_, ?_⟩
    · exact hbelow (rel ++ [last]) (descend_snoc.2 ⟨d, hrel, hlast⟩)
    · exact hdest e (rel ++ [last]) he (descend_snoc.2 ⟨d, hrel, hlast⟩)
    rw [child_reattach hdir, if_neg, if_neg, hlast]
    · rintro ⟨hparent, rfl⟩
      rw [child_of_parentOf hv hid hparent] at hlast
      exact hbelow [] hlast
    · rintro ⟨rfl, rfl⟩
      exact hdest x [] hlast rfl

end Reattach

/-- `w` is `v` with `id` moved to the entry `newName` of `newParent`, which `names` leads to. -/
structure Moved (v w : Vfs) (id newParent : NodeId) (names : List Str) (newName : Str) : Prop where
  /-- What is below `id` is where `id` is now. -/
  below : ∀ rel x, v.descend id rel = some x →
    w.descend w.root (names ++ newName :: rel) = some x ∧
      w.pathOf x = '/' :: joinSlash (names ++ newName :: rel)
  /-- What was attached elsewhere is as it was, but for the two entries. -/
  outside : ∀ path x, v.descend v.root path = some x → (∀ rel, v.descend id rel ≠ some x) →
    (∀ e rel, v.child newParent newName = some e → v.descend e rel ≠ some x) →
      w.descend w.root path = some x ∧ w.pathOf x = v.pathOf x ∧
        (w.node x).kind.bare = (v.node x).kind.bare ∧ (w.node x).metadata = (v.node x).metadata ∧
          ∀ name, w.child x name = v.child x name ∨ x = newParent ∧ name = newName ∨
            v.parentOf id = some x ∧ name = (v.node id).name

theorem moved_reattach (hv : v.WellFormed) (hid : v.Attached id)
    (hnew : v.descend v.root names = some newParent)
    (hdir : (v.node newParent).kind.isDirectory = true)
    (hout : ∀ rel, v.descend id rel ≠ some newParent) (newName : Str) :
    Moved v (v.reattach id newParent newName) id newParent names newName := by
  have hlt : id < v.nodes.length := hid.elim fun path hpath ↦ lt_of_descend hv hv.root_lt hpath
  have hw : (v.reattach id newParent newName).WellFormed :=
    hv.reattach hlt hdir (lt_of_descend hv hv.root_lt hnew) fun hanc ↦
      (isAncestor_iff_descend hv hnew).1 hanc |>.elim hout
  have hback : ∀ name e rel, v.child newParent name = some e → v.descend e rel ≠ some newParent :=
    fun name e rel he hrel ↦ climb_ne_self hv.root_parent
      (hv.grounded (lt_of_descend hv hv.root_lt hnew)) ((below_of_descend hrel).head he |>.climb hv)
  constructor
  · intro rel x hrel
    have hparent : (v.reattach id newParent newName).descend v.root names = some newParent :=
      descend_reattach_outside hv hdir hout hid hnew hout (hback newName)
    have hentry : (v.reattach id newParent newName).child newParent newName = some id := by
      rw [child_reattach hdir, if_pos ⟨rfl, rfl⟩]
    have hmoved : (v.reattach id newParent newName).descend v.root (names ++ newName :: rel) =
        some x := by
      rw [descend_append, hparent]
      exact descend_cons.2 ⟨id, hentry, descend_reattach_below hv hdir hout hlt hrel⟩
    exact ⟨root_reattach (v := v) ▸ hmoved, pathOf_of_descend hw (root_reattach (v := v) ▸ hmoved)⟩
  · intro path x hx hbelow hdest
    have hsame : (v.reattach id newParent newName).descend v.root path = some x :=
      descend_reattach_outside hv hdir hout hid hx hbelow hdest
    rw [root_reattach]
    refine ⟨hsame, ?_, ?_, ?_, fun name ↦ ?_⟩
    · rw [pathOf_of_descend hv hx]
      exact pathOf_of_descend hw (root_reattach (v := v) ▸ hsame)
    · exact reattach_field (fun n ↦ n.kind.bare) (fun n g ↦ NodeKind.bare_mapChildren _ _)
        (fun _ ↦ rfl) x
    · exact reattach_field Node.metadata (fun _ _ ↦ rfl) (fun _ ↦ rfl) x
    · rw [child_reattach hdir]
      split
      · exact Or.inr (Or.inl ‹_›)
      split
      · exact Or.inr (Or.inr ‹_›)
      · exact Or.inl rfl

/-- `/a` with a file in it, and `/b`. -/
def twoDirs : Vfs :=
  run Op.apply (new 0) [.mutator (.mkdir 0 0 "a".toList 0o755 0 0),
    .mutator (.addFile 0 1 "f".toList [1] 0o644 0 0), .mutator (.mkdir 0 0 "b".toList 0o755 0 0)]

end Vfs

end Mimic
