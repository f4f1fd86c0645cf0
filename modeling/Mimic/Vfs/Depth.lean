import Mimic.Vfs.WellFormed

/-!
# The node cap and the depth cap

`Below v a x k` says that `x` is reached from `a` through `k` entries. A node is attached when it
is below the root, at a level which in a well-formed arena is the length of its parent chain
(`Below.climb`), so the two functions the code measures with are exact:

* `depthOf_eq`: the loop of `depth_of` counts the whole chain, its bound is never what stops it;
* `le_heightOf`: the stack walk of `height_of` reaches every node of the subtree.
  `heightLoop_spec` carries the walk's invariant (`Walk`): no node is ever pushed twice, so the walk
  ends after at most as many pops as there are nodes, and giving it more changes nothing.

The two caps then follow over whole runs (`caps_run`). Depth is checked in `insert` from the parent
chain and in `rename` from chain plus height, and the stale chains of tombstones do not matter: the
invariant speaks about attached nodes only, and both checks are made from the node where something
becomes attached.
-/

namespace Mimic

open GuardedRun ParentForest

namespace Vfs

variable {v w : Vfs} {id parent a x y d c : NodeId} {name : Str} {k r : ℕ}

/-- `x` is reached from `a` by following `k` entries. -/
inductive Below (v : Vfs) (a : NodeId) : NodeId → ℕ → Prop
  | refl : Below v a a 0
  | step {d c : NodeId} {name : Str} {k : ℕ} (h : Below v a d k)
      (hc : v.child d name = some c) : Below v a c (k + 1)

namespace Below

theorem head (hc : v.child a name = some c) (h : Below v c x k) : Below v a x (k + 1) := by
  induction h with
  | refl => exact .step .refl hc
  | step _ hstep ih => exact .step ih hstep

/-- The first entry followed. -/
theorem cases_head (h : Below v a x k) :
    (x = a ∧ k = 0) ∨ ∃ name c r, v.child a name = some c ∧ Below v c x r ∧ k = r + 1 := by
  induction h with
  | refl => exact Or.inl ⟨rfl, rfl⟩
  | step h hc ih =>
    rename_i d c name k
    rcases ih with ⟨rfl, rfl⟩ | ⟨name', c', r, hc', hr, rfl⟩
    · exact Or.inr ⟨name, c, 0, hc, .refl, rfl⟩
    · exact Or.inr ⟨name', c', r + 1, hc', .step hr hc, rfl⟩

/-- Entries followed down are parent links followed up. -/
theorem climb (hv : v.WellFormed) (h : Below v a x k) :
    ParentForest.climb v.parentOf k x = some a := by
  induction h with
  | refl => rfl
  | step _ hc ih => rw [climb_succ_of_parent (hv.entry_parent hc), ih]

theorem lt (hv : v.WellFormed) (ha : a < v.nodes.length) (h : Below v a x k) :
    x < v.nodes.length := by
  cases h with
  | refl => exact ha
  | step _ hc => exact hv.entry_lt hc

end Below

/-! ### `depth_of` -/

theorem depthLoop_eq (hroot : v.parentOf v.root = none) {fuel depth : ℕ} (hfuel : k < fuel)
    (hk : climb v.parentOf k x = some v.root) (hdepth : depth + k ≤ v.nodes.length) :
    v.depthLoop fuel x depth = depth + k := by
  induction k generalizing x fuel depth with
  | zero =>
    obtain ⟨fuel, rfl⟩ := Nat.exists_eq_succ_of_ne_zero (Nat.ne_of_gt hfuel)
    obtain rfl := Option.some.inj hk
    rw [depthLoop, hroot]
    rfl
  | succ k ih =>
    obtain ⟨fuel, rfl⟩ := Nat.exists_eq_succ_of_ne_zero (Nat.ne_of_gt (Nat.zero_lt_of_lt hfuel))
    obtain ⟨p, hp, hpk⟩ := exists_parent_of_climb_succ hk
    rw [depthLoop, hp]
    dsimp only
    rw [if_neg (by omega), ih (by omega) hpk (by omega)]
    omega

/-- **`depth_of` is the length of the parent chain.** -/
theorem depthOf_eq (hv : v.WellFormed) (hx : x < v.nodes.length)
    (hk : climb v.parentOf k x = some v.root) : v.depthOf x = k := by
  have hlt : k < v.nodes.length :=
    lt_of_climb_root (fun _ _ ↦ hv.parent_lt) hv.root_parent hx hk
  rw [depthOf, depthLoop_eq hv.root_parent (by omega) hk (by omega), Nat.zero_add]

/-- The level of an attached node is its depth. -/
theorem depthOf_of_below (hv : v.WellFormed) (h : Below v v.root x k) : v.depthOf x = k :=
  depthOf_eq hv (h.lt hv hv.root_lt) (h.climb hv)

theorem depthLoop_congr (hlen : w.nodes.length = v.nodes.length)
    (hparent : ∀ x, w.parentOf x = v.parentOf x) (fuel : ℕ) :
    ∀ (x : NodeId) (depth : ℕ), w.depthLoop fuel x depth = v.depthLoop fuel x depth := by
  induction fuel with
  | zero => intro x depth; rfl
  | succ fuel ih =>
    intro x depth
    rw [depthLoop, depthLoop, hparent, hlen]
    split
    · rfl
    · rw [ih]

/-- Room is a matter of the parent links. -/
theorem Prunes.isFull (h : Prunes v w) (d : NodeId) : w.isFull d = v.isFull d := by
  rw [Vfs.isFull, Vfs.isFull, depthOf, depthOf, h.length, depthLoop_congr h.length h.parentOf]

/-! ### `height_of` -/

/-- The invariant of the stack walk from `id`: nothing is ever on the stack or popped twice, the
stack holds nodes of the subtree at their levels, and whatever has been pushed since the start was
pushed by its parent. -/
structure Walk (v : Vfs) (id : NodeId) (visited : List NodeId) (stack : List (NodeId × ℕ)) :
    Prop where
  nodup : (visited ++ stack.map Prod.fst).Nodup
  visited_lt : ∀ x ∈ visited, x < v.nodes.length
  below : ∀ e ∈ stack, Below v id e.1 e.2
  pushed : ∀ x ∈ visited ++ stack.map Prod.fst, x ≠ id → ∃ p ∈ visited, v.parentOf x = some p

/-- The entries pushed when `y` is popped at level `h`. -/
theorem mem_pushed_iff {h : ℕ} {e : NodeId × ℕ} :
    e ∈ ((v.node y).kind.children.toList.map fun e ↦ (e.2, h + 1)).reverse ↔
      ∃ name, v.child y name = some e.1 ∧ e.2 = h + 1 := by
  rw [List.mem_reverse, List.mem_map]
  constructor
  · rintro ⟨⟨name, c⟩, hmem, rfl⟩
    rw [Std.ExtTreeMap.mem_toList_iff_getElem?_eq_some] at hmem
    exact ⟨name, (child_eq v y name).trans hmem, rfl⟩
  · rintro ⟨name, hc, he⟩
    refine ⟨(name, e.1), ?_, Prod.ext rfl he.symm⟩
    rw [Std.ExtTreeMap.mem_toList_iff_getElem?_eq_some, ← child_eq, hc]

/-- No node has two entries, so a table lists each child once. -/
theorem nodup_pushed (hv : v.WellFormed) {h : ℕ} :
    ((((v.node y).kind.children.toList.map fun e ↦ (e.2, h + 1)).reverse).map Prod.fst).Nodup := by
  rw [List.map_reverse, List.nodup_reverse, List.map_map]
  have hkeys : (v.node y).kind.children.toList.Nodup :=
    (Std.ExtTreeMap.distinct_keys_toList).imp fun {a b} hab heq ↦ hab (by rw [heq]; simp)
  refine List.Nodup.map_on (fun e he e' he' heq ↦ ?_) hkeys
  obtain ⟨name, c⟩ := e
  obtain ⟨name', c'⟩ := e'
  rw [Std.ExtTreeMap.mem_toList_iff_getElem?_eq_some, ← child_eq] at he he'
  obtain rfl : c = c' := heq
  exact Prod.ext (hv.entry_unique he he').2 rfl

/-- **One pop keeps the walk's invariant.** A child that had been seen before would have been pushed
by its parent, the node popped only now; or it would be the start of the walk, lying below itself.
-/
theorem Walk.pop (hv : v.WellFormed) (hid : id < v.nodes.length) {visited : List NodeId}
    {stack : List (NodeId × ℕ)} {h : ℕ} (hw : Walk v id visited ((y, h) :: stack)) :
    Walk v id (y :: visited)
      (((v.node y).kind.children.toList.map fun e ↦ (e.2, h + 1)).reverse ++ stack) := by
  have hy : Below v id y h := hw.below (y, h) List.mem_cons_self
  have hnodup : (visited ++ y :: stack.map Prod.fst).Nodup := hw.nodup
  have hyfresh : y ∉ visited := fun hmem ↦
    (List.nodup_append.1 hnodup).2.2 y hmem y List.mem_cons_self rfl
  have hperm : (visited ++ y :: stack.map Prod.fst).Perm
      (y :: (visited ++ stack.map Prod.fst)) := List.perm_middle
  set pushed := ((v.node y).kind.children.toList.map fun e ↦ (e.2, h + 1)).reverse with hpushed
  have hchild : ∀ {x}, x ∈ pushed.map Prod.fst → ∃ name, v.child y name = some x := by
    intro x hx
    obtain ⟨e, he, rfl⟩ := List.mem_map.1 hx
    obtain ⟨name, hc, -⟩ := mem_pushed_iff.1 he
    exact ⟨name, hc⟩
  -- what is pushed was not seen before: its parent is only popped now
  have hnew : ∀ x ∈ pushed.map Prod.fst, x ∉ visited ++ y :: stack.map Prod.fst := by
    intro x hx hseen
    obtain ⟨name, hc⟩ := hchild hx
    by_cases hxid : x = id
    · subst hxid
      refine climb_ne_self (k := h) hv.root_parent (hv.grounded hid) ?_
      rw [climb_succ_of_parent (hv.entry_parent hc), hy.climb hv]
    · obtain ⟨p, hp, hxp⟩ := hw.pushed x hseen hxid
      rw [hv.entry_parent hc] at hxp
      exact hyfresh (Option.some.inj hxp ▸ hp)
  constructor
  · rw [List.map_append, List.cons_append]
    have hrest : (y :: (visited ++ stack.map Prod.fst)).Nodup := hperm.nodup_iff.1 hnodup
    have hall : (pushed.map Prod.fst ++ (y :: (visited ++ stack.map Prod.fst))).Nodup := by
      refine List.nodup_append.2 ⟨nodup_pushed hv, hrest, fun x hx z hz hxz ↦ ?_⟩
      exact hnew x hx (hperm.mem_iff.2 (hxz ▸ hz))
    refine (List.Perm.nodup_iff ?_).1 hall
    refine List.perm_middle.trans (List.Perm.cons _ ?_)
    rw [← List.append_assoc, ← List.append_assoc]
    exact List.perm_append_comm.append_right _
  · intro x hx
    rcases List.mem_cons.1 hx with rfl | hx
    · exact hy.lt hv hid
    · exact hw.visited_lt x hx
  · intro e he
    rcases List.mem_append.1 he with he | he
    · obtain ⟨name, hc, hlevel⟩ := mem_pushed_iff.1 he
      rw [hlevel]
      exact .step hy hc
    · exact hw.below e (List.mem_cons_of_mem _ he)
  · intro x hx hxid
    rw [List.map_append, ← List.append_assoc, List.mem_append, List.mem_append] at hx
    have hold : x ∈ visited ++ y :: stack.map Prod.fst →
        ∃ p ∈ y :: visited, v.parentOf x = some p := by
      intro hmem
      obtain ⟨p, hp, hxp⟩ := hw.pushed x hmem hxid
      exact ⟨p, List.mem_cons_of_mem _ hp, hxp⟩
    rcases hx with (hx | hx) | hx
    · exact hold (hperm.mem_iff.2 (by rw [← List.cons_append]; exact List.mem_append_left _ hx))
    · obtain ⟨name, hc⟩ := hchild hx
      exact ⟨y, List.mem_cons_self, hv.entry_parent hc⟩
    · exact hold (List.mem_append_right _ (List.mem_cons_of_mem _ hx))

/-- A walk has never seen more nodes than the arena has. -/
theorem Walk.length_le (hv : v.WellFormed) (hid : id < v.nodes.length) {visited : List NodeId}
    {stack : List (NodeId × ℕ)} (hw : Walk v id visited stack) :
    visited.length + stack.length ≤ v.nodes.length := by
  have hsub : (visited ++ stack.map Prod.fst).toFinset ⊆ Finset.range v.nodes.length := by
    intro x hx
    rw [List.mem_toFinset, List.mem_append] at hx
    rw [Finset.mem_range]
    rcases hx with hx | hx
    · exact hw.visited_lt x hx
    · obtain ⟨e, he, rfl⟩ := List.mem_map.1 hx
      exact (hw.below e he).lt hv hid
  have hcard := Finset.card_le_card hsub
  rwa [List.toFinset_card_of_nodup hw.nodup, Finset.card_range, List.length_append,
    List.length_map] at hcard

/-- **The stack walk, run to its end**: the result is at least the running maximum and at least the
level of every node still to be reached, and more fuel would not change it. -/
theorem heightLoop_spec (hv : v.WellFormed) (hid : id < v.nodes.length) {fuel : ℕ}
    {visited : List NodeId} {stack : List (NodeId × ℕ)} (hw : Walk v id visited stack)
    (hfuel : v.nodes.length ≤ visited.length + fuel) (height : ℕ) :
    height ≤ v.heightLoop fuel stack height ∧
      (∀ e ∈ stack, ∀ x r, Below v e.1 x r → e.2 + r ≤ v.heightLoop fuel stack height) ∧
      ∀ extra, v.heightLoop (fuel + extra) stack height = v.heightLoop fuel stack height := by
  induction fuel generalizing visited stack height with
  | zero =>
    have hnil : stack = [] := by
      have := hw.length_le hv hid
      exact List.eq_nil_of_length_eq_zero (by omega)
    subst hnil
    refine ⟨le_rfl, fun e he ↦ absurd he List.not_mem_nil, fun extra ↦ ?_⟩
    cases extra <;> simp [heightLoop]
  | succ fuel ih =>
    rcases stack with - | ⟨⟨y, h⟩, stack⟩
    · refine ⟨le_rfl, fun e he ↦ absurd he List.not_mem_nil, fun extra ↦ ?_⟩
      rw [Nat.succ_add]
      rfl
    · obtain ⟨hmax, hreach, hextra⟩ := ih (hw.pop hv hid)
        (by rw [List.length_cons]; omega) (max height h)
      refine ⟨(le_max_left _ _).trans hmax, fun e he x r hr ↦ ?_, fun extra ↦ ?_⟩
      · rcases List.mem_cons.1 he with rfl | he
        -- below the popped node there is itself and what is below its entries
        · rcases hr.cases_head with ⟨-, rfl⟩ | ⟨name, c, r, hc, hcr, rfl⟩
          · exact (le_max_right _ _).trans hmax
          · have := hreach (c, h + 1)
              (List.mem_append_left _ (mem_pushed_iff.2 ⟨name, hc, rfl⟩)) x r hcr
            dsimp only at this ⊢
            exact le_trans (by omega) this
        · exact hreach e (List.mem_append_right _ he) x r hr
      · rw [Nat.succ_add]
        exact hextra extra

theorem walk_start (v : Vfs) (id : NodeId) : Walk v id [] [(id, 0)] where
  nodup := List.nodup_singleton id
  visited_lt _ h := absurd h List.not_mem_nil
  below e he := by
    rw [List.mem_singleton] at he
    exact he ▸ .refl
  pushed x hx hne := absurd (List.mem_singleton.1 hx) hne

private theorem fuel_start (v : Vfs) :
    v.nodes.length ≤ ([] : List NodeId).length + v.nodes.length :=
  Nat.le_add_left _ _

/-- **`height_of` reaches the whole subtree.** -/
theorem le_heightOf (hv : v.WellFormed) (hid : id < v.nodes.length) (h : Below v id x r) :
    r ≤ v.heightOf id := by
  have hreach := (heightLoop_spec hv hid (walk_start v id) (fuel_start v) 0).2.1
  have := hreach (id, 0) (List.mem_singleton.2 rfl) x r h
  rwa [Nat.zero_add] at this

/-- **The walk of `height_of` ends by itself**: more pops than there are nodes change nothing. -/
theorem heightLoop_fuel_irrelevant (hv : v.WellFormed) (hid : id < v.nodes.length) (extra : ℕ) :
    v.heightLoop (v.nodes.length + extra) [(id, 0)] 0 = v.heightOf id :=
  (heightLoop_spec hv hid (walk_start v id) (fuel_start v) 0).2.2 extra

/-! ### The caps as an invariant -/

/-- The arena respects the node cap, and every attached node the depth cap. -/
structure Capped (v : Vfs) : Prop where
  nodes : v.nodes.length ≤ maxVfsNodes
  depth : ∀ {x k}, Below v v.root x k → k ≤ maxVfsDepth

theorem capped_new (now : Timestamp) : (new now).Capped where
  nodes := by simp [new, maxVfsNodes]
  depth h := by
    rcases h.cases_head with ⟨-, rfl⟩ | ⟨name, c, r, hc, -⟩
    · exact Nat.zero_le _
    · rw [child_eq] at hc
      simp [node, new] at hc

/-- A prune attaches nothing. -/
theorem Prunes.below (h : Prunes v w) (hb : Below w w.root x k) : Below v v.root x k := by
  induction hb with
  | refl => rw [h.root]; exact .refl
  | step _ hc ih => exact .step ih (h.child _ _ _ hc)

/-- A graft attaches the new leaf, one level below its parent. -/
theorem below_graft {kind : NodeKind} {metadata : Metadata} (hp : parent < v.nodes.length)
    (hkind : kind.children = ∅) (hb : Below (v.graft parent name kind metadata) v.root x k) :
    Below v v.root x k ∨ (x = v.nodes.length ∧ ∃ r, Below v v.root parent r ∧ k = r + 1) := by
  induction hb with
  | refl => exact Or.inl .refl
  | step _ hc ih =>
    rw [child_graft hp hkind] at hc
    split at hc
    · rename_i hd
      obtain ⟨rfl, -, -⟩ := hd
      rcases ih with hd | ⟨hd, -⟩
      · exact Or.inr ⟨(Option.some.inj hc).symm, _, hd, rfl⟩
      · exact absurd hd (Nat.ne_of_lt hp)
    · rcases ih with hd | ⟨rfl, -⟩
      · exact Or.inl (.step hd hc)
      · exact absurd (lt_of_child hc) (lt_irrefl _)

/-- A reattachment attaches the subtree moved, from one level below its new parent on. -/
theorem below_reattach {newParent : NodeId} {newName : Str} (hv : v.WellFormed)
    (hdir : (v.node newParent).kind.isDirectory = true)
    (hanc : ¬ IsAncestor v.parentOf id newParent)
    (hb : Below (v.reattach id newParent newName) v.root x k) :
    Below v v.root x k ∨
      ∃ s r, Below v v.root newParent s ∧ Below v id x r ∧ k = s + 1 + r := by
  induction hb with
  | refl => exact Or.inl .refl
  | step _ hc ih =>
    rw [child_reattach hdir] at hc
    split at hc
    · rename_i hd
      obtain ⟨rfl, -⟩ := hd
      obtain rfl := Option.some.inj hc
      rcases ih with hd | ⟨s, r, -, hr, -⟩
      · exact Or.inr ⟨_, 0, hd, .refl, rfl⟩
      · exact absurd ⟨r, hr.climb hv⟩ hanc
    · split at hc
      · cases hc
      · rcases ih with hd | ⟨s, r, hs, hr, rfl⟩
        · exact Or.inl (.step hd hc)
        · exact Or.inr ⟨s, r + 1, hs, .step hr hc, by omega⟩

theorem Elementary.capped (h : Elementary v w) (hv : v.WellFormed) (hcap : v.Capped) :
    w.Capped := by
  cases h with
  | prune h => exact ⟨h.length ▸ hcap.nodes, fun hb ↦ hcap.depth (h.below hb)⟩
  | graft hp hfull hkind _ =>
    rw [isFull, Bool.or_eq_false_iff, decide_eq_false_iff_not, decide_eq_false_iff_not] at hfull
    refine ⟨by rw [length_graft]; omega, fun hb ↦ ?_⟩
    rcases below_graft hp hkind hb with hb | ⟨-, r, hr, rfl⟩
    · exact hcap.depth hb
    · have := depthOf_of_below hv hr
      omega
  | reattach hid hnew hdir hanc hdepth =>
    refine ⟨by rw [length_reattach]; exact hcap.nodes, fun hb ↦ ?_⟩
    rw [root_reattach] at hb
    rcases below_reattach hv hdir (not_isAncestor_of_isAncestorOf hanc) hb with
      hb | ⟨s, r, hs, hr, rfl⟩
    · exact hcap.depth hb
    · have hs' := depthOf_of_below hv hs
      have hr' := le_heightOf hv hid hr
      omega

theorem Rewrites.capped (h : Rewrites v w) (hv : v.WellFormed) (hcap : v.Capped) : w.Capped := by
  induction h with
  | refl => exact hcap
  | tail hprev hstep ih => exact hstep.capped (Rewrites.wellFormed hprev hv) ih

/-- **Both caps hold along every run.** After any run of public mutators with in-range ids from a
fresh arena, the arena has at most `MAX_VFS_NODES` nodes and no attached node is more than
`MAX_VFS_DEPTH` levels below the root. -/
theorem caps_run (now : Timestamp) (ops : List Op)
    (h : Admissible Op.apply Op.InRange (new now) ops) :
    (run Op.apply (new now) ops).nodes.length ≤ maxVfsNodes ∧
      ∀ x k, Below (run Op.apply (new now) ops) (run Op.apply (new now) ops).root x k →
        k ≤ maxVfsDepth := by
  have hcalls := admissible_callsOf h (wellFormed_new now)
  have hcap : (run Op.apply (new now) ops).WellFormed ∧ (run Op.apply (new now) ops).Capped := by
    rw [run_ops_eq_run_calls]
    exact invariant_run (I := fun w ↦ w.WellFormed ∧ w.Capped) hcalls
      (fun a _ ha hs ↦ ⟨(a.rewrites ha).wellFormed hs.1, (a.rewrites ha).capped hs.1 hs.2⟩)
      ⟨wellFormed_new now, capped_new now⟩
  exact ⟨hcap.2.nodes, fun _ _ hb ↦ hcap.2.depth hb⟩

/-- A subtree grown below an unlinked directory and moved back. -/
theorem caps_run_regrown :
    (run Op.apply (new 0) [
      .mkdirP 0 "/a".toList 0o755 0 0,
      .mutator (.unlink 0 "a".toList),
      .mutator (.mkdir 0 1 "b".toList 0o755 0 0),
      .mutator (.rename 1 0 "c".toList)]).nodes.length ≤ maxVfsNodes :=
  (caps_run 0 _ (by decide +kernel)).1

end Vfs

end Mimic
