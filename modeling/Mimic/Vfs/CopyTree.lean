import Mimic.Vfs.Copying
import Mimic.Vfs.Placement

/-!
# What a copy is

With room for all of it, `deep_copy` of a tree gives a tree with the same paths and, at each path, a
node with the same payload, permissions and owners (`Isomorphic`).

The recursion allocates in the arena it reads. What it reads is the tree under the source, and what
it changes is behind the entry of the copy (`Vfs.Branches`), so that in every arena on the way the
source is as it was in the first, and a copy of an entry that is finished stays as it is. The loop
over the entries of a directory has this as its invariant (`Copying`).
-/

namespace Mimic

open GuardedRun

/-- What a copy has of a node: the payload but for entries, the permissions and the owners. -/
structure Node.Alike (n m : Node) : Prop where
  bare : m.kind.bare = n.kind.bare
  perms : m.metadata.mode &&& 0o7777 = n.metadata.mode &&& 0o7777
  uid : m.metadata.uid = n.metadata.uid
  gid : m.metadata.gid = n.metadata.gid

namespace Vfs

variable {now : Timestamp} {u v w : Vfs} {src p c d x y copy : NodeId} {name nm : Str}
  {rel : List Str} {levels fuel : ℕ} {f : Node → ℕ} {es done : List (Str × NodeId)}

/-! ### Trees -/

/-- The sum of `f` over the first levels of the tree under a node. -/
def weigh (f : Node → ℕ) : ℕ → Vfs → NodeId → ℕ
  | 0, _, _ => 0
  | levels + 1, v, x =>
    f (v.node x) + (((v.entries x).getD []).map fun e ↦ weigh f levels v e.2).sum

/-- The tree under `copy` in `w` is the one under `src` in `v`. -/
structure Isomorphic (v : Vfs) (src : NodeId) (w : Vfs) (copy : NodeId) : Prop where
  paths : ∀ rel, (w.descend copy rel).isSome = (v.descend src rel).isSome
  alike : ∀ rel x y, v.descend src rel = some x → w.descend copy rel = some y →
    (v.node x).Alike (w.node y)

/-- `w` has the nodes under `x` that `v` has. -/
def SameUnder (v w : Vfs) (x : NodeId) : Prop :=
  ∀ rel y, v.descend x rel = some y → w.node y = v.node y

namespace SameUnder

variable (h : SameUnder v w x)

include h

theorem child : w.child x nm = v.child x nm := by
  rw [child_eq, child_eq, h [] x rfl]

theorem of_child (hc : v.child x nm = some c) : SameUnder v w c :=
  fun rel y hy ↦ h (nm :: rel) y (descend_cons.2 ⟨c, hc, hy⟩)

theorem descend (rel : List Str) : w.descend x rel = v.descend x rel :=
  descend_congr fun pre y _ hy ↦ h pre y hy

theorem entries : (w.entries x).getD [] = (v.entries x).getD [] := by
  rw [entries_getD_eq, entries_getD_eq, h [] x rfl]

theorem weigh (f : Node → ℕ) (levels : ℕ) : w.weigh f levels x = v.weigh f levels x := by
  induction levels generalizing x with
  | zero => rfl
  | succ levels ih =>
    rw [Vfs.weigh, Vfs.weigh, h.entries, h [] x rfl]
    refine congrArg (f (v.node x) + ·) (congrArg List.sum (List.map_congr_left fun e he ↦ ?_))
    exact ih (h.of_child (mem_entries_iff.1 he))

end SameUnder

theorem Isomorphic.of_source (h : Isomorphic u x w y) (hsame : SameUnder v u x) :
    Isomorphic v x w y where
  paths rel := by rw [h.paths, hsame.descend]
  alike rel a b ha hb := by
    rw [← hsame rel a ha]
    exact h.alike rel a b ((hsame.descend rel).trans ha) hb

theorem Isomorphic.of_copy (h : Isomorphic v x u y) (hsame : SameUnder u w y) :
    Isomorphic v x w y where
  paths rel := by rw [← h.paths, hsame.descend]
  alike rel a b ha hb := by
    rw [hsame.descend] at hb
    rw [hsame rel b hb]
    exact h.alike rel a b ha hb

theorem child_eq_none (h : (v.node d).kind.children = ∅) (nm : Str) : v.child d nm = none := by
  rw [child_eq, h]
  exact Std.ExtTreeMap.getElem?_empty

/-- Two nodes without entries are trees of one node. -/
theorem isomorphic_leaf (hx : (v.node x).kind.children = ∅) (hy : (w.node y).kind.children = ∅)
    (halike : (v.node x).Alike (w.node y)) : Isomorphic v x w y where
  paths rel := by
    cases rel with
    | nil => rfl
    | cons nm rel =>
      rw [descend, descend, child_eq_none hx, child_eq_none hy]
      rfl
  alike rel a b ha hb := by
    cases rel with
    | nil =>
      obtain rfl := Option.some.inj ha
      obtain rfl := Option.some.inj hb
      exact halike
    | cons nm rel =>
      rw [descend, child_eq_none hx] at ha
      cases ha

/-- Nodes whose entries lead to isomorphic trees are isomorphic trees. -/
theorem isomorphic_node (halike : (v.node x).Alike (w.node y))
    (hsome : ∀ nm c, v.child x nm = some c → ∃ c', w.child y nm = some c' ∧ Isomorphic v c w c')
    (hnone : ∀ nm, v.child x nm = none → w.child y nm = none) : Isomorphic v x w y where
  paths rel := by
    cases rel with
    | nil => rfl
    | cons nm rel =>
      rw [descend, descend]
      cases hchild : v.child x nm with
      | none =>
        rw [hnone nm hchild]
        rfl
      | some c =>
        obtain ⟨c', hc', hiso⟩ := hsome nm c hchild
        rw [hc']
        exact hiso.paths rel
  alike rel a b ha hb := by
    cases rel with
    | nil =>
      obtain rfl := Option.some.inj ha
      obtain rfl := Option.some.inj hb
      exact halike
    | cons nm rel =>
      obtain ⟨c, hc, ha⟩ := descend_cons.1 ha
      obtain ⟨c', hc', hiso⟩ := hsome nm c hc
      obtain ⟨c'', hc'', hb⟩ := descend_cons.1 hb
      obtain rfl := Option.some.inj (hc'.symm.trans hc'')
      exact hiso.alike rel a b ha hb

/-! ### Copies with room -/

/-- There is room in `p` for a copy of the tree under `src`, which has fewer levels than `fuel`. -/
structure Fits (v : Vfs) (fuel : ℕ) (src p : NodeId) : Prop where
  levels : ∀ rel x, v.descend src rel = some x → rel.length < fuel
  nodes : v.nodes.length + v.weigh (fun _ ↦ 1) fuel src ≤ maxVfsNodes
  bytes : v.contentBytes + v.weigh (fun n ↦ n.kind.contentLen) fuel src ≤ maxVfsBytes
  depth : ∀ rel x, v.descend src rel = some x → v.depthOf p + 1 + rel.length ≤ maxVfsDepth

/-- `w` is `v` with a copy of `src` as the entry `name` of `p`. -/
structure Copied (v w : Vfs) (fuel : ℕ) (src p : NodeId) (name : Str) (copy : NodeId) : Prop where
  altered : Altered v w p (· = name)
  attached : w.child p name = some copy
  isomorphic : Isomorphic v src w copy
  length : w.nodes.length = v.nodes.length + v.weigh (fun _ ↦ 1) fuel src
  contentBytes : w.contentBytes = v.contentBytes + v.weigh (fun n ↦ n.kind.contentLen) fuel src

theorem Fits.not_isFull (h : Fits v (fuel + 1) src p) : v.isFull p = false := by
  have hnodes := h.nodes
  have hdepth := h.depth [] src rfl
  rw [weigh] at hnodes
  rw [isFull, Bool.or_eq_false_iff, decide_eq_false_iff_not, decide_eq_false_iff_not]
  simp only [List.length_nil] at hdepth
  omega

theorem weigh_leaf (hsrc : (v.node src).kind.children = ∅) :
    v.weigh f (fuel + 1) src = f (v.node src) := by
  rw [weigh, entries_getD_eq, hsrc]
  rfl

/-- The copy of a node without entries is a graft. -/
theorem copied_graft {kind : NodeKind} {metadata : Metadata} {bytes : ℕ}
    (hp : p < v.nodes.length) (hdir : (v.node p).kind.isDirectory = true)
    (hsrc : (v.node src).kind.children = ∅) (hkind : kind.children = ∅)
    (halike : (v.node src).Alike ⟨name, some p, kind, metadata⟩)
    (hbytes : bytes = v.contentBytes + (v.node src).kind.contentLen) :
    Copied v { v.graft p name kind metadata with contentBytes := bytes } (fuel + 1) src p name
      v.nodes.length := by
  have hnew : ({ v.graft p name kind metadata with contentBytes := bytes } : Vfs).node
      v.nodes.length = ⟨name, some p, kind, metadata⟩ := node_graft_self hp
  refine ⟨(altered_graft hkind hp hdir).setContentBytes bytes, ?_,
    isomorphic_leaf hsrc (by rw [hnew]; exact hkind) (by rw [hnew]; exact halike), ?_, ?_⟩
  · exact (child_graft hp hkind p name).trans (if_pos ⟨rfl, rfl, hdir⟩)
  · rw [weigh_leaf hsrc]
    exact length_graft
  · rw [weigh_leaf hsrc]
    exact hbytes

/-- To detach nothing is to do nothing. -/
theorem unlink_eq_self (h : v.child p name = none) : (v.unlink p name).1 = v := by
  have hkind : (v.node p).kind.mapChildren (fun children ↦ children.erase name) =
      (v.node p).kind := by
    rw [child_eq] at h
    cases hk : (v.node p).kind with
    | directory t =>
      rw [hk] at h
      refine congrArg NodeKind.directory (Std.ExtTreeMap.ext_getElem? fun k ↦ ?_)
      rw [Std.ExtTreeMap.getElem?_erase]
      split
      · rename_i heq
        rw [← Std.LawfulEqCmp.eq_of_compare heq]
        exact h.symm
      · rfl
    | _ => rfl
  have hnodes : v.nodes.modify p (fun n ↦
      { n with kind := n.kind.mapChildren fun children ↦ children.erase name }) = v.nodes := by
    refine List.ext_getElem? fun i ↦ ?_
    rw [List.getElem?_modify]
    by_cases hi : p = i
    · subst hi
      simp only [if_true]
      cases hn : v.nodes[p]? with
      | none => rfl
      | some n =>
        have hnode : v.node p = n := by rw [node, List.getD_eq_getElem?_getD, hn]; rfl
        rw [hnode] at hkind
        refine congrArg some ?_
        dsimp only
        rw [hkind]
    · simp only [if_neg hi]
      cases v.nodes[i]? <;> rfl
  rw [unlink, modifyChildren, modifyNode, hnodes]

/-- **A copy of anything but a directory.** -/
theorem copied_leaf (hp : p < v.nodes.length) (hdir : (v.node p).kind.isDirectory = true)
    (hsrc : ¬ (v.node src).kind.isDirectory = true) (hnone : v.child p name = none)
    (hfits : v.Fits (fuel + 1) src p) :
    Copied v (deepCopyInner now (fuel + 1) v src p name).1 (fuel + 1) src p name
      (deepCopyInner now (fuel + 1) v src p name).2 := by
  have hfull := hfits.not_isFull
  have hbytes := hfits.bytes
  have hinsert : ∀ kind metadata, v.insert p name kind metadata =
      (v.graft p name kind metadata, v.nodes.length) := fun kind metadata ↦ by
    rw [insert_eq, hfull, if_neg Bool.false_ne_true]
  have hempty : (v.node src).kind.children = ∅ := by
    cases hkind : (v.node src).kind with
    | directory =>
      rw [hkind] at hsrc
      exact absurd rfl hsrc
    | _ => rfl
  have hperms : ∀ {fileType : UInt32}, fileType &&& 0o7777 = 0 →
      (fileType ||| ((v.node src).metadata.mode &&& 0o7777 &&& 0o7777)) &&& 0o7777 =
        (v.node src).metadata.mode &&& 0o7777 := fun h ↦ by
    rw [mode_and_perms h, UInt32.and_assoc, UInt32.and_self]
  rw [weigh_leaf hempty] at hbytes
  rw [deepCopyInner]
  cases hkind : (v.node src).kind with
  | directory =>
    rw [hkind] at hsrc
    exact absurd rfl hsrc
  | file contents =>
    rw [hkind] at hbytes
    have hroom : ¬ v.Crowded p name contents := by
      rw [Crowded, hnone, hfull, Option.map_none, Option.getD_none]
      rintro (hlt | ⟨-, hcontra⟩)
      · exact absurd hbytes (Nat.not_le.2 hlt)
      · cases hcontra
    dsimp only
    rw [addFile_eq_of_none _ _ _ _ hp hroom hnone]
    exact copied_graft hp hdir hempty rfl ⟨by rw [hkind], hperms (by decide), rfl, rfl⟩
      (by rw [hkind]; rfl)
  | dynamicFile generator =>
    dsimp only
    rw [addDynamicFile, hnone]
    dsimp only
    rw [hinsert]
    exact copied_graft hp hdir hempty rfl ⟨by rw [hkind], hperms (by decide), rfl, rfl⟩
      (by rw [hkind]; rfl)
  | symlink target =>
    dsimp only
    rw [unlink_eq_self hnone, hinsert]
    exact copied_graft hp hdir hempty rfl ⟨by rw [hkind], rfl, rfl, rfl⟩ (by rw [hkind]; rfl)

/-! ### A directory -/

/-- The entries `done` of a directory of `v` are copied into the directory `d`, which was empty
in `u`. -/
structure Copying (v u w : Vfs) (fuel : ℕ) (d : NodeId) (done : List (Str × NodeId)) : Prop where
  wellFormed : w.WellFormed
  altered : Altered u w d (· ∈ done.map Prod.fst)
  length : w.nodes.length =
    u.nodes.length + (done.map fun e ↦ v.weigh (fun _ ↦ 1) fuel e.2).sum
  contentBytes : w.contentBytes =
    u.contentBytes + (done.map fun e ↦ v.weigh (fun n ↦ n.kind.contentLen) fuel e.2).sum
  copied : ∀ e ∈ done, ∃ copy, w.child d e.1 = some copy ∧ Isomorphic v e.2 w copy

/-- What the recursion gives for the entries. -/
def Copies (now : Timestamp) (fuel : ℕ) : Prop :=
  ∀ {v : Vfs} {src p : NodeId} {name : Str}, v.WellFormed → src < v.nodes.length →
    (v.node p).kind.isDirectory = true → (∀ rel, v.descend src rel ≠ some p) →
    v.child p name = none → v.Fits fuel src p →
    Copied v (deepCopyInner now fuel v src p name).1 fuel src p name
      (deepCopyInner now fuel v src p name).2

/-- **One more entry.** -/
theorem Copying.step (ih : Copies now fuel) (h : Copying v u w fuel d done) (hv : v.WellFormed)
    (hu : u.WellFormed) (hdir : (u.node d).kind.isDirectory = true)
    (hempty : ∀ nm, u.child d nm = none) (hle : v.nodes.length ≤ d) (hc : c < v.nodes.length)
    (hsame : SameUnder v u c) (hnew : nm ∉ done.map Prod.fst)
    (hlevels : ∀ rel x, v.descend c rel = some x → rel.length < fuel)
    (hnodes : u.nodes.length + ((done ++ [(nm, c)]).map fun e ↦
      v.weigh (fun _ ↦ 1) fuel e.2).sum ≤ maxVfsNodes)
    (hbytes : u.contentBytes + ((done ++ [(nm, c)]).map fun e ↦
      v.weigh (fun n ↦ n.kind.contentLen) fuel e.2).sum ≤ maxVfsBytes)
    (hdepth : ∀ rel x, v.descend c rel = some x → u.depthOf d + 1 + rel.length ≤ maxVfsDepth) :
    Copying v u (copyEntry now fuel d (nm, c) w) fuel d (done ++ [(nm, c)]) := by
  have hd : d < u.nodes.length := lt_of_isDirectory hdir
  have hdw : d < w.nodes.length := hd.trans_le h.altered.length_le
  have hcw : c < w.nodes.length := hc.trans_le (hle.trans hdw.le)
  -- the entries of `d` are the only thing that has changed since `u`
  have hsource : SameUnder v w c := fun rel y hy ↦ by
    have hy' := lt_of_descend hv hc hy
    rw [h.altered.outside y (hy'.trans (hle.trans_lt hd)) (Nat.ne_of_lt (hy'.trans_le hle))
      fun nm' _ ⟨rel', hrel'⟩ ↦ ?_]
    · exact hsame rel y hy
    · rw [descend, hempty nm'] at hrel'
      cases hrel'
  have hfits : w.Fits fuel c d := by
    simp only [List.map_append, List.sum_append, List.map_cons, List.map_nil, List.sum_cons,
      List.sum_nil, Nat.add_zero] at hnodes hbytes
    refine ⟨fun rel x hx ↦ hlevels rel x (hsource.descend rel ▸ hx), ?_, ?_, fun rel x hx ↦ ?_⟩
    · rw [hsource.weigh, h.length]
      omega
    · rw [hsource.weigh, h.contentBytes]
      omega
    · rw [h.altered.depthOf hu h.wellFormed hd]
      exact hdepth rel x (hsource.descend rel ▸ hx)
  have hcopied := ih h.wellFormed hcw (h.altered.isDirectory.trans hdir)
    (fun rel hrel ↦ absurd (lt_of_descend hv hc ((hsource.descend rel).symm.trans hrel))
      (Nat.not_lt.2 hle)) ((h.altered.entry nm hnew).trans (hempty nm)) hfits
  refine ⟨wellFormed_deepCopyInner now fuel nm h.wellFormed hcw hdw, ?_, ?_, ?_, fun e he ↦ ?_⟩
  · refine (h.altered.trans hcopied.altered h.wellFormed hd (.inr ?_)).mono fun nm' hnm' ↦ ?_
    · rintro nm' hmem rfl
      exact hnew hmem
    · rw [List.map_append, List.mem_append]
      exact hnm'.imp_right fun heq ↦ List.mem_singleton.2 heq
  · rw [copyEntry, hcopied.length, h.length, hsource.weigh]
    simp only [List.map_append, List.sum_append, List.map_cons, List.map_nil, List.sum_cons,
      List.sum_nil, Nat.add_zero, Nat.add_assoc]
  · rw [copyEntry, hcopied.contentBytes, h.contentBytes, hsource.weigh]
    simp only [List.map_append, List.sum_append, List.map_cons, List.map_nil, List.sum_cons,
      List.sum_nil, Nat.add_zero, Nat.add_assoc]
  rcases List.mem_append.1 he with he | he
  · -- a copy that is finished is behind another entry
    obtain ⟨copy, hchild, hiso⟩ := h.copied e he
    have hne : e.1 ≠ nm := fun heq ↦ hnew (heq ▸ List.mem_map_of_mem he)
    refine ⟨copy, (hcopied.altered.entry e.1 hne).trans hchild, hiso.of_copy fun rel y hy ↦ ?_⟩
    have hbehind : w.Behind d e.1 y := behind_of_child hchild hy
    refine hcopied.altered.outside y (lt_of_descend h.wellFormed (h.wellFormed.entry_lt hchild) hy)
      (hbehind.ne h.wellFormed hdw) ?_
    rintro nm' rfl hy'
    exact hne (hbehind.unique h.wellFormed hdw hy')
  · obtain rfl := List.mem_singleton.1 he
    exact ⟨_, hcopied.attached, hcopied.isomorphic.of_source hsource⟩

/-- **A copy of a directory.** -/
theorem copied_directory (ih : Copies now fuel) (hv : v.WellFormed) (hsrc : src < v.nodes.length)
    (hkind : (v.node src).kind.isDirectory = true) (hdir : (v.node p).kind.isDirectory = true)
    (hout : ∀ rel, v.descend src rel ≠ some p) (hnone : v.child p name = none)
    (hfits : v.Fits (fuel + 1) src p) :
    Copied v (deepCopyInner now (fuel + 1) v src p name).1 (fuel + 1) src p name
      (deepCopyInner now (fuel + 1) v src p name).2 := by
  have hp := lt_of_isDirectory hdir
  generalize hmetadata : Metadata.new now sIfDir ((v.node src).metadata.mode &&& 0o7777)
    (v.node src).metadata.uid (v.node src).metadata.gid = metadata
  have hmade : v.copyDir now src p name =
      (v.graft p name (.directory ∅) metadata, v.nodes.length) := by
    rw [copyDir, mkdir, hnone]
    dsimp only
    rw [insert_eq, hfits.not_isFull, if_neg Bool.false_ne_true, hmetadata]
  have hu : (v.graft p name (.directory ∅) metadata).WellFormed := by
    have := wellFormed_copyDir now src name hv hp
    rwa [hmade] at this
  have hgraft : Altered v (v.graft p name (.directory ∅) metadata) p (· = name) :=
    altered_graft rfl hp hdir
  have hsame : SameUnder v (v.graft p name (.directory ∅) metadata) src := fun rel y hy ↦
    node_graft_of_ne (lt_of_descend hv hsrc hy) fun heq ↦ hout rel (heq ▸ hy)
  have hnode : (v.graft p name (.directory ∅) metadata).node v.nodes.length =
      ⟨name, some p, .directory ∅, metadata⟩ := node_graft_self hp
  have hchild : (v.graft p name (.directory ∅) metadata).child p name = some v.nodes.length := by
    rw [child_graft hp rfl, if_pos ⟨rfl, rfl, hdir⟩]
  have hdepth : (v.graft p name (.directory ∅) metadata).depthOf v.nodes.length =
      v.depthOf p + 1 :=
    depthOf_graftDir_new hv hp (hmetadata ▸ Metadata.new_mode_and_sIfMt now (.directory ∅) _ _ _)
  have hlen : (v.graft p name (.directory ∅) metadata).nodes.length = v.nodes.length + 1 :=
    length_graft
  have hbytes : (v.graft p name (.directory ∅) metadata).contentBytes = v.contentBytes := rfl
  have hlist : v.copyList now src p name = (v.entries src).getD [] := by
    rw [copyList, hmade]
    exact hsame.entries
  rw [deepCopyInner_directory hkind, hlist, hmade]
  dsimp only
  generalize v.graft p name (.directory ∅) metadata = u at *
  have hempty : ∀ nm, u.child v.nodes.length nm = none := child_eq_none (by rw [hnode]; rfl)
  have hnodes := hfits.nodes
  have hroom := hfits.bytes
  rw [weigh] at hnodes hroom
  -- the loop over the entries
  have hloop : ∀ done, done <+: (v.entries src).getD [] → Copying v u
      (run (copyEntry now fuel v.nodes.length) u done) fuel v.nodes.length done := by
    intro done
    induction done using List.reverseRecOn with
    | nil => exact fun _ ↦ ⟨hu, .refl u _ _, rfl, rfl, by simp⟩
    | append_singleton done e ihdone =>
      obtain ⟨nm, c⟩ := e
      rintro ⟨rest, hrest⟩
      have hmem : (nm, c) ∈ (v.entries src).getD [] := by
        rw [← hrest]
        simp
      have hentry := mem_entries_iff.1 hmem
      have hnodup := nodup_entries v src
      have hdone := ihdone ⟨(nm, c) :: rest, by rw [← hrest]; simp⟩
      rw [← hrest] at hnodes hroom hnodup
      simp only [List.map_append, List.sum_append] at hnodes hroom
      simp only [List.map_append, List.map_cons, List.map_nil, List.append_assoc] at hnodup
      rw [run_append, run_cons, run_nil]
      refine hdone.step ih hv hu (by rw [hnode]; rfl) hempty le_rfl (hv.entry_lt hentry)
        (hsame.of_child hentry) (fun hmem ↦ ?_) (fun rel x hx ↦ ?_) ?_ ?_ fun rel x hx ↦ ?_
      · exact (List.nodup_append.1 hnodup).2.2 nm hmem nm (by simp) rfl
      · exact Nat.lt_of_succ_lt_succ (hfits.levels (nm :: rel) x (descend_cons.2 ⟨c, hentry, hx⟩))
      · simp only [List.map_append, List.sum_append]
        omega
      · simp only [List.map_append, List.sum_append]
        omega
      · have hle := hfits.depth (nm :: rel) x (descend_cons.2 ⟨c, hentry, hx⟩)
        rw [List.length_cons] at hle
        omega
  obtain ⟨hw, haltered, hwlen, hwbytes, hcopied⟩ := hloop _ List.prefix_rfl
  generalize run (copyEntry now fuel v.nodes.length) u ((v.entries src).getD []) = w at *
  have hplace : w.node p = u.node p := haltered.outside p (hp.trans_le hgraft.length_le)
    (Nat.ne_of_lt hp) fun nm _ hrel ↦ by
      obtain ⟨rel, hrel⟩ := hrel
      rw [descend, hempty nm] at hrel
      cases hrel
  refine ⟨hgraft.fill haltered hu hp hchild (fun x hle hlt ↦ by omega), ?_,
    isomorphic_node ⟨?_, ?_, ?_, ?_⟩ (fun nm c hc ↦ hcopied (nm, c) (mem_entries_iff.2 hc))
      fun nm hnm ↦ ?_, ?_, ?_⟩
  · rw [child_eq, hplace, ← child_eq]
    exact hchild
  · rw [haltered.bare, hnode]
    cases hkind' : (v.node src).kind with
    | directory => rfl
    | _ =>
      rw [hkind'] at hkind
      cases hkind
  · rw [haltered.metadata, hnode, ← hmetadata]
    exact (mode_and_perms (by decide) _).trans (by rw [UInt32.and_assoc, UInt32.and_self])
  · rw [haltered.metadata, hnode, ← hmetadata]
    rfl
  · rw [haltered.metadata, hnode, ← hmetadata]
    rfl
  · rw [haltered.entry nm fun hmem ↦ ?_]
    · exact hempty nm
    · obtain ⟨⟨nm', c⟩, he, rfl⟩ := List.mem_map.1 hmem
      rw [mem_entries_iff.1 he] at hnm
      cases hnm
  · rw [weigh]
    omega
  · have hself : (v.node src).kind.contentLen = 0 := by
      cases hkind' : (v.node src).kind with
      | file =>
        rw [hkind'] at hkind
        cases hkind
      | _ => rfl
    rw [weigh, hself]
    omega

theorem copies (now : Timestamp) (fuel : ℕ) : Copies now fuel := by
  induction fuel with
  | zero =>
    intro v src p name _ _ _ _ _ hfits
    exact absurd (hfits.levels [] src rfl) (Nat.not_lt_zero _)
  | succ fuel ih =>
    intro v src p name hv hsrc hdir hout hnone hfits
    by_cases hkind : (v.node src).kind.isDirectory = true
    · exact copied_directory ih hv hsrc hkind hdir hout hnone hfits
    · exact copied_leaf (lt_of_isDirectory hdir) hdir hkind hnone hfits

/-! ### The copy -/

/-- There is room in `p` for a copy of the tree under `src`: for its nodes, its contents and its
levels. -/
structure RoomFor (v : Vfs) (src p : NodeId) : Prop where
  nodes : v.nodes.length + v.weigh (fun _ ↦ 1) (maxCopyDepth + 1) src ≤ maxVfsNodes
  bytes : v.contentBytes + v.weigh (fun n ↦ n.kind.contentLen) (maxCopyDepth + 1) src ≤ maxVfsBytes
  depth : v.depthOf p + 1 + v.heightOf src ≤ maxVfsDepth

/-- **`deep_copy` copies the tree.** What it returns is entered where it was asked for and the tree
under it is the one under the source. The nodes there were are the same, up to the new entry of the
directory it is in. -/
theorem deepCopy_copies (now : Timestamp) (hv : v.WellFormed) (hsrc : src < v.nodes.length)
    (hheight : v.heightOf src ≤ maxCopyDepth) (hdir : (v.node p).kind.isDirectory = true)
    (hout : ∀ rel, v.descend src rel ≠ some p) (hnone : v.child p name = none)
    (hroom : v.RoomFor src p) :
    let made := v.deepCopy now src p name
    made.1.child p name = some made.2 ∧ Isomorphic v src made.1 made.2 ∧
      (∀ x, x < v.nodes.length → x ≠ p → made.1.node x = v.node x) ∧
        Altered v made.1 p (· = name) := by
  have hlevel : ∀ rel x, v.descend src rel = some x → rel.length ≤ v.heightOf src :=
    fun rel x hx ↦ le_heightOf hv hsrc (below_of_descend hx)
  have hfits : v.Fits (maxCopyDepth + 1) src p :=
    ⟨fun rel x hx ↦ Nat.lt_succ_of_le ((hlevel rel x hx).trans hheight), hroom.nodes, hroom.bytes,
      fun rel x hx ↦ (Nat.add_le_add_left (hlevel rel x hx) _).trans hroom.depth⟩
  have hcopied := copies now (maxCopyDepth + 1) hv hsrc hdir hout hnone hfits
  refine ⟨hcopied.attached, hcopied.isomorphic, fun x hx hne ↦ ?_, hcopied.altered⟩
  refine hcopied.altered.outside x hx hne ?_
  rintro nm rfl ⟨rel, hrel⟩
  rw [descend, hnone] at hrel
  cases hrel

/-- A copy of `/d` to `/t/e`. -/
theorem deepCopy_copies_beside :
    (clashing.deepCopy 0 1 3 ['e']).1.child 3 ['e'] = some (clashing.deepCopy 0 1 3 ['e']).2 ∧
      Isomorphic clashing 1 (clashing.deepCopy 0 1 3 ['e']).1
        (clashing.deepCopy 0 1 3 ['e']).2 := by
  have hout : ∀ rel, clashing.descend 1 rel ≠ some 3 := fun rel hrel ↦
    not_isAncestor_of_isAncestorOf (by decide +kernel)
      ⟨_, (below_of_descend hrel).climb wellFormed_clashing⟩
  have hcopies := deepCopy_copies 0 wellFormed_clashing (by decide +kernel) (by decide +kernel)
    (by decide +kernel) hout (show clashing.child 3 ['e'] = none by decide +kernel)
    ⟨by decide +kernel, by decide +kernel, by decide +kernel⟩
  exact ⟨hcopies.1, hcopies.2.1⟩

end Vfs

end Mimic
