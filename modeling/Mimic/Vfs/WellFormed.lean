import Mimic.Foundation.ParentForest
import Mimic.Vfs.Calls
import Mimic.Vfs.Skeleton

/-!
# The arena stays a tree

The invariant behind "the arena must stay acyclic": ids are in range, entry tables and parent links
agree both ways, every parent chain ends at the root, and payloads agree with the type bits of their
modes (`WellFormed`).

It is proved once for each of the three ways tree structure changes (`Elementary`): a prune, a graft
and a reattachment. Each call is a short sequence of these (`Call.rewrites`), so it is preserved by
every call, by every operation (`Op.admissible_calls` supplies the in-range arguments of the calls
`deep_copy` makes on its way down), and along every run (`wellFormed_run`).

The guard of `rename` does its work in `WellFormed.reattach` alone. It is used in one direction:
`is_ancestor_of` returning `false` really excludes an ancestor (`not_isAncestor_of_isAncestorOf`);
nothing here depends on what it answers on a cyclic arena.
-/

namespace Mimic

open GuardedRun ParentForest

namespace Vfs

variable {v w : Vfs} {id parent x d c : NodeId} {name : Str}

/-- The arena is a tree with tombstones: entry tables and parent links agree, every chain is
grounded in the root, and modes agree with payloads. -/
structure WellFormed (v : Vfs) : Prop where
  root_lt : v.root < v.nodes.length
  /-- Ids stored in entry tables are in range. -/
  entry_lt : ∀ {d name c}, v.child d name = some c → c < v.nodes.length
  /-- Ids stored in parent links are in range. -/
  parent_lt : ∀ {x p}, x < v.nodes.length → v.parentOf x = some p → p < v.nodes.length
  /-- An entry is where its node says it is. -/
  entry_parent : ∀ {d name c}, v.child d name = some c → v.parentOf c = some d
  /-- An entry is named as its node says it is. -/
  entry_name : ∀ {d name c}, v.child d name = some c → (v.node c).name = name
  root_parent : v.parentOf v.root = none
  /-- Every chain of parent links ends at the root. -/
  grounded : ∀ {x}, x < v.nodes.length → Grounded v.parentOf v.root x
  /-- Payloads agree with the type bits of their modes. -/
  coherent : ∀ {x}, x < v.nodes.length → (v.node x).Coherent

namespace WellFormed

/-- **Only the root has no parent.** -/
theorem parentOf_eq_none_iff (hv : v.WellFormed) (hx : x < v.nodes.length) :
    v.parentOf x = none ↔ x = v.root := by
  constructor
  · intro hnone
    obtain ⟨k, hk⟩ := hv.grounded hx
    cases k with
    | zero => exact Option.some.inj hk
    | succ k =>
      rw [climb_succ, hnone] at hk
      cases hk
  · rintro rfl
    exact hv.root_parent

/-- **A node is attached at most once.** -/
theorem entry_unique (hv : v.WellFormed) {d' : NodeId} {name' : Str}
    (h : v.child d name = some c) (h' : v.child d' name' = some c) : d = d' ∧ name = name' :=
  ⟨Option.some.inj ((hv.entry_parent h).symm.trans (hv.entry_parent h')),
    (hv.entry_name h).symm.trans (hv.entry_name h')⟩

/-- **The type bits tell directories.** -/
theorem isDir_iff (hv : v.WellFormed) (hx : x < v.nodes.length) :
    (v.node x).metadata.isDir = true ↔ (v.node x).kind.isDirectory = true := by
  have hcoh := hv.coherent hx
  rw [Node.Coherent] at hcoh
  rw [Metadata.isDir, hcoh]
  cases (v.node x).kind with
  | directory => exact iff_of_true rfl rfl
  | _ => exact iff_of_false (by simp only [NodeKind.fileType]; decide) Bool.false_ne_true

end WellFormed

theorem wellFormed_new (now : Timestamp) : (new now).WellFormed := by
  have hchild : ∀ d name, (new now).child d name = none := by
    intro d name
    rw [child_eq]
    rcases d with - | d
    · simp [node, new]
    · rw [node_of_le (by simp [new])]
      rfl
  have hlt : ∀ {x}, x < (new now).nodes.length → x = 0 := fun h ↦ Nat.lt_one_iff.1 h
  refine ⟨Nat.zero_lt_one, fun h ↦ ?_, fun hx hp ↦ ?_, fun h ↦ ?_, fun h ↦ ?_, rfl, fun hx ↦ ?_,
    fun hx ↦ ?_⟩
  · rw [hchild] at h; cases h
  · rw [hlt hx] at hp; cases hp
  · rw [hchild] at h; cases h
  · rw [hchild] at h; cases h
  · rw [hlt hx]; exact ⟨0, rfl⟩
  · rw [hlt hx]; exact Metadata.new_mode_and_sIfMt now (.directory ∅) 0o755 0 0

/-! ### The three changes of shape -/

theorem Prunes.wellFormed (h : Prunes v w) (hv : v.WellFormed) : w.WellFormed := by
  have hparent : w.parentOf = v.parentOf := funext h.parentOf
  constructor
  · rw [h.root, h.length]; exact hv.root_lt
  · intro d name c hc; rw [h.length]; exact hv.entry_lt (h.child _ _ _ hc)
  · intro x p hx hp; rw [h.length] at hx ⊢; exact hv.parent_lt hx (hparent ▸ hp)
  · intro d name c hc; rw [hparent]; exact hv.entry_parent (h.child _ _ _ hc)
  · intro d name c hc; rw [h.name]; exact hv.entry_name (h.child _ _ _ hc)
  · rw [h.root, hparent]; exact hv.root_parent
  · intro x hx; rw [h.root, hparent]; exact hv.grounded (h.length ▸ hx)
  · intro x hx; rw [h.length] at hx; exact h.coherent x hx (hv.coherent hx)

/-- Chains of parent links stay in the arena. -/
theorem WellFormed.lt_of_climb {k : ℕ} {y : NodeId} (hv : v.WellFormed)
    (hx : x < v.nodes.length) (h : climb v.parentOf k x = some y) : y < v.nodes.length := by
  induction k generalizing x with
  | zero => exact Option.some.inj h ▸ hx
  | succ k ih =>
    obtain ⟨p, hxp, hpk⟩ := exists_parent_of_climb_succ h
    exact ih (hv.parent_lt hx hxp) hpk

/-- Old chains do not see a new leaf. -/
theorem WellFormed.climb_graft {kind : NodeKind} {metadata : Metadata} {k : ℕ} (hv : v.WellFormed)
    (hx : x < v.nodes.length) :
    climb (v.graft parent name kind metadata).parentOf k x = climb v.parentOf k x :=
  climb_congr fun _ ⟨_, hj⟩ ↦ parentOf_graft_of_lt (hv.lt_of_climb hx hj)

/-- **A graft hangs a new leaf below an existing node.** Old chains do not see it, and its own is
that of its parent with one more link. -/
theorem WellFormed.graft {kind : NodeKind} {metadata : Metadata} (hv : v.WellFormed)
    (hp : parent < v.nodes.length) (hkind : kind.children = ∅)
    (hcoh : metadata.mode &&& sIfMt = kind.fileType) :
    (v.graft parent name kind metadata).WellFormed := by
  have hold : ∀ {x}, x < v.nodes.length →
      Grounded (v.graft parent name kind metadata).parentOf v.root x := by
    intro x hx
    obtain ⟨k, hk⟩ := hv.grounded hx
    exact ⟨k, (hv.climb_graft hx).trans hk⟩
  -- the new node is the last one, all others are as they were
  have hcases : ∀ {x}, x < (v.graft parent name kind metadata).nodes.length →
      x < v.nodes.length ∨ x = v.nodes.length := by
    intro x hx
    rw [length_graft] at hx
    omega
  have hentry : ∀ {d nm c}, (v.graft parent name kind metadata).child d nm = some c →
      (d = parent ∧ nm = name ∧ c = v.nodes.length) ∨ v.child d nm = some c := by
    intro d nm c hc
    rw [child_graft hp hkind] at hc
    split at hc
    · rename_i h
      exact Or.inl ⟨h.1, h.2.1, (Option.some.inj hc).symm⟩
    · exact Or.inr hc
  constructor
  · rw [root_graft, length_graft]; exact Nat.lt_succ_of_lt hv.root_lt
  · intro d nm c hc
    rw [length_graft]
    rcases hentry hc with ⟨-, -, rfl⟩ | hc
    · exact Nat.lt_succ_self _
    · exact Nat.lt_succ_of_lt (hv.entry_lt hc)
  · intro x p hx hxp
    rw [length_graft]
    rcases hcases hx with hx | rfl
    · rw [parentOf_graft_of_lt hx] at hxp
      exact Nat.lt_succ_of_lt (hv.parent_lt hx hxp)
    · rw [parentOf_graft_self hp] at hxp
      exact Option.some.inj hxp ▸ Nat.lt_succ_of_lt hp
  · intro d nm c hc
    rcases hentry hc with ⟨rfl, -, rfl⟩ | hc
    · exact parentOf_graft_self hp
    · rw [parentOf_graft_of_lt (hv.entry_lt hc)]
      exact hv.entry_parent hc
  · intro d nm c hc
    rcases hentry hc with ⟨-, rfl, rfl⟩ | hc
    · rw [node_graft_self hp]
    · rw [name_graft_of_lt (hv.entry_lt hc)]
      exact hv.entry_name hc
  · rw [root_graft, parentOf_graft_of_lt hv.root_lt]
    exact hv.root_parent
  · intro x hx
    rw [root_graft]
    rcases hcases hx with hx | rfl
    · exact hold hx
    · exact Grounded.of_parent (parentOf_graft_self hp) (hold hp)
  · intro x hx
    rcases hcases hx with hx | rfl
    · exact coherent_graft_of_lt hx (hv.coherent hx)
    · rw [node_graft_self hp]
      exact hcoh

/-- **`is_ancestor_of` is a sound test**: a hit is never missed, whatever the arena looks like. -/
theorem isAncestorOf_of_isAncestor (h : IsAncestor v.parentOf id x) :
    v.isAncestorOf id x = true := by
  obtain ⟨k, hk⟩ := h
  rw [isAncestorOf]
  generalize v.nodes.length = fuel
  induction fuel generalizing k x with
  | zero => rfl
  | succ fuel ih =>
    rw [ancestorLoop]
    split
    · rfl
    · rename_i hne
      cases k with
      | zero => exact absurd (Option.some.inj hk) hne
      | succ k =>
        obtain ⟨p, hp, hpk⟩ := exists_parent_of_climb_succ hk
        rw [hp]
        exact ih k hpk

theorem not_isAncestor_of_isAncestorOf (h : v.isAncestorOf id x = false) :
    ¬ IsAncestor v.parentOf id x := by
  intro hanc
  rw [isAncestorOf_of_isAncestor hanc] at h
  cases h

/-- **A reattachment moves one subtree**, and keeps the forest grounded because the new parent is
not below the node moved. -/
theorem WellFormed.reattach {newParent : NodeId} {newName : Str} (hv : v.WellFormed)
    (hid : id < v.nodes.length) (hdir : (v.node newParent).kind.isDirectory = true)
    (hnew : newParent < v.nodes.length) (hanc : ¬ IsAncestor v.parentOf id newParent) :
    (v.reattach id newParent newName).WellFormed := by
  have hroot : v.root ≠ id := by
    rintro rfl
    exact hanc (hv.grounded hnew)
  -- an old entry that survives is not the entry of the moved node
  have hentry : ∀ {d nm c}, (v.reattach id newParent newName).child d nm = some c →
      (d = newParent ∧ nm = newName ∧ c = id) ∨ (v.child d nm = some c ∧ c ≠ id) := by
    intro d nm c hc
    rw [child_reattach hdir] at hc
    split at hc
    · rename_i h
      exact Or.inl ⟨h.1, h.2, (Option.some.inj hc).symm⟩
    · split at hc
      · cases hc
      · rename_i hold
        refine Or.inr ⟨hc, ?_⟩
        rintro rfl
        exact hold ⟨hv.entry_parent hc, (hv.entry_name hc).symm⟩
  have hparent : (v.reattach id newParent newName).parentOf =
      Function.update v.parentOf id (some newParent) := parentOf_reattach hid
  constructor
  · rw [root_reattach, length_reattach]; exact hv.root_lt
  · intro d nm c hc
    rw [length_reattach]
    rcases hentry hc with ⟨-, -, rfl⟩ | ⟨hc, -⟩
    · exact hid
    · exact hv.entry_lt hc
  · intro x p hx hxp
    rw [length_reattach] at hx ⊢
    rw [hparent] at hxp
    by_cases hxid : x = id
    · subst hxid
      rw [Function.update_self] at hxp
      exact Option.some.inj hxp ▸ hnew
    · rw [Function.update_of_ne hxid] at hxp
      exact hv.parent_lt hx hxp
  · intro d nm c hc
    rw [hparent]
    rcases hentry hc with ⟨rfl, -, rfl⟩ | ⟨hc, hne⟩
    · exact Function.update_self _ _ _
    · rw [Function.update_of_ne hne]
      exact hv.entry_parent hc
  · intro d nm c hc
    rcases hentry hc with ⟨-, rfl, rfl⟩ | ⟨hc, hne⟩
    · exact name_reattach_self hid
    · rw [name_reattach_of_ne hne]
      exact hv.entry_name hc
  · rw [root_reattach, hparent, Function.update_of_ne hroot]
    exact hv.root_parent
  · intro x hx
    rw [length_reattach] at hx
    rw [root_reattach, hparent]
    exact grounded_update (hv.grounded hnew) hanc (hv.grounded hx)
  · intro x hx
    rw [length_reattach] at hx
    exact coherent_reattach.2 (hv.coherent hx)

/-! ### Calls as sequences of the three -/

/-- One change of shape, with everything the code checked before making it. -/
inductive Elementary : Vfs → Vfs → Prop
  | prune {v w : Vfs} (h : Prunes v w) : Elementary v w
  | graft {v : Vfs} {parent : NodeId} {name : Str} {kind : NodeKind} {metadata : Metadata}
      (hp : parent < v.nodes.length) (hfull : v.isFull parent = false) (hkind : kind.children = ∅)
      (hcoh : metadata.mode &&& sIfMt = kind.fileType) :
      Elementary v (v.graft parent name kind metadata)
  | reattach {v : Vfs} {id newParent : NodeId} {newName : Str} (hid : id < v.nodes.length)
      (hnew : newParent < v.nodes.length) (hdir : (v.node newParent).kind.isDirectory = true)
      (hanc : v.isAncestorOf id newParent = false)
      (hdepth : v.depthOf newParent + 1 + v.heightOf id ≤ maxVfsDepth) :
      Elementary v (v.reattach id newParent newName)

/-- Finitely many changes of shape. -/
abbrev Rewrites : Vfs → Vfs → Prop := Relation.ReflTransGen Elementary

theorem Prunes.rewrites (h : Prunes v w) : Rewrites v w :=
  Relation.ReflTransGen.single (.prune h)

theorem Rewrites.trans_prunes {u : Vfs} (h : Rewrites v w) (h' : Prunes w u) : Rewrites v u :=
  h.tail (.prune h')

theorem insert_rewrites {kind : NodeKind} {metadata : Metadata} (hp : parent < v.nodes.length)
    (hkind : kind.children = ∅) (hcoh : metadata.mode &&& sIfMt = kind.fileType) :
    Rewrites v (v.insert parent name kind metadata).1 := by
  rw [insert_eq]
  rcases hfull : v.isFull parent with - | -
  · exact Relation.ReflTransGen.single (.graft hp hfull hkind hcoh)
  · exact Relation.ReflTransGen.refl

theorem addFile_rewrites {now : Timestamp} {contents : Bytes} {perms uid gid : UInt32}
    (hp : parent < v.nodes.length) :
    Rewrites v (v.addFile now parent name contents perms uid gid).1 := by
  have hcoh := Metadata.new_mode_and_sIfMt now (.file contents) perms uid gid
  rw [addFile]
  dsimp only
  split
  · exact Relation.ReflTransGen.refl
  · rcases v.child parent name with - | existing
    · dsimp only
      have hins : Rewrites v (v.insert parent name (.file contents) _).1 :=
        insert_rewrites hp rfl hcoh
      split
      · exact hins.trans_prunes ((Prunes.refl _).setContentBytes _)
      · exact hins
    · exact ((Prunes.replace rfl hcoh).setContentBytes _).rewrites

theorem setMtime_prunes (v : Vfs) (id : NodeId) (mtime : Timestamp) :
    Prunes v (v.setMtime id mtime) :=
  Prunes.setMetadata (g := fun m ↦ { m with mtime := mtime }) fun _ ↦ rfl

theorem chmod_prunes (v : Vfs) (id : NodeId) (perms : UInt32) : Prunes v (v.chmod id perms) := by
  refine Prunes.setMetadata (g := fun m ↦
    { m with mode := (m.mode &&& sIfMt) ||| (perms &&& 0o7777) }) fun m ↦ ?_
  exact mode_and_sIfMt (by rw [UInt32.and_assoc, UInt32.and_self]) perms

theorem chown_prunes (v : Vfs) (id : NodeId) (uid gid : UInt32) : Prunes v (v.chown id uid gid) :=
  Prunes.setMetadata (g := fun m ↦ { m with uid := uid, gid := gid }) fun _ ↦ rfl

theorem writeFile_prunes (v : Vfs) (now : Timestamp) (id : NodeId) (data : Bytes) (append : Bool) :
    Prunes v (v.writeFile now id data append).1 := by
  rw [Vfs.writeFile]
  split
  · rename_i contents hkind
    dsimp only
    generalize (if append = true then contents.length + data.length else data.length) = newLen
    generalize (if append = true then contents ++ data else data) = bytes
    split
    · exact Prunes.refl v
    · refine Prunes.setContentBytes ?_ _
      refine Prunes.modifyNode rfl rfl (fun nm c hc ↦ ?_) fun hc ↦ ?_
      · simp [NodeKind.children] at hc
      · rw [Node.Coherent, hkind] at hc
        exact hc
  · exact Prunes.refl v

/-- **Every mutator call with in-range ids is a sequence of elementary changes.** -/
theorem Mutator.rewrites (m : Mutator) (h : ∀ id ∈ m.ids, id < v.nodes.length) :
    Rewrites v (m.apply v) := by
  cases m with
  | mkdir now parent name perms uid gid =>
    rw [apply, Vfs.mkdir]
    split
    · exact Relation.ReflTransGen.refl
    · exact insert_rewrites (h parent (by simp [ids])) rfl
        (Metadata.new_mode_and_sIfMt now (.directory ∅) perms uid gid)
  | addFile now parent name contents perms uid gid =>
    exact addFile_rewrites (h parent (by simp [ids]))
  | addDynamicFile now parent name generator perms uid gid =>
    have hcoh := Metadata.new_mode_and_sIfMt now (.dynamicFile generator) perms uid gid
    rw [apply, Vfs.addDynamicFile]
    split
    · exact (Prunes.replace rfl hcoh).rewrites
    · exact insert_rewrites (h parent (by simp [ids])) rfl hcoh
  | writeFile now id data append => exact (writeFile_prunes v now id data append).rewrites
  | addSymlink now parent name target =>
    rw [apply, Vfs.addSymlink]
    split
    · exact Relation.ReflTransGen.refl
    · exact insert_rewrites (h parent (by simp [ids])) rfl
        (Metadata.new_mode_and_sIfMt now (.symlink target) 0o777 0 0)
  | touch now parent name uid gid =>
    rw [apply, Vfs.touch]
    split
    · exact (setMtime_prunes _ _ _).rewrites
    · exact (addFile_rewrites (h parent (by simp [ids]))).trans_prunes (setMtime_prunes _ _ _)
  | chmod id perms => exact (chmod_prunes v id perms).rewrites
  | chown id uid gid => exact (chown_prunes v id uid gid).rewrites
  | setMtime id mtime => exact (setMtime_prunes v id mtime).rewrites
  | setAllMtimes ts => exact (Prunes.setAllMtimes v ts).rewrites
  | unlink parent name => exact (Prunes.unlink v parent name).rewrites
  | rename id newParent newName =>
    rw [apply, rename_eq]
    split
    · rename_i hguard
      exact Relation.ReflTransGen.single (.reattach (h id (by simp [ids]))
        (h newParent (by simp [ids])) hguard.1 hguard.2.1 hguard.2.2)
    · exact Relation.ReflTransGen.refl

theorem Call.rewrites (a : Call) (h : a.InRange v) : Rewrites v (a.apply v) := by
  cases a with
  | mutator m => exact m.rewrites h
  | copySymlink parent name target metadata =>
    obtain ⟨hp, hmode⟩ := h
    have hunlink := Prunes.unlink v parent name
    refine hunlink.rewrites.trans (insert_rewrites ?_ rfl hmode)
    rw [hunlink.length]
    exact hp

/-! ### The invariant along runs -/

theorem Elementary.wellFormed (h : Elementary v w) (hv : v.WellFormed) : w.WellFormed := by
  cases h with
  | prune h => exact h.wellFormed hv
  | graft hp _ hkind hcoh => exact hv.graft hp hkind hcoh
  | reattach hid hnew hdir hanc _ =>
    exact hv.reattach hid hdir hnew (not_isAncestor_of_isAncestorOf hanc)

theorem Rewrites.wellFormed (h : Rewrites v w) (hv : v.WellFormed) : w.WellFormed := by
  induction h with
  | refl => exact hv
  | tail _ hstep ih => exact hstep.wellFormed ih

/-- Nodes are never removed from the arena. -/
theorem Rewrites.length_le (h : Rewrites v w) : v.nodes.length ≤ w.nodes.length := by
  induction h with
  | refl => exact le_rfl
  | tail _ hstep ih =>
    refine ih.trans ?_
    cases hstep with
    | prune h => rw [h.length]
    | graft => rw [length_graft]; exact Nat.le_succ _
    | reattach => rw [length_reattach]

/-- What an admissible sequence of calls has kept so far. -/
theorem wellFormed_run_calls {calls : List Call} (h : Admissible Call.apply Call.InRange v calls)
    (hv : v.WellFormed) : (run Call.apply v calls).WellFormed :=
  invariant_run h (fun a _ ha hs ↦ (a.rewrites ha).wellFormed hs) hv

theorem length_le_run_calls {calls : List Call} (h : Admissible Call.apply Call.InRange v calls) :
    v.nodes.length ≤ (run Call.apply v calls).nodes.length :=
  invariant_run (I := fun w ↦ v.nodes.length ≤ w.nodes.length) h
    (fun a _ ha hs ↦ hs.trans (a.rewrites ha).length_le) le_rfl

/-- `mkdir` returns a node of the arena it leaves behind. -/
theorem mkdir_snd_lt {now : Timestamp} {perms uid gid : UInt32} (hv : v.WellFormed)
    (hp : parent < v.nodes.length) :
    (v.mkdir now parent name perms uid gid).2 <
      (v.mkdir now parent name perms uid gid).1.nodes.length := by
  rw [mkdir]
  split
  · rename_i existing hchild
    exact hv.entry_lt hchild
  · rw [insert_eq]
    split
    · exact hp
    · rw [length_graft]
      exact Nat.lt_succ_self _

theorem admissible_mkdirPCalls {now : Timestamp} {perms uid gid : UInt32} (comps : List Str) :
    ∀ {v : Vfs} {current : NodeId}, v.WellFormed → current < v.nodes.length →
      Admissible Call.apply Call.InRange v (mkdirPCalls now perms uid gid v current comps) := by
  induction comps with
  | nil => intro v current _ _; trivial
  | cons comp rest ih =>
    intro v current hv hcur
    rw [mkdirPCalls]
    split
    · exact ih hv hcur
    · have hcall : Call.InRange (.mutator (.mkdir now current comp perms uid gid)) v := by
        simpa [Call.InRange, Mutator.ids] using hcur
      refine ⟨hcall, ?_⟩
      split
      · trivial
      · exact ih ((Call.rewrites _ hcall).wellFormed hv) (mkdir_snd_lt hv hcur)

/-- The calls for the entries of a directory, given the calls for each entry. -/
theorem admissible_foldl_deepCopyCalls {now : Timestamp} {fuel : ℕ} {newDir : NodeId}
    (ih : ∀ {v : Vfs} {src dst : NodeId} {name : Str}, v.WellFormed → src < v.nodes.length →
      dst < v.nodes.length →
      Admissible Call.apply Call.InRange v (deepCopyCalls now fuel v src dst name))
    (v₀ : Vfs) (es : List (Str × NodeId)) :
    ∀ (v : Vfs) (done : List Call), v = run Call.apply v₀ done →
      Admissible Call.apply Call.InRange v₀ done → v.WellFormed → newDir < v.nodes.length →
      (∀ e ∈ es, e.2 < v.nodes.length) →
      Admissible Call.apply Call.InRange v₀ (es.foldl (fun acc e ↦
        ((deepCopyInner now fuel acc.1 e.2 newDir e.1).1,
          acc.2 ++ deepCopyCalls now fuel acc.1 e.2 newDir e.1)) (v, done)).2 := by
  induction es with
  | nil => intro v done _ hdone _ _ _; exact hdone
  | cons e es ihes =>
    intro v done hrun hdone hv hdir hes
    have hcalls : Admissible Call.apply Call.InRange v
        (deepCopyCalls now fuel v e.2 newDir e.1) := ih hv (hes e List.mem_cons_self) hdir
    have hmono := length_le_run_calls hcalls
    have hv' := wellFormed_run_calls hcalls hv
    rw [← deepCopyInner_eq_run] at hmono hv'
    rw [List.foldl_cons]
    refine ihes _ _ ?_ (admissible_append.2 ⟨hdone, hrun ▸ hcalls⟩) hv' (hdir.trans_le hmono)
      fun e' he' ↦ (hes e' (List.mem_cons_of_mem _ he')).trans_le hmono
    rw [run_append, ← hrun, deepCopyInner_eq_run]

theorem admissible_deepCopyCalls {now : Timestamp} (fuel : ℕ) :
    ∀ {v : Vfs} {src dst : NodeId} {name : Str}, v.WellFormed → src < v.nodes.length →
      dst < v.nodes.length →
      Admissible Call.apply Call.InRange v (deepCopyCalls now fuel v src dst name) := by
  induction fuel with
  | zero => intro v src dst name _ _ _; trivial
  | succ fuel ih =>
    intro v src dst name hv hsrc hdst
    have hone : ∀ m : Mutator, m.ids = [dst] → Call.InRange (.mutator m) v := by
      intro m hm id hid
      rw [hm, List.mem_singleton] at hid
      exact hid ▸ hdst
    have hsrccoh := hv.coherent hsrc
    rw [deepCopyCalls]
    rw [Node.Coherent] at hsrccoh
    rcases hkind : (v.node src).kind with t | contents | target | generator
    · -- the entries are those of the source after the copy of the directory itself was made
      have hcall := hone (.mkdir now dst name ((v.node src).metadata.mode &&& 0o7777)
        (v.node src).metadata.uid (v.node src).metadata.gid) rfl
      have hv' := (Call.rewrites _ hcall).wellFormed hv
      refine ⟨hcall, ?_⟩
      exact admissible_foldl_deepCopyCalls ih _ _ _ [] rfl trivial hv' (mkdir_snd_lt hv hdst)
        fun e he ↦ hv'.entry_lt (mem_entries_iff.1 he)
    · exact ⟨hone _ rfl, trivial⟩
    · rw [hkind] at hsrccoh
      exact ⟨⟨hdst, hsrccoh⟩, trivial⟩
    · exact ⟨hone _ rfl, trivial⟩

/-- **The calls an in-range operation makes are in range**, each in the arena it is made in. -/
theorem Op.admissible_calls (op : Op) (h : op.InRange v) (hv : v.WellFormed) :
    Admissible Call.apply Call.InRange v (op.calls v) := by
  cases op with
  | mutator m => exact ⟨h, trivial⟩
  | mkdirP now path perms uid gid => exact admissible_mkdirPCalls _ hv hv.root_lt
  | deepCopy now src dstParent dstName =>
    exact admissible_deepCopyCalls _ hv (h src (by simp [ids])) (h dstParent (by simp [ids]))

theorem Op.wellFormed (op : Op) (h : op.InRange v) (hv : v.WellFormed) :
    (op.apply v).WellFormed := by
  rw [op.apply_eq_run]
  exact wellFormed_run_calls (op.admissible_calls h hv) hv

theorem admissible_callsOf {ops : List Op} (h : Admissible Op.apply Op.InRange v ops)
    (hv : v.WellFormed) : Admissible Call.apply Call.InRange v (callsOf v ops) := by
  induction ops generalizing v with
  | nil => trivial
  | cons op ops ih =>
    refine admissible_append.2 ⟨op.admissible_calls h.1 hv, ?_⟩
    rw [← op.apply_eq_run]
    exact ih h.2 (op.wellFormed h.1 hv)

/-- **The arena stays a tree.** After any run of public mutators with in-range ids from a fresh
arena: ids are in range and entry tables and parent links agree (`WellFormed`), every chain of
parent links ends at the root, which alone has no parent, no node is attached twice, and modes agree
with payloads. -/
theorem wellFormed_run (now : Timestamp) (ops : List Op)
    (h : Admissible Op.apply Op.InRange (new now) ops) :
    (run Op.apply (new now) ops).WellFormed ∧
      (∀ x < (run Op.apply (new now) ops).nodes.length,
        (run Op.apply (new now) ops).parentOf x = none ↔
          x = (run Op.apply (new now) ops).root) ∧
      ∀ d name d' name' c, (run Op.apply (new now) ops).child d name = some c →
        (run Op.apply (new now) ops).child d' name' = some c → d = d' ∧ name = name' := by
  have hrun : (run Op.apply (new now) ops).WellFormed :=
    invariant_run h (fun op _ hop hs ↦ op.wellFormed hop hs) (wellFormed_new now)
  exact ⟨hrun, fun _ hx ↦ hrun.parentOf_eq_none_iff hx, fun _ _ _ _ _ ↦ hrun.entry_unique⟩

/-- A run that builds a tree, copies it into itself, overwrites a directory by a file and moves an
unlinked subtree back. -/
theorem wellFormed_run_tombstones :
    (run Op.apply (new 0) [
      .mkdirP 0 "/a/b".toList 0o755 0 0,
      .mutator (.addFile 0 2 "f".toList [1, 2] 0o644 0 0),
      .deepCopy 0 1 2 "copy".toList,
      .mutator (.addFile 0 0 "a".toList [] 0o644 0 0),
      .mutator (.unlink 0 "a".toList),
      .mutator (.rename 2 0 "b".toList)]).WellFormed :=
  (wellFormed_run 0 _ (by decide +kernel)).1

end Vfs

end Mimic
