import Mimic.Vfs.Confined
import Mimic.Vfs.Lookup

/-!
# Names of entries

An entry gets its name from the operation that makes it, and so does its node. So a property of
names that holds of all entries goes on to hold as long as it holds of the names that operations are
given (`EntriesIn.mutator`), and one of the names of all nodes below another as long as it holds of
the names that they are made with (`NodesIn.makes`). The path of a node consists of such names
(`NodesIn.pathParts`).
-/

namespace Mimic

open GuardedRun

namespace Vfs

/-- Every entry has a name in `P`. -/
def EntriesIn (P : Str → Prop) (v : Vfs) : Prop :=
  ∀ d name c, v.child d name = some c → P name

/-- The names a mutator may enter. -/
def Mutator.names : Mutator → List Str
  | mkdir _ _ name _ _ _ | addFile _ _ name _ _ _ _ | addDynamicFile _ _ name _ _ _ _
  | addSymlink _ _ name _ | touch _ _ name _ _ | rename _ _ name => [name]
  | writeFile .. | chmod .. | chown .. | setMtime .. | setAllMtimes .. | unlink .. => []

/-- The names an operation may enter, besides those of the entries it copies. -/
def Op.names : Op → List Str
  | mutator m => m.names
  | mkdirP _ path _ _ _ => significant (splitSlash path)
  | deepCopy _ _ _ dstName => [dstName]

variable {P Q : Str → Prop} {v w : Vfs} {parent id : NodeId} {name : Str} {kind : NodeKind}
  {metadata : Metadata}

/-! ### Mutators -/

namespace EntriesIn

theorem mono (hv : EntriesIn P v) (h : ∀ name, P name → Q name) : EntriesIn Q v :=
  fun d name c hc ↦ h name (hv d name c hc)

theorem prunes (hv : EntriesIn P v) (h : Prunes v w) : EntriesIn P w :=
  fun d name c hc ↦ hv d name c (h.child d name c hc)

theorem insert (hv : EntriesIn P v) (hname : P name) (hkind : kind.children = ∅) :
    EntriesIn P (v.insert parent name kind metadata).1 := by
  rw [insert_eq]
  split
  · exact hv
  · intro d nm c hc
    rw [graft, child_modifyChildren_insert, child_push hkind] at hc
    split at hc
    · rename_i hnew
      rw [hnew.2.1]
      exact hname
    · exact hv d nm c hc

theorem addFile (hv : EntriesIn P v) (hname : P name) (now : Timestamp) (contents : Bytes)
    (perms uid gid : UInt32) :
    EntriesIn P (v.addFile now parent name contents perms uid gid).1 := by
  have hcoh := Metadata.new_mode_and_sIfMt now (.file contents) perms uid gid
  rw [Vfs.addFile]
  dsimp only
  split
  · exact hv
  rcases v.child parent name with - | existing
  · dsimp only
    split
    · exact hv.insert hname rfl
    · exact hv.insert hname rfl
  · exact hv.prunes ((Prunes.replace rfl hcoh).setContentBytes _)

theorem addDynamicFile (hv : EntriesIn P v) (hname : P name) (now : Timestamp)
    (generator : Generator) (perms uid gid : UInt32) :
    EntriesIn P (v.addDynamicFile now parent name generator perms uid gid).1 := by
  have hcoh := Metadata.new_mode_and_sIfMt now (.dynamicFile generator) perms uid gid
  rw [Vfs.addDynamicFile]
  split
  · exact hv.prunes (Prunes.replace rfl hcoh)
  · exact hv.insert hname rfl

theorem mkdir (hv : EntriesIn P v) (hname : P name) (now : Timestamp) (perms uid gid : UInt32) :
    EntriesIn P (v.mkdir now parent name perms uid gid).1 := by
  rw [Vfs.mkdir]
  split
  · exact hv
  · exact hv.insert hname rfl

theorem rename (hv : EntriesIn P v) (hname : P name) (id newParent : NodeId) :
    EntriesIn P (v.rename id newParent name).1 := by
  rw [rename_eq]
  split
  · rename_i hguard
    intro d nm c hc
    rw [child_reattach hguard.1] at hc
    split at hc
    · rename_i hnew
      rw [hnew.2]
      exact hname
    split at hc
    · cases hc
    · exact hv d nm c hc
  · exact hv

/-- **A mutator.** -/
theorem mutator (hv : EntriesIn P v) (m : Mutator) (hnames : ∀ name ∈ m.names, P name) :
    EntriesIn P (m.apply v) := by
  cases m with
  | mkdir now parent name perms uid gid => exact hv.mkdir (hnames _ List.mem_cons_self) _ _ _ _
  | addFile now parent name contents perms uid gid =>
    exact hv.addFile (hnames _ List.mem_cons_self) _ _ _ _ _
  | addDynamicFile now parent name generator perms uid gid =>
    exact hv.addDynamicFile (hnames _ List.mem_cons_self) _ _ _ _ _
  | addSymlink now parent name target =>
    rw [Mutator.apply, Vfs.addSymlink]
    split
    · exact hv
    · exact hv.insert (hnames _ List.mem_cons_self) rfl
  | touch now parent name uid gid =>
    rw [Mutator.apply, Vfs.touch]
    split
    · exact hv.prunes (setMtime_prunes _ _ _)
    · exact (hv.addFile (hnames _ List.mem_cons_self) _ _ _ _ _).prunes (setMtime_prunes _ _ _)
  | rename id newParent newName => exact hv.rename (hnames _ List.mem_cons_self) _ _
  | writeFile now id data append => exact hv.prunes (writeFile_prunes v now id data append)
  | chmod id perms => exact hv.prunes (chmod_prunes v id perms)
  | chown id uid gid => exact hv.prunes (chown_prunes v id uid gid)
  | setMtime id mtime => exact hv.prunes (setMtime_prunes v id mtime)
  | setAllMtimes ts => exact hv.prunes (Prunes.setAllMtimes v ts)
  | unlink parent name => exact hv.prunes (Prunes.unlink v parent name)

end EntriesIn

/-! ### Names of nodes -/

/-- Every node with a parent has a name in `P`. -/
def NodesIn (P : Str → Prop) (v : Vfs) : Prop := ∀ x p, v.parentOf x = some p → P (v.node x).name

theorem lt_of_parentOf {x p : NodeId} (h : v.parentOf x = some p) : x < v.nodes.length := by
  by_contra hle
  rw [parentOf, node_of_le (Nat.le_of_not_lt hle)] at h
  cases h

theorem NodesIn.graft {kind : NodeKind} {metadata : Metadata} (hv : NodesIn P v) (hname : P name) :
    NodesIn P (v.graft parent name kind metadata) := by
  intro x p hp
  have hlt := lt_of_parentOf hp
  rw [length_graft, Nat.lt_succ_iff_lt_or_eq] at hlt
  rcases hlt with hlt | rfl
  · rw [name_graft_of_lt hlt]
    rw [parentOf_graft_of_lt hlt] at hp
    exact hv x p hp
  · rw [Vfs.graft, name_modifyChildren, node, List.getD_eq_getElem?_getD,
      List.getElem?_concat_length]
    exact hname

/-- What makes a node gives it the name that it is asked to. -/
theorem NodesIn.makes (hv : NodesIn P v) (hname : P name) {x : NodeId}
    (h : Makes v parent name w x) :
    NodesIn P w := by
  cases h with
  | refused | found => exact hv
  | entered => exact hv.graft hname
  | replaced =>
    intro y p hp
    have hp : v.parentOf y = some p := (modifyNode_field Node.parent rfl y).symm.trans hp
    exact (congrArg P (modifyNode_field Node.name rfl y)).mpr (hv y p hp)

theorem NodesIn.mkdirPLoop (hv : NodesIn P v) {comps : List Str}
    (hcomps : ∀ comp ∈ comps, P comp) (now : Timestamp) (perms uid gid : UInt32)
    (current : NodeId) :
    NodesIn P (mkdirPLoop now perms uid gid v current comps).1 := by
  induction comps generalizing v current with
  | nil => exact hv
  | cons comp rest ih =>
    obtain ⟨hcomp, hrest⟩ := List.forall_mem_cons.mp hcomps
    have hmade := hv.makes hcomp (makes_mkdir v now current comp perms uid gid)
    rw [Vfs.mkdirPLoop]
    split
    · exact ih hv hrest current
    dsimp only
    split
    · exact hmade
    · exact ih hmade hrest _

/-- The path of a node consists of names of nodes with a parent. -/
theorem NodesIn.pathParts (hv : NodesIn P v) (fuel : ℕ) (x : NodeId) {parts : List Str}
    (hparts : ∀ name ∈ parts, P name) : ∀ name ∈ v.pathParts fuel x parts, P name := by
  induction fuel generalizing x parts with
  | zero => exact hparts
  | succ fuel ih =>
    rw [Vfs.pathParts]
    split
    · exact hparts
    · rename_i p hp
      exact ih p (List.forall_mem_cons.mpr ⟨hv x p hp, hparts⟩)

/-! ### Names of what is new -/

/-- Every entry of `w` is one of `v`, or leads to a node that is new, under a name in `P`. -/
structure EntersIn (P : Str → Prop) (v w : Vfs) : Prop where
  length_le : v.nodes.length ≤ w.nodes.length
  entry : ∀ d nm c, w.child d nm = some c → v.child d nm = some c ∨ v.nodes.length ≤ c ∧ P nm

namespace EntersIn

theorem refl (v : Vfs) : EntersIn P v v := ⟨le_rfl, fun _ _ _ h ↦ .inl h⟩

theorem makes {u : Vfs} {x : NodeId} (h : EntersIn P v w) (hname : P name)
    (hm : Makes w parent name u x) : EntersIn P v u := by
  cases hm with
  | refused | found => exact ⟨h.length_le, h.entry⟩
  | entered _ _ hkind =>
    refine ⟨h.length_le.trans length_lt_length_graft.le, fun d nm c hc ↦ ?_⟩
    have hc : (Vfs.graft w parent name _ _).child d nm = some c := hc
    rw [Vfs.graft, child_modifyChildren_insert, child_push hkind] at hc
    split at hc
    · rename_i hnew
      obtain rfl := Option.some.inj hc
      exact .inr ⟨h.length_le, hnew.2.1 ▸ hname⟩
    · exact h.entry d nm c hc
  | replaced _ hkind =>
    exact ⟨h.length_le.trans length_modifyNode.ge,
      fun d nm c hc ↦ h.entry d nm c (child_replace_cases hkind hc)⟩

/-- **What leads down from a directory that was empty has names in `P`.** -/
theorem descend {c x : NodeId} {names : List Str} (h : EntersIn P v w)
    (hempty : ∀ nm, v.child c nm = none) (hx : w.descend c names = some x) :
    ∀ nm ∈ names, P nm := by
  have hall : (names = [] ∨ v.nodes.length ≤ x) ∧ ∀ nm ∈ names, P nm := by
    induction names using List.reverseRecOn generalizing x with
    | nil => exact ⟨.inl rfl, fun nm hnm ↦ absurd hnm List.not_mem_nil⟩
    | append_singleton names nm ih =>
      obtain ⟨y, hy, hchild⟩ := descend_snoc.mp hx
      obtain ⟨hnew, hnames⟩ := ih hy
      rcases h.entry y nm x hchild with hold | ⟨hle, hnm⟩
      · -- there was no such entry
        rcases hnew with rfl | hle
        · obtain rfl := Option.some.inj hy
          rw [hempty] at hold
          cases hold
        · exact absurd (lt_of_child hold) (Nat.not_lt.mpr hle)
      · exact ⟨.inr hle, List.forall_mem_append.mpr ⟨hnames, List.forall_mem_singleton.mpr hnm⟩⟩
  exact hall.2

end EntersIn

end Vfs

end Mimic
