import Mimic.Vfs.Placement

/-!
# What resolution can see

A node is **nameable** when its entry path consists of names that can stand between two slashes.
Walks stay among nameable nodes, so two arenas that agree on these are the same to `resolve`
(`SameView.walks`, `SameView.landed_iff`).

The rest of the module is about `add_file` where nobody can see it. Unless the file gets an entry
name in a nameable directory, the arena looks the same before and after (`sameView_addFile`). After
`mkdir_p` along a path that is not plain it never does, so there a placed file cannot be found under
any path (`sameView_place`). This is the converse of `place_of_plain`.
-/

namespace Mimic

open ParentForest

namespace Vfs

/-- Reachable from the root through entries that a path text can name. -/
abbrev Nameable (v : Vfs) (x : NodeId) : Prop := NamedBy IsEntryName v x

/-- `w` agrees with `v` on what is nameable. -/
structure SameView (v w : Vfs) : Prop where
  root : w.root = v.root
  child : ∀ {c name}, v.Nameable c → IsEntryName name → w.child c name = v.child c name
  parent : ∀ {c}, v.Nameable c → w.parentOf c = v.parentOf c
  bare : ∀ {c}, v.Nameable c → (w.node c).kind.bare = (v.node c).kind.bare

variable {v w : Vfs} {c d x p parent : NodeId} {name comp path dir : Str}
  {names comps : List Str} {n : ℕ}

namespace SameView

variable (h : SameView v w)

include h

theorem descend_eq (hnames : ∀ name ∈ names, IsEntryName name) :
    w.descend w.root names = v.descend v.root names := by
  induction names using List.reverseRecOn with
  | nil => exact congrArg some h.root
  | append_singleton init last ih =>
    obtain ⟨hinits, hlast⟩ := List.forall_mem_append.1 hnames
    rw [descend_append, descend_append, ih hinits]
    rcases hinit : v.descend v.root init with - | y
    · rfl
    · have hchild := h.child ⟨init, hinits, hinit⟩ (hlast last (List.mem_singleton_self _))
      show (w.child y last).bind _ = (v.child y last).bind _
      rw [hchild]
      rfl

theorem nameable_iff : w.Nameable c ↔ v.Nameable c := by
  constructor
  · rintro ⟨names, hnames, hdesc⟩
    exact ⟨names, hnames, (h.descend_eq hnames).symm.trans hdesc⟩
  · rintro ⟨names, hnames, hdesc⟩
    exact ⟨names, hnames, (h.descend_eq hnames).trans hdesc⟩

theorem symm : SameView w v where
  root := h.root.symm
  child hc hname := (h.child (h.nameable_iff.1 hc) hname).symm
  parent hc := (h.parent (h.nameable_iff.1 hc)).symm
  bare hc := (h.bare (h.nameable_iff.1 hc)).symm

theorem origin_eq (path : Str) (c : NodeId) : w.origin c path = v.origin c path := by
  rw [Vfs.origin, Vfs.origin, h.root]

theorem parentOrRoot_eq (hc : v.Nameable c) : w.parentOrRoot c = v.parentOrRoot c := by
  rw [Vfs.parentOrRoot, Vfs.parentOrRoot, h.parent hc, h.root]

theorem symlink_iff (hc : v.Nameable c) (target : Str) :
    (w.node c).kind = .symlink target ↔ (v.node c).kind = .symlink target := by
  rw [← NodeKind.bare_eq_symlink_iff, h.bare hc, NodeKind.bare_eq_symlink_iff]

theorem file_iff (hc : v.Nameable c) (contents : Bytes) :
    (w.node c).kind = .file contents ↔ (v.node c).kind = .file contents := by
  rw [← NodeKind.bare_eq_file_iff, h.bare hc, NodeKind.bare_eq_file_iff]

/-- **A walk in one arena is a walk in the other**, and stays among nameable nodes. -/
theorem walks (hv : v.WellFormed) (hwalk : Walks v c comps d n) :
    v.Nameable c → (∀ comp ∈ comps, '/' ∉ comp) → v.Nameable d ∧ Walks w c comps d n := by
  induction hwalk with
  | nil => exact fun hc _ ↦ ⟨hc, .nil⟩
  | skip hskip _ ih =>
    intro hc hcomps
    obtain ⟨hd, hw⟩ := ih hc (List.forall_mem_cons.1 hcomps).2
    exact ⟨hd, .skip hskip hw⟩
  | up _ ih =>
    intro hc hcomps
    obtain ⟨hd, hw⟩ := ih (hc.parentOrRoot hv) (List.forall_mem_cons.1 hcomps).2
    exact ⟨hd, .up (h.parentOrRoot_eq hc ▸ hw)⟩
  | down hname hchild hkind _ ih =>
    intro hc hcomps
    obtain ⟨hslash, hrest⟩ := List.forall_mem_cons.1 hcomps
    have hx := hc.child ⟨hname, hslash⟩ hchild
    obtain ⟨hd, hw⟩ := ih hx hrest
    refine ⟨hd, .down hname ((h.child hc ⟨hname, hslash⟩).trans hchild) (fun target ht ↦ ?_) hw⟩
    exact hkind target ((h.symlink_iff hx target).1 ht)
  | link hname hchild hkind _ _ ihin ih =>
    intro hc hcomps
    obtain ⟨hslash, hrest⟩ := List.forall_mem_cons.1 hcomps
    have hx := hc.child ⟨hname, hslash⟩ hchild
    obtain ⟨hy, hin⟩ := ihin ((hx.parentOrRoot hv).origin _)
      fun _ ↦ slash_not_mem_of_mem_splitSlash
    obtain ⟨hd, hw⟩ := ih hy hrest
    refine ⟨hd, .link hname ((h.child hc ⟨hname, hslash⟩).trans hchild)
      ((h.symlink_iff hx _).2 hkind) ?_ hw⟩
    rw [h.origin_eq, h.parentOrRoot_eq hx]
    exact hin

/-- What a path leads to in one arena it leads to in the other. -/
theorem landed (hv : v.WellFormed) {contents : Bytes} (hland : v.Landed path contents) :
    w.Landed path contents := by
  obtain ⟨x, hx, hkind⟩ := hland
  obtain ⟨n, hn, hwalk⟩ := resolve_root_iff.1 hx
  obtain ⟨hname, hw⟩ := h.walks hv hwalk (namedBy_root v) fun comp hcomp ↦
    slash_not_mem_of_mem_splitSlash (List.mem_of_mem_filter hcomp)
  refine ⟨x, resolve_root_iff.2 ⟨n, hn, ?_⟩, (h.file_iff hname contents).2 hkind⟩
  rw [h.root]
  exact hw

theorem landed_iff (hv : v.WellFormed) (hw : w.WellFormed) {contents : Bytes} :
    w.Landed path contents ↔ v.Landed path contents :=
  ⟨h.symm.landed hw, h.landed hv⟩

end SameView

/-! ### Files nobody can see -/

section AddFile

variable {contents : Bytes} (now : Timestamp) (perms uid gid : UInt32)

/-- **`add_file` out of sight**: not an entry name, or not in a nameable directory. -/
theorem sameView_addFile (hv : v.WellFormed) (hp : parent < v.nodes.length)
    (hroom : ¬ v.Crowded parent name contents)
    (hhidden : v.Nameable parent → IsEntryName name →
      ¬ (v.node parent).kind.isDirectory = true) :
    SameView v (v.addFile now parent name contents perms uid gid).1 := by
  rcases hchild : v.child parent name with - | e
  · rw [addFile_eq_of_none now perms uid gid hp hroom hchild]
    have hlt : ∀ {c}, v.Nameable c → c < v.nodes.length := fun hc ↦ by
      obtain ⟨names, hnames⟩ := hc.attached
      exact lt_of_descend hv hv.root_lt hnames
    refine ⟨rfl, fun {c name'} hc hname' ↦ ?_, fun hc ↦ parentOf_graft_of_lt (hlt hc),
      fun hc ↦ bare_graft_of_lt (hlt hc)⟩
    refine (child_graft hp rfl c name').trans (if_neg ?_)
    rintro ⟨rfl, rfl, hdir⟩
    exact hhidden hc hname' hdir
  · rw [addFile_eq_of_some now perms uid gid hroom hchild]
    -- the node that is overwritten is itself out of sight
    have hne : ∀ {c}, v.Nameable c → c ≠ e := by
      rintro c hc rfl
      obtain ⟨hparent, hname⟩ := hc.of_child hv hchild
      exact hhidden hparent hname (isDirectory_of_child hchild)
    refine ⟨rfl, fun {c name'} hc _ ↦ ?_, fun hc ↦ ?_, fun hc ↦ ?_⟩
    · show (v.modifyNode e _).child c name' = _
      rw [child_eq, node_modifyNode_of_ne (hne hc), ← child_eq]
    · show (v.modifyNode e _).parentOf _ = _
      rw [parentOf, node_modifyNode_of_ne (hne hc), parentOf]
    · show ((v.modifyNode e _).node _).kind.bare = _
      rw [node_modifyNode_of_ne (hne hc)]

/-- A nameable directory is what `mkdir_p` returns for plain paths only. -/
theorem plain_of_nameable (hv : v.WellFormed)
    (hmade : (v.mkdirP now dir perms uid gid).2 = some parent)
    (hparent : (v.mkdirP now dir perms uid gid).1.Nameable parent)
    (hdir : ((v.mkdirP now dir perms uid gid).1.node parent).kind.isDirectory = true) :
    v.Plain dir := by
  obtain ⟨pre, missing, last, hsplit⟩ := exists_splitsAt v dir
  have hlast := lt_of_descend hv hv.root_lt hsplit.descend
  have hgrow := hsplit.grows hv now perms uid gid
  have hmode := mode_new_sIfDir now perms uid gid
  by_cases hdirLast : (v.node last).kind.isDirectory = true
  · obtain ⟨hdesc, -⟩ := (hgrow.attached hlast hdirLast hsplit.descend).1 parent hmade
    have hnames := hparent.of_descend (hgrow.wellFormed hv hlast hmode) hdesc
    exact ⟨pre, missing, last, hsplit, hdirLast, fun hup ↦ (hnames _ hup).1.2.2 rfl⟩
  exfalso
  rcases eq_or_ne missing [] with rfl | hne
  · obtain ⟨hsame, hres⟩ := hgrow.of_nil
    rw [hsame] at hdir
    rw [hmade] at hres
    exact hdirLast (Option.some.inj hres ▸ hdir)
  · obtain ⟨names, hnames⟩ := hgrow.attached_of_attached hv hlast hmode
      (fun hattached ↦ hdirLast hattached.2) hparent.attached
    exact absurd (lt_of_descend hv hv.root_lt hnames)
      (Nat.not_lt.2 (hgrow.le_of_eq_some hne hmade))

/-- **A file placed along a path that is not plain is out of sight.** -/
theorem sameView_place (hv : v.WellFormed) (hplain : ¬ (v.Plain dir ∧ IsEntryName name))
    (hroom : ¬ v.Refused now dir name contents uid gid) :
    SameView (v.mkdirP now dir 0o755 uid gid).1
      (v.place now dir name contents perms uid gid).1 := by
  rw [Refused] at hroom
  rw [place]
  rcases hmade : (v.mkdirP now dir 0o755 uid gid).2 with - | parent
  · rw [hmade] at hroom
    exact absurd trivial hroom
  rw [hmade] at hroom
  refine sameView_addFile now perms uid gid (mkdirP_wellFormed now 0o755 uid gid dir hv)
    (mkdirP_snd_lt now 0o755 uid gid hv hmade) hroom ?_
  exact fun hparent hname hdir ↦
    hplain ⟨plain_of_nameable now 0o755 uid gid hv hmade hparent hdir, hname⟩

end AddFile

end Vfs

end Mimic
