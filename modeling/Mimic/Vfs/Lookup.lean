import Mimic.Vfs.Placement

/-!
# Looking up an entry

The entry that a path names is the one of its last component, in the directory that the rest of the
path leads to (`entryAt`). `resolve` goes on from there, when the entry is a link
(`entryAt_of_resolve`).

Nothing that can be found is lost when entries are added (`Extends.resolve_eq`). So a new entry is
found where it was made, and an entry that is taken out is gone.
-/

namespace Mimic

open ParentForest

namespace Vfs

/-- The entry that a path names, a link itself where the path ends in one. -/
def entryAt (v : Vfs) (start : NodeId) (path : Str) : Option NodeId :=
  (v.resolve start (splitPath path).1).bind fun dir ↦ v.child dir (splitPath path).2

/-- `w` has the nodes and the entries of `v`. -/
structure Extends (v w : Vfs) : Prop where
  root : w.root = v.root
  child : ∀ {d name c}, v.child d name = some c → w.child d name = some c
  parentOf : ∀ {x}, x < v.nodes.length → w.parentOf x = v.parentOf x
  bare : ∀ {x}, x < v.nodes.length → (w.node x).kind.bare = (v.node x).kind.bare

variable {v w : Vfs} {c d x dir start parent : NodeId} {name path : Str} {comps comps' : List Str}
  {n : ℕ}

/-- An absolute path leads to the same node from everywhere. -/
theorem resolve_absolute (habs : path.head? = some '/') (v : Vfs) (start : NodeId) :
    v.resolve start path = v.resolve v.root path := by
  rw [resolve, resolve, resolveInner, resolveInner, origin, origin, if_pos habs, if_pos habs]

theorem resolve_slash (v : Vfs) (start : NodeId) : v.resolve start ['/'] = some v.root := by
  refine resolve_eq_some_iff.mpr ⟨0, Nat.zero_le _, ?_⟩
  have hsplit : splitSlash ['/'] = [[], []] := by decide
  rw [hsplit, walks_skip_iff (.inl rfl), walks_skip_iff (.inl rfl)]
  exact .nil

theorem Named.lt (hv : v.WellFormed) (h : v.Named x) : x < v.nodes.length := by
  obtain ⟨names, hnames⟩ := NamedBy.attached h
  exact lt_of_descend hv hv.root_lt hnames

/-! ### More entries -/

theorem extends_unlink (v : Vfs) (parent : NodeId) (name : Str) :
    Extends (v.unlink parent name).1 v where
  root := (Prunes.unlink v parent name).root.symm
  child h := (Prunes.unlink v parent name).child _ _ _ h
  parentOf _ := ((Prunes.unlink v parent name).parentOf _).symm
  bare _ := by
    rw [unlink, modifyChildren, modifyNode_field (fun n ↦ n.kind.bare)
      (NodeKind.bare_mapChildren _ _)]

theorem extends_graft {kind : NodeKind} {metadata : Metadata} (hp : parent < v.nodes.length)
    (hkind : kind.children = ∅) (hnone : v.child parent name = none) :
    Extends v (v.graft parent name kind metadata) where
  root := root_graft
  child {d nm c} h := by
    rw [child_graft hp hkind, if_neg]
    · exact h
    · rintro ⟨rfl, rfl, -⟩
      exact absurd (hnone.symm.trans h) nofun
  parentOf hx := parentOf_graft_of_lt hx
  bare hx := bare_graft_of_lt hx

theorem parentOrRoot_lt (hv : v.WellFormed) (hx : x < v.nodes.length) :
    v.parentOrRoot x < v.nodes.length := by
  rw [Vfs.parentOrRoot]
  rcases hp : v.parentOf x with - | p
  · exact hv.root_lt
  · exact hv.parent_lt hx hp

theorem origin_lt (hv : v.WellFormed) (hx : x < v.nodes.length) (path : Str) :
    v.origin x path < v.nodes.length := by
  rw [origin]
  split
  · exact hv.root_lt
  · exact hx

/-- A walk stays in the arena. -/
theorem Walks.lt (hv : v.WellFormed) (h : Walks v c comps d n) :
    c < v.nodes.length → d < v.nodes.length := by
  induction h with
  | nil => exact id
  | skip _ _ ih => exact ih
  | up _ ih => exact fun hc ↦ ih (parentOrRoot_lt hv hc)
  | down _ hchild _ _ ih => exact fun _ ↦ ih (hv.entry_lt hchild)
  | link _ hchild _ _ _ ihin ih =>
    exact fun _ ↦ ih (ihin (origin_lt hv (parentOrRoot_lt hv (hv.entry_lt hchild)) _))

theorem extends_addFile {now : Timestamp} {contents : Bytes} {perms uid gid : UInt32}
    (hp : parent < v.nodes.length) (hroom : ¬ v.Crowded parent name contents)
    (hnone : v.child parent name = none) :
    Extends v (v.addFile now parent name contents perms uid gid).1 := by
  rw [addFile_eq_of_none now perms uid gid hp hroom hnone]
  have h : Extends v (v.graft parent name (.file contents)
    (Metadata.new now sIfReg perms uid gid)) :=
    extends_graft hp rfl hnone
  exact ⟨h.root, h.child, h.parentOf, h.bare⟩

theorem Extends.refl (v : Vfs) : Extends v v := ⟨rfl, id, fun _ ↦ rfl, fun _ ↦ rfl⟩

theorem Extends.trans {u : Vfs} (h : Extends v w) (h' : Extends w u)
    (hlen : v.nodes.length ≤ w.nodes.length) : Extends v u where
  root := h'.root.trans h.root
  child hc := h'.child (h.child hc)
  parentOf hx := (h'.parentOf (hx.trans_le hlen)).trans (h.parentOf hx)
  bare hx := (h'.bare (hx.trans_le hlen)).trans (h.bare hx)

theorem extends_mkdir {now : Timestamp} {perms uid gid : UInt32} (hp : parent < v.nodes.length) :
    Extends v (v.mkdir now parent name perms uid gid).1 := by
  obtain ⟨x, -, hmkdir⟩ | ⟨-, -, hmkdir⟩ | ⟨hnone, -, hmkdir⟩ :=
    mkdir_cases v now parent name perms uid gid
  · rw [hmkdir]
    exact .refl v
  · rw [hmkdir]
    exact .refl v
  · rw [hmkdir]
    exact extends_graft hp rfl hnone

/-- **Making directories loses nothing.** -/
theorem extends_mkdirPLoop {now : Timestamp} {perms uid gid : UInt32} (comps : List Str)
    (hv : v.WellFormed) (hc : c < v.nodes.length) :
    Extends v (mkdirPLoop now perms uid gid v c comps).1 := by
  induction comps generalizing v c with
  | nil => exact .refl v
  | cons comp rest ih =>
    rw [mkdirPLoop]
    split
    · exact ih hv hc
    have hcall : Call.InRange (.mutator (.mkdir now c comp perms uid gid)) v := by
      simpa [Call.InRange, Mutator.ids] using hc
    have hrewrites := Call.rewrites _ hcall
    dsimp only
    split
    · exact extends_mkdir hc
    · exact (extends_mkdir hc).trans (ih (hrewrites.wellFormed hv) (mkdir_snd_lt hv hc))
        hrewrites.length_le

namespace Extends

variable (h : Extends v w)

include h

/-- **A walk is still there.** -/
theorem walks (hv : v.WellFormed) (hwalk : Walks v c comps d n) :
    c < v.nodes.length → Walks w c comps d n := by
  have hup : ∀ {x}, x < v.nodes.length → w.parentOrRoot x = v.parentOrRoot x := fun hx ↦ by
    rw [Vfs.parentOrRoot, Vfs.parentOrRoot, h.parentOf hx, h.root]
  induction hwalk with
  | nil => exact fun _ ↦ .nil
  | skip hskip _ ih => exact fun hc ↦ .skip hskip (ih hc)
  | up _ ih => exact fun hc ↦ .up (hup hc ▸ ih (parentOrRoot_lt hv hc))
  | down hname hchild hkind _ ih =>
    intro hc
    have hx := hv.entry_lt hchild
    refine .down hname (h.child hchild) (fun target ht ↦ hkind target ?_) (ih hx)
    rw [← NodeKind.bare_eq_symlink_iff, ← h.bare hx, NodeKind.bare_eq_symlink_iff]
    exact ht
  | @link c comp x target y n rest d n' hname hchild hkind hlink _ ihin ih =>
    intro hc
    have hx := hv.entry_lt hchild
    have hstart := origin_lt hv (parentOrRoot_lt hv hx) target
    have hkind' : (w.node x).kind = .symlink target := by
      rw [← NodeKind.bare_eq_symlink_iff, h.bare hx, NodeKind.bare_eq_symlink_iff]
      exact hkind
    have hlink' : Walks w (w.origin (w.parentOrRoot x) target) (splitSlash target) y n := by
      rw [hup hx, Vfs.origin, h.root]
      exact ihin hstart
    exact .link hname (h.child hchild) hkind' hlink' (ih (hlink.lt hv hstart))

/-- **What is found is found again.** -/
theorem resolve_eq_of_lt (hv : v.WellFormed) (hs : start < v.nodes.length)
    (hres : v.resolve start path = some x) : w.resolve start path = some x := by
  obtain ⟨n, hn, hwalk⟩ := resolve_eq_some_iff.mp hres
  refine resolve_eq_some_iff.mpr ⟨n, hn, ?_⟩
  have horigin : w.origin start path = v.origin start path := by
    rw [Vfs.origin, Vfs.origin, h.root]
  rw [horigin]
  exact h.walks hv hwalk (origin_lt hv hs path)

/-- An absolute path is found again from anywhere. -/
theorem resolve_eq (hv : v.WellFormed) (habs : path.head? = some '/')
    (hres : v.resolve start path = some x) : w.resolve start path = some x := by
  rw [resolve_absolute habs] at hres ⊢
  rw [h.root]
  exact h.resolve_eq_of_lt hv hv.root_lt hres

end Extends

/-- **A new entry is found.** -/
theorem entryAt_graft {kind : NodeKind} {metadata : Metadata} (hv : v.WellFormed)
    (habs : path.head? = some '/') (hres : v.resolve start (splitPath path).1 = some parent)
    (hkind : kind.children = ∅) (hdir : (v.node parent).kind.isDirectory = true)
    (hnone : v.child parent (splitPath path).2 = none) :
    (v.graft parent (splitPath path).2 kind metadata).entryAt start path =
      some v.nodes.length := by
  have hp := resolve_lt hv (head?_splitPath habs) hres
  rw [entryAt, (extends_graft hp hkind hnone).resolve_eq hv (head?_splitPath habs) hres]
  show Vfs.child _ parent _ = _
  rw [child_graft hp hkind, if_pos ⟨rfl, rfl, hdir⟩]

/-- **An entry that is taken out is gone.** -/
theorem entryAt_unlink (hv : v.WellFormed) (habs : path.head? = some '/')
    (hres : v.resolve start (splitPath path).1 = some parent) :
    (v.unlink parent (splitPath path).2).1.entryAt start path = none := by
  rw [entryAt]
  rcases hfound : (v.unlink parent (splitPath path).2).1.resolve start (splitPath path).1 with
    - | dir
  · rfl
  · have hw := (Prunes.unlink v parent (splitPath path).2).wellFormed hv
    have hsame := (extends_unlink v parent _).resolve_eq hw (head?_splitPath habs) hfound
    cases hres.symm.trans hsame
    show Vfs.child _ parent _ = _
    rw [unlink, child_modifyChildren_erase, if_pos ⟨rfl, rfl⟩]

/-! ### Behind the entry -/

theorem Walks.of_append (h : Walks v c (comps ++ comps') d n) :
    ∃ y m m', Walks v c comps y m ∧ Walks v y comps' d m' ∧ n = max m m' := by
  induction comps generalizing c n with
  | nil => exact ⟨c, 0, n, .nil, h, (Nat.zero_max n).symm⟩
  | cons comp comps ih =>
    rw [List.cons_append] at h
    cases h with
    | skip hskip h =>
      obtain ⟨y, m, m', hy, hd, hn⟩ := ih h
      exact ⟨y, m, m', .skip hskip hy, hd, hn⟩
    | up h =>
      obtain ⟨y, m, m', hy, hd, hn⟩ := ih h
      exact ⟨y, m, m', .up hy, hd, hn⟩
    | down hname hchild hkind h =>
      obtain ⟨y, m, m', hy, hd, hn⟩ := ih h
      exact ⟨y, m, m', .down hname hchild hkind hy, hd, hn⟩
    | link hname hchild hkind hlink h =>
      obtain ⟨y, m, m', hy, hd, hn⟩ := ih h
      refine ⟨y, _, m', .link hname hchild hkind hlink hy, hd, ?_⟩
      rw [hn, max_assoc]

/-- The directories above a node are no links. -/
theorem parentOrRoot_not_symlink (hv : v.WellFormed)
    (hroot : ∀ target, (v.node v.root).kind ≠ .symlink target) (h : v.Named x) (target : Str) :
    (v.node (v.parentOrRoot x)).kind ≠ .symlink target := by
  obtain ⟨names, -, hdesc⟩ := h
  rcases List.eq_nil_or_concat names with rfl | ⟨init, last, rfl⟩
  · obtain rfl := Option.some.inj hdesc
    rw [Vfs.parentOrRoot, hv.root_parent]
    exact hroot target
  · rw [List.concat_eq_append] at hdesc
    obtain ⟨y, -, hy⟩ := descend_snoc.1 hdesc
    rw [Vfs.parentOrRoot, hv.entry_parent hy]
    exact not_symlink_of_isDirectory (isDirectory_of_child hy) target

/-- **A walk does not end at a link.** -/
theorem Walks.not_symlink (hv : v.WellFormed)
    (hroot : ∀ target, (v.node v.root).kind ≠ .symlink target) (h : Walks v c comps d n) :
    v.Named c → (∀ target, (v.node c).kind ≠ .symlink target) →
      ∀ target, (v.node d).kind ≠ .symlink target := by
  induction h with
  | nil => exact fun _ hc ↦ hc
  | skip _ _ ih => exact ih
  | up _ ih =>
    exact fun hc _ ↦ ih (hc.parentOrRoot hv) (parentOrRoot_not_symlink hv hroot hc)
  | down hname hchild hkind _ ih => exact fun hc _ ↦ ih (hc.child hname hchild) hkind
  | @link c comp x target y n rest d n' hname hchild _ hlink _ ihin ih =>
    intro hc _
    have hx : v.Named x := hc.child hname hchild
    have hstart := (hx.parentOrRoot hv).origin target
    refine ih (hlink.named hv hstart) (ihin hstart ?_)
    rw [Vfs.origin]
    split
    · exact hroot
    · exact parentOrRoot_not_symlink hv hroot hx

/-- Where there is an entry, the root is a directory. -/
theorem isDirectory_root (h : v.Named d) (hchild : v.child d name = some c) :
    (v.node v.root).kind.isDirectory = true := by
  obtain ⟨names, -, hdesc⟩ := h
  cases names with
  | nil =>
    obtain rfl := Option.some.inj hdesc
    exact isDirectory_of_child hchild
  | cons first names =>
    obtain ⟨y, hy, -⟩ := descend_cons.mp hdesc
    exact isDirectory_of_child hy

/-- **Resolution goes through the entry**: it ends there, unless that is a link, and never at a
link. -/
theorem entryAt_of_resolve (hv : v.WellFormed) (habs : path.head? = some '/')
    (hname : IsName (splitPath path).2) (hres : v.resolve start path = some x) :
    ∃ dir e, v.resolve start (splitPath path).1 = some dir ∧
      v.child dir (splitPath path).2 = some e ∧
      ((∀ target, (v.node e).kind ≠ .symlink target) → x = e) ∧
      ∀ target, (v.node x).kind ≠ .symlink target := by
  obtain ⟨n, hn, hwalk⟩ := resolve_eq_some_iff.mp hres
  rw [origin, if_pos habs] at hwalk
  have hsplit : significant (splitSlash path) =
      significant (splitSlash (splitPath path).1) ++ [(splitPath path).2] := by
    rw [significant_splitPath (List.mem_of_head? habs), significant_cons_of_counts hname.counts]
    rfl
  rw [← walks_significant_iff, hsplit] at hwalk
  obtain ⟨dir, m, m', hdir, hlast, rfl⟩ := hwalk.of_append
  obtain ⟨e, y, k, k', hchild, hfollow, hend, -⟩ := (walks_name_iff hname).mp hlast
  obtain ⟨rfl, -⟩ := walks_nil_iff.mp hend
  have hnamed : v.Named dir := hdir.named hv (namedBy_root v)
  have hroot := not_symlink_of_isDirectory (isDirectory_root hnamed hchild)
  refine ⟨dir, e, resolve_eq_some_iff.mpr ⟨m, (le_max_left ..).trans hn, ?_⟩, hchild,
    fun hkind ↦ ?_, hwalk.not_symlink hv hroot (namedBy_root v) hroot⟩
  · rw [origin, if_pos (head?_splitPath habs), ← walks_significant_iff]
    exact hdir
  · exact ((follows_of_not_symlink hkind).mp hfollow).1

/-! ### Along the path -/

theorem walkComps_append {F : NodeId → Option NodeId} :
    v.walkComps F c (comps ++ comps') =
      (v.walkComps F c comps).bind fun d ↦ v.walkComps F d comps' := by
  induction comps generalizing c with
  | nil => rfl
  | cons comp comps ih =>
    simp only [List.cons_append, walkComps]
    split
    · exact ih
    split
    · exact ih
    cases v.child c comp with
    | none => rfl
    | some x =>
      dsimp only
      cases F x with
      | none => rfl
      | some y => exact ih

theorem follow_of_not_symlink {F : NodeId → Str → Option NodeId}
    (h : ∀ target, (v.node x).kind ≠ .symlink target) : v.follow F x = some x := by
  rw [follow]
  split
  · exact absurd ‹_› (h _)
  · rfl

theorem walkComps_significant {F : NodeId → Option NodeId} :
    v.walkComps F c (significant comps) = v.walkComps F c comps := by
  induction comps generalizing c with
  | nil => rfl
  | cons comp comps ih =>
    by_cases hskip : comp = [] ∨ comp = ['.']
    · rw [significant_cons_of_skip hskip, ih, walkComps, if_pos hskip]
    · simp only [significant_cons_of_counts hskip, walkComps, if_neg hskip, ih]

/-- A path without a slash is its own last component. -/
theorem significant_splitPath' (path : Str) : significant (splitSlash path) =
    significant (splitSlash (splitPath path).1) ++ significant [(splitPath path).2] := by
  by_cases h : '/' ∈ path
  · exact significant_splitPath h
  · rw [splitPath, if_neg h, splitSlash, List.splitOn_eq_singleton h]
    rfl

/-- The directory part starts where the path does. -/
theorem origin_splitPath (v : Vfs) (start : NodeId) (path : Str) :
    v.origin start (splitPath path).1 = v.origin start path := by
  by_cases habs : path.head? = some '/'
  · rw [origin, origin, if_pos habs, if_pos (head?_splitPath habs)]
  · have hdir : (splitPath path).1.head? ≠ some '/' := by
      rcases splitPath_cases path with ⟨-, hsplit⟩ | ⟨dir, name, hpath, -, hsplit⟩
      · rw [hsplit]
        show ['.'].head? ≠ some '/'
        decide
      · rw [hsplit]
        rw [hpath] at habs
        cases dir with
        | nil => exact absurd rfl habs
        | cons ch dir => exact habs
    rw [origin, origin, if_neg habs, if_neg hdir]

/-- **Resolution is the entry, followed.** -/
theorem resolve_eq_entryAt_bind (hname : IsName (splitPath path).2) :
    v.resolve start path =
      (v.entryAt start path).bind (v.follow (v.resolveInner maxSymlinkDepth)) := by
  rw [entryAt, resolve, resolve, resolveInner, resolveInner, origin_splitPath,
    ← walkComps_significant, significant_splitPath', walkComps_append, walkComps_significant,
    significant_cons_of_counts hname.counts, Option.bind_assoc]
  refine congrArg _ (funext fun dir ↦ ?_)
  simp only [walkComps, if_neg hname.counts, if_neg hname.2.2]
  cases v.child dir (splitPath path).2 with
  | none => rfl
  | some x =>
    dsimp only [Option.bind_some]
    cases v.follow (v.resolveInner maxSymlinkDepth) x <;> rfl

/-- Slashes at the end of a path are not among its components. -/
theorem significant_trimEndMatches (path : Str) :
    significant (splitSlash (Text.trimEndMatches '/' path)) = significant (splitSlash path) := by
  induction path using List.reverseRecOn with
  | nil => rfl
  | append_singleton path ch ih =>
    by_cases hch : ch = '/'
    · subst hch
      have htrim : Text.trimEndMatches '/' (path ++ ['/']) = Text.trimEndMatches '/' path := by
        simp [Text.trimEndMatches]
      have hcomps : significant (splitSlash (path ++ ['/'])) = significant (splitSlash path) := by
        rw [splitSlash, List.splitOn_append_cons_self, significant_append]
        exact List.append_nil _
      rw [htrim, ih, hcomps]
    · have htrim : Text.trimEndMatches '/' (path ++ [ch]) = path ++ [ch] := by
        simp [Text.trimEndMatches, hch]
      rw [htrim]

theorem origin_trimEndMatches (h : Text.trimEndMatches '/' path ≠ []) :
    v.origin start (Text.trimEndMatches '/' path) = v.origin start path := by
  have hfront : Text.trimEndMatches '/' path <+: path := by
    rw [← List.reverse_suffix, Text.trimEndMatches, List.reverse_reverse]
    exact List.dropWhile_suffix _
  have hhead : (Text.trimEndMatches '/' path).head? = path.head? := by
    obtain ⟨ch, front, hch⟩ := List.exists_cons_of_ne_nil h
    rw [hch, List.cons_prefix_iff] at hfront
    obtain ⟨rest, hrest, -⟩ := hfront
    rw [hch, hrest]
    rfl
  rw [origin, origin, hhead]

/-- Slashes at the end of a path change nothing. -/
theorem resolve_trimEndMatches (h : Text.trimEndMatches '/' path ≠ []) :
    v.resolve start (Text.trimEndMatches '/' path) = v.resolve start path := by
  rw [resolve, resolve, resolveInner, resolveInner, origin_trimEndMatches h,
    ← walkComps_significant, significant_trimEndMatches, walkComps_significant]

/-! ### The same entries -/

/-- **Resolution reads entries, parents and link targets.** -/
theorem resolve_congr (hroot : w.root = v.root) (hchild : ∀ d name, w.child d name = v.child d name)
    (hparent : ∀ x, w.parentOf x = v.parentOf x)
    (hlink : ∀ x target, (w.node x).kind = .symlink target ↔ (v.node x).kind = .symlink target)
    (start : NodeId) (path : Str) : w.resolve start path = v.resolve start path := by
  have hup : ∀ x, w.parentOrRoot x = v.parentOrRoot x := fun x ↦ by
    rw [Vfs.parentOrRoot, Vfs.parentOrRoot, hparent, hroot]
  have hwalk : ∀ (F : NodeId → Option NodeId) (c : NodeId) (comps : List Str),
      w.walkComps F c comps = v.walkComps F c comps := by
    intro F c comps
    induction comps generalizing c with
    | nil => rfl
    | cons comp comps ih => simp only [walkComps, hup, hchild, ih]
  have hfollow : ∀ (inner inner' : NodeId → Str → Option NodeId), inner = inner' →
      w.follow inner = v.follow inner' := by
    rintro inner - rfl
    funext x
    by_cases hx : ∃ target, (v.node x).kind = .symlink target
    · obtain ⟨target, ht⟩ := hx
      rw [follow, follow, ht, (hlink x target).mpr ht]
      exact congrArg (inner · target) (hup x)
    · have hv' : ∀ target, (v.node x).kind ≠ .symlink target := fun target ht ↦ hx ⟨target, ht⟩
      have hw' : ∀ target, (w.node x).kind ≠ .symlink target := fun target ht ↦
        hv' target ((hlink x target).mp ht)
      rw [follow_of_not_symlink hw', follow_of_not_symlink hv']
  have hinner : ∀ budget, w.resolveInner budget = v.resolveInner budget := by
    intro budget
    induction budget with
    | zero => rfl
    | succ budget ih =>
      funext start path
      rw [resolveInner, resolveInner, hfollow _ _ ih, hwalk, origin, origin, hroot]
  rw [resolve, resolve, hinner]

end Vfs

end Mimic
