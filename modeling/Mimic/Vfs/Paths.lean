import Mimic.Vfs.Lookup

/-!
# The path of a node

`path_of` climbs parent links and `resolve` descends through entry tables. Where the entries on the
way have names that can stand between two slashes, each undoes the other (`resolve_pathOf`), and a
relative path that starts at a directory may as well be put behind the path of the directory
(`paths_inverse`).
-/

namespace Mimic

namespace Vfs

variable {v : Vfs} {x start : NodeId} {path rest : Str}

/-- What a path names goes on where its front part leads. -/
theorem resolve_append (v : Vfs) (start : NodeId) (hpath : path ≠ []) :
    v.resolve start (path ++ '/' :: rest) =
      (v.resolve start path).bind fun d ↦
        v.walkComps (v.follow (v.resolveInner maxSymlinkDepth)) d (splitSlash rest) := by
  have horigin : v.origin start (path ++ '/' :: rest) = v.origin start path := by
    obtain ⟨ch, path, rfl⟩ := List.exists_cons_of_ne_nil hpath
    rfl
  rw [resolve, resolve, resolveInner, resolveInner, horigin, ← walkComps_append, splitSlash,
    List.splitOn_append_cons_self]
  rfl

/-- **A node is what its path names**, unless it is a link. -/
theorem resolve_pathOf (hv : v.WellFormed) (hx : NamedBy IsEntryName v x)
    (hlink : ∀ target, (v.node x).kind ≠ .symlink target) (start : NodeId) :
    v.resolve start (v.pathOf x) = some x := by
  obtain ⟨names, hnames, hdesc⟩ := hx
  have hcomps : significant (splitSlash (v.pathOf x)) = names := by
    rw [pathOf_of_descend hv hdesc,
      significant_slash_joinSlash fun name hname ↦ (hnames name hname).2,
      significant_eq_self fun name hname ↦ (hnames name hname).1]
  rw [resolve_absolute rfl]
  exact resolve_of_descend hcomps (fun hup ↦ (hnames _ hup).1.2.2 rfl) hdesc hlink

/-- **Paths and nodes are inverse**: a node is what its path names, from anywhere, and what a
relative path names from a directory is what it names behind the path of the directory. -/
theorem paths_inverse (hv : v.WellFormed) (hx : NamedBy IsEntryName v x) :
    ((∀ target, (v.node x).kind ≠ .symlink target) →
        ∀ start, v.resolve start (v.pathOf x) = some x) ∧
      ((v.node x).kind.isDirectory = true → ∀ path : Str, path.head? ≠ some '/' →
        v.resolve x path = v.resolve v.root (v.pathOf x ++ '/' :: path)) := by
  refine ⟨fun hlink start ↦ resolve_pathOf hv hx hlink start, fun hdir path hpath ↦ ?_⟩
  have hne : v.pathOf x ≠ [] := List.cons_ne_nil _ _
  rw [resolve_append v v.root hne,
    resolve_pathOf hv hx (not_symlink_of_isDirectory hdir), Option.bind_some, resolve, resolveInner,
    origin, if_neg hpath]

theorem paths_inverse_usr :
    let v := ((new 0).mkdir 0 0 "usr".toList 0o755 0 0).1
    ((∀ target, (v.node 1).kind ≠ .symlink target) →
        ∀ start, v.resolve start (v.pathOf 1) = some 1) ∧
      ((v.node 1).kind.isDirectory = true → ∀ path : Str, path.head? ≠ some '/' →
        v.resolve 1 path = v.resolve v.root (v.pathOf 1 ++ '/' :: path)) :=
  paths_inverse
    (Op.wellFormed (.mutator (.mkdir 0 0 "usr".toList 0o755 0 0)) (by decide) (wellFormed_new 0))
    ⟨["usr".toList], List.forall_mem_singleton.mpr ⟨by decide, by decide⟩, by decide⟩

end Vfs

end Mimic
