import Mimic.Network.Connection
import Mimic.Network.SftpOutcome
import Mimic.Vfs.EntryNames

/-!
# Canonical paths

`REALPATH` answers with an absolute path without empty, `.` and `..` components. Sent back, it leads
to itself when it has no backslash and no control character. `normalize_path` drops these from what
the client sends, but not from the working directory in front of it, which has the name of the user
in it. So a path is canonical if and only if the components of the working directory that it does
not climb out of are clean (`realpath_canonical_iff`).
-/

namespace Mimic

namespace Sftp

open Vfs Wire

variable {cwd dir path : Str} {parts comps names : List Str}

/-! ### Sanitised texts -/

/-- A text that `sanitize` leaves as it is. -/
def IsClean (text : Str) : Prop := ∀ c ∈ text, c ≠ '\\' ∧ Text.isControl c = false

instance : DecidablePred IsClean := fun text ↦ List.decidableBAll _ text

theorem isClean_sanitize (path : Str) : IsClean (sanitize path) := by
  intro c hc
  obtain ⟨hmem, hcontrol⟩ := List.mem_filter.mp hc
  obtain ⟨c', -, rfl⟩ := List.mem_map.mp hmem
  refine ⟨?_, by simpa using hcontrol⟩
  split
  · decide
  · exact ‹_›

theorem sanitize_eq_self (h : IsClean path) : sanitize path = path := by
  have hmap : (path.map fun c ↦ if c = '\\' then '/' else c) = path := by
    conv_rhs => rw [← List.map_id path]
    exact List.map_congr_left fun c hc ↦ if_neg (h c hc).1
  rw [sanitize, hmap]
  exact List.filter_eq_self.mpr fun c hc ↦ by rw [(h c hc).2]; rfl

theorem IsClean.mono {text text' : Str} (h : IsClean text) (hsub : text' ⊆ text) : IsClean text' :=
  fun c hc ↦ h c (hsub hc)

theorem isClean_slash_joinSlash (h : ∀ name ∈ names, IsClean name) :
    IsClean ('/' :: joinSlash names) := by
  have hjoin : ∀ c ∈ joinSlash names, c ≠ '\\' ∧ Text.isControl c = false := by
    induction names with
    | nil => exact fun _ hc ↦ absurd hc List.not_mem_nil
    | cons name names ih =>
      obtain ⟨hname, hnames⟩ := List.forall_mem_cons.mp h
      rcases names with - | ⟨next, names⟩
      · rw [joinSlash, List.intercalate_singleton]
        exact hname
      · rw [joinSlash, List.intercalate_cons_cons]
        exact List.forall_mem_append.mpr ⟨List.forall_mem_append.mpr
          ⟨hname, List.forall_mem_singleton.mpr (by decide)⟩, ih hnames⟩
  exact List.forall_mem_cons.mpr ⟨by decide, hjoin⟩

/-! ### Components -/

/-- How many levels the components lead above where they start, where they go up furthest. -/
def climb : List Str → ℕ
  | [] => 0
  | comp :: comps =>
    if comp = [] ∨ comp = ['.'] then climb comps
    else if comp = ['.', '.'] then climb comps + 1
    else climb comps - 1

/-- **Components act on the end of a path**: `climb` of its names go, and their own come. -/
theorem foldl_pushComp (parts comps : List Str) : comps.foldl pushComp parts =
    parts.take (parts.length - climb comps) ++ comps.foldl pushComp [] := by
  induction comps generalizing parts with
  | nil =>
    rw [climb, Nat.sub_zero, List.take_length, List.foldl_nil, List.foldl_nil, List.append_nil]
  | cons comp comps ih =>
    rw [List.foldl_cons, List.foldl_cons, pushComp, pushComp, climb]
    split
    · exact ih parts
    split
    · rw [ih, List.length_dropLast, List.dropLast_eq_take, List.take_take, List.dropLast_nil]
      congr 2
      omega
    · rw [ih, ih ([] ++ [comp]), ← List.append_assoc]
      congr 1
      rw [List.length_append, List.nil_append, List.length_singleton]
      rcases hclimb : climb comps with - | n
      · simp
      · rw [List.take_append_of_le_length (by omega), Nat.add_sub_add_right, Nat.add_sub_cancel,
          show 1 - (n + 1) = 0 by omega, List.take_zero, List.append_nil]

/-- Names are all kept. -/
theorem foldl_pushComp_of_isName (h : ∀ name ∈ names, IsName name) :
    names.foldl pushComp parts = parts ++ names := by
  induction names generalizing parts with
  | nil => exact (List.append_nil _).symm
  | cons name names ih =>
    obtain ⟨hname, hnames⟩ := List.forall_mem_cons.mp h
    rw [List.foldl_cons, ih hnames, pushComp, if_neg hname.counts, if_neg hname.2.2,
      List.append_assoc]
    rfl

theorem foldl_pushComp_subset (parts comps : List Str) :
    comps.foldl pushComp parts ⊆ parts ++ comps := by
  induction comps generalizing parts with
  | nil => exact fun _ h ↦ List.mem_append_left _ h
  | cons comp comps ih =>
    intro name hname
    have hmem := ih _ hname
    rw [pushComp] at hmem
    rw [List.mem_append, List.mem_cons]
    rw [List.mem_append] at hmem
    refine hmem.elim (fun hmem ↦ ?_) fun hmem ↦ Or.inr (Or.inr hmem)
    split at hmem
    · exact Or.inl hmem
    split at hmem
    · exact Or.inl (List.mem_of_mem_dropLast hmem)
    · exact (List.mem_append.mp hmem).imp id fun h ↦ Or.inl (List.mem_singleton.mp h)

/-- The names that a path leads to, with no directory in front of it. -/
def dirComps (dir : Str) : List Str := (splitSlash dir).foldl pushComp []

/-- The names of the working directory that a path does not climb out of. -/
def keptComps (cwd path : Str) : List Str :=
  if (sanitize path).head? = some '/' then []
  else (dirComps cwd).take ((dirComps cwd).length - climb (splitSlash (sanitize path)))

theorem isEntryName_dirComps : ∀ name ∈ dirComps dir, IsEntryName name :=
  foldl_pushComp_isEntryName (fun _ ↦ slash_not_mem_of_mem_splitSlash)
    fun _ h ↦ absurd h List.not_mem_nil

theorem isEntryName_keptComps : ∀ name ∈ keptComps cwd path, IsEntryName name := by
  intro name hname
  rw [keptComps] at hname
  split at hname
  · cases hname
  · exact isEntryName_dirComps name (List.mem_of_mem_take hname)

theorem isClean_dirComps (h : IsClean dir) : ∀ name ∈ dirComps dir, IsClean name :=
  fun _ hname ↦ h.mono (Text.subset_of_mem_splitOn (foldl_pushComp_subset [] _ hname))

theorem dirComps_slash_joinSlash (h : ∀ name ∈ names, IsEntryName name) :
    dirComps ('/' :: joinSlash names) = names := by
  rcases eq_or_ne names [] with rfl | hne
  · rfl
  · rw [dirComps, splitSlash_slash_joinSlash hne fun name hname ↦ (h name hname).2, List.foldl_cons]
    exact foldl_pushComp_of_isName fun name hname ↦ (h name hname).1

/-- **A normalized path** has the names of the working directory that are kept, and then its own. -/
theorem normalizePath_eq_kept (cwd path : Str) : normalizePath cwd path =
    '/' :: joinSlash (keptComps cwd path ++ dirComps (sanitize path)) := by
  rw [normalizePath, keptComps]
  split
  · rfl
  congr 2
  split
  · rename_i hroot
    have hsplit : splitSlash ('/' :: sanitize path) = [] :: splitSlash (sanitize path) :=
      List.splitOn_append_cons_self [] (sanitize path)
    have hdir : dirComps ['/'] = [] := by decide
    rw [hroot, hdir, hsplit, List.take_nil]
    rfl
  · have hsplit : splitSlash (cwd ++ '/' :: sanitize path) =
        splitSlash cwd ++ splitSlash (sanitize path) := List.splitOn_append_cons_self ..
    rw [hsplit, List.foldl_append, foldl_pushComp]
    rfl

/-! ### Fixed points -/

theorem head?_sanitize_slash (path : Str) : (sanitize ('/' :: path)).head? = some '/' := rfl

theorem normalizePath_slash (cwd path : Str) :
    normalizePath cwd ('/' :: path) = '/' :: joinSlash (dirComps (sanitize ('/' :: path))) := by
  rw [normalizePath_eq_kept, keptComps, if_pos (head?_sanitize_slash path), List.nil_append]

/-- **What `normalize_path` leads to itself**: a path to which the working directory has given clean
names only. -/
theorem normalizePath_fixed_iff (cwd cwd' path : Str) :
    normalizePath cwd' (normalizePath cwd path) = normalizePath cwd path ↔
      ∀ name ∈ keptComps cwd path, IsClean name := by
  have hown := isClean_dirComps (isClean_sanitize path)
  have hnames : ∀ name ∈ keptComps cwd path ++ dirComps (sanitize path), IsEntryName name :=
    List.forall_mem_append.mpr ⟨isEntryName_keptComps, isEntryName_dirComps⟩
  rw [normalizePath_eq_kept cwd path, normalizePath_slash]
  constructor
  · intro h name hname
    have hclean := isClean_slash_joinSlash (isClean_dirComps (isClean_sanitize
      ('/' :: joinSlash (keptComps cwd path ++ dirComps (sanitize path)))))
    rw [h] at hclean
    have hall := isClean_dirComps hclean
    rw [dirComps_slash_joinSlash hnames] at hall
    exact hall name (List.mem_append_left _ hname)
  · intro h
    have hclean := isClean_slash_joinSlash (List.forall_mem_append.mpr ⟨h, hown⟩)
    rw [sanitize_eq_self hclean, dirComps_slash_joinSlash hnames]

/-! ### Logins -/

/-- The path that `REALPATH` answers with. -/
def realpath (shell : Shell) (path : Str) : Str :=
  normalizePath (shell.vfs.pathOf shell.cwd) path

theorem out_handleRealpath {cursor rest : Bytes} (hpath : getStr cursor = some (path, rest))
    (id : UInt32) (x : Exchange) : (handleRealpath id cursor x).out =
      putNamePkt x.out id [⟨realpath x.shell path, realpath x.shell path, none⟩] := by
  rw [handleRealpath, hpath]
  rfl

/-- A path has a canonical form: an absolute one, without empty, `.` and `..` components, that leads
to itself and so to the same node. -/
structure Canonical (shell : Shell) (path : Str) : Prop where
  comps : ∃ names, (∀ name ∈ names, IsEntryName name) ∧ realpath shell path = '/' :: joinSlash names
  fixed : realpath shell (realpath shell path) = realpath shell path
  same : shell.vfs.resolve shell.cwd (realpath shell (realpath shell path)) =
    shell.vfs.resolve shell.cwd (realpath shell path)

theorem canonical_iff (shell : Shell) (path : Str) : Canonical shell path ↔
    ∀ name ∈ keptComps (shell.vfs.pathOf shell.cwd) path, IsClean name := by
  rw [← normalizePath_fixed_iff _ (shell.vfs.pathOf shell.cwd)]
  exact ⟨Canonical.fixed, fun h ↦ ⟨normalizePath_eq _ path, h, congrArg _ h⟩⟩

/-- What the SFTP subsystem has of the shell of a user that logs in. -/
def loginShell (now : Timestamp) (snapshot : Vfs) (username hostname : Str) : Shell :=
  Connection.MimicHandler.view (Interp.Shell.withPersona now snapshot username hostname)

theorem nodesIn_ensureHome {v : Vfs} {homePath : Str} (hv : NodesIn IsClean v)
    (hhome : IsClean homePath) (now : Timestamp) (uid gid : UInt32) :
    NodesIn IsClean (Interp.ensureHome now v homePath uid gid).1 := by
  have hmade : NodesIn IsClean (v.mkdirP now homePath 0o755 uid gid).1 :=
    hv.mkdirPLoop (fun _ hcomp ↦ hhome.mono (Text.subset_of_mem_splitOn hcomp)) _ _ _ _ _
  rw [Interp.ensureHome]
  split
  · exact hv
  split
  · rename_i hmkdir
    rw [hmkdir] at hmade
    exact hmade
  · rename_i hmkdir
    rw [hmkdir] at hmade
    exact (hmade.makes (by decide) (makes_addFile ..)).makes (by decide) (makes_addFile ..)

/-- The working directory of a user without backslashes and control characters in the name has
none. -/
theorem isClean_login {snapshot : Vfs} {username : Str} (hsnapshot : NodesIn IsClean snapshot)
    (husername : IsClean username) (now : Timestamp) (hostname : Str) :
    IsClean ((loginShell now snapshot username hostname).vfs.pathOf
      (loginShell now snapshot username hostname).cwd) := by
  have huser : IsClean (if username = [] then "root".toList else username) := by
    split
    · decide
    · exact husername
  have hhome : ∀ user, IsClean user →
      IsClean (if user = "root".toList then "/root".toList else "/home/".toList ++ user) := by
    intro user huser
    have hdir : IsClean "/home/".toList := by decide
    split
    · decide
    · exact List.forall_mem_append.mpr ⟨hdir, huser⟩
  exact isClean_slash_joinSlash ((nodesIn_ensureHome hsnapshot (hhome _ huser) now _ _).pathParts
    _ _ fun _ h ↦ absurd h List.not_mem_nil)

/-- **Which paths are canonical**: those that take over no name with a backslash or a control
character from the working directory. So all are where neither the user nor a file is called so. -/
theorem realpath_canonical_iff (now : Timestamp) (snapshot : Vfs) (username hostname : Str) :
    (∀ path, Canonical (loginShell now snapshot username hostname) path ↔
      ∀ name ∈ keptComps ((loginShell now snapshot username hostname).vfs.pathOf
        (loginShell now snapshot username hostname).cwd) path, IsClean name) ∧
    (NodesIn IsClean snapshot → IsClean username →
      ∀ path, Canonical (loginShell now snapshot username hostname) path) := by
  refine ⟨canonical_iff _, fun hsnapshot husername path ↦ (canonical_iff _ path).mpr ?_⟩
  have hcwd := isClean_dirComps (isClean_login hsnapshot husername now hostname)
  intro name hname
  rw [keptComps] at hname
  split at hname
  · cases hname
  · exact hcwd name (List.mem_of_mem_take hname)

/-- The user `a\b` is at `/home/a\b`, which leads to `/home/a/b`. -/
theorem not_canonical_backslash : ¬ ∀ username path,
    Canonical (loginShell 0 (Vfs.new 0) username "debian".toList) path := by
  intro h
  have hfixed := (h "a\\b".toList ['.']).fixed
  revert hfixed
  decide +kernel

end Sftp

end Mimic
