import Mimic.Commands.Files
import Mimic.Vfs.Lookup

/-!
# `mkdir -p` and resolution

`mkdir -p` walks a path by looking entries up, `resolve` follows every link it meets. Where all it
meets are directories the two walks are the same (`Walks` along a `descend`), and what `mkdir -p`
makes it makes one below the other (`Grows`), so that resolution finds the end.

They part at a link: `mkdir -p` takes a link to a directory for a file. They also part below a
working directory that is none any more, where `mkdir -p` makes directories that no entry leads to.
`mkdirParents_agrees_iff` says that there is no third place.
-/

namespace Mimic

namespace Vfs

open ParentForest

variable {v w : Vfs} {c d x p last start : NodeId} {path : Str} {names comps pre missing : List Str}
  {res : Option NodeId} {metadata : Metadata} {n : ℕ}

/-! ### Growing from anywhere -/

/-- Growing leaves what is a directory a directory, and what is none none. -/
theorem Grows.isDirectory_of_lt (h : Grows metadata v p missing w res) (hx : x < v.nodes.length) :
    (w.node x).kind.isDirectory = (v.node x).kind.isDirectory := by
  induction h with
  | done => rfl
  | full => rfl
  | @step v p r rs w res _ _ _ ih =>
    have hbare : ((v.graftDir metadata p r).node x).kind.bare = (v.node x).kind.bare :=
      bare_graft_of_lt hx
    rw [ih (hx.trans length_lt_length_graft), ← NodeKind.isDirectory_mapChildren fun _ ↦ ∅]
    exact (congrArg NodeKind.isDirectory hbare).trans (NodeKind.isDirectory_mapChildren _ _)

/-- Below a directory, what has grown is found where it was asked for. -/
theorem Grows.descend (h : Grows metadata v p missing w res) (hp : p < v.nodes.length)
    (hdir : (v.node p).kind.isDirectory = true) (hres : res = some x) :
    w.descend p missing = some x ∧ (w.node x).kind.isDirectory = true := by
  induction h with
  | done =>
    obtain rfl := Option.some.inj hres
    exact ⟨rfl, hdir⟩
  | full => cases hres
  | @step v p r rs w res _ _ hgrow ih =>
    have hlt : v.nodes.length < (v.graftDir metadata p r).nodes.length := length_lt_length_graft
    have hnew : (v.graftDir metadata p r).child p r = some v.nodes.length := by
      rw [child_graft hp rfl, if_pos ⟨rfl, rfl, hdir⟩]
    obtain ⟨hdesc, hx⟩ := ih hlt (isDirectory_graftDir_new hp) hres
    exact ⟨descend_cons.2 ⟨_, hgrow.child_mono hlt hnew, hdesc⟩, hx⟩

/-! ### Resolution along entries -/

theorem resolve_eq_some_iff_significant : v.resolve start path = some d ↔
    ∃ n, n ≤ maxSymlinkDepth ∧
      Walks v (v.origin start path) (significant (splitSlash path)) d n := by
  simp only [resolve_eq_some_iff, walks_significant_iff]

/-- A node that a prefix of the components leads to is what a walk meets there. -/
theorem Walks.of_prefix (hnames : ∀ name ∈ comps, IsName name)
    (h : Walks v c (comps ++ names) d n) (hdesc : v.descend c comps = some x)
    (hx : ∀ target, (v.node x).kind ≠ .symlink target) : ∃ m, Walks v x names d m := by
  obtain ⟨y, m, m', hy, hd, -⟩ := h.of_append
  obtain ⟨rfl, -⟩ := hy.unique (walks_of_descend hnames hdesc hx)
  exact ⟨m', hd⟩

/-- A walk does not leave a node without the entry it needs. -/
theorem not_walks_of_child_eq_none {name : Str} (hname : IsName name) (h : v.child c name = none) :
    ¬ Walks v c (name :: names) d n := by
  intro hwalk
  obtain ⟨x, -, -, -, hx, -⟩ := (walks_name_iff hname).1 hwalk
  rw [h] at hx
  cases hx

theorem child_eq_none_of_not_isDirectory (h : ¬ (v.node d).kind.isDirectory = true) (name : Str) :
    v.child d name = none := by
  rcases hchild : v.child d name with - | c
  · rfl
  · exact absurd (isDirectory_of_child hchild) h

end Vfs

namespace Interp

namespace Files

open Vfs

variable {now : Timestamp} {s : Shell} {p : Progress} {path : Str} {c : NodeId}
  {comps missing args : List Str}

theorem significant_stripTrailingSlashes (path : Str) :
    significant (splitSlash (Tar.stripTrailingSlashes path)) = significant (splitSlash path) := by
  rw [← significant_trimEndMatches path, Tar.stripTrailingSlashes]
  split
  · rename_i h
    rw [h]
    rfl
  · rfl

/-! ### The loop -/

theorem mkdirLoop_significant (comps : List Str) : ∀ (c : NodeId) (p : Progress),
    mkdirLoop now path comps c p = mkdirLoop now path (significant comps) c p := by
  induction comps with
  | nil => intro c p; rfl
  | cons comp comps ih =>
    intro c p
    by_cases hskip : comp = [] ∨ comp = ['.']
    · rw [significant_cons_of_skip hskip, mkdirLoop, if_pos hskip, ih]
    · rw [significant_cons_of_counts hskip, mkdirLoop, mkdirLoop, if_neg hskip, if_neg hskip]
      simp only [ih]

variable (now path) in
/-- What is missing is grown. -/
theorem grows_mkdirLoop (missing : List Str) :
    ∀ {c : NodeId} {p : Progress}, c < p.shell.vfs.nodes.length →
      (∀ comp ∈ missing, IsName comp) → (∀ r ∈ missing.head?, p.shell.vfs.child c r = none) →
      ∃ res, Grows (Metadata.new now sIfDir 0o755 p.shell.uid p.shell.gid) p.shell.vfs c missing
          (mkdirLoop now path missing c p).shell.vfs res ∧
        (mkdirLoop now path missing c p).status = if res = none then 1 else p.status := by
  induction missing with
  | nil => intro c p _ _ _; exact ⟨some c, .done, rfl⟩
  | cons r rs ih =>
    intro c p hc hnames hnone
    have hname := hnames r List.mem_cons_self
    have hr : p.shell.vfs.child c r = none := hnone r rfl
    rw [mkdirLoop]
    dsimp only
    rw [if_neg hname.counts, if_neg hname.2.2, hr]
    dsimp only
    rcases mkdir_cases p.shell.vfs now c r 0o755 p.shell.uid p.shell.gid with
      ⟨x, hx, -⟩ | ⟨-, hfull, -⟩ | ⟨-, hfull, hmk⟩
    · rw [hr] at hx
      cases hx
    · rw [if_pos hfull]
      exact ⟨none, .full hfull, rfl⟩
    · rw [if_neg (by rw [hfull]; exact Bool.false_ne_true), hmk]
      obtain ⟨res, hgrow, hstatus⟩ := @ih _ (p.setVfs _) length_lt_length_graft
        (fun comp h ↦ hnames comp (List.mem_cons_of_mem _ h))
        fun r' _ ↦ child_graftDir_new hc r'
      exact ⟨res, .step hfull hr hgrow, hstatus⟩

/-- The components `comps` lead from `c` to something that is no directory. -/
def Blocked (v : Vfs) (c : NodeId) (comps : List Str) : Prop :=
  ∃ pre x, pre <+: comps ∧ v.descend c pre = some x ∧ pre ≠ [] ∧
    ¬ (v.node x).kind.isDirectory = true

variable (now path p) in
/-- **What the loop comes to**: it is stopped by something that is no directory, or it passes
directories up to the first that is missing and grows the rest. -/
theorem mkdirLoop_cases (hv : p.shell.vfs.WellFormed) (hc : c < p.shell.vfs.nodes.length)
    (hnames : ∀ comp ∈ comps, IsName comp) :
    (Blocked p.shell.vfs c comps ∧ (mkdirLoop now path comps c p).status = 1) ∨
      ∃ pre missing last, comps = pre ++ missing ∧ p.shell.vfs.descend c pre = some last ∧
        (pre ≠ [] → (p.shell.vfs.node last).kind.isDirectory = true) ∧
        (∀ r ∈ missing.head?, p.shell.vfs.child last r = none) ∧
        ∃ res, Grows (Metadata.new now sIfDir 0o755 p.shell.uid p.shell.gid) p.shell.vfs last
            missing (mkdirLoop now path comps c p).shell.vfs res ∧
          (mkdirLoop now path comps c p).status = if res = none then 1 else p.status := by
  induction comps generalizing c with
  | nil => exact Or.inr ⟨[], [], c, rfl, rfl, fun h ↦ absurd rfl h, nofun, some c, .done, rfl⟩
  | cons comp comps ih =>
    have hname := hnames comp List.mem_cons_self
    rcases hchild : p.shell.vfs.child c comp with - | child
    · have hnone : ∀ r ∈ (comp :: comps).head?, p.shell.vfs.child c r = none := by
        intro r hr
        obtain rfl := Option.some.inj hr
        exact hchild
      obtain ⟨res, hres⟩ := grows_mkdirLoop now path (comp :: comps) hc hnames hnone
      exact Or.inr ⟨[], comp :: comps, c, rfl, rfl, fun h ↦ absurd rfl h, hnone, res, hres⟩
    have hlt := hv.entry_lt hchild
    rw [mkdirLoop]
    dsimp only
    rw [if_neg hname.counts, if_neg hname.2.2, hchild]
    dsimp only
    by_cases hdir : (p.shell.vfs.node child).kind.isDirectory = true
    · rw [if_neg (by simp [(hv.isDir_iff hlt).2 hdir])]
      rcases ih hlt fun comp' h ↦ hnames comp' (List.mem_cons_of_mem _ h) with
        ⟨⟨pre, x, hpre, hdesc, -, hx⟩, hstatus⟩ |
          ⟨pre, missing, last, rfl, hdesc, hlast, hnone, hres⟩
      · exact Or.inl ⟨⟨comp :: pre, x, List.cons_prefix_cons.2 ⟨rfl, hpre⟩,
          descend_cons.2 ⟨child, hchild, hdesc⟩, List.cons_ne_nil _ _, hx⟩, hstatus⟩
      · refine Or.inr ⟨comp :: pre, missing, last, rfl, descend_cons.2 ⟨child, hchild, hdesc⟩,
          fun _ ↦ ?_, hnone, hres⟩
        rcases pre with - | ⟨name, pre⟩
        · obtain rfl := Option.some.inj hdesc
          exact hdir
        · exact hlast (List.cons_ne_nil _ _)
    · have hmeta : (p.shell.vfs.node child).metadata.isDir = false := by
        rw [← Bool.not_eq_true, hv.isDir_iff hlt]
        exact hdir
      rw [if_pos (by rw [hmeta]; rfl)]
      exact Or.inl ⟨⟨[comp], child, List.cons_prefix_cons.2 ⟨rfl, List.nil_prefix⟩,
        descend_cons.2 ⟨child, hchild, rfl⟩, List.cons_ne_nil _ _, hdir⟩, rfl⟩

/-! ### Two walks -/

/-- Where a path starts. -/
abbrev startOf (s : Shell) (path : Str) : NodeId := s.vfs.origin s.cwd path

/-- The components of a path that count. -/
abbrev compsOf (path : Str) : List Str := significant (splitSlash path)

/-- A path resolves to a directory. -/
def ResolvesToDir (v : Vfs) (cwd : NodeId) (path : Str) : Prop :=
  ∃ d, v.resolve cwd path = some d ∧ (v.node d).kind.isDirectory = true

/-- What a command line asks for is `mkdir -p path`. -/
def MakesParents (args : List Str) (path : Str) : Prop :=
  MkdirArgs.parse ⟨false, []⟩ args = ⟨true, [path]⟩

instance (args : List Str) (path : Str) : Decidable (MakesParents args path) :=
  inferInstanceAs (Decidable (_ = _))

/-- What a run came to agrees with resolution: what is made resolves to a directory, and what does
is as good as made. -/
structure Agrees (s : Shell) (path : Str) (run : Shell × CommandResult) : Prop where
  made : run.2.status = 0 → ResolvesToDir run.1.vfs s.cwd path
  there : ResolvesToDir s.vfs s.cwd path → run.2.status = 0 ∧ run.1.vfs = s.vfs

/-- Where the two agree. If the path starts at a directory and resolves to one, then no component
is a link. If it starts at anything else, the caps do not let `mkdir -p` make all of it. -/
def Straight (s : Shell) (path : Str) : Prop :=
  if (s.vfs.node (startOf s path)).kind.isDirectory then
    ResolvesToDir s.vfs s.cwd path → ∀ pre x target, pre <+: compsOf path →
      s.vfs.descend (startOf s path) pre = some x → (s.vfs.node x).kind ≠ .symlink target
  else
    compsOf path ≠ [] ∧ (maxVfsNodes < s.vfs.nodes.length + (compsOf path).length ∨
      maxVfsDepth < s.vfs.depthOf (startOf s path) + (compsOf path).length)

/-- The command is the loop over the components that count. -/
theorem mkdir_eq_loop (hargs : MakesParents args path) :
    mkdir now args s = (mkdirLoop now path (compsOf path) (startOf s path) (.start s)).finish := by
  rw [mkdir, hargs, if_neg (List.cons_ne_nil _ _), List.foldl_cons, List.foldl_nil, mkdirOne,
    if_pos rfl, mkdirLoop_significant, significant_stripTrailingSlashes]
  rfl

/-- A way that is blocked leads to a directory only past a link. -/
theorem Blocked.exists_link {v : Vfs} {d : NodeId} {n : ℕ} (h : Blocked v c comps)
    (hnames : ∀ comp ∈ comps, IsName comp) (hwalk : Walks v c comps d n)
    (hd : (v.node d).kind.isDirectory = true) :
    ∃ pre x target, pre <+: comps ∧ v.descend c pre = some x ∧
      (v.node x).kind = .symlink target := by
  obtain ⟨pre, x, hpre, hdesc, -, hx⟩ := h
  by_contra hnone
  have hlink : ∀ target, (v.node x).kind ≠ .symlink target :=
    fun target hkind ↦ hnone ⟨pre, x, target, hpre, hdesc, hkind⟩
  obtain ⟨rest, rfl⟩ := hpre
  obtain ⟨m, hrest⟩ := Walks.of_prefix
    (fun comp h ↦ hnames comp (List.mem_append_left _ h)) hwalk hdesc hlink
  rcases rest with - | ⟨name, rest⟩
  · obtain ⟨rfl, -⟩ := walks_nil_iff.1 hrest
    exact hx hd
  · have hname := hnames name (List.mem_append_right _ List.mem_cons_self)
    exact not_walks_of_child_eq_none hname (child_eq_none_of_not_isDirectory hx name) hrest

/-- Every node on the way to a directory is one. -/
theorem isDirectory_of_descend {v : Vfs} {last x : NodeId} {pre names : List Str}
    (hdesc : v.descend c names = some last) (hlast : (v.node last).kind.isDirectory = true)
    (hpre : pre <+: names) (hx : v.descend c pre = some x) :
    (v.node x).kind.isDirectory = true := by
  obtain ⟨rest, rfl⟩ := hpre
  rw [descend_append, hx, Option.bind_some] at hdesc
  rcases rest with - | ⟨name, rest⟩
  · obtain rfl := Option.some.inj hdesc
    exact hlast
  · obtain ⟨y, hy, -⟩ := descend_cons.1 hdesc
    exact isDirectory_of_child hy

theorem resolvesToDir_iff {v : Vfs} {cwd : NodeId} : ResolvesToDir v cwd path ↔
    ∃ d n, n ≤ maxSymlinkDepth ∧ Walks v (v.origin cwd path) (compsOf path) d n ∧
      (v.node d).kind.isDirectory = true := by
  simp only [ResolvesToDir, resolve_eq_some_iff_significant]
  constructor
  · rintro ⟨d, ⟨n, hn, hwalk⟩, hd⟩
    exact ⟨d, n, hn, hwalk, hd⟩
  · rintro ⟨d, n, hn, hwalk, hd⟩
    exact ⟨d, ⟨n, hn, hwalk⟩, hd⟩

/-- What resolves to a directory starts at one. -/
theorem ResolvesToDir.start {v : Vfs} {cwd : NodeId} (h : ResolvesToDir v cwd path)
    (hnames : ∀ comp ∈ compsOf path, IsName comp) :
    (v.node (v.origin cwd path)).kind.isDirectory = true := by
  obtain ⟨d, n, -, hwalk, hd⟩ := resolvesToDir_iff.1 h
  rcases hcomps : compsOf path with - | ⟨name, rest⟩
  · rw [hcomps] at hwalk
    obtain ⟨rfl, -⟩ := walks_nil_iff.1 hwalk
    exact hd
  · by_contra hstart
    rw [hcomps] at hwalk
    exact not_walks_of_child_eq_none (hnames name (hcomps ▸ List.mem_cons_self))
      (child_eq_none_of_not_isDirectory hstart name) hwalk

/-- What entries lead to resolves. -/
theorem resolvesToDir_of_descend {v : Vfs} {cwd x : NodeId}
    (hnames : ∀ comp ∈ compsOf path, IsName comp)
    (hdesc : v.descend (v.origin cwd path) (compsOf path) = some x)
    (hx : (v.node x).kind.isDirectory = true) : ResolvesToDir v cwd path :=
  resolvesToDir_iff.2 ⟨x, 0, Nat.zero_le _,
    walks_of_descend hnames hdesc (not_symlink_of_isDirectory hx), hx⟩

/-- A run that was stopped agrees unless the path leads past a link. -/
theorem agrees_iff_of_blocked {run : Shell × CommandResult}
    (hnames : ∀ comp ∈ compsOf path, IsName comp)
    (hblocked : Blocked s.vfs (startOf s path) (compsOf path)) (hstatus : run.2.status = 1) :
    Agrees s path run ↔ Straight s path := by
  have hdir : (s.vfs.node (startOf s path)).kind.isDirectory = true := by
    obtain ⟨pre, x, -, hdesc, hne, -⟩ := hblocked
    obtain ⟨name, rest, rfl⟩ := List.exists_cons_of_ne_nil hne
    obtain ⟨y, hy, -⟩ := descend_cons.1 hdesc
    exact isDirectory_of_child hy
  have hfails : run.2.status ≠ 0 := by
    rw [hstatus]
    exact one_ne_zero
  rw [Straight, if_pos hdir]
  refine ⟨fun h hthere ↦ absurd (h.there hthere).1 hfails, fun h ↦ ⟨fun hok ↦ absurd hok hfails,
    fun hthere ↦ ?_⟩⟩
  obtain ⟨d, n, -, hwalk, hd⟩ := resolvesToDir_iff.1 hthere
  obtain ⟨pre, x, target, hpre, hdesc, hkind⟩ := hblocked.exists_link hnames hwalk hd
  exact absurd hkind (h hthere pre x target hpre hdesc)

section Grown

variable {run : Shell × CommandResult} {pre : List Str} {last : NodeId} {res : Option NodeId}
  {metadata : Metadata} (hv : s.vfs.WellFormed) (hstart : startOf s path < s.vfs.nodes.length)
  (hnames : ∀ comp ∈ compsOf path, IsName comp)
  (hcomps : compsOf path = pre ++ missing)
  (hdesc : s.vfs.descend (startOf s path) pre = some last)
  (hlast : pre ≠ [] → (s.vfs.node last).kind.isDirectory = true)
  (hnone : ∀ r ∈ missing.head?, s.vfs.child last r = none)
  (hgrow : Grows metadata s.vfs last missing run.1.vfs res)
  (hstatus : run.2.status = if res = none then 1 else 0)

include hv hstart hnames hcomps hdesc hlast hnone hgrow hstatus

omit hv hstart in
/-- Below a directory the run agrees. -/
theorem agrees_of_grows (hdir : (s.vfs.node (startOf s path)).kind.isDirectory = true) :
    Agrees s path run ∧ Straight s path := by
  have hend : (s.vfs.node last).kind.isDirectory = true := by
    rcases pre with - | ⟨name, pre⟩
    · obtain rfl := Option.some.inj hdesc
      exact hdir
    · exact hlast (List.cons_ne_nil _ _)
  have hlt : last < s.vfs.nodes.length := lt_of_isDirectory hend
  have horigin : run.1.vfs.origin s.cwd path = startOf s path := by
    rw [origin, hgrow.root]
    rfl
  -- a path that resolves has nothing missing
  have hfull : ResolvesToDir s.vfs s.cwd path → missing = [] := fun hthere ↦ by
    obtain ⟨d, n, -, hwalk, -⟩ := resolvesToDir_iff.1 hthere
    rw [hcomps] at hwalk hnames
    obtain ⟨m, hrest⟩ := Walks.of_prefix (fun comp h ↦ hnames comp (List.mem_append_left _ h)) hwalk
      hdesc (not_symlink_of_isDirectory hend)
    rcases missing with - | ⟨r, rs⟩
    · rfl
    · exact absurd hrest (not_walks_of_child_eq_none
        (hnames r (List.mem_append_right _ List.mem_cons_self)) (hnone r rfl))
  refine ⟨⟨fun hok ↦ ?_, fun hthere ↦ ?_⟩, ?_⟩
  · rcases res with - | x
    · rw [if_pos rfl] at hstatus
      rw [hstatus] at hok
      cases hok
    obtain ⟨hx, hxdir⟩ := hgrow.descend hlt hend rfl
    refine resolvesToDir_of_descend hnames ?_ hxdir
    have hfront : run.1.vfs.descend (startOf s path) pre = some last :=
      descend_mono (fun _ _ _ ↦ hgrow.child_mono hlt) hdesc
    rw [horigin, hcomps, descend_append, hfront]
    exact hx
  · obtain rfl := hfull hthere
    obtain ⟨hw, rfl⟩ := hgrow.of_nil
    exact ⟨hstatus, hw⟩
  · rw [Straight, if_pos hdir]
    intro hthere pre' x target hpre' hx
    obtain rfl := hfull hthere
    rw [hcomps, List.append_nil] at hpre'
    exact not_symlink_of_isDirectory (isDirectory_of_descend hdesc hend hpre' hx) target

/-- Below anything else it agrees if the caps stop it. -/
theorem agrees_iff_of_stray (hmode : metadata.mode &&& sIfMt = sIfDir)
    (hdir : ¬ (s.vfs.node (startOf s path)).kind.isDirectory = true) :
    Agrees s path run ↔ Straight s path := by
  have hpre : pre = [] := by
    rcases pre with - | ⟨name, pre⟩
    · rfl
    · obtain ⟨y, hy, -⟩ := descend_cons.1 hdesc
      exact absurd (isDirectory_of_child hy) hdir
  subst hpre
  obtain rfl : startOf s path = last := Option.some.inj hdesc
  rw [List.nil_append] at hcomps
  have horigin : run.1.vfs.origin s.cwd path = startOf s path := by
    rw [origin, hgrow.root]
    rfl
  have hnever : ¬ ResolvesToDir run.1.vfs s.cwd path := fun h ↦ by
    have := h.start hnames
    rw [horigin, hgrow.isDirectory_of_lt hstart] at this
    exact hdir this
  rw [Straight, if_neg hdir, hcomps, ← hgrow.eq_none_iff hv hstart hmode]
  refine ⟨fun h ↦ ?_, ?_⟩
  · by_contra hres
    rw [if_neg hres] at hstatus
    exact hnever (h.made hstatus)
  · rintro rfl
    rw [if_pos rfl] at hstatus
    refine ⟨fun hok ↦ ?_, fun hthere ↦ absurd (hthere.start hnames) hdir⟩
    rw [hstatus] at hok
    cases hok

end Grown

/-- **`mkdir -p` agrees with resolution if and only if the path is straight.** -/
theorem mkdirParents_agrees_iff (now : Timestamp) (hv : s.vfs.WellFormed)
    (hcwd : s.cwd < s.vfs.nodes.length) (hargs : MakesParents args path)
    (hup : ['.', '.'] ∉ splitSlash path) :
    Agrees s path (mkdir now args s) ↔ Straight s path := by
  have hnames : ∀ comp ∈ compsOf path, IsName comp := fun comp h ↦
    (counts_of_mem_significant h).isName fun heq ↦ hup (heq ▸ List.mem_of_mem_filter h)
  have hstart : startOf s path < s.vfs.nodes.length := origin_lt hv hcwd path
  have hmode := Metadata.new_mode_and_sIfMt now (.directory ∅) 0o755 s.uid s.gid
  rw [mkdir_eq_loop hargs]
  rcases mkdirLoop_cases now (.start s) path hv hstart hnames with
    ⟨hblocked, hstatus⟩ | ⟨pre, missing, last, hcomps, hdesc, hlast, hnone, res, hgrow, hstatus⟩
  · exact agrees_iff_of_blocked hnames hblocked hstatus
  · by_cases hdir : (s.vfs.node (startOf s path)).kind.isDirectory = true
    · have h : Agrees s path (mkdirLoop now path (compsOf path) (startOf s path)
          (.start s)).finish ∧ Straight s path :=
        agrees_of_grows hnames hcomps hdesc hlast hnone hgrow hstatus hdir
      exact iff_of_true h.1 h.2
    · exact agrees_iff_of_stray hv hstart hnames hcomps hdesc hlast hnone hgrow hstatus hmode hdir

/-- A filesystem with the directory `/usr` and a link `/bin` to it, as the top-level directories of
the snapshot are. -/
def merged : Vfs :=
  GuardedRun.run Op.apply (Vfs.new 0) [.mutator (.mkdir 0 0 "usr".toList 0o755 0 0),
    .mutator (.addSymlink 0 0 "bin".toList "usr".toList)]

theorem mkdirParents_agrees_usr :
    Agrees { Shell.bare with vfs := merged } "/usr/lib".toList
      (mkdir 0 ["-p".toList, "/usr/lib".toList] { Shell.bare with vfs := merged }) := by
  have hv : merged.WellFormed := by
    rw [merged]
    exact (wellFormed_run 0 _ (by decide +kernel)).1
  refine (mkdirParents_agrees_iff 0 hv (by decide +kernel) (by decide +kernel) (by decide)).2 ?_
  rw [Straight, if_pos (by decide +kernel)]
  rintro ⟨d, hd, -⟩
  have hnone : merged.resolve 0 "/usr/lib".toList = none := by decide +kernel
  exact absurd (hnone.symm.trans hd) nofun

/-- `/bin` is a directory to everybody but `mkdir -p`. -/
theorem mkdirParents_disagrees :
    ResolvesToDir merged 0 "/bin".toList ∧ MakesParents ["-p".toList, "/bin".toList] "/bin".toList ∧
      (mkdir 0 ["-p".toList, "/bin".toList] { Shell.bare with vfs := merged }).2.status = 1 :=
  ⟨⟨1, by decide +kernel⟩, by decide +kernel⟩

end Files

end Interp

end Mimic
