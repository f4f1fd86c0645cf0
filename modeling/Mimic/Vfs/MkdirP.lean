import Mimic.Vfs.EntryPath

/-!
# Creating directories along a path

`mkdir_p` walks a path entry by entry and creates what is missing. It neither follows links nor
reads `..`, and it does not look at what kind of node it is standing on. `resolve` does all three.

The run of `mkdir_p` has two phases. As long as entries exist it descends; from the first missing
entry on it only creates (`Grows`). `SplitsAt` names the place where the first turns into the
second, and every fact about the outcome is proved for `Grows`.

The contract one would read into the documentation is `MkdirPContract`. It fails whenever the second
phase starts below a file or a link, since the new directories then hang below a node without an
entry table, and whenever a component is `..`. `mkdirP_contract_iff` is the exact condition: either
the path is plain, or the caps stop `mkdir_p` before it can do harm.
-/

namespace Mimic

open ParentForest

namespace Vfs

/-! ### The two phases -/

/-- A new directory under `p`. -/
abbrev graftDir (v : Vfs) (metadata : Metadata) (p : NodeId) (name : Str) : Vfs :=
  v.graft p name (.directory ∅) metadata

/-- The second phase of `mkdir_p`: under `p`, create the directories `missing` one below the
other, until a cap stops it. -/
inductive Grows (metadata : Metadata) : Vfs → NodeId → List Str → Vfs → Option NodeId → Prop
  | done {v p} : Grows metadata v p [] v (some p)
  | full {v p r rs} : v.isFull p = true → Grows metadata v p (r :: rs) v none
  | step {v p r rs w res} : v.isFull p = false → v.child p r = none →
      Grows metadata (v.graftDir metadata p r) v.nodes.length rs w res →
      Grows metadata v p (r :: rs) w res

variable {v w : Vfs} {c d x p last : NodeId} {name comp path : Str}
  {names comps pre missing rest : List Str} {res : Option NodeId} {metadata : Metadata}
  {now : Timestamp} {perms uid gid : UInt32}

/-- What one `mkdir` does. -/
theorem mkdir_cases (v : Vfs) (now : Timestamp) (p : NodeId) (name : Str) (perms uid gid : UInt32) :
    (∃ x, v.child p name = some x ∧ v.mkdir now p name perms uid gid = (v, x)) ∨
      (v.child p name = none ∧ v.isFull p = true ∧
        v.mkdir now p name perms uid gid = (v, p)) ∨
      (v.child p name = none ∧ v.isFull p = false ∧ v.mkdir now p name perms uid gid =
        (v.graftDir (Metadata.new now sIfDir perms uid gid) p name, v.nodes.length)) := by
  rw [mkdir]
  rcases hchild : v.child p name with - | x
  · right
    rcases hfull : v.isFull p with - | -
    · exact Or.inr ⟨rfl, rfl, by rw [insert_eq, hfull, if_neg Bool.false_ne_true]⟩
    · exact Or.inl ⟨rfl, rfl, by rw [insert_eq, hfull, if_pos rfl]⟩
  · exact Or.inl ⟨x, rfl, rfl⟩

theorem ne_of_child (hv : v.WellFormed) (h : v.child c name = some x) : x ≠ c := by
  rintro rfl
  have hclimb : climb v.parentOf 1 x = some x := by
    rw [climb_succ_of_parent (hv.entry_parent h)]
    rfl
  exact climb_ne_self hv.root_parent (hv.grounded (hv.entry_lt h)) hclimb

/-- Skipped components are skipped. -/
theorem mkdirPLoop_significant (comps : List Str) : ∀ (v : Vfs) (c : NodeId),
    mkdirPLoop now perms uid gid v c comps =
      mkdirPLoop now perms uid gid v c (significant comps) := by
  induction comps with
  | nil => intro v c; rfl
  | cons comp rest ih =>
    intro v c
    by_cases hskip : comp = [] ∨ comp = ['.']
    · rw [significant_cons_of_skip hskip, mkdirPLoop, if_pos hskip, ih]
    · rw [significant_cons_of_counts hskip, mkdirPLoop, mkdirPLoop, if_neg hskip, if_neg hskip]
      simp only [ih]

/-- The first phase: existing entries are descended into, whatever they are. -/
theorem mkdirPLoop_descend (hv : v.WellFormed) (hpre : ∀ name ∈ pre, Counts name) :
    ∀ {c}, v.descend c pre = some last →
      mkdirPLoop now perms uid gid v c (pre ++ missing) =
        mkdirPLoop now perms uid gid v last missing := by
  induction pre with
  | nil =>
    intro c h
    obtain rfl := Option.some.inj h
    rfl
  | cons name pre ih =>
    intro c h
    obtain ⟨y, hy, hrest⟩ := descend_cons.1 h
    have hmkdir : v.mkdir now c name perms uid gid = (v, y) := by rw [mkdir, hy]
    rw [List.cons_append, mkdirPLoop, if_neg (hpre name List.mem_cons_self)]
    dsimp only
    rw [hmkdir, if_neg (ne_of_child hv hy)]
    exact ih (fun name' h' ↦ hpre name' (List.mem_cons_of_mem _ h')) hrest

theorem child_graftDir_new (hp : p < v.nodes.length) (name' : Str) :
    (v.graftDir metadata p name).child v.nodes.length name' = none := by
  rw [child_eq, node_graft_self hp]
  exact Std.ExtTreeMap.getElem?_empty

/-- The second phase: what is missing is grown. -/
theorem grows_mkdirPLoop (missing : List Str) :
    ∀ {v : Vfs} {p : NodeId}, p < v.nodes.length → (∀ name ∈ missing, Counts name) →
      (∀ r ∈ missing.head?, v.child p r = none) →
      Grows (Metadata.new now sIfDir perms uid gid) v p missing
        (mkdirPLoop now perms uid gid v p missing).1
        (mkdirPLoop now perms uid gid v p missing).2 := by
  induction missing with
  | nil => intro v p _ _ _; exact .done
  | cons r rs ih =>
    intro v p hp hcounts hnone
    have hr : v.child p r = none := hnone r rfl
    rw [mkdirPLoop, if_neg (hcounts r List.mem_cons_self)]
    dsimp only
    rcases mkdir_cases v now p r perms uid gid with ⟨x, hx, -⟩ | ⟨-, hfull, hmk⟩ | ⟨-, hfull, hmk⟩
    · rw [hr] at hx
      cases hx
    · rw [hmk, if_pos rfl]
      exact .full hfull
    · rw [hmk, if_neg (Nat.ne_of_gt hp)]
      exact .step hfull hr (ih length_lt_length_graft
        (fun name h ↦ hcounts name (List.mem_cons_of_mem _ h)) fun r' _ ↦ child_graftDir_new hp r')

/-! ### What the second phase leaves behind -/

theorem wellFormed_graftDir (hv : v.WellFormed) (hp : p < v.nodes.length)
    (hmode : metadata.mode &&& sIfMt = sIfDir) : (v.graftDir metadata p name).WellFormed :=
  hv.graft hp rfl hmode

theorem child_graftDir_mono (hp : p < v.nodes.length) (hnone : v.child p name = none) {name' : Str}
    (h : v.child d name' = some c) : (v.graftDir metadata p name).child d name' = some c := by
  rw [child_graft hp rfl, if_neg]
  · exact h
  · rintro ⟨rfl, rfl, -⟩
    rw [hnone] at h
    cases h

theorem isDirectory_graftDir_new (hp : p < v.nodes.length) :
    ((v.graftDir metadata p name).node v.nodes.length).kind.isDirectory = true := by
  rw [node_graft_self hp]
  rfl

theorem depthOf_graftDir_new (hv : v.WellFormed) (hp : p < v.nodes.length)
    (hmode : metadata.mode &&& sIfMt = sIfDir) :
    (v.graftDir metadata p name).depthOf v.nodes.length = v.depthOf p + 1 := by
  obtain ⟨k, hk⟩ := hv.grounded hp
  rw [depthOf_eq hv hp hk]
  refine depthOf_eq (wellFormed_graftDir hv hp hmode)
    length_lt_length_graft ?_
  rw [climb_succ_of_parent (parentOf_graft_self hp), root_graft, hv.climb_graft hp, hk]

namespace Grows

/-- Nothing missing, nothing done. -/
theorem of_nil (h : Grows metadata v p [] w res) : w = v ∧ res = some p := by
  cases h
  exact ⟨rfl, rfl⟩

variable (h : Grows metadata v p missing w res)

include h

theorem length_le : v.nodes.length ≤ w.nodes.length := by
  induction h with
  | done => exact le_rfl
  | full => exact le_rfl
  | step _ _ _ ih =>
    rw [length_graft] at ih
    exact (Nat.le_succ _).trans ih

theorem root : w.root = v.root := by
  induction h with
  | done => rfl
  | full => rfl
  | step _ _ _ ih => exact ih

theorem wellFormed (hv : v.WellFormed) (hp : p < v.nodes.length)
    (hmode : metadata.mode &&& sIfMt = sIfDir) : w.WellFormed := by
  induction h with
  | done => exact hv
  | full => exact hv
  | step _ _ _ ih =>
    exact ih (wellFormed_graftDir hv hp hmode) length_lt_length_graft

theorem child_mono (hp : p < v.nodes.length) {d : NodeId} {name : Str} {c : NodeId}
    (hc : v.child d name = some c) : w.child d name = some c := by
  induction h with
  | done => exact hc
  | full => exact hc
  | step _ hnone _ ih =>
    exact ih length_lt_length_graft (child_graftDir_mono hp hnone hc)

theorem parentOf_of_lt (hp : p < v.nodes.length) (hx : x < v.nodes.length) :
    w.parentOf x = v.parentOf x := by
  induction h with
  | done => rfl
  | full => rfl
  | step _ _ _ ih =>
    rw [ih length_lt_length_graft
      (by rw [length_graft]; exact hx.trans (Nat.lt_succ_self _)), parentOf_graft_of_lt hx]

theorem climb_of_lt (hv : v.WellFormed) (hp : p < v.nodes.length) (hx : x < v.nodes.length)
    {k : ℕ} : climb w.parentOf k x = climb v.parentOf k x :=
  climb_congr fun _ ⟨_, hj⟩ ↦ h.parentOf_of_lt hp (hv.lt_of_climb hx hj)

/-- **When a cap stops it**: when there is no room for all that is missing. -/
theorem eq_none_iff (hv : v.WellFormed) (hp : p < v.nodes.length)
    (hmode : metadata.mode &&& sIfMt = sIfDir) :
    res = none ↔ missing ≠ [] ∧ (maxVfsNodes < v.nodes.length + missing.length ∨
      maxVfsDepth < v.depthOf p + missing.length) := by
  induction h with
  | done => simp
  | full hfull =>
    rw [isFull, Bool.or_eq_true, decide_eq_true_iff, decide_eq_true_iff] at hfull
    rw [List.length_cons]
    refine iff_of_true rfl ⟨List.cons_ne_nil _ _, ?_⟩
    omega
  | @step v p r rs w res hfull _ _ ih =>
    rw [isFull, Bool.or_eq_false_iff, decide_eq_false_iff_not, decide_eq_false_iff_not] at hfull
    rw [ih (wellFormed_graftDir hv hp hmode) length_lt_length_graft,
      depthOf_graftDir_new hv hp hmode, length_graft, List.length_cons, ← List.length_pos_iff]
    simp only [ne_eq, reduceCtorEq, not_false_eq_true, true_and]
    omega

/-- Below an attached directory everything it creates is attached, at the path asked for. -/
theorem attached (hp : p < v.nodes.length) (hdir : (v.node p).kind.isDirectory = true)
    (hdesc : v.descend v.root pre = some p) :
    (∀ x, res = some x → w.descend w.root (pre ++ missing) = some x ∧
        (w.node x).kind.isDirectory = true) ∧
      ∀ x, v.nodes.length ≤ x → x < w.nodes.length → w.Attached x := by
  induction h generalizing pre with
  | done =>
    refine ⟨fun x hx ↦ ?_, fun x hle hlt ↦ absurd hlt (Nat.not_lt.2 hle)⟩
    obtain rfl := Option.some.inj hx
    rw [List.append_nil]
    exact ⟨hdesc, hdir⟩
  | full =>
    exact ⟨fun x hx ↦ absurd hx (by simp), fun x hle hlt ↦ absurd hlt (Nat.not_lt.2 hle)⟩
  | @step v p r rs w res _ hnone hgrow ih =>
    -- the directory has an entry table, so the new node gets an entry
    have hnew : (v.graftDir metadata p r).child p r = some v.nodes.length := by
      rw [child_graft hp rfl, if_pos ⟨rfl, rfl, hdir⟩]
    have hdesc' : (v.graftDir metadata p r).descend (v.graftDir metadata p r).root (pre ++ [r]) =
        some v.nodes.length :=
      descend_snoc.2 ⟨p, descend_mono (fun _ _ _ ↦ child_graftDir_mono hp hnone) hdesc, hnew⟩
    have hlt : v.nodes.length < (v.graftDir metadata p r).nodes.length := length_lt_length_graft
    obtain ⟨hend, hall⟩ := ih hlt (isDirectory_graftDir_new hp) hdesc'
    refine ⟨fun x hx ↦ by simpa using hend x hx, fun x hle hx ↦ ?_⟩
    rcases Nat.eq_or_lt_of_le hle with rfl | hgt
    · exact ⟨pre ++ [r], hgrow.root ▸ descend_mono (fun _ _ _ ↦ hgrow.child_mono hlt) hdesc'⟩
    · exact hall x (by rw [length_graft]; exact hgt) hx

/-- Below anything else nothing it creates is attached. -/
theorem attached_of_attached (hv : v.WellFormed) (hp : p < v.nodes.length)
    (hmode : metadata.mode &&& sIfMt = sIfDir)
    (hdead : ¬ (v.Attached p ∧ (v.node p).kind.isDirectory = true)) (hx : w.Attached x) :
    v.Attached x := by
  induction h with
  | done => exact hx
  | full => exact hx
  | @step v p r rs w res _ hnone hgrow ih =>
    have hback : ∀ {y k}, Below (v.graftDir metadata p r) v.root y k → v.Attached y := by
      intro y k hy
      induction hy with
      | refl => exact ⟨[], rfl⟩
      | step _ hc ihy =>
        rw [child_graft hp rfl] at hc
        split at hc
        · rename_i hd
          obtain ⟨rfl, -, hdir⟩ := hd
          exact absurd ⟨ihy, hdir⟩ hdead
        · obtain ⟨names, hnames⟩ := ihy
          exact ⟨names ++ [_], descend_snoc.2 ⟨_, hnames, hc⟩⟩
    have hold : ∀ {y}, (v.graftDir metadata p r).Attached y → v.Attached y := fun ⟨names, hy⟩ ↦
      hback (below_of_descend hy)
    refine hold (ih (wellFormed_graftDir hv hp hmode)
      length_lt_length_graft (fun hnew ↦ ?_) hx)
    -- an attached node of the old arena is an old node
    obtain ⟨names, hnames⟩ := hold hnew.1
    exact absurd (lt_of_descend hv hv.root_lt hnames) (lt_irrefl _)

/-- What it returns is either what it was given or one of its creations. -/
theorem le_of_eq_some (hne : missing ≠ []) (hres : res = some x) : v.nodes.length ≤ x := by
  induction h with
  | done => exact absurd rfl hne
  | full => cases hres
  | @step v p r rs w res _ _ hgrow ih =>
    rcases rs with - | ⟨r', rs⟩
    · cases hgrow
      exact (Option.some.inj hres).le
    · rw [length_graft] at ih
      exact (Nat.le_succ _).trans (ih (List.cons_ne_nil _ _) hres)

theorem lt_of_eq_some (hp : p < v.nodes.length) (hres : res = some x) : x < w.nodes.length := by
  induction h with
  | done => exact Option.some.inj hres ▸ hp
  | full => cases hres
  | step _ _ _ ih => exact ih length_lt_length_graft hres

/-- A cap that leaves no room for one directory leaves the arena alone. -/
theorem of_full (hne : missing ≠ []) (hfull : v.isFull p = true) : w = v ∧ res = none := by
  cases h with
  | done => exact absurd rfl hne
  | full => exact ⟨rfl, rfl⟩
  | step hfull' =>
    rw [hfull] at hfull'
    cases hfull'

/-- Otherwise the first directory is created right below `p`. -/
theorem of_not_full (hp : p < v.nodes.length) (hne : missing ≠ [])
    (hfull : ¬ v.isFull p = true) :
    v.nodes.length < w.nodes.length ∧ w.parentOf v.nodes.length = some p := by
  cases h with
  | done => exact absurd rfl hne
  | full hfull' => exact absurd hfull' hfull
  | step _ _ hgrow =>
    refine ⟨length_lt_length_graft.trans_le hgrow.length_le, ?_⟩
    rw [hgrow.parentOf_of_lt length_lt_length_graft length_lt_length_graft, parentOf_graft_self hp]

/-- Above its creations there are only other creations and what was above `p`. -/
theorem isAncestor (hv : v.WellFormed) (hp : p < v.nodes.length)
    (hmode : metadata.mode &&& sIfMt = sIfDir) {a : NodeId} (hx : v.nodes.length ≤ x)
    (hxw : x < w.nodes.length) (ha : IsAncestor w.parentOf a x) :
    v.nodes.length ≤ a ∨ IsAncestor v.parentOf a p := by
  induction h generalizing x with
  | done => exact absurd hxw (Nat.not_lt.2 hx)
  | full => exact absurd hxw (Nat.not_lt.2 hx)
  | @step v p r rs w res _ _ hgrow ih =>
    have hlt : v.nodes.length < (v.graftDir metadata p r).nodes.length := length_lt_length_graft
    have hfirst : ∀ {a}, IsAncestor (v.graftDir metadata p r).parentOf a v.nodes.length →
        v.nodes.length ≤ a ∨ IsAncestor v.parentOf a p := by
      rintro a ⟨k, hk⟩
      rcases k with - | k
      · exact Or.inl (Option.some.inj hk).le
      · rw [climb_succ_of_parent (parentOf_graft_self hp), hv.climb_graft hp] at hk
        exact Or.inr ⟨k, hk⟩
    have hv' : (v.graftDir metadata p r).WellFormed := wellFormed_graftDir hv hp hmode
    rcases Nat.eq_or_lt_of_le hx with rfl | hgt
    · obtain ⟨k, hk⟩ := ha
      rw [hgrow.climb_of_lt hv' hlt hlt] at hk
      exact hfirst ⟨k, hk⟩
    · rcases ih hv' hlt (by rw [length_graft]; exact hgt) hxw ha with hnew | hold
      · exact Or.inl (hlt.le.trans hnew)
      · exact hfirst hold

end Grows

/-! ### The contract -/

/-- The loop of `resolve` over components, from the root. -/
def resolveComps (v : Vfs) (comps : List Str) : Option NodeId :=
  v.walkComps (v.follow (v.resolveInner maxSymlinkDepth)) v.root comps

/-- A component of `path` exists, as the entry `x`, and is neither a directory nor a link to
one. -/
def Obstructs (v : Vfs) (path : Str) (x : NodeId) : Prop :=
  ∃ pre comp post d, significant (splitSlash path) = pre ++ comp :: post ∧
    v.resolveComps pre = some d ∧ v.child d comp = some x ∧
    ¬ ∃ y, v.follow (v.resolveInner maxSymlinkDepth) x = some y ∧
      (v.node y).kind.isDirectory = true

/-- What `mkdir_p` is to guarantee when called on `v`. -/
structure MkdirPContract (v : Vfs) (now : Timestamp) (path : Str) (perms uid gid : UInt32) :
    Prop where
  /-- What it returns is a directory, found at `path`, and all it created is attached. -/
  made : ∀ id, (v.mkdirP now path perms uid gid).2 = some id →
    ((v.mkdirP now path perms uid gid).1.node id).kind.isDirectory = true ∧
      (v.mkdirP now path perms uid gid).1.resolve (v.mkdirP now path perms uid gid).1.root path =
        some id ∧
      ∀ x, v.nodes.length ≤ x → x < (v.mkdirP now path perms uid gid).1.nodes.length →
        (v.mkdirP now path perms uid gid).1.Attached x
  /-- A component that exists and is no directory makes it fail, with nothing created below. -/
  refused : ∀ x, v.Obstructs path x → (v.mkdirP now path perms uid gid).2 = none ∧
    ∀ y, v.nodes.length ≤ y → y < (v.mkdirP now path perms uid gid).1.nodes.length →
      ¬ IsAncestor (v.mkdirP now path perms uid gid).1.parentOf x y

/-- The entries `pre` exist and lead to `last`, where the first of `missing` is not to be found. -/
structure SplitsAt (v : Vfs) (path : Str) (pre missing : List Str) (last : NodeId) : Prop where
  comps : significant (splitSlash path) = pre ++ missing
  descend : v.descend v.root pre = some last
  missing : ∀ r ∈ missing.head?, v.child last r = none

/-- When `mkdir_p` meets its contract: the last existing node is a directory and no component is
`..`; or directories are missing, and the caps have no room for the first of them, or have no room
for all of them and the last existing node is not itself in the way. -/
def MkdirPSafe (v : Vfs) (path : Str) : Prop :=
  ∃ pre missing last, SplitsAt v path pre missing last ∧
    (((v.node last).kind.isDirectory = true ∧ ['.', '.'] ∉ pre ++ missing) ∨
      missing ≠ [] ∧ (v.isFull last = true ∨
        (maxVfsNodes < v.nodes.length + missing.length ∨
          maxVfsDepth < v.depthOf last + missing.length) ∧ ¬ v.Obstructs path last))

theorem exists_descend (v : Vfs) (comps : List Str) : ∀ c, ∃ pre missing last,
    comps = pre ++ missing ∧ v.descend c pre = some last ∧
      ∀ r ∈ missing.head?, v.child last r = none := by
  induction comps with
  | nil => intro c; exact ⟨[], [], c, rfl, rfl, fun r hr ↦ by cases hr⟩
  | cons comp rest ih =>
    intro c
    rcases hchild : v.child c comp with - | x
    · refine ⟨[], comp :: rest, c, rfl, rfl, fun r hr ↦ ?_⟩
      obtain rfl := Option.some.inj hr
      exact hchild
    · obtain ⟨pre, missing, last, rfl, hdesc, hnone⟩ := ih x
      exact ⟨comp :: pre, missing, last, rfl, descend_cons.2 ⟨x, hchild, hdesc⟩, hnone⟩

theorem exists_splitsAt (v : Vfs) (path : Str) :
    ∃ pre missing last, SplitsAt v path pre missing last := by
  obtain ⟨pre, missing, last, hcomps, hdesc, hnone⟩ :=
    exists_descend v (significant (splitSlash path)) v.root
  exact ⟨pre, missing, last, hcomps, hdesc, hnone⟩

theorem mode_new_sIfDir (now : Timestamp) (perms uid gid : UInt32) :
    (Metadata.new now sIfDir perms uid gid).mode &&& sIfMt = sIfDir :=
  Metadata.new_mode_and_sIfMt now (.directory ∅) perms uid gid

/-- **The run of `mkdir_p`**: it grows what is missing below the last existing node. -/
theorem SplitsAt.grows (h : SplitsAt v path pre missing last) (hv : v.WellFormed)
    (now : Timestamp) (perms uid gid : UInt32) :
    Grows (Metadata.new now sIfDir perms uid gid) v last missing
      (v.mkdirP now path perms uid gid).1 (v.mkdirP now path perms uid gid).2 := by
  have hcounts : ∀ name ∈ pre ++ missing, Counts name := fun name hname ↦
    counts_of_mem_significant (h.comps ▸ hname)
  rw [mkdirP, mkdirPLoop_significant, h.comps,
    mkdirPLoop_descend hv (fun name hn ↦ hcounts name (List.mem_append_left _ hn)) h.descend]
  exact grows_mkdirPLoop missing (lt_of_descend hv hv.root_lt h.descend)
    (fun name hn ↦ hcounts name (List.mem_append_right _ hn)) h.missing

theorem resolve_root_iff : v.resolve v.root path = some x ↔
    ∃ n, n ≤ maxSymlinkDepth ∧ Walks v v.root (significant (splitSlash path)) x n := by
  have horigin : v.origin v.root path = v.root := by rw [origin, ite_self]
  simp only [resolve_eq_some_iff, horigin, walks_significant_iff]

/-- What resolution from the root finds has a path of names. -/
theorem named_of_resolve (hv : v.WellFormed) (h : v.resolve v.root path = some x) : v.Named x := by
  obtain ⟨n, -, hw⟩ := resolve_root_iff.1 h
  exact hw.named hv (namedBy_root v)

/-- A path with `..` in it is not the path of anything resolution finds. -/
theorem dotdot_not_mem_of_resolve (hv : v.WellFormed) (h : v.resolve v.root path = some x)
    (hdesc : v.descend v.root names = some x) : ['.', '.'] ∉ names := by
  intro hmem
  exact ((named_of_resolve hv h).of_descend hv hdesc _ hmem).2.2 rfl

/-- A node with a path of names that is a directory is what its path resolves to. -/
theorem resolve_of_descend (hcomps : significant (splitSlash path) = names)
    (hup : ['.', '.'] ∉ names) (hdesc : v.descend v.root names = some x)
    (hdir : ∀ target, (v.node x).kind ≠ .symlink target) : v.resolve v.root path = some x := by
  refine resolve_root_iff.2 ⟨0, Nat.zero_le _, hcomps ▸ walks_of_descend ?_ hdesc hdir⟩
  intro name hname
  refine (counts_of_mem_significant (hcomps ▸ hname)).isName ?_
  rintro rfl
  exact hup hname

/-! ### Obstructions -/

theorem Obstructs.not_isDirectory (h : v.Obstructs path x) :
    ¬ (v.node x).kind.isDirectory = true := by
  obtain ⟨pre, comp, post, d, -, -, -, hno⟩ := h
  intro hdir
  refine hno ⟨x, ?_, hdir⟩
  rw [follow]
  split
  · exact absurd ‹_› (not_symlink_of_isDirectory hdir _)
  · rfl

/-- On a plain path, what resolution meets is what descending meets: directories. -/
theorem isDirectory_of_plain (hlast : (v.node last).kind.isDirectory = true)
    (hnone : ∀ r ∈ missing.head?, v.child last r = none) {post : List Str} {n : ℕ}
    (hx : v.child d comp = some x) :
    ∀ {pre pre' c}, (∀ name ∈ pre ++ missing, IsName name) → v.descend c pre = some last →
      Walks v c pre' d n → pre ++ missing = pre' ++ comp :: post →
      (v.node x).kind.isDirectory = true := by
  intro pre
  induction pre generalizing n with
  | nil =>
    intro pre' c hnames hdesc hw hsplit
    obtain rfl := Option.some.inj hdesc
    rw [List.nil_append] at hsplit hnames
    rcases pre' with - | ⟨r, pre'⟩
    · obtain ⟨rfl, -⟩ := walks_nil_iff.1 hw
      rw [hnone comp (by rw [hsplit]; rfl)] at hx
      cases hx
    · have hr : IsName r := hnames r (by rw [hsplit]; exact List.mem_cons_self)
      obtain ⟨y, -, -, -, hy, -⟩ := (walks_name_iff hr).1 hw
      rw [hnone r (by rw [hsplit]; rfl)] at hy
      cases hy
  | cons name pre ih =>
    intro pre' c hnames hdesc hw hsplit
    obtain ⟨y, hy, hrest⟩ := descend_cons.1 hdesc
    have hydir : (v.node y).kind.isDirectory = true := by
      rcases pre with - | ⟨name', pre⟩
      · obtain rfl := Option.some.inj hrest
        exact hlast
      · obtain ⟨z, hz, -⟩ := descend_cons.1 hrest
        exact isDirectory_of_child hz
    rcases pre' with - | ⟨r, pre'⟩
    · obtain ⟨rfl, -⟩ := walks_nil_iff.1 hw
      obtain ⟨rfl, -⟩ := List.cons_eq_cons.1 hsplit
      obtain rfl := Option.some.inj (hy.symm.trans hx)
      exact hydir
    · obtain ⟨rfl, hsplit'⟩ := List.cons_eq_cons.1 hsplit
      obtain ⟨y', z, m, m', hy', hfollow, hw', -⟩ :=
        (walks_name_iff (hnames name List.mem_cons_self)).1 hw
      obtain rfl := Option.some.inj (hy.symm.trans hy')
      obtain ⟨rfl, -⟩ := (follows_of_not_symlink (not_symlink_of_isDirectory hydir)).1 hfollow
      exact ih (fun name' h' ↦ hnames name' (List.mem_cons_of_mem _ h')) hrest hw' hsplit'

/-- The loop of `resolve` is a walk. -/
theorem resolveComps_eq_some_iff : v.resolveComps comps = some x ↔
    ∃ n, n ≤ maxSymlinkDepth ∧ Walks v v.root comps x n :=
  walkComps_eq_some_iff (fun _ _ ↦ follow_resolveInner_eq_some_iff) comps v.root

theorem SplitsAt.not_obstructs (h : SplitsAt v path pre missing last)
    (hdir : (v.node last).kind.isDirectory = true) (hup : ['.', '.'] ∉ pre ++ missing) :
    ¬ v.Obstructs path x := by
  intro hobs
  have hnot := hobs.not_isDirectory
  obtain ⟨pre', comp, post, d, hsplit, hres, hchild, -⟩ := hobs
  obtain ⟨n, -, hw⟩ := resolveComps_eq_some_iff.1 hres
  refine hnot (isDirectory_of_plain hdir h.missing hchild (fun name hname ↦ ?_) h.descend hw
    (h.comps.symm.trans hsplit))
  refine (counts_of_mem_significant (h.comps ▸ hname)).isName ?_
  rintro rfl
  exact hup hname

/-- Above an attached node there are only directories. -/
theorem isDirectory_of_isAncestor (hv : v.WellFormed) {a : NodeId}
    (h : v.descend v.root pre = some last) (ha : IsAncestor v.parentOf a last) :
    a = last ∨ (v.node a).kind.isDirectory = true := by
  induction pre using List.reverseRecOn generalizing last with
  | nil =>
    obtain rfl := Option.some.inj h
    obtain ⟨k, hk⟩ := ha
    rcases k with - | k
    · exact Or.inl (Option.some.inj hk).symm
    · rw [climb_succ, hv.root_parent] at hk
      cases hk
  | append_singleton init name ih =>
    obtain ⟨y, hinit, hy⟩ := descend_snoc.1 h
    obtain ⟨k, hk⟩ := ha
    rcases k with - | k
    · exact Or.inl (Option.some.inj hk).symm
    · rw [climb_succ_of_parent (hv.entry_parent hy)] at hk
      rcases ih hinit ⟨k, hk⟩ with rfl | hdir
      · exact Or.inr (isDirectory_of_child hy)
      · exact Or.inr hdir

/-- Nothing is created below an obstruction other than the last existing node. -/
theorem SplitsAt.not_isAncestor (h : SplitsAt v path pre missing last) (hv : v.WellFormed)
    (hobs : v.Obstructs path x) (hne : x ≠ last) {y : NodeId} (hy : v.nodes.length ≤ y)
    (hyw : y < (v.mkdirP now path perms uid gid).1.nodes.length) :
    ¬ IsAncestor (v.mkdirP now path perms uid gid).1.parentOf x y := by
  intro hanc
  have hlast := lt_of_descend hv hv.root_lt h.descend
  rcases (h.grows hv now perms uid gid).isAncestor hv hlast (mode_new_sIfDir _ _ _ _) hy hyw hanc
    with hnew | hold
  · obtain ⟨_, _, _, _, -, -, hchild, -⟩ := hobs
    exact absurd (hv.entry_lt hchild) (Nat.not_lt.2 hnew)
  · rcases isDirectory_of_isAncestor hv h.descend hold with rfl | hdir
    · exact hne rfl
    · exact hobs.not_isDirectory hdir

/-! ### When the contract is met -/

/-- On a plain path the contract is met, caps or not. -/
theorem SplitsAt.contract_of_plain (h : SplitsAt v path pre missing last) (hv : v.WellFormed)
    (hdir : (v.node last).kind.isDirectory = true) (hup : ['.', '.'] ∉ pre ++ missing) :
    MkdirPContract v now path perms uid gid := by
  have hgrow := h.grows hv now perms uid gid
  have hlast := lt_of_descend hv hv.root_lt h.descend
  obtain ⟨hend, hall⟩ := hgrow.attached hlast hdir h.descend
  refine ⟨fun id hid ↦ ?_, fun x hx ↦ absurd hx (h.not_obstructs hdir hup)⟩
  obtain ⟨hdesc, hiddir⟩ := hend id hid
  exact ⟨hiddir, resolve_of_descend h.comps hup hdesc (not_symlink_of_isDirectory hiddir), hall⟩

/-- Where the caps refuse what is missing and nothing is created below an obstruction, the contract
is met. -/
theorem SplitsAt.contract_of_refused (h : SplitsAt v path pre missing last) (hv : v.WellFormed)
    (hnone : (v.mkdirP now path perms uid gid).2 = none) (hobs : ¬ v.Obstructs path last) :
    MkdirPContract v now path perms uid gid := by
  refine ⟨fun id hid ↦ ?_, fun x hx ↦ ⟨hnone, fun y hy hyw ↦ ?_⟩⟩
  · rw [hnone] at hid
    cases hid
  · refine h.not_isAncestor hv hx ?_ hy hyw
    rintro rfl
    exact hobs hx

/-- **The exact condition for the contract of `mkdir_p`.** -/
theorem mkdirP_contract_iff (hv : v.WellFormed) :
    MkdirPContract v now path perms uid gid ↔ MkdirPSafe v path := by
  constructor
  · intro hcontract
    obtain ⟨pre, missing, last, h⟩ := exists_splitsAt v path
    refine ⟨pre, missing, last, h, ?_⟩
    have hgrow := h.grows hv now perms uid gid
    have hlast := lt_of_descend hv hv.root_lt h.descend
    have hmode := mode_new_sIfDir now perms uid gid
    have hw := hgrow.wellFormed hv hlast hmode
    by_cases hdir : (v.node last).kind.isDirectory = true
    · by_cases hup : ['.', '.'] ∈ pre ++ missing
      · -- with `..` in the path nothing may be returned, so the caps must have refused
        right
        have hnone : (v.mkdirP now path perms uid gid).2 = none := by
          rcases hres : (v.mkdirP now path perms uid gid).2 with - | id
          · rfl
          · have hdesc := ((hgrow.attached hlast hdir h.descend).1 id hres).1
            exact absurd hup (dotdot_not_mem_of_resolve hw (hcontract.made id hres).2.1 hdesc)
        obtain ⟨hne, hroom⟩ := (hgrow.eq_none_iff hv hlast hmode).1 hnone
        exact ⟨hne, Or.inr ⟨hroom, fun hobs ↦ hobs.not_isDirectory hdir⟩⟩
      · exact Or.inl ⟨hdir, hup⟩
    · have hne : missing ≠ [] := by
        rintro rfl
        obtain ⟨hsame, hres⟩ := hgrow.of_nil
        have hmade := (hcontract.made last hres).1
        rw [hsame] at hmade
        exact hdir hmade
      refine Or.inr ⟨hne, or_iff_not_imp_left.2 fun hfull ↦ ?_⟩
      obtain ⟨hlt, hparent⟩ := hgrow.of_not_full hlast hne hfull
      refine ⟨((hgrow.eq_none_iff hv hlast hmode).1 ?_).2, fun hobs ↦ ?_⟩
      · -- what is created below a node without entries cannot be resolved
        rcases hres : (v.mkdirP now path perms uid gid).2 with - | id
        · rfl
        · have hid := (named_of_resolve hw (hcontract.made id hres).2.1).attached
          obtain ⟨names, hnames⟩ :=
            hgrow.attached_of_attached hv hlast hmode (fun hd ↦ hdir hd.2) hid
          exact absurd (lt_of_descend hv hv.root_lt hnames)
            (Nat.not_lt.2 (hgrow.le_of_eq_some hne hres))
      · exact (hcontract.refused last hobs).2 _ le_rfl hlt
          (IsAncestor.of_parent hparent (IsAncestor.refl _ _))
  · rintro ⟨pre, missing, last, h, ⟨hdir, hup⟩ | ⟨hne, hfull | ⟨hroom, hobs⟩⟩⟩
    · exact h.contract_of_plain hv hdir hup
    · obtain ⟨hsame, hnone⟩ := (h.grows hv now perms uid gid).of_full hne hfull
      refine ⟨fun id hid ↦ ?_, fun x hx ↦ ⟨hnone, fun y hy hyw ↦ ?_⟩⟩
      · rw [hnone] at hid
        cases hid
      · rw [hsame] at hyw
        exact absurd hyw (Nat.not_lt.2 hy)
    · exact h.contract_of_refused hv (((h.grows hv _ _ _ _).eq_none_iff hv
        (lt_of_descend hv hv.root_lt h.descend) (mode_new_sIfDir _ _ _ _)).2 ⟨hne, hroom⟩) hobs

/-- On a fresh arena `/a/b` is created as the contract says. -/
theorem mkdirP_contract_fresh : MkdirPContract (new 0) 0 "/a/b".toList 0o755 0 0 :=
  (mkdirP_contract_iff (wellFormed_new 0)).2
    ⟨[], ["a".toList, "b".toList], 0, ⟨by decide, rfl, by decide +kernel⟩, Or.inl ⟨rfl, by decide⟩⟩

/-- Below the file `/f`, `mkdir_p` of `/f/x` returns a directory that `/f/x` does not lead to. -/
theorem mkdirP_below_file :
    ¬ ∀ (v : Vfs) (now : Timestamp) (path : Str) (perms uid gid : UInt32), v.WellFormed →
      path.head? = some '/' → MkdirPContract v now path perms uid gid := by
  intro h
  have hcontract := h ((Op.mutator (.addFile 0 0 "f".toList [] 0o644 0 0)).apply (new 0)) 0
    "/f/x".toList 0o755 0 0 (Op.wellFormed _ (by decide) (wellFormed_new 0)) rfl
  refine absurd (hcontract.made 2 (by decide +kernel)).2.1 ?_
  decide +kernel

end Vfs

end Mimic
