import Mathlib.Data.List.TakeWhile
import Mimic.Vfs.MkdirP

/-!
# Where a file ends up

An upload is placed by `mkdir_p` on the directory part of its path and `add_file` in what that
returns. Two texts name the result, the path the upload asked for and `path_of` the new node, and
both are read back by `resolve`.

* `path_of` an attached node is its entry path (`pathOf_of_descend`), and a text that is put
  together from entry names is taken apart into them (`significant_slash_joinSlash`).
* `add_file` in an attached directory makes its entry path lead to the file
  (`addFile_placed`), unless one of the caps refuses it (`Crowded`).
* `mkdir_p` and `add_file` together (`place`) do so on a **plain** directory path
  (`place_of_plain`): no `..`, and the last node that exists along it is a directory.
-/

namespace Mimic

open ParentForest

namespace Vfs

variable {v w : Vfs} {c x e p parent : NodeId} {name comp path : Str} {names rest : List Str}

/-! ### Path texts -/

/-- Names that can stand between two slashes of a path and be looked up. -/
def IsEntryName (name : Str) : Prop := IsName name ∧ '/' ∉ name

theorem slash_not_mem_of_mem_splitSlash (h : comp ∈ splitSlash path) : '/' ∉ comp :=
  Text.not_mem_of_mem_splitOn h

theorem significant_append (comps comps' : List Str) :
    significant (comps ++ comps') = significant comps ++ significant comps' :=
  List.filter_append ..

theorem IsName.counts (h : IsName name) : Counts name := fun hskip ↦ hskip.elim h.1 h.2.1

theorem significant_eq_self (h : ∀ name ∈ names, IsName name) : significant names = names :=
  List.filter_eq_self.2 fun name hname ↦ decide_eq_true (h name hname).counts

/-- Taking apart what was put together. -/
theorem splitSlash_slash_joinSlash (hne : names ≠ []) (h : ∀ name ∈ names, '/' ∉ name) :
    splitSlash ('/' :: joinSlash names) = [] :: names := by
  obtain ⟨name, names, rfl⟩ := List.exists_cons_of_ne_nil hne
  have hjoin : '/' :: joinSlash (name :: names) = joinSlash ([] :: name :: names) := by
    rw [joinSlash, joinSlash, List.intercalate_cons_cons]
    rfl
  rw [hjoin, joinSlash, splitSlash, List.splitOn_intercalate _ _ (List.cons_ne_nil _ _)]
  exact List.forall_mem_cons.2 ⟨List.not_mem_nil, h⟩

theorem significant_slash_joinSlash (h : ∀ name ∈ names, '/' ∉ name) :
    significant (splitSlash ('/' :: joinSlash names)) = significant names := by
  rcases eq_or_ne names [] with rfl | hne
  · decide
  · rw [splitSlash_slash_joinSlash hne h, significant_cons_of_skip (.inl rfl)]

/-- What `split_path` does, in terms of the last slash. -/
theorem splitPath_cases (path : Str) :
    ('/' ∉ path ∧ splitPath path = (['.'], path)) ∨
      ∃ dir name, path = dir ++ '/' :: name ∧ '/' ∉ name ∧
        splitPath path = (if dir = [] then ['/'] else dir, name) := by
  by_cases hmem : '/' ∈ path
  · right
    -- read backwards, the name ends at the first slash
    have hsplit := List.takeWhile_append_dropWhile (p := (· ≠ '/')) (l := path.reverse)
    set back := path.reverse.takeWhile (· ≠ '/') with hback
    have hslash : '/' ∉ back := fun h ↦ by simpa using List.mem_takeWhile_imp h
    rcases hdrop : path.reverse.dropWhile (· ≠ '/') with - | ⟨ch, front⟩
    · rw [hdrop, List.append_nil] at hsplit
      exact absurd (hsplit ▸ List.mem_reverse.2 hmem) hslash
    have hch : ch = '/' := by
      have hnot := List.head?_dropWhile_not (fun ch ↦ decide (ch ≠ '/')) path.reverse
      rw [hdrop] at hnot
      simpa using hnot
    rw [hdrop, hch] at hsplit
    have hpath : path = front.reverse ++ '/' :: back.reverse := by
      rw [← List.reverse_reverse path, ← hsplit]
      simp
    refine ⟨front.reverse, back.reverse, hpath, fun h ↦ hslash (List.mem_reverse.1 h), ?_⟩
    have htake : path.take (path.length - back.reverse.length - 1) = front.reverse := by
      conv_lhs => rw [hpath]
      refine List.take_left' ?_
      simp only [List.length_append, List.length_cons, List.length_reverse]
      omega
    rw [splitPath, if_pos hmem]
    dsimp only
    rw [← hback, htake]
  · exact .inl ⟨hmem, by rw [splitPath, if_neg hmem]⟩

theorem splitSlash_splitPath (h : '/' ∈ path) : ∃ dir, splitSlash path =
    splitSlash dir ++ [(splitPath path).2] ∧
      (splitPath path).1 = if dir = [] then ['/'] else dir := by
  rcases splitPath_cases path with ⟨hmem, -⟩ | ⟨dir, name, hpath, hname, hsplit⟩
  · exact absurd h hmem
  refine ⟨dir, ?_, by rw [hsplit]⟩
  rw [hsplit, hpath, splitSlash, List.splitOn_append_cons_self, List.splitOn_eq_singleton hname]
  rfl

/-- The last component of a path that was put together. -/
theorem splitPath_snd (h : ∀ name ∈ names, '/' ∉ name) :
    (splitPath ('/' :: joinSlash names)).2 = names.getLastD [] := by
  rcases eq_or_ne names [] with rfl | hne
  · decide
  · obtain ⟨dir, hsplit, -⟩ :=
      splitSlash_splitPath (List.mem_cons_self : '/' ∈ '/' :: joinSlash names)
    rw [splitSlash_slash_joinSlash hne h] at hsplit
    have hlast := congrArg (fun comps ↦ comps.getLastD []) hsplit
    rw [List.getLastD_concat, List.getLastD_cons] at hlast
    exact hlast.symm

/-- The components of an absolute path are those of its directory part and the last one. -/
theorem significant_splitPath (h : '/' ∈ path) : significant (splitSlash path) =
    significant (splitSlash (splitPath path).1) ++ significant [(splitPath path).2] := by
  obtain ⟨dir, hsplit, hdir⟩ := splitSlash_splitPath h
  have hsame : significant (splitSlash (if dir = [] then ['/'] else dir)) =
      significant (splitSlash dir) := by
    split
    · rename_i hnil
      rw [hnil]
      decide
    · rfl
  rw [hsplit, hdir, hsame, significant_append]

theorem head?_splitPath (h : path.head? = some '/') : (splitPath path).1.head? = some '/' := by
  rcases splitPath_cases path with ⟨hmem, -⟩ | ⟨dir, name, hpath, -, hsplit⟩
  · exact absurd (List.mem_of_head? h) hmem
  rw [hsplit]
  rcases dir with - | ⟨ch, dir⟩
  · rfl
  · rw [hpath] at h
    exact h

/-- An absolute path leads to a node of the arena. -/
theorem resolve_lt (hv : v.WellFormed) (habs : path.head? = some '/')
    (h : v.resolve c path = some x) : x < v.nodes.length := by
  rw [resolve, resolveInner, origin, if_pos habs] at h
  have hroot : v.resolve v.root path = some x := by
    rw [resolve, resolveInner, origin, if_pos habs]
    exact h
  obtain ⟨names, hnames⟩ := (named_of_resolve hv hroot).attached
  exact lt_of_descend hv hv.root_lt hnames

/-! ### The path of a node -/

/-- **`path_of` is the entry path.** -/
theorem pathOf_of_descend (hv : v.WellFormed) (h : v.descend v.root names = some x) :
    v.pathOf x = '/' :: joinSlash names := by
  -- climbing puts each name in front of those found before
  have hparts : ∀ fuel parts, names.length < fuel →
      v.pathParts fuel x parts = names ++ parts := by
    induction names using List.reverseRecOn generalizing x with
    | nil =>
      intro fuel parts hfuel
      obtain rfl := Option.some.inj h
      rcases fuel with - | fuel
      · omega
      · rw [pathParts, hv.root_parent]
        rfl
    | append_singleton init last ih =>
      intro fuel parts hfuel
      obtain ⟨y, hinit, hy⟩ := descend_snoc.1 h
      rw [List.length_append, List.length_singleton] at hfuel
      rcases fuel with - | fuel
      · omega
      rw [pathParts, hv.entry_parent hy]
      show v.pathParts fuel y _ = _
      rw [ih hinit fuel _ (by omega), hv.entry_name hy, List.append_assoc]
      rfl
  have hlt : names.length < v.nodes.length := by
    have hbelow := below_of_descend h
    exact lt_of_climb_root (fun _ _ ↦ hv.parent_lt) hv.root_parent (hbelow.lt hv hv.root_lt)
      (hbelow.climb hv)
  rw [pathOf, hparts _ _ hlt, List.append_nil]

/-! ### Adding a file -/

/-- A cap has no room for the file: the byte cap, or for a new entry the node or the depth cap. -/
def Crowded (v : Vfs) (parent : NodeId) (name : Str) (contents : Bytes) : Prop :=
  maxVfsBytes < v.contentBytes -
      ((v.child parent name).map fun id ↦ (v.node id).kind.contentLen).getD 0 + contents.length ∨
    (v.child parent name = none ∧ v.isFull parent = true)

instance (v : Vfs) (parent : NodeId) (name : Str) (contents : Bytes) :
    Decidable (v.Crowded parent name contents) :=
  inferInstanceAs (Decidable (_ ∨ _))

/-- The file `contents` is what the entry path `names` leads to, at the node `x`. -/
structure Placed (v : Vfs) (names : List Str) (contents : Bytes) (x : NodeId) : Prop where
  wellFormed : v.WellFormed
  descend : v.descend v.root names = some x
  kind : (v.node x).kind = .file contents

/-- Changing a node leaves the entry path of another node alone that does not lead through it. -/
theorem descend_modifyNode {f : Node → Node} (h : v.descend c names = some x)
    (hout : ∀ pre rest, names = pre ++ rest → rest ≠ [] → v.descend c pre ≠ some e) :
    (v.modifyNode e f).descend c names = some x := by
  induction names generalizing c with
  | nil => exact h
  | cons name names ih =>
    obtain ⟨y, hy, hrest⟩ := descend_cons.1 h
    have hne : c ≠ e := by
      rintro rfl
      exact hout [] (name :: names) rfl (List.cons_ne_nil _ _) rfl
    refine descend_cons.2 ⟨y, ?_, ih hrest fun pre rest hsplit hrest' hpre ↦ ?_⟩
    · rw [child_eq, node_modifyNode_of_ne hne, ← child_eq, hy]
    · exact hout (name :: pre) rest (by rw [hsplit]; rfl) hrest' (descend_cons.2 ⟨y, hy, hpre⟩)

section AddFile

variable {contents : Bytes} (now : Timestamp) (perms uid gid : UInt32)

theorem addFile_wellFormed (name : Str) (contents : Bytes) (hv : v.WellFormed)
    (hp : parent < v.nodes.length) :
    (v.addFile now parent name contents perms uid gid).1.WellFormed :=
  Op.wellFormed (.mutator (.addFile now parent name contents perms uid gid))
    (fun _ hid ↦ List.mem_singleton.1 hid ▸ hp) hv

/-- Entry paths do not depend on the byte count. -/
theorem descend_setContentBytes (v : Vfs) (bytes : ℕ) (c : NodeId) (names : List Str) :
    ({ v with contentBytes := bytes } : Vfs).descend c names = v.descend c names := by
  induction names generalizing c with
  | nil => rfl
  | cons name names ih =>
    rw [descend, descend, show ({ v with contentBytes := bytes } : Vfs).child c name =
      v.child c name from rfl]
    simp only [ih]

/-- Replacing what an entry holds by a file. -/
theorem addFile_eq_of_some (hroom : ¬ v.Crowded parent name contents)
    (he : v.child parent name = some e) :
    v.addFile now parent name contents perms uid gid =
      ({ v.modifyNode e (fun n ↦ { n with
            kind := .file contents
            metadata := Metadata.new now sIfReg perms uid gid }) with
          contentBytes := v.contentBytes - (v.node e).kind.contentLen + contents.length }, e) := by
  rw [Crowded, not_or, not_lt, he] at hroom
  rw [addFile, he]
  exact if_neg (not_lt.2 hroom.1)

/-- Entering a new file. -/
theorem addFile_eq_of_none (hp : parent < v.nodes.length)
    (hroom : ¬ v.Crowded parent name contents) (hnone : v.child parent name = none) :
    v.addFile now parent name contents perms uid gid =
      ({ v.graft parent name (.file contents) (Metadata.new now sIfReg perms uid gid) with
          contentBytes := v.contentBytes + contents.length }, v.nodes.length) := by
  rw [Crowded, not_or, not_lt, hnone] at hroom
  have hfull : ¬ v.isFull parent = true := fun hfull ↦ hroom.2 ⟨rfl, hfull⟩
  rw [addFile, hnone]
  refine (if_neg (not_lt.2 hroom.1)).trans ?_
  dsimp only
  rw [insert_eq, if_neg hfull]
  exact if_pos (Nat.ne_of_gt hp)

theorem addFile_placed_of_some (hv : v.WellFormed) (hdesc : v.descend v.root names = some parent)
    (hroom : ¬ v.Crowded parent name contents) (he : v.child parent name = some e) :
    Placed (v.addFile now parent name contents perms uid gid).1 (names ++ [name]) contents e := by
  have hw := addFile_wellFormed now perms uid gid name contents hv
    (lt_of_descend hv hv.root_lt hdesc)
  rw [addFile_eq_of_some now perms uid gid hroom he] at hw ⊢
  refine ⟨hw, ?_, ?_⟩
  · have hlong : v.descend v.root (names ++ [name]) = some e := descend_snoc.2 ⟨parent, hdesc, he⟩
    refine (descend_setContentBytes _ _ _ _).trans ?_
    refine descend_modifyNode hlong fun pre rest hsplit hrest hpre ↦ hrest ?_
    -- a node has one entry path only
    have hall := descend_unique hv hpre hlong
    rw [hall, List.self_eq_append_right] at hsplit
    exact hsplit
  · show ((v.modifyNode e _).node e).kind = _
    rw [node_modifyNode_self (hv.entry_lt he)]

theorem addFile_placed_of_none (hv : v.WellFormed) (hdesc : v.descend v.root names = some parent)
    (hdir : (v.node parent).kind.isDirectory = true) (hroom : ¬ v.Crowded parent name contents)
    (hnone : v.child parent name = none) :
    Placed (v.addFile now parent name contents perms uid gid).1 (names ++ [name]) contents
      v.nodes.length := by
  have hparent := lt_of_descend hv hv.root_lt hdesc
  have hw := addFile_wellFormed now perms uid gid name contents hv hparent
  rw [addFile_eq_of_none now perms uid gid hparent hroom hnone] at hw ⊢
  refine ⟨hw, ?_, ?_⟩
  · refine (descend_setContentBytes _ _ _ _).trans ?_
    refine descend_snoc.2 ⟨parent, descend_mono (fun d name' c hc ↦ ?_) hdesc, ?_⟩
    · rw [child_graft hparent rfl, if_neg]
      · exact hc
      · rintro ⟨rfl, rfl, -⟩
        rw [hnone] at hc
        cases hc
    · rw [child_graft hparent rfl, if_pos ⟨rfl, rfl, hdir⟩]
  · show ((v.graft parent name _ _).node v.nodes.length).kind = _
    rw [node_graft_self hparent]

/-- **`add_file` in an attached directory**: unless a cap refuses it, the file is at its entry
path. -/
theorem addFile_placed (hv : v.WellFormed) (hdesc : v.descend v.root names = some parent)
    (hdir : (v.node parent).kind.isDirectory = true) (hroom : ¬ v.Crowded parent name contents) :
    (v.addFile now parent name contents perms uid gid).2 ≠ parent ∧
      Placed (v.addFile now parent name contents perms uid gid).1 (names ++ [name]) contents
        (v.addFile now parent name contents perms uid gid).2 := by
  have hparent := lt_of_descend hv hv.root_lt hdesc
  rcases hchild : v.child parent name with - | e
  · have hplaced := addFile_placed_of_none now perms uid gid hv hdesc hdir hroom hchild
    rw [addFile_eq_of_none now perms uid gid hparent hroom hchild] at hplaced ⊢
    exact ⟨Nat.ne_of_gt hparent, hplaced⟩
  · have hplaced := addFile_placed_of_some now perms uid gid hv hdesc hroom hchild
    rw [addFile_eq_of_some now perms uid gid hroom hchild] at hplaced ⊢
    exact ⟨ne_of_child hv hchild, hplaced⟩

end AddFile

/-! ### Making the directory and adding the file -/

/-- No component of the path is `..`, and the last node that exists along it is a directory. -/
def Plain (v : Vfs) (path : Str) : Prop :=
  ∃ pre missing last, SplitsAt v path pre missing last ∧
    (v.node last).kind.isDirectory = true ∧ ['.', '.'] ∉ pre ++ missing

/-- `mkdir_p` and then `add_file` in what it returns. -/
def place (v : Vfs) (now : Timestamp) (dir name : Str) (contents : Bytes) (perms uid gid : UInt32) :
    Vfs × Option NodeId :=
  match (v.mkdirP now dir 0o755 uid gid).2 with
  | none => ((v.mkdirP now dir 0o755 uid gid).1, none)
  | some parent =>
    let added :=
      (v.mkdirP now dir 0o755 uid gid).1.addFile now parent name contents perms uid gid
    (added.1, if added.2 = parent then none else some added.2)

/-- A cap has no room for the directories along `dir`, or then for the file. -/
def Refused (v : Vfs) (now : Timestamp) (dir name : Str) (contents : Bytes) (uid gid : UInt32) :
    Prop :=
  match (v.mkdirP now dir 0o755 uid gid).2 with
  | none => True
  | some parent => (v.mkdirP now dir 0o755 uid gid).1.Crowded parent name contents

instance (v : Vfs) (now : Timestamp) (dir name : Str) (contents : Bytes) (uid gid : UInt32) :
    Decidable (v.Refused now dir name contents uid gid) :=
  match h : (v.mkdirP now dir 0o755 uid gid).2 with
  | none => isTrue (by rw [Refused, h]; trivial)
  | some parent =>
    decidable_of_iff ((v.mkdirP now dir 0o755 uid gid).1.Crowded parent name contents)
      (by rw [Refused, h])

/-- The text `path`, resolved from the root, is a file with these contents. -/
def Landed (v : Vfs) (path : Str) (contents : Bytes) : Prop :=
  ∃ x, v.resolve v.root path = some x ∧ (v.node x).kind = .file contents

theorem not_landed_of_resolve_eq_none {contents : Bytes} (h : v.resolve v.root path = none) :
    ¬ v.Landed path contents := by
  rintro ⟨x, hx, -⟩
  rw [h] at hx
  cases hx

section Place

variable {contents : Bytes} {dir : Str} (now : Timestamp) (perms uid gid : UInt32)

theorem mkdirP_wellFormed (dir : Str) (hv : v.WellFormed) :
    (v.mkdirP now dir perms uid gid).1.WellFormed :=
  Op.wellFormed (.mkdirP now dir perms uid gid) (fun _ h ↦ absurd h List.not_mem_nil) hv

/-- What `mkdir_p` returns is in range. -/
theorem mkdirP_snd_lt (hv : v.WellFormed) (h : (v.mkdirP now dir perms uid gid).2 = some p) :
    p < (v.mkdirP now dir perms uid gid).1.nodes.length := by
  obtain ⟨pre, missing, last, hsplit⟩ := exists_splitsAt v dir
  exact (hsplit.grows hv now perms uid gid).lt_of_eq_some
    (lt_of_descend hv hv.root_lt hsplit.descend) h

/-- Placing a file is one operation of the filesystem or two. -/
theorem place_ops (hv : v.WellFormed) (dir name : Str) (contents : Bytes) :
    ∃ ops, GuardedRun.Admissible Op.apply Op.InRange v ops ∧
      (v.place now dir name contents perms uid gid).1 = GuardedRun.run Op.apply v ops := by
  rw [place]
  split
  · exact ⟨[.mkdirP now dir 0o755 uid gid], ⟨fun _ h ↦ absurd h List.not_mem_nil, trivial⟩, rfl⟩
  · rename_i parent hparent
    refine ⟨[.mkdirP now dir 0o755 uid gid,
      .mutator (.addFile now parent name contents perms uid gid)],
      ⟨fun _ h ↦ absurd h List.not_mem_nil, ?_, trivial⟩, rfl⟩
    exact List.forall_mem_singleton.2 (mkdirP_snd_lt now 0o755 uid gid hv hparent)

/-- **On a plain directory path the file is placed**, unless a cap refuses it. -/
theorem place_of_plain (hv : v.WellFormed) (hplain : v.Plain dir)
    (hroom : ¬ v.Refused now dir name contents uid gid) :
    ∃ x, (v.place now dir name contents perms uid gid).2 = some x ∧
      Placed (v.place now dir name contents perms uid gid).1
        (significant (splitSlash dir) ++ [name]) contents x := by
  rw [Refused] at hroom
  rw [place]
  rcases hmade : (v.mkdirP now dir 0o755 uid gid).2 with - | parent
  · rw [hmade] at hroom
    exact absurd trivial hroom
  rw [hmade] at hroom
  obtain ⟨pre, missing, last, hsplit, hdir, -⟩ := hplain
  have hlast := lt_of_descend hv hv.root_lt hsplit.descend
  have hgrow := hsplit.grows hv now 0o755 uid gid
  obtain ⟨hdesc, hpdir⟩ := (hgrow.attached hlast hdir hsplit.descend).1 parent hmade
  obtain ⟨hne, hplaced⟩ := addFile_placed now perms uid gid
    (hgrow.wellFormed hv hlast (mode_new_sIfDir _ _ _ _)) hdesc hpdir hroom
  refine ⟨_, if_neg hne, ?_⟩
  rw [hsplit.comps]
  exact hplaced

end Place

variable {contents : Bytes}

/-- A placed file is where its entry path, as a text, leads. -/
theorem Placed.landed (h : Placed v names contents x)
    (hcomps : significant (splitSlash path) = names) (hup : ['.', '.'] ∉ names) :
    v.Landed path contents := by
  refine ⟨x, resolve_of_descend hcomps hup h.descend fun target ↦ ?_, h.kind⟩
  rw [h.kind]
  exact NodeKind.noConfusion

/-- A placed file is where `path_of` says it is. -/
theorem Placed.landed_pathOf (h : Placed v names contents x)
    (hnames : ∀ name ∈ names, IsName name ∧ '/' ∉ name) : v.Landed (v.pathOf x) contents := by
  refine h.landed ?_ fun hmem ↦ (hnames _ hmem).1.2.2 rfl
  rw [pathOf_of_descend h.wellFormed h.descend,
    significant_slash_joinSlash fun name hname ↦ (hnames name hname).2,
    significant_eq_self fun name hname ↦ (hnames name hname).1]

end Vfs

end Mimic
