import Mimic.Commands.Glob
import Mimic.Commands.Grep
import Mimic.Vfs.EntryNames
import Mimic.Vfs.Paths
import Mimic.Vfs.Traversal

/-!
# `find` and `du`

Both commands of `commands/fs.rs` go over a tree and print lines for its nodes, each under a path
that is put together on the way down. `find` prints a node in front of its entries, `du` behind
them, when it knows what they add up to. What they print is a list of lines over the tree of the
node that they start at (`find_eq`, `du_eq`).
-/

namespace Mimic

namespace Interp

namespace TreeLists

open Vfs

/-! ### `find` -/

/-- What `find` looks for, and where. -/
structure FindArgs where
  start : Str
  name : Option Str
  type : Option Char
  firstOperand : Bool

/-- The loop of `find` over its arguments. -/
def findArgs (o : FindArgs) : List Str → FindArgs
  | [] => o
  | arg :: args =>
    if arg = "-name".toList ∨ arg = "-iname".toList then
      match args with
      | [] => { o with name := none }
      | pattern :: args => findArgs { o with name := some pattern } args
    else if arg = "-type".toList then
      match args with
      | [] => { o with type := none }
      | type :: args => findArgs { o with type := type.head? } args
    else if arg = "-maxdepth".toList ∨ arg = "-mindepth".toList then
      match args with
      | [] => o
      | _ :: args => findArgs o args
    else if o.firstOperand ∧ arg.head? ≠ some '-' then
      findArgs { o with start := arg, firstOperand := false } args
    else findArgs o args

/-- Whether a node, found under a path, is one to print. -/
def wanted (o : FindArgs) (n : Node) (path : Str) : Bool :=
  let base := if n.name = [] then path else n.name
  let typeOk :=
    if o.type = some 'd' then n.metadata.isDir else if o.type = some 'f' then !n.metadata.isDir
    else true
  let nameOk := o.name.all fun p ↦ Glob.globMatch (Text.toUtf8 p) (Text.toUtf8 base) == some true
  typeOk && nameOk

/-- `find_walk`, as many levels down as there are left. -/
def findWalk (v : Vfs) (o : FindArgs) : ℕ → NodeId → Str → Str → Str
  | 0, _, _, out => out
  | levels + 1, id, path, out =>
    let out := if wanted o (v.node id) path then out ++ path ++ ['\n'] else out
    if (v.node id).metadata.isDir then
      match v.entries id with
      | none => out
      | some entries =>
        entries.foldl (fun out e ↦ findWalk v o levels e.2 (Grep.childPath path e.1) out) out
    else out

/-- `find [PATH] [-name PATTERN] [-type f|d]` -/
def find (args : List Str) (s : Shell) : CommandResult :=
  let o := findArgs ⟨['.'], none, none, true⟩ args
  match s.vfs.resolve s.cwd o.start with
  | none => .err ("find: '".toList ++ o.start ++ "': No such file or directory\n".toList) 1
  | some root => .ok (findWalk s.vfs o (s.vfs.nodes.length + 1) root o.start [])

/-! ### `du` -/

/-- The options of `du`. -/
structure DuFlags where
  summarise : Bool
  human : Bool
  all : Bool
  unit : ℕ
  maxDepth : Option ℕ

/-- A bundled short option. -/
def duFlag (flags : DuFlags) (c : Char) : DuFlags :=
  if c = 's' then { flags with summarise := true }
  else if c = 'h' then { flags with human := true }
  else if c = 'a' then { flags with all := true }
  else if c = 'k' then { flags with unit := 1024 }
  else if c = 'm' then { flags with unit := 1024 * 1024 }
  else flags

/-- The options and operands of `du`. -/
def duArgs (flags : DuFlags) (operands : List Str) : List Str → DuFlags × List Str
  | [] => (flags, operands)
  | arg :: args =>
    if arg = "-d".toList ∨ arg = "--max-depth".toList then
      match args with
      | [] => ({ flags with maxDepth := none }, operands)
      | depth :: args => duArgs { flags with maxDepth := parseUsize depth } operands args
    else if arg = "--summarize".toList then duArgs { flags with summarise := true } operands args
    else if arg = "--human-readable".toList then duArgs { flags with human := true } operands args
    else if arg = "--all".toList then duArgs { flags with all := true } operands args
    else if "--max-depth=".toList <+: arg then
      duArgs { flags with maxDepth := parseUsize (arg.drop "--max-depth=".length) } operands args
    else if "--".toList <+: arg then duArgs flags operands args
    else if arg.head? = some '-' ∧ 1 < arg.length then
      duArgs ((arg.drop 1).foldl duFlag flags) operands args
    else duArgs flags (operands ++ [arg]) args

/-- `allocated_kib`: the disk space of a node. -/
def allocatedKib (now : Timestamp) (n : Node) : ℕ :=
  match n.kind with
  | .file contents => (contents.length + 4095) / 4096 * 4
  | .dynamicFile generator => ((generator now).length + 4095) / 4096 * 4
  | .directory _ => 4
  | .symlink _ => 0

/-- The path of an entry of a directory. -/
def duBelow (path name : Str) : Str :=
  if path.getLast? = some '/' then path ++ name else path ++ '/' :: name

section Du

variable (humanSize : ℕ → Str) (now : Timestamp) (v : Vfs) (flags : DuFlags)

/-- The line of a node so many levels down that takes so much space, if there is one. -/
def duLine (isDir : Bool) (depth total : ℕ) (path : Str) : Str :=
  let tooDeep := flags.maxDepth.any (· < depth)
  let visible := if flags.summarise then depth == 0 else !tooDeep && (isDir || flags.all)
  if visible then
    let size := if flags.human then humanSize (total * 1024)
      else Text.decimal (total * 1024 / flags.unit)
    size ++ '\t' :: path ++ ['\n']
  else []

/-- `du_walk`, as many levels down as there are left. -/
def duWalk : ℕ → NodeId → Str → ℕ → Str → ℕ × Str
  | 0, _, _, _, out => (0, out)
  | levels + 1, id, path, depth, out =>
    let own := allocatedKib now (v.node id)
    let isDir := (v.node id).metadata.isDir
    let (total, out) :=
      if isDir then
        ((v.entries id).getD []).foldl (fun acc e ↦
          let (sub, out) := duWalk levels e.2 (duBelow path e.1) (depth + 1) acc.2
          (acc.1 + sub, out)) (own, out)
      else (own, out)
    (total, out ++ duLine humanSize flags isDir depth total path)

end Du

/-- One operand of `du`. -/
def duOne (humanSize : ℕ → Str) (now : Timestamp) (s : Shell) (flags : DuFlags)
    (r : Readers.Report) (path : Str) : Readers.Report :=
  match s.vfs.resolve s.cwd path with
  | none =>
    r.complain ("du: cannot access '".toList ++ path ++ "': No such file or directory\n".toList)
  | some id =>
    { r with
      out := (duWalk humanSize now s.vfs flags (s.vfs.nodes.length + 1) id path 0 r.out).2 }

/-- `du [-s] [-h] [-a] [-k|-m] [--max-depth=N] [FILE...]` -/
def du (humanSize : ℕ → Str) (now : Timestamp) (args : List Str) (s : Shell) : CommandResult :=
  let (flags, operands) := duArgs ⟨false, false, false, 1024, none⟩ [] args
  let operands := if operands = [] then [['.']] else operands
  (operands.foldl (duOne humanSize now s flags) .start).result

/-! ### What `find` prints -/

variable {v : Vfs} {s : Shell} {x id : NodeId} {path out : Str} {levels depth : ℕ} {o : FindArgs}
  {humanSize : ℕ → Str} {now : Timestamp} {flags : DuFlags}

/-- The nodes of a tree that are wanted, each under its path. -/
def findings (v : Vfs) (o : FindArgs) (path : Str) (nodes : List (List Str × NodeId)) :
    List (Str × NodeId) :=
  (nodes.map fun at' ↦ (at'.1.foldl Grep.childPath path, at'.2)).filter fun found ↦
    wanted o (v.node found.2) found.1

/-- Lines of text. -/
def unlines (lines : List Str) : Str := lines.flatMap (· ++ ['\n'])

theorem unlines_append (lines lines' : List Str) :
    unlines (lines ++ lines') = unlines lines ++ unlines lines' := List.flatMap_append

theorem findings_cons (v : Vfs) (o : FindArgs) (path : Str) (x : NodeId)
    (entries : List (Str × NodeId)) (nodes : NodeId → List (List Str × NodeId)) :
    findings v o path (([], x) :: entries.flatMap fun e ↦
        (nodes e.2).map fun at' ↦ (e.1 :: at'.1, at'.2)) =
      (if wanted o (v.node x) path then [(path, x)] else []) ++
        entries.flatMap fun e ↦ findings v o (Grep.childPath path e.1) (nodes e.2) := by
  rw [findings, List.map_cons, List.filter_cons]
  simp only [findings, List.foldl_nil, List.map_flatMap, List.map_map, List.filter_flatMap,
    Function.comp_def, List.foldl_cons]
  split <;> rfl

theorem findWalk_eq (hv : v.WellFormed) (o : FindArgs) (levels : ℕ) (id : NodeId)
    (path out : Str) : findWalk v o levels id path out =
      out ++ unlines ((findings v o path (v.preorder levels id)).map Prod.fst) := by
  induction levels generalizing id path out with
  | zero => exact (List.append_nil out).symm
  | succ levels ih =>
    have hentries : ∀ (entries : List (Str × NodeId)) out,
        entries.foldl (fun out e ↦ findWalk v o levels e.2 (Grep.childPath path e.1) out) out =
          out ++ unlines ((entries.flatMap fun e ↦
            findings v o (Grep.childPath path e.1) (v.preorder levels e.2)).map Prod.fst) := by
      intro entries
      induction entries with
      | nil => exact fun out ↦ (List.append_nil out).symm
      | cons e entries ihe =>
        intro out
        rw [List.foldl_cons, ih, ihe, List.flatMap_cons, List.map_append, unlines_append,
          List.append_assoc]
    have hself : (if wanted o (v.node id) path then out ++ path ++ ['\n'] else out) =
        out ++ unlines (if wanted o (v.node id) path then [path] else []) := by
      split
      · rw [List.append_assoc, unlines, List.flatMap_singleton]
      · exact (List.append_nil out).symm
    rw [findWalk, preorder, findings_cons, List.map_append, unlines_append, hself,
      ← List.append_assoc, apply_ite (List.map Prod.fst)]
    by_cases hdir : (v.node id).metadata.isDir = true
    · rw [if_pos hdir]
      rcases hsome : v.entries id with - | entries
      · exact (List.append_nil _).symm
      · exact hentries entries _
    · rw [if_neg hdir, entries_eq_none hv hdir]
      exact (List.append_nil _).symm

/-! ### Where the paths lead -/

theorem head?_childPath {name : Str} (h : path ≠ []) :
    (Grep.childPath path name).head? = path.head? := by
  rw [Grep.childPath]
  rcases htrim : Text.trimEndMatches '/' path with - | ⟨ch, front⟩
  · -- nothing but slashes
    have hall : ∀ c ∈ path, c = '/' := fun c hc ↦ by
      have hdrop : path.reverse.dropWhile (· == '/') = [] := List.reverse_eq_nil_iff.mp htrim
      exact beq_iff_eq.mp (List.dropWhile_eq_nil_iff.mp hdrop c (List.mem_reverse.mpr hc))
    obtain ⟨c, rest, rfl⟩ := List.exists_cons_of_ne_nil h
    rw [hall c List.mem_cons_self]
    rfl
  · have hfront : Text.trimEndMatches '/' path <+: path := by
      rw [← List.reverse_suffix, Text.trimEndMatches, List.reverse_reverse]
      exact List.dropWhile_suffix _
    obtain ⟨rest, hrest⟩ := hfront
    rw [← hrest, htrim]
    rfl

/-- **The path of an entry leads to the entry**, unless that is a link. -/
theorem resolve_childPath {start d c : NodeId} {name : Str} (hpath : path ≠ [])
    (hd : v.resolve start path = some d) (hname : IsEntryName name)
    (hchild : v.child d name = some c) (hlink : ∀ target, (v.node c).kind ≠ .symlink target) :
    v.resolve start (Grep.childPath path name) = some c := by
  have hcomps : significant (splitSlash (Grep.childPath path name)) =
      significant (splitSlash path) ++ [name] := by
    have hsplit : splitSlash name = [name] := List.splitOn_eq_singleton hname.2
    rw [Grep.childPath, splitSlash, List.splitOn_append_cons_self, significant_append,
      ← splitSlash, significant_trimEndMatches, ← splitSlash, hsplit,
      significant_eq_self fun _ h ↦ (List.mem_singleton.mp h) ▸ hname.1]
  have horigin : v.origin start (Grep.childPath path name) = v.origin start path := by
    rw [origin, origin, head?_childPath hpath]
  rw [resolve, resolveInner, ← walkComps_significant] at hd ⊢
  have hfollow : v.follow (v.resolveInner maxSymlinkDepth) c = some c := by
    rw [follow]
    split
    · exact absurd ‹_› (hlink _)
    · rfl
  rw [hcomps, horigin, walkComps_append, hd, Option.bind_some, walkComps,
    if_neg fun h ↦ h.elim hname.1.1 hname.1.2.1, if_neg hname.1.2.2, hchild]
  simp only [hfollow, walkComps]

theorem resolve_foldl_childPath {start d y : NodeId} {rel : List Str}
    (hnames : EntriesIn IsEntryName v) (hpath : path ≠ []) (hd : v.resolve start path = some d)
    (hdesc : v.descend d rel = some y) (hlink : ∀ target, (v.node y).kind ≠ .symlink target) :
    v.resolve start (rel.foldl Grep.childPath path) = some y := by
  induction rel generalizing path d with
  | nil =>
    rw [← Option.some.inj hdesc]
    exact hd
  | cons name rel ih =>
    obtain ⟨c, hchild, hrest⟩ := descend_cons.mp hdesc
    have hc : ∀ target, (v.node c).kind ≠ .symlink target := by
      rcases rel with - | ⟨next, rel⟩
      · rwa [Option.some.inj hrest]
      · obtain ⟨z, hz, -⟩ := descend_cons.mp hrest
        exact not_symlink_of_isDirectory (isDirectory_of_child hz)
    exact ih (List.append_ne_nil_of_right_ne_nil _ (List.cons_ne_nil _ _))
      (resolve_childPath hpath hd (hnames d name c hchild) hchild hc) hrest

/-- What the nodes of a tree take together. -/
def usage (now : Timestamp) (v : Vfs) (x : NodeId) : ℕ :=
  ((v.tree x).map fun at' ↦ allocatedKib now (v.node at'.2)).sum

/-- **A node takes what it takes itself and what its entries take.** -/
theorem usage_eq (hv : v.WellFormed) (hx : x < v.nodes.length) :
    usage now v x = allocatedKib now (v.node x) +
      (((v.entries x).getD []).map fun e ↦ usage now v e.2).sum := by
  rw [usage, tree_eq hv hx, List.map_cons, List.sum_cons, List.map_flatMap, List.flatMap_def,
    List.sum_flatten]
  simp only [List.map_map, Function.comp_def]
  rfl

/-- The lines for the nodes of a tree, each under its path. -/
def duLines (humanSize : ℕ → Str) (now : Timestamp) (v : Vfs) (flags : DuFlags) (depth : ℕ)
    (path : Str) (nodes : List (List Str × NodeId)) : Str :=
  nodes.flatMap fun at' ↦ duLine humanSize flags (v.node at'.2).metadata.isDir
    (depth + at'.1.length) (usage now v at'.2) (at'.1.foldl duBelow path)

theorem duLines_entries (entries : List (Str × NodeId))
    (nodes : NodeId → List (List Str × NodeId)) :
    duLines humanSize now v flags depth path (entries.flatMap fun e ↦
        (nodes e.2).map fun at' ↦ (e.1 :: at'.1, at'.2)) =
      entries.flatMap fun e ↦
        duLines humanSize now v flags (depth + 1) (duBelow path e.1) (nodes e.2) := by
  simp only [duLines, List.flatMap_assoc, List.flatMap_map, List.length_cons, List.foldl_cons,
    Nat.add_assoc, Nat.add_comm 1]

theorem duWalk_eq (hv : v.WellFormed) (humanSize : ℕ → Str) (now : Timestamp) (flags : DuFlags)
    {id : NodeId} (hid : id < v.nodes.length)
    (hdeep : ∀ rel y, v.descend id rel = some y → rel.length < levels) (path : Str) (depth : ℕ)
    (out : Str) : duWalk humanSize now v flags levels id path depth out =
      (usage now v id,
        out ++ duLines humanSize now v flags depth path (v.postorder levels id)) := by
  induction levels generalizing id path depth out with
  | zero => exact absurd (hdeep [] id descend_nil) (Nat.not_lt_zero _)
  | succ levels ih =>
    have hentries : ∀ (entries : List (Str × NodeId)),
        (∀ e ∈ entries, v.child id e.1 = some e.2) → ∀ acc : ℕ × Str,
        entries.foldl (fun acc e ↦
          (acc.1 +
              (duWalk humanSize now v flags levels e.2 (duBelow path e.1) (depth + 1) acc.2).1,
            (duWalk humanSize now v flags levels e.2 (duBelow path e.1) (depth + 1) acc.2).2)) acc =
          (acc.1 + (entries.map fun e ↦ usage now v e.2).sum,
            acc.2 ++ entries.flatMap fun e ↦ duLines humanSize now v flags (depth + 1)
              (duBelow path e.1) (v.postorder levels e.2)) := by
      intro entries hchild
      induction entries with
      | nil => exact fun acc ↦ by simp
      | cons e entries ihe =>
        intro acc
        have he := hchild e List.mem_cons_self
        rw [List.foldl_cons, ih (hv.entry_lt he) fun rel y hy ↦
          Nat.lt_of_succ_lt_succ (hdeep (e.1 :: rel) y (descend_cons.mpr ⟨_, he, hy⟩)),
          ihe fun e' he' ↦ hchild e' (List.mem_cons_of_mem e he')]
        simp only [List.map_cons, List.sum_cons, List.flatMap_cons, List.append_assoc,
          Nat.add_assoc]
    have hacc : (if (v.node id).metadata.isDir then
        ((v.entries id).getD []).foldl (fun acc e ↦
          (acc.1 + (duWalk humanSize now v flags levels e.2 (duBelow path e.1) (depth + 1) acc.2).1,
            (duWalk humanSize now v flags levels e.2 (duBelow path e.1) (depth + 1) acc.2).2))
          (allocatedKib now (v.node id), out)
        else (allocatedKib now (v.node id), out)) =
        (usage now v id, out ++ ((v.entries id).getD []).flatMap fun e ↦
          duLines humanSize now v flags (depth + 1) (duBelow path e.1)
            (v.postorder levels e.2)) := by
      rw [usage_eq hv hid]
      split
      · exact hentries _ (fun e he ↦ mem_entries_iff.mp he) _
      · rw [entries_eq_none hv ‹_›]
        exact Prod.ext rfl (List.append_nil out).symm
    have hself : duLines humanSize now v flags depth path [([], id)] =
        duLine humanSize flags (v.node id).metadata.isDir depth (usage now v id) path :=
      List.flatMap_singleton _ _
    rw [postorder, duLines, List.flatMap_append]
    show _ = (_, out ++ (duLines humanSize now v flags depth path _ ++
      duLines humanSize now v flags depth path [([], id)]))
    rw [duLines_entries, hself, ← List.append_assoc]
    simp only [duWalk]
    rw [hacc]

/-- The nodes of a tree, each behind what is below it. -/
def entriesFirst (v : Vfs) (x : NodeId) : List (List Str × NodeId) :=
  v.postorder (v.nodes.length + 1) x

/-- What `du` prints for an operand. -/
def duOut (humanSize : ℕ → Str) (now : Timestamp) (s : Shell) (flags : DuFlags) (path : Str) :
    Str :=
  match s.vfs.resolve s.cwd path with
  | none => []
  | some id => duLines humanSize now s.vfs flags 0 path (entriesFirst s.vfs id)

/-- What it complains about. -/
def duErr (s : Shell) (path : Str) : Str :=
  match s.vfs.resolve s.cwd path with
  | none => "du: cannot access '".toList ++ path ++ "': No such file or directory\n".toList
  | some _ => []

/-- One operand. -/
theorem duOne_eq (hv : s.vfs.WellFormed) (hcwd : s.cwd < s.vfs.nodes.length)
    (humanSize : ℕ → Str) (now : Timestamp) (flags : DuFlags) (r : Readers.Report) (path : Str) :
    duOne humanSize now s flags r path = ⟨r.out ++ duOut humanSize now s flags path,
      r.errs ++ duErr s path,
      if (s.vfs.resolve s.cwd path).isNone then 1 else r.status⟩ := by
  rw [duOne, duOut, duErr]
  rcases hres : s.vfs.resolve s.cwd path with - | id
  · rw [List.append_nil]
    rfl
  · have hid := lt_of_resolve hv hcwd hres
    have hdeep : ∀ rel y, s.vfs.descend id rel = some y →
        rel.length < s.vfs.nodes.length + 1 := fun rel y hy ↦
      Nat.lt_succ_of_lt (length_lt_of_descend hv hid hy)
    simp only [duWalk_eq hv humanSize now flags hid hdeep, List.append_nil]
    rfl

theorem foldl_duOne (hv : s.vfs.WellFormed) (hcwd : s.cwd < s.vfs.nodes.length)
    (humanSize : ℕ → Str) (now : Timestamp) (flags : DuFlags) (operands : List Str)
    (r : Readers.Report) : operands.foldl (duOne humanSize now s flags) r =
      ⟨r.out ++ operands.flatMap (duOut humanSize now s flags),
        r.errs ++ operands.flatMap (duErr s),
        if operands.any fun path ↦ (s.vfs.resolve s.cwd path).isNone then 1 else r.status⟩ := by
  induction operands generalizing r with
  | nil => simp
  | cons path operands ih =>
    rw [List.foldl_cons, duOne_eq hv hcwd, ih, List.any_cons]
    simp only [List.flatMap_cons, List.append_assoc]
    rcases (s.vfs.resolve s.cwd path).isNone <;> simp

/-- `-s` leaves the line of the node that the walk starts at. -/
theorem duLines_entriesFirst (hsum : flags.summarise = true) (x : NodeId) :
    duLines humanSize now v flags 0 path (entriesFirst v x) =
      duLine humanSize flags true 0 (usage now v x) path := by
  have hbelow : ∀ (entries : List (Str × NodeId)) (nodes : NodeId → List (List Str × NodeId)),
      duLines humanSize now v flags 0 path (entries.flatMap fun e ↦
        (nodes e.2).map fun at' ↦ (e.1 :: at'.1, at'.2)) = [] := by
    intro entries nodes
    rw [duLines_entries, List.flatMap_eq_nil_iff]
    intro e _
    rw [duLines, List.flatMap_eq_nil_iff]
    intro at' _
    rw [duLine, hsum]
    simp
  rw [entriesFirst, postorder, duLines, List.flatMap_append]
  show duLines humanSize now v flags 0 path _ ++ duLines humanSize now v flags 0 path [([], x)] = _
  rw [hbelow, List.nil_append, duLines, List.flatMap_singleton, duLine, duLine, hsum]
  rfl

/-- **What `du` prints.** For each operand there are lines for the nodes of its tree, for each of
them behind those for what is below it; the space in a line is what all the nodes of that tree take
together. With `-s` there is the line of the operand only, and it says the same. -/
theorem du_eq (hv : s.vfs.WellFormed) (hcwd : s.cwd < s.vfs.nodes.length) (humanSize : ℕ → Str)
    (now : Timestamp) (args : List Str) :
    let parsed := duArgs ⟨false, false, false, 1024, none⟩ [] args
    let operands := if parsed.2 = [] then [['.']] else parsed.2
    du humanSize now args s = .streams
      (operands.flatMap (duOut humanSize now s parsed.1)) (operands.flatMap (duErr s))
      (if operands.any fun path ↦ (s.vfs.resolve s.cwd path).isNone then 1 else 0) ∧
    ∀ path id, s.vfs.resolve s.cwd path = some id →
      (entriesFirst s.vfs id).Perm (s.vfs.tree id) ∧
      ((entriesFirst s.vfs id).Pairwise fun a b ↦ ¬ a.1 <+: b.1) ∧
      (parsed.1.summarise = true → duOut humanSize now s parsed.1 path =
        duLine humanSize parsed.1 true 0 (usage now s.vfs id) path) := by
  intro parsed operands
  refine ⟨?_, fun path id hres ↦ ⟨?_, pairwise_postorder _ _ _, fun hsum ↦ ?_⟩⟩
  · rw [du]
    show (operands.foldl (duOne humanSize now s parsed.1) .start).result = _
    rw [foldl_duOne hv hcwd]
    rfl
  · have hid := lt_of_resolve hv hcwd hres
    rw [← preorder_eq_tree hv hid (Nat.le_succ _)]
    exact postorder_perm _ _ _
  · simp only [duOut, hres]
    exact duLines_entriesFirst hsum id

theorem du_eq_shelf :
    du Text.decimal 0 ["-a".toList, "/d".toList] { Shell.bare with vfs := shelf } =
      .streams "4\t/d/f\n0\t/d/l\n4\t/d/s\n12\t/d\n".toList [] 0 := by
  have hcwd : (0 : NodeId) < shelf.nodes.length := by decide +kernel
  have h : du Text.decimal 0 ["-a".toList, "/d".toList] { Shell.bare with vfs := shelf } = _ ∧ _ :=
    du_eq wellFormed_shelf hcwd Text.decimal 0 _
  rw [h.1]
  decide +kernel

end TreeLists

end Interp

end Mimic
