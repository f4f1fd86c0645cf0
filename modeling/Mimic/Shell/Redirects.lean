import Mimic.Shell.Interp
import Mimic.Vfs.Placement

/-!
# Redirections

`open_redirects` keeps for each stream of a stage the file it goes to, or a flag that says that it
goes where the other one goes. This is compared with a table of the two descriptors, to which the
redirections are applied from left to right (`Table`).

The effects of opening and the bookkeeping are separated first: the files are opened in order
(`openFiles`), and which stream goes to which file depends on the list of redirections alone
(`pointAll`). The flags say that a descriptor was last pointed at the other one while that went to
no file. They do not say to which of the two streams it went at the time, and the routing assumes
that it was its own.
-/

namespace Mimic

namespace Vfs

/-- The bytes of a regular file in the arena. -/
def content (v : Vfs) (id : NodeId) : Option Bytes :=
  v.nodes[id]?.bind fun n ↦
    match n.kind with
    | .file contents => some contents
    | _ => none

theorem content_of_kind {v : Vfs} {x : NodeId} {contents : Bytes} (hx : x < v.nodes.length)
    (h : (v.node x).kind = .file contents) : v.content x = some contents := by
  rw [node, List.getD_eq_getElem?_getD, List.getElem?_eq_getElem hx, Option.getD_some] at h
  rw [content, List.getElem?_eq_getElem hx, Option.bind_some, h]

/-- A write that is not refused. -/
theorem nodes_writeFile {v : Vfs} {now : Timestamp} {id : NodeId} {data : Bytes} {append : Bool}
    (h : (v.writeFile now id data append).2 = true) :
    ∃ contents, (v.node id).kind = .file contents ∧
      (v.writeFile now id data append).1.nodes = v.nodes.modify id fun n ↦ { n with
        kind := .file (if append then contents ++ data else data)
        metadata := { n.metadata with mtime := now } } := by
  rw [writeFile] at h ⊢
  cases hkind : (v.node id).kind with
  | file contents =>
    refine ⟨contents, rfl, ?_⟩
    rw [hkind] at h
    dsimp only at h ⊢
    generalize (if append = true then contents.length + data.length else data.length) = newLen
      at h ⊢
    split
    · rename_i hcap
      rw [if_pos hcap] at h
      cases h
    · rfl
  | _ =>
    rw [hkind] at h
    cases h

theorem content_writeFile {v : Vfs} {now : Timestamp} {id x : NodeId} {data : Bytes} {append : Bool}
    (h : (v.writeFile now id data append).2 = true) :
    (v.writeFile now id data append).1.content x =
      if x = id then (v.content x).map fun base ↦ if append then base ++ data else data
      else v.content x := by
  obtain ⟨contents, hkind, hnodes⟩ := nodes_writeFile h
  rw [content, content, hnodes, List.getElem?_modify]
  rcases hn : v.nodes[x]? with - | n
  · simp
  · split
    · rename_i hx
      subst hx
      have hnode : v.node id = n := by rw [node, List.getD_eq_getElem?_getD, hn, Option.getD_some]
      rw [hnode] at hkind
      simp [hkind]
    · rename_i hx
      simp [Ne.symm hx]

theorem child_writeFile {v : Vfs} {now : Timestamp} {id : NodeId} {data : Bytes} {append : Bool}
    (h : (v.writeFile now id data append).2 = true) (d : NodeId) (name : Str) :
    (v.writeFile now id data append).1.child d name = v.child d name := by
  obtain ⟨contents, hkind, hnodes⟩ := nodes_writeFile h
  set filled : Node → Node := fun n ↦ { n with
    kind := .file (if append then contents ++ data else data)
    metadata := { n.metadata with mtime := now } }
  have hfilled : (filled (v.node id)).kind.children = (v.node id).kind.children := by
    rw [hkind]
    rfl
  have hmodify : ((v.modifyNode id filled).node d).kind.children = (v.node d).kind.children :=
    modifyNode_field (fun n ↦ n.kind.children) hfilled d
  rw [child_eq, child_eq, ← hmodify, node, node, hnodes]
  rfl

/-- There was room for a file that was created. -/
theorem not_crowded_of_addFile_ne {v : Vfs} {now : Timestamp} {parent : NodeId} {name : Str}
    {contents : Bytes} {perms uid gid : UInt32} (hnone : v.child parent name = none)
    (h : (v.addFile now parent name contents perms uid gid).2 ≠ parent) :
    ¬ v.Crowded parent name contents := by
  rintro (hbytes | ⟨-, hfull⟩)
  · refine h ?_
    rw [addFile]
    refine congrArg Prod.snd (if_pos hbytes) |>.trans ?_
    rw [hnone]
    rfl
  · refine h ?_
    rw [addFile]
    dsimp only
    split
    · rw [hnone]
      rfl
    · rw [hnone, insert_eq, if_pos hfull]
      simp

/-- A file that was created is in its directory and holds its bytes. -/
theorem addFile_created {v : Vfs} {now : Timestamp} {parent : NodeId} {name : Str}
    {contents : Bytes} {perms uid gid : UInt32} (hlt : parent < v.nodes.length)
    (hdir : (v.node parent).kind.isDirectory = true) (hnone : v.child parent name = none)
    (h : (v.addFile now parent name contents perms uid gid).2 ≠ parent) :
    (v.addFile now parent name contents perms uid gid).1.child parent name =
        some (v.addFile now parent name contents perms uid gid).2 ∧
      (v.addFile now parent name contents perms uid gid).1.content
        (v.addFile now parent name contents perms uid gid).2 = some contents := by
  rw [addFile_eq_of_none now perms uid gid hlt (not_crowded_of_addFile_ne hnone h) hnone]
  refine ⟨(child_graft hlt rfl parent name).trans (if_pos ⟨rfl, rfl, hdir⟩), ?_⟩
  exact content_of_kind length_lt_length_graft (congrArg Node.kind (node_graft_self hlt))

end Vfs

namespace Interp

open Mimic.Parser Outcomes

/-! ### Descriptors -/

/-- Where a descriptor goes: to one of the streams of the stage, or to a file, by the order in which
the files were opened. -/
inductive Place
  | stdout | stderr
  | file (i : ℕ)
  deriving DecidableEq

namespace Place

/-- Whether it is a file. -/
def isFile : Place → Bool
  | file _ => true
  | _ => false

/-- The file it is. -/
def sink (files : List Sink) : Place → Option Sink
  | file i => files[i]?
  | _ => none

/-- What a place is sent of a text that goes to `target`. -/
def sent (place target : Place) (text : Str) : Str := if target = place then text else []

end Place

/-- The descriptors of a stage, and the number of files opened. -/
structure Table where
  out : Place
  err : Place
  files : ℕ

namespace Table

/-- Before any redirection. -/
def start : Table := ⟨.stdout, .stderr, 0⟩

/-- Point a descriptor, or both, at a place. -/
def point (t : Table) (stream : Stream) (place : Place) : Table :=
  match stream with
  | .stdout => { t with out := place }
  | .stderr => { t with err := place }
  | .both => { t with out := place, err := place }

/-- A file replaces the target of a descriptor. A duplicate copies the target that the other one has
at the time. -/
def redirect (t : Table) (r : Redirect) : Table :=
  match r.target with
  | .file _ _ => { t.point r.stream (.file t.files) with files := t.files + 1 }
  | .dup .stderr => t.point r.stream t.err
  | .dup _ => t.point r.stream t.out

/-- What arrives at a place: the error text in front of the output. -/
def received (t : Table) (result : CommandResult) (place : Place) : Str :=
  place.sent t.err result.stderr ++ place.sent t.out result.output

end Table

/-- The descriptors after the redirections of a stage. -/
def table (redirects : List Redirect) : Table := redirects.foldl Table.redirect .start

/-- The forms of redirection: a file for either stream or both, `2>&1` and `>&2`. -/
def Listed (r : Redirect) : Prop :=
  (∃ path append, r.target = .file path append) ∨ r = ⟨.stderr, .dup .stdout⟩ ∨
    r = ⟨.stdout, .dup .stderr⟩

/-- Whether a redirection names a file. -/
def toFile (r : Redirect) : Bool :=
  match r.target with
  | .file _ _ => true
  | .dup _ => false

/-- Whether the last redirection of a stream is a duplicate, and `last` if there is none. -/
def lastDup (stream : Stream) (last : Bool) : List Redirect → Bool
  | [] => last
  | r :: redirects =>
    lastDup stream (if r.stream = stream ∨ r.stream = .both then !toFile r else last) redirects

/-! ### Opening the files -/

section Opening

variable (host : Host) (below : Level)

/-- Open the files of the redirections in order. -/
def openFiles : List Redirect → Run (Except Str (List Sink))
  | [] => return .ok []
  | redirect :: redirects => do
    match redirect.target with
    | .file path append =>
      let words ← parseLine host below path
      match words with
      | [word] =>
        let s ← get
        let opened := openRedirect host.now s word append
        set { s with vfs := opened.1 }
        match opened.2 with
        | .error message => return .error message
        | .ok node =>
          let files ← openFiles redirects
          return files.map (⟨word, node, append⟩ :: ·)
      | _ => return .error (redirectError path "ambiguous redirect")
    | .dup _ => openFiles redirects

end Opening

/-- Which stream goes to which of the files. -/
def pointAll (sinks : Sinks) : List Redirect → List Sink → Sinks
  | [], _ => sinks
  | redirect :: redirects, files =>
    match redirect.target, files with
    | .file _ _, file :: files =>
      pointAll (sinks.point redirect.stream (some file) false) redirects files
    | .file _ _, [] => sinks
    | .dup stream, files =>
      if stream = redirect.stream then pointAll sinks redirects files
      else
        let sink := if stream = .stdout then sinks.stdout else sinks.stderr
        pointAll (sinks.point redirect.stream sink sink.isNone) redirects files

theorem openRedirects_eq (host : Host) (below : Level) (sinks : Sinks) (redirects : List Redirect) :
    openRedirects host below sinks redirects =
      (fun opened ↦ opened.map (pointAll sinks redirects)) <$> openFiles host below redirects := by
  induction redirects generalizing sinks with
  | nil => rfl
  | cons redirect redirects ih =>
    obtain ⟨stream, target⟩ := redirect
    rw [openRedirects, openFiles]
    cases target with
    | file path append =>
      dsimp only
      rw [map_bind]
      refine congrArg _ (funext fun words ↦ ?_)
      rcases words with - | ⟨word, - | ⟨word', words⟩⟩
      · rfl
      · dsimp only
        rw [map_bind]
        refine congrArg _ (funext fun s ↦ ?_)
        rw [map_bind]
        refine congrArg _ (funext fun _ ↦ ?_)
        cases (openRedirect host.now s word append).2 with
        | error message => rfl
        | ok node =>
          dsimp only
          rw [ih, map_bind, map_eq_pure_bind]
          refine congrArg _ (funext fun opened ↦ ?_)
          rw [map_pure]
          cases opened <;> rfl
      · rfl
    | dup other =>
      dsimp only
      split
      · rename_i hself
        rw [ih]
        refine congrArg (· <$> _) (funext fun opened ↦ ?_)
        cases opened <;> simp [Except.map, pointAll, hself]
      · rename_i hother
        rw [ih]
        refine congrArg (· <$> _) (funext fun opened ↦ ?_)
        cases opened <;> simp [Except.map, pointAll, hother]

/-- Each redirection to a file opens one. -/
theorem length_openFiles {host : Host} {below : Level} {redirects : List Redirect} {s t : Shell}
    {files : List Sink} (h : openFiles host below redirects s = (.ok (.ok files), t)) :
    files.length = redirects.countP toFile := by
  induction redirects generalizing s t files with
  | nil =>
    obtain rfl : [] = files := Except.ok.inj (Except.ok.inj (Prod.mk.inj h).1)
    rfl
  | cons redirect redirects ih =>
    obtain ⟨stream, target⟩ := redirect
    rw [openFiles] at h
    cases target with
    | file path append =>
      obtain ⟨words, u, -, h⟩ := bind_eq_ok h
      rcases words with - | ⟨word, - | ⟨word', words⟩⟩
      · cases h
      · obtain ⟨s₁, u₁, -, h⟩ := bind_eq_ok h
        obtain ⟨-, u₂, -, h⟩ := bind_eq_ok h
        rcases hopened : (openRedirect host.now s₁ word append).2 with message | node
        · rw [hopened] at h
          cases h
        · rw [hopened] at h
          obtain ⟨opened, u₃, hrest, h⟩ := bind_eq_ok h
          rcases opened with message | rest
          · cases h
          · obtain rfl : _ :: rest = files := Except.ok.inj (Except.ok.inj (Prod.mk.inj h).1)
            rw [List.length_cons, ih hrest, List.countP_cons_of_pos (by rfl)]
      · cases h
    | dup other =>
      rw [List.countP_cons_of_neg (by simp [toFile])]
      exact ih h

/-- The parent of a path is a directory in the arena. -/
theorem isDirectory_of_resolveParent {s : Shell} (hv : s.vfs.WellFormed) {path name : Str}
    {parent : NodeId} (h : resolveParent s path = some (parent, name)) :
    parent < s.vfs.nodes.length ∧ (s.vfs.node parent).kind.isDirectory = true := by
  have hdir := isDir_of_resolveParent h
  have hlt := Vfs.lt_of_isDir hdir
  exact ⟨hlt, (hv.isDir_iff hlt).mp hdir⟩

/-- **An opened file is in its directory and empty**, unless it was there and is appended to. -/
theorem openRedirect_opened {now : Timestamp} {s : Shell} (hv : s.vfs.WellFormed) {path : Str}
    {append : Bool} {node : NodeId} (h : (openRedirect now s path append).2 = .ok (some node)) :
    ∃ parent name, resolveParent s path = some (parent, name) ∧
      (openRedirect now s path append).1.child parent name = some node ∧
      ((openRedirect now s path append).1.content node = some [] ∨
        append = true ∧ (openRedirect now s path append).1 = s.vfs) := by
  rw [openRedirect] at h ⊢
  rcases hparent : resolveParent s path with - | ⟨parent, name⟩
  · rw [hparent] at h
    cases h
  obtain ⟨hlt, hdir⟩ := isDirectory_of_resolveParent hv hparent
  rw [hparent] at h
  refine ⟨parent, name, rfl, ?_⟩
  dsimp only at h ⊢
  rcases hchild : s.vfs.child parent name with - | existing
  · rw [hchild] at h
    dsimp only at h ⊢
    split at h
    · cases h
    split at h
    · cases h
    rename_i hwritable hadded
    obtain rfl := Option.some.inj (Except.ok.inj h)
    rw [if_neg hwritable, if_neg hadded]
    obtain ⟨hentry, hempty⟩ := Vfs.addFile_created hlt hdir hchild hadded
    exact ⟨hentry, .inl hempty⟩
  · rw [hchild] at h
    dsimp only at h ⊢
    split at h
    · cases h
    split at h
    · cases h
    split at h
    · cases h
    rename_i hnull hisDir hwritable
    rw [if_neg hnull, if_neg hisDir, if_neg hwritable]
    split at h
    · rename_i happend
      obtain rfl := Option.some.inj (Except.ok.inj h)
      rw [if_pos happend]
      exact ⟨hchild, .inr ⟨happend, rfl⟩⟩
    split at h
    · rename_i happend htruncated
      obtain rfl := Option.some.inj (Except.ok.inj h)
      rw [if_neg happend, if_pos htruncated]
      refine ⟨(Vfs.child_writeFile htruncated parent name).trans hchild, .inl ?_⟩
      obtain ⟨contents, hkind, -⟩ := Vfs.nodes_writeFile htruncated
      rw [Vfs.content_writeFile htruncated, if_pos rfl,
        Vfs.content_of_kind (hv.entry_lt hchild) hkind]
      rfl
    · cases h

/-! ### The flags and the table -/

/-- What the sinks say about the table of descriptors. The flag of a stream is set if a duplicate
was its last redirection and it goes to no file. Two descriptors that go to no file go to the same
stream, unless neither was ever moved. -/
structure Tracks (files : List Sink) (t : Table) (outDup errDup : Bool) (sinks : Sinks) : Prop where
  stdout : sinks.stdout = t.out.sink files
  stderr : sinks.stderr = t.err.sink files
  stdoutMerged : sinks.stdoutMerged = (outDup && !t.out.isFile)
  stderrMerged : sinks.stderrMerged = (errDup && !t.err.isFile)
  out_isFile : t.out.isFile = (t.out.sink files).isSome
  err_isFile : t.err.isFile = (t.err.sink files).isSome
  out_kept : outDup = false → t.out.isFile = false → t.out = .stdout
  err_kept : errDup = false → t.err.isFile = false → t.err = .stderr
  joined : t.out.isFile = false → t.err.isFile = false →
    t.out = t.err ∨ outDup = false ∧ errDup = false

namespace Tracks

variable {files : List Sink} {t : Table} {outDup errDup : Bool} {sinks : Sinks}

theorem empty (files : List Sink) : Tracks files .start false false .empty where
  stdout := rfl
  stderr := rfl
  stdoutMerged := rfl
  stderrMerged := rfl
  out_isFile := rfl
  err_isFile := rfl
  out_kept _ _ := rfl
  err_kept _ _ := rfl
  joined _ _ := .inr ⟨rfl, rfl⟩

/-- Send a stream, or both, to the next file. -/
theorem file (h : Tracks files t outDup errDup sinks) {sink : Sink}
    (hnext : files[t.files]? = some sink) (path : Str) (append : Bool) (stream : Stream) :
    Tracks files (t.redirect ⟨stream, .file path append⟩)
      (if stream = .stdout ∨ stream = .both then false else outDup)
      (if stream = .stderr ∨ stream = .both then false else errDup)
      (sinks.point stream (some sink) false) := by
  have hsome : true = (files[t.files]?).isSome := by rw [hnext, Option.isSome_some]
  cases stream with
  | stdout =>
    exact {
      stdout := hnext.symm
      stderr := h.stderr
      stdoutMerged := rfl
      stderrMerged := h.stderrMerged
      out_isFile := hsome
      err_isFile := h.err_isFile
      out_kept := fun _ hfile ↦ nomatch hfile
      err_kept := h.err_kept
      joined := fun hfile ↦ nomatch hfile }
  | stderr =>
    exact {
      stdout := h.stdout
      stderr := hnext.symm
      stdoutMerged := h.stdoutMerged
      stderrMerged := rfl
      out_isFile := h.out_isFile
      err_isFile := hsome
      out_kept := h.out_kept
      err_kept := fun _ hfile ↦ nomatch hfile
      joined := fun _ hfile ↦ nomatch hfile }
  | both =>
    exact {
      stdout := hnext.symm
      stderr := hnext.symm
      stdoutMerged := rfl
      stderrMerged := rfl
      out_isFile := hsome
      err_isFile := hsome
      out_kept := fun _ hfile ↦ nomatch hfile
      err_kept := fun _ hfile ↦ nomatch hfile
      joined := fun hfile ↦ nomatch hfile }

/-- `2>&1`. -/
theorem dupErr (h : Tracks files t outDup errDup sinks) :
    Tracks files (t.redirect ⟨.stderr, .dup .stdout⟩) outDup true
      (sinks.point .stderr sinks.stdout sinks.stdout.isNone) where
  stdout := h.stdout
  stderr := h.stdout
  stdoutMerged := h.stdoutMerged
  stderrMerged := by
    show sinks.stdout.isNone = !t.out.isFile
    rw [h.stdout, h.out_isFile, Option.not_isSome]
  out_isFile := h.out_isFile
  err_isFile := h.out_isFile
  out_kept := h.out_kept
  err_kept hdup := nomatch hdup
  joined _ _ := .inl rfl

/-- `>&2`. -/
theorem dupOut (h : Tracks files t outDup errDup sinks) :
    Tracks files (t.redirect ⟨.stdout, .dup .stderr⟩) true errDup
      (sinks.point .stdout sinks.stderr sinks.stderr.isNone) where
  stdout := h.stderr
  stderr := h.stderr
  stdoutMerged := by
    show sinks.stderr.isNone = !t.err.isFile
    rw [h.stderr, h.err_isFile, Option.not_isSome]
  stderrMerged := h.stderrMerged
  out_isFile := h.err_isFile
  err_isFile := h.err_isFile
  out_kept hdup := nomatch hdup
  err_kept := h.err_kept
  joined _ _ := .inl rfl

end Tracks

theorem tracks_pointAll {files : List Sink} {t : Table} {outDup errDup : Bool} {sinks : Sinks}
    (redirects : List Redirect) (hlisted : ∀ r ∈ redirects, Listed r)
    (h : Tracks files t outDup errDup sinks)
    (hcount : files.length = t.files + redirects.countP toFile) :
    Tracks files (redirects.foldl Table.redirect t) (lastDup .stdout outDup redirects)
      (lastDup .stderr errDup redirects) (pointAll sinks redirects (files.drop t.files)) := by
  induction redirects generalizing t outDup errDup sinks with
  | nil => exact h
  | cons r redirects ih =>
    have hrest : ∀ r ∈ redirects, Listed r := fun r hr ↦ hlisted r (List.mem_cons_of_mem _ hr)
    rw [List.countP_cons] at hcount
    rcases hlisted r List.mem_cons_self with ⟨path, append, htarget⟩ | rfl | rfl
    · obtain ⟨stream, target⟩ := r
      obtain rfl : target = .file path append := htarget
      replace hcount : files.length = t.files + (redirects.countP toFile + 1) := hcount
      have hlt : t.files < files.length := by omega
      have hfile := h.file (List.getElem?_eq_getElem hlt) path append stream
      rw [List.drop_eq_getElem_cons hlt]
      refine ih hrest hfile ?_
      show files.length = t.files + 1 + _
      omega
    · exact ih hrest h.dupErr hcount
    · exact ih hrest h.dupOut hcount

/-! ### Writing -/

/-- The bytes of a file after it received a text: behind what it held if it was opened for
appending, and instead of it otherwise. -/
def Sink.filled (file : Sink) (received : Str) (base : Bytes) : Bytes :=
  if file.append = true then base ++ Text.toUtf8 received
  else if received = [] then base
  else Text.toUtf8 received

theorem Sink.filled_nil (file : Sink) (base : Bytes) : file.filled [] base = base := by
  rw [Sink.filled]
  split
  · exact List.append_nil base
  · rfl

/-- A text in two parts: the second comes behind the first. -/
theorem Sink.filled_append (file : Sink) {first : Str} (hfirst : first ≠ []) (second : Str)
    (base : Bytes) :
    file.filled (first ++ second) base = file.filled first base ++ Text.toUtf8 second := by
  have hutf8 : Text.toUtf8 (first ++ second) = Text.toUtf8 first ++ Text.toUtf8 second :=
    List.flatMap_append
  rw [Sink.filled, Sink.filled, hutf8]
  split
  · exact (List.append_assoc ..).symm
  · exact if_neg (List.append_ne_nil_of_left_ne_nil hfirst second)

section Writing

variable {now : Timestamp} {vfs : Vfs} {files : List Sink} {place : Place} {text : Str}
  {written : Option NodeId}

/-- A stream keeps its text unless it goes to a file. -/
theorem divert_text : (divert now vfs (place.sink files) text written).2.1 =
    if (place.sink files).isSome then [] else text := by
  rcases place.sink files with - | sink
  · rfl
  · rw [divert]
    split <;> rfl

/-- What a write that is not refused does to the bytes of a node. -/
theorem content_divert {file : Sink} (h : (divert now vfs (some file) text written).2.2.1 = none)
    (x : NodeId) :
    (divert now vfs (some file) text written).1.content x =
      if file.node = some x ∧ text ≠ [] then
        (vfs.content x).map fun base ↦
          if file.append = true ∨ written = some x then base ++ Text.toUtf8 text
          else Text.toUtf8 text
      else vfs.content x := by
  obtain ⟨path, node, append⟩ := file
  by_cases htext : text = []
  · simp [divert, htext]
  rcases node with - | node
  · simp [divert, htext, writeRedirect]
  simp only [divert, if_neg htext, writeRedirect] at h ⊢
  split at h
  · rename_i hwrite
    rw [Vfs.content_writeFile hwrite]
    by_cases hx : x = node
    · subst hx
      have happend : (append || ((some x).isSome && some x == written)) = true ↔
          append = true ∨ written = some x := by
        simp [eq_comm (a := some x)]
      rw [if_pos rfl, if_pos ⟨rfl, htext⟩]
      simp only [happend]
    · simp [hx, Ne.symm hx]
  · cases h

/-- No two of the files are the same node. -/
def Apart (files : List Sink) : Prop := (files.filterMap Sink.node).Nodup

theorem Apart.index_eq (h : Apart files) {i j : ℕ} {a b : Sink} {node : NodeId}
    (hi : files[i]? = some a) (hj : files[j]? = some b) (ha : a.node = some node)
    (hb : b.node = some node) : i = j := by
  rw [Apart, List.Nodup, List.pairwise_filterMap, List.pairwise_iff_getElem] at h
  obtain ⟨hilt, rfl⟩ := List.getElem?_eq_some_iff.1 hi
  obtain ⟨hjlt, rfl⟩ := List.getElem?_eq_some_iff.1 hj
  rcases Nat.lt_trichotomy i j with hlt | heq | hlt
  · exact absurd rfl (h i j hilt hjlt hlt node ha node hb)
  · exact heq
  · exact absurd rfl (h j i hjlt hilt hlt node hb node ha)

/-- The node of a place is that of one of the files only if the place is that file. -/
theorem Apart.node_iff (h : Apart files) {i : ℕ} {file : Sink} {node : NodeId}
    (hi : files[i]? = some file) (hnode : file.node = some node) (place : Place) :
    (place.sink files).bind Sink.node = some node ↔ place = .file i := by
  constructor
  · intro hplace
    obtain ⟨b, hb, hbnode⟩ := Option.bind_eq_some_iff.1 hplace
    cases place with
    | file j => rw [h.index_eq hi hb hnode hbnode]
    | _ => cases hb
  · rintro rfl
    rw [Place.sink, hi]
    exact hnode

/-- One of the files after a write to a place. -/
theorem Apart.content_divert (h : Apart files) {i : ℕ} {file : Sink} {node : NodeId}
    (hi : files[i]? = some file) (hnode : file.node = some node)
    (hdone : (divert now vfs (place.sink files) text written).2.2.1 = none) :
    (divert now vfs (place.sink files) text written).1.content node =
      (vfs.content node).map fun base ↦
        if written = some node then base ++ Text.toUtf8 (Place.sent (.file i) place text)
        else file.filled (Place.sent (.file i) place text) base := by
  have hiff := h.node_iff hi hnode place
  have hsame : Place.sent (.file i) place text = [] → vfs.content node =
      (vfs.content node).map fun base ↦
        if written = some node then base ++ Text.toUtf8 (Place.sent (.file i) place text)
        else file.filled (Place.sent (.file i) place text) base := by
    intro hsent
    simp [hsent, Sink.filled_nil, Text.toUtf8]
  rcases hsink : place.sink files with - | other
  · rw [hsink] at hiff
    exact hsame (if_neg fun hplace ↦ by cases hiff.2 hplace)
  rw [hsink] at hiff hdone
  rw [Interp.content_divert hdone]
  by_cases hplace : place = .file i
  · subst hplace
    obtain rfl : file = other := Option.some.inj (hi.symm.trans hsink)
    by_cases htext : text = []
    · rw [if_neg fun hboth ↦ hboth.2 htext]
      exact hsame ((if_pos rfl).trans htext)
    · rw [if_pos ⟨hnode, htext⟩, Place.sent, if_pos rfl]
      simp only [Sink.filled, if_neg htext]
      refine congrArg (Option.map · _) (funext fun base ↦ ?_)
      by_cases hwritten : written = some node <;> simp [hwritten]
  · rw [if_neg fun hboth ↦ hplace (hiff.1 hboth.1)]
    exact hsame (if_neg hplace)

/-- The node written last, if none was before. -/
theorem Apart.written_divert (h : Apart files) {i : ℕ} {file : Sink} {node : NodeId}
    (hi : files[i]? = some file) (hnode : file.node = some node) :
    (divert now vfs (place.sink files) text none).2.2.2 = some node ↔
      Place.sent (.file i) place text ≠ [] := by
  have hsent : Place.sent (.file i) place text ≠ [] ↔ place = .file i ∧ text ≠ [] := by
    rw [Place.sent]
    split <;> simp [*]
  rw [hsent, ← h.node_iff hi hnode place]
  rcases place.sink files with - | other
  · simp [divert]
  · rw [divert]
    split <;> simp [*]

end Writing

/-! ### Routing -/

/-- The message of a write that is refused. -/
def refusal (now : Timestamp) (vfs : Vfs) (result : CommandResult) (sinks : Sinks) : Option Str :=
  let err := divert now vfs sinks.stderr result.stderr none
  let out := divert now err.1 sinks.stdout result.output err.2.2.2
  out.2.2.1.or err.2.2.1

/-- The streams of a command have gone where the descriptors say. -/
structure Routed (t : Table) (files : List Sink) (vfs : Vfs) (result : CommandResult)
    (routed : Vfs × CommandResult) : Prop where
  output : routed.2.output = t.received result .stdout
  stderr : routed.2.stderr = t.received result .stderr
  file : ∀ (i : ℕ) (file : Sink) (node : NodeId), files[i]? = some file → file.node = some node →
    routed.1.content node = (vfs.content node).map (file.filled (t.received result (.file i)))
  other : ∀ x, (∀ file ∈ files, file.node ≠ some x) → routed.1.content x = vfs.content x

/-- No stream that a duplicate has sent back to where it came from has any text: `>&2` while the
error text went to stdout, and `2>&1` while the output went to stderr, which has gone to a file
since. -/
structure Straight (redirects : List Redirect) (result : CommandResult) : Prop where
  out : lastDup .stdout false redirects = true → (table redirects).out = .stdout →
    result.output = [] ∧ ((table redirects).err = .stdout → result.stderr = [])
  err : lastDup .stderr false redirects = true → (table redirects).err = .stderr →
    (table redirects).out.isFile = true → result.stderr = []

section Routing

variable {now : Timestamp} {vfs : Vfs} {files : List Sink} {t : Table} {outDup errDup : Bool}
  {sinks : Sinks} {result : CommandResult}

/-- What is left for the client: the streams that go to no file, after the flags. -/
theorem Tracks.routeOutput (h : Tracks files t outDup errDup sinks)
    (hdone : refusal now vfs result sinks = none) :
    (routeOutput now vfs result sinks).2.output =
      (if outDup && !t.out.isFile then []
        else (if errDup && !t.err.isFile then result.stderr else []) ++
          if t.out.isFile then [] else result.output) ∧
    (routeOutput now vfs result sinks).2.stderr =
      (if errDup && !t.err.isFile then [] else if t.err.isFile then [] else result.stderr) ++
        if outDup && !t.out.isFile then
          (if errDup && !t.err.isFile then result.stderr else []) ++ result.output
        else [] := by
  simp only [refusal, h.stdout, h.stderr] at hdone
  rw [Interp.routeOutput]
  simp only [hdone, h.stdoutMerged, h.stderrMerged, h.stdout, h.stderr, divert_text, ← h.out_isFile,
    ← h.err_isFile]
  rcases outDup <;> rcases errDup <;> rcases t.out.isFile <;> rcases t.err.isFile <;> simp

/-- **The streams that stay come out right exactly if no text was sent back.** -/
theorem Tracks.streams_iff (h : Tracks files t outDup errDup sinks)
    (hdone : refusal now vfs result sinks = none) :
    ((Interp.routeOutput now vfs result sinks).2.output = t.received result .stdout ∧
      (Interp.routeOutput now vfs result sinks).2.stderr = t.received result .stderr) ↔
    (outDup = true → t.out = .stdout →
      result.output = [] ∧ (t.err = .stdout → result.stderr = [])) ∧
    (errDup = true → t.err = .stderr → t.out.isFile = true → result.stderr = []) := by
  obtain ⟨houtput, hstderr⟩ := h.routeOutput hdone
  rw [houtput, hstderr, Table.received, Table.received]
  have houtK := h.out_kept
  have herrK := h.err_kept
  have hjoin := h.joined
  clear houtput hstderr hdone h
  generalize t.out = out at *
  generalize t.err = err at *
  cases out <;> cases err <;> cases outDup <;> cases errDup <;>
    simp [Place.isFile, Place.sent, and_comm] at houtK herrK hjoin ⊢

/-- Neither of the two writes is refused. -/
theorem Tracks.written (h : Tracks files t outDup errDup sinks)
    (hdone : refusal now vfs result sinks = none) :
    (divert now vfs (t.err.sink files) result.stderr none).2.2.1 = none ∧
      (divert now (divert now vfs (t.err.sink files) result.stderr none).1 (t.out.sink files)
        result.output (divert now vfs (t.err.sink files) result.stderr none).2.2.2).2.2.1 =
          none := by
  simp only [refusal, h.stdout, h.stderr, Option.or_eq_none_iff] at hdone
  exact ⟨hdone.2, hdone.1⟩

/-- **Each file receives what the descriptors send there.** -/
theorem Tracks.file_content (h : Tracks files t outDup errDup sinks) (hapart : Apart files)
    (hdone : refusal now vfs result sinks = none) {i : ℕ} {file : Sink} {node : NodeId}
    (hi : files[i]? = some file) (hnode : file.node = some node) :
    (Interp.routeOutput now vfs result sinks).1.content node =
      (vfs.content node).map (file.filled (t.received result (.file i))) := by
  obtain ⟨herr, hout⟩ := h.written hdone
  have hroute : (Interp.routeOutput now vfs result sinks).1 =
      (divert now (divert now vfs (t.err.sink files) result.stderr none).1 (t.out.sink files)
        result.output (divert now vfs (t.err.sink files) result.stderr none).2.2.2).1 := by
    rw [Interp.routeOutput, h.stdout, h.stderr]
  rw [hroute, hapart.content_divert hi hnode hout, hapart.content_divert hi hnode herr,
    Option.map_map]
  refine congrArg (Option.map · _) (funext fun base ↦ ?_)
  simp only [Function.comp_apply, hapart.written_divert hi hnode, reduceCtorEq, if_false]
  rw [Table.received]
  by_cases hfirst : Place.sent (.file i) t.err result.stderr = []
  · rw [if_neg (not_not_intro hfirst), hfirst, Sink.filled_nil, List.nil_append]
  · rw [if_pos hfirst, Sink.filled_append file hfirst]

/-- Nothing else is written to. -/
theorem Tracks.other_content (h : Tracks files t outDup errDup sinks)
    (hdone : refusal now vfs result sinks = none) {x : NodeId}
    (hx : ∀ file ∈ files, file.node ≠ some x) :
    (Interp.routeOutput now vfs result sinks).1.content x = vfs.content x := by
  have hdivert : ∀ (vfs : Vfs) (place : Place) (text : Str) (written : Option NodeId),
      (divert now vfs (place.sink files) text written).2.2.1 = none →
      (divert now vfs (place.sink files) text written).1.content x = vfs.content x := by
    intro vfs place text written hnone
    rcases hsink : place.sink files with - | file
    · rfl
    · rw [hsink] at hnone
      have hmem : file ∈ files := by
        cases place with
        | file i => exact List.mem_of_getElem? hsink
        | _ => cases hsink
      rw [content_divert hnone, if_neg fun hboth ↦ hx file hmem hboth.1]
  obtain ⟨herr, hout⟩ := h.written hdone
  rw [Interp.routeOutput, h.stdout, h.stderr]
  exact (hdivert _ _ _ _ hout).trans (hdivert _ _ _ _ herr)

end Routing

/-! ### A stage -/

/-- **The streams of a command go where the descriptors say exactly if no text was sent back by a
duplicate.** A file is empty once it is opened, unless it was there and is appended to. -/
theorem redirects_routed_iff {host : Host} {below : Level} {redirects : List Redirect} {s t : Shell}
    {sinks : Sinks} (hlisted : ∀ r ∈ redirects, Listed r)
    (hopen : openRedirects host below .empty redirects s = (.ok (.ok sinks), t)) :
    (∀ u path append node, u.vfs.WellFormed →
      (openRedirect host.now u path append).2 = .ok (some node) →
      ∃ parent name, resolveParent u path = some (parent, name) ∧
        (openRedirect host.now u path append).1.child parent name = some node ∧
        ((openRedirect host.now u path append).1.content node = some [] ∨
          append = true ∧ (openRedirect host.now u path append).1 = u.vfs)) ∧
    ∃ files, openFiles host below redirects s = (.ok (.ok files), t) ∧
      (Apart files → ∀ vfs result, refusal host.now vfs result sinks = none →
        (Routed (table redirects) files vfs result (routeOutput host.now vfs result sinks) ↔
          Straight redirects result)) := by
  refine ⟨fun u path append node hv hopened ↦ openRedirect_opened hv hopened, ?_⟩
  rw [openRedirects_eq, map_eq_pure_bind] at hopen
  obtain ⟨opened, u, hfiles, hpoint⟩ := bind_eq_ok hopen
  obtain ⟨hsinks, rfl⟩ := Prod.mk.inj hpoint
  rcases opened with message | files
  · cases hsinks
  obtain rfl : pointAll .empty redirects files = sinks := Except.ok.inj (Except.ok.inj hsinks)
  have hcount := length_openFiles hfiles
  have htracks : Tracks files (table redirects) (lastDup .stdout false redirects)
      (lastDup .stderr false redirects) (pointAll .empty redirects files) :=
    tracks_pointAll redirects hlisted (.empty files) (hcount.trans (Nat.zero_add _).symm)
  refine ⟨files, hfiles, fun hapart vfs result hdone ↦ ?_⟩
  have hstreams := htracks.streams_iff hdone
  constructor
  · intro hrouted
    obtain ⟨hout, herr⟩ := hstreams.1 ⟨hrouted.output, hrouted.stderr⟩
    exact ⟨hout, herr⟩
  · intro hstraight
    obtain ⟨houtput, hstderr⟩ := hstreams.2 ⟨hstraight.out, hstraight.err⟩
    exact ⟨houtput, hstderr, fun i file node hi hnode ↦ htracks.file_content hapart hdone hi hnode,
      fun x hx ↦ htracks.other_content hdone hx⟩

/-- `>f 2>&1`, with text on both streams. -/
theorem redirects_routed_shared_file : ∃ files sinks t,
    openRedirects bareHost (levels bareHost) .empty
      [⟨.stdout, .file ['f'] false⟩, ⟨.stderr, .dup .stdout⟩] Shell.bare = (.ok (.ok sinks), t) ∧
    Routed (table [⟨.stdout, .file ['f'] false⟩, ⟨.stderr, .dup .stdout⟩]) files t.vfs
      (.streams ['o'] ['e'] 0) (routeOutput 0 t.vfs (.streams ['o'] ['e'] 0) sinks) := by
  have hdone : (match openRedirects bareHost (levels bareHost) .empty
      [⟨.stdout, .file ['f'] false⟩, ⟨.stderr, .dup .stdout⟩] Shell.bare with
    | (.ok (.ok sinks), t) => (refusal 0 t.vfs (.streams ['o'] ['e'] 0) sinks).isNone
    | _ => false) = true := by
    decide +kernel
  rcases hopen : openRedirects bareHost (levels bareHost) .empty
    [⟨.stdout, .file ['f'] false⟩, ⟨.stderr, .dup .stdout⟩] Shell.bare with ⟨e | message | sinks, t⟩
  · rw [hopen] at hdone
    cases hdone
  · rw [hopen] at hdone
    cases hdone
  · rw [hopen] at hdone
    obtain ⟨-, files, hfiles, hrouted⟩ := redirects_routed_iff (by simp [Listed]) hopen
    refine ⟨files, sinks, t, rfl, (hrouted ?_ t.vfs _ (Option.isNone_iff_eq_none.1 hdone)).2 ?_⟩
    · obtain ⟨file, rfl⟩ := List.length_eq_one_iff.1 (length_openFiles hfiles)
      cases hnode : file.node <;> simp [Apart, hnode]
    · exact ⟨fun hdup ↦ absurd hdup (by decide), fun _ herr ↦ absurd herr (by decide)⟩

/-- `2>&1 >&2` sends everything to stdout. The text comes out on stderr. -/
theorem duplicates_both_ways :
    splitRedirects "id 2>&1 >&2".toList =
        .ok ("id  ".toList, [⟨.stderr, .dup .stdout⟩, ⟨.stdout, .dup .stderr⟩]) ∧
    openRedirects bareHost (levels bareHost) .empty
      [⟨.stderr, .dup .stdout⟩, ⟨.stdout, .dup .stderr⟩] Shell.bare =
        (.ok (.ok ⟨none, none, true, true⟩), Shell.bare) ∧
    refusal 0 Shell.bare.vfs (.streams ['o'] ['e'] 0) ⟨none, none, true, true⟩ = none ∧
    ¬ Routed (table [⟨.stderr, .dup .stdout⟩, ⟨.stdout, .dup .stderr⟩]) [] Shell.bare.vfs
      (.streams ['o'] ['e'] 0)
      (routeOutput 0 Shell.bare.vfs (.streams ['o'] ['e'] 0) ⟨none, none, true, true⟩) := by
  refine ⟨by decide +kernel, rfl, rfl, fun hrouted ↦ ?_⟩
  exact absurd hrouted.output (by decide)

end Interp

end Mimic
