import Mimic.Shell.Redirects
import Mimic.Vfs.Lookup

/-!
# Reading back what was redirected

A redirection is opened through the directory and the name of its path, without following a link
there. A path is read by following it to the end. Where no error is reported the two meet in one
regular file.

## Main results

* `resolveParent_resolve`: reading a path is following the entry that opening it finds.
* `redirect_reads_back`: what a command prints behind `>` or `>>` is what its path then leads to.
-/

namespace Mimic

namespace Vfs

variable {v : Vfs} {now : Timestamp} {id : NodeId} {data contents : Bytes} {append : Bool}

theorem node_writeFile (h : (v.writeFile now id data append).2 = true)
    (hkind : (v.node id).kind = .file contents) (hlt : id < v.nodes.length) :
    ((v.writeFile now id data append).1.node id).kind =
      .file (if append then contents ++ data else data) := by
  obtain ⟨contents', hkind', hnodes⟩ := nodes_writeFile h
  obtain rfl : contents = contents' := by simpa using hkind.symm.trans hkind'
  rw [node, hnodes, List.getD_eq_getElem?_getD, List.getElem?_modify,
    List.getElem?_eq_getElem hlt]
  simp

theorem kind_of_content (h : v.content id = some contents) :
    id < v.nodes.length ∧ (v.node id).kind = .file contents := by
  obtain ⟨n, hn, hkind⟩ := Option.bind_eq_some_iff.mp h
  have hnode : v.node id = n := by rw [node, List.getD_eq_getElem?_getD, hn, Option.getD_some]
  refine ⟨(List.getElem?_eq_some_iff.mp hn).1, ?_⟩
  rw [hnode]
  cases hk : n.kind with
  | file bytes =>
    rw [hk] at hkind
    rw [Option.some.inj hkind]
  | _ =>
    rw [hk] at hkind
    cases hkind

/-- Writing to a file leads no path elsewhere. -/
theorem resolve_writeFile (h : (v.writeFile now id data append).2 = true) (start : NodeId)
    (path : Str) :
    (v.writeFile now id data append).1.resolve start path = v.resolve start path := by
  have hp := writeFile_prunes v now id data append
  refine resolve_congr hp.root (child_writeFile h) hp.parentOf (fun x target ↦ ?_) start path
  obtain ⟨contents, hkind, hnodes⟩ := nodes_writeFile h
  rw [node, node, hnodes, List.getD_eq_getElem?_getD, List.getD_eq_getElem?_getD,
    List.getElem?_modify]
  by_cases hx : id = x
  · subst hx
    rw [node, List.getD_eq_getElem?_getD] at hkind
    rcases hn : v.nodes[id]? with - | n
    · simp
    · rw [hn] at hkind
      simp at hkind
      simp [hkind]
  · simp [hx]

end Vfs

namespace Interp

open Mimic.Parser Outcomes

variable {host : Host} {below : Level} {now : Timestamp} {s t u : Shell} {path name : Str}
  {append : Bool} {parent node : NodeId}

/-! ### Opening and reading a path -/

/-- The path without the slashes at its end names an entry in the directory found. -/
theorem resolveParent_split (h : resolveParent s path = some (parent, name)) :
    ∃ trimmed, (∀ (v : Vfs) (start : NodeId), v.resolve start trimmed = v.resolve start path) ∧
      Vfs.IsName (Vfs.splitPath trimmed).2 ∧ (Vfs.splitPath trimmed).2 = name ∧
      s.vfs.resolve s.cwd (Vfs.splitPath trimmed).1 = some parent := by
  simp only [resolveParent, Option.ite_none_left_eq_some] at h
  by_cases htrim : Text.trimEndMatches '/' path = []
  · rw [if_pos htrim] at h
    exact absurd (.inl rfl) h.1
  rw [if_neg htrim] at h
  obtain ⟨hname, h⟩ := h
  refine ⟨_, fun v start ↦ Vfs.resolve_trimEndMatches htrim,
    ⟨fun h' ↦ hname (.inl h'), fun h' ↦ hname (.inr (.inl h')),
      fun h' ↦ hname (.inr (.inr h'))⟩, ?_⟩
  split at h
  · cases h
  · rename_i dir hdir
    split at h
    · obtain ⟨rfl, rfl⟩ := Prod.mk.inj (Option.some.inj h)
      exact ⟨rfl, hdir⟩
    · cases h

/-- **Reading a path is following the entry that opening it finds.** -/
theorem resolveParent_resolve (h : resolveParent s path = some (parent, name)) :
    s.vfs.resolve s.cwd path =
      (s.vfs.child parent name).bind (s.vfs.follow (s.vfs.resolveInner Vfs.maxSymlinkDepth)) := by
  obtain ⟨trimmed, hsame, hname, rfl, hdir⟩ := resolveParent_split h
  rw [← hsame, Vfs.resolve_eq_entryAt_bind hname, Vfs.entryAt, hdir, Option.bind_some]

/-- What an opening has done: truncated the entry there was, or left it to be appended to, or added
an empty file. -/
theorem openRedirect_cases (hparent : resolveParent s path = some (parent, name))
    (h : (openRedirect now s path append).2 = .ok (some node)) :
    (s.vfs.child parent name = some node ∧
      (append = true ∧ (openRedirect now s path append).1 = s.vfs ∨
        append = false ∧ (s.vfs.writeFile now node [] false).2 = true ∧
          (openRedirect now s path append).1 = (s.vfs.writeFile now node [] false).1)) ∨
    (s.vfs.child parent name = none ∧ node ≠ parent ∧
      openRedirect now s path append =
        ((s.vfs.addFile now parent name [] 0o644 s.uid s.gid).1, .ok (some node)) ∧
      node = (s.vfs.addFile now parent name [] 0o644 s.uid s.gid).2) := by
  rw [openRedirect, hparent] at h ⊢
  dsimp only at h ⊢
  rcases hchild : s.vfs.child parent name with - | existing
  · rw [hchild] at h
    dsimp only at h ⊢
    split at h
    · cases h
    split at h
    · cases h
    rename_i hwritable hadded
    obtain rfl := Option.some.inj (Except.ok.inj h)
    rw [if_neg hwritable, if_neg hadded]
    exact .inr ⟨rfl, hadded, rfl, rfl⟩
  · rw [hchild] at h
    dsimp only at h ⊢
    split at h
    · cases h
    split at h
    · cases h
    split at h
    · cases h
    rename_i hnull hisDir hwritable
    rw [if_neg hnull, if_neg hisDir, if_neg hwritable]
    left
    split at h
    · rename_i happend
      obtain rfl := Option.some.inj (Except.ok.inj h)
      rw [if_pos happend]
      exact ⟨rfl, .inl ⟨happend, rfl⟩⟩
    split at h
    · rename_i happend htruncated
      obtain rfl := Option.some.inj (Except.ok.inj h)
      rw [if_neg happend, if_pos htruncated]
      exact ⟨rfl, .inr ⟨by simpa using happend, htruncated, rfl⟩⟩
    · cases h

/-- **A write to what was opened reads back.** -/
theorem write_reads_back (hv : s.vfs.WellFormed) (hcwd : s.cwd < s.vfs.nodes.length)
    (h : (openRedirect now s path append).2 = .ok (some node)) {data : Bytes}
    (hwrite : ((openRedirect now s path append).1.writeFile now node data append).2 = true) :
    let before := ((s.vfs.resolve s.cwd path).bind s.vfs.content).getD []
    let written := ((openRedirect now s path append).1.writeFile now node data append).1
    written.resolve s.cwd path = some node ∧
      (written.node node).kind = .file (if append then before ++ data else data) := by
  intro before written
  obtain ⟨parent, name, hparent, hentry, -⟩ := openRedirect_opened hv h
  obtain ⟨hlt, hdirectory⟩ := isDirectory_of_resolveParent hv hparent
  obtain ⟨trimmed, hsame, hname, rfl, hdir⟩ := resolveParent_split hparent
  have hbefore := resolveParent_resolve hparent
  have hcases := openRedirect_cases hparent h
  set opened := (openRedirect now s path append).1 with hopened
  obtain ⟨contents, hkind, -⟩ := Vfs.nodes_writeFile hwrite
  have hfollow : opened.follow (opened.resolveInner Vfs.maxSymlinkDepth) node = some node :=
    Vfs.follow_of_not_symlink fun target ht ↦ by rw [hkind] at ht; cases ht
  -- the opening leads to the directory as before, and leaves what was there to append to
  have hstate : opened.resolve s.cwd (Vfs.splitPath trimmed).1 = some parent ∧
      node < opened.nodes.length ∧ (append = true → contents = before) := by
    rcases hcases with ⟨hchild, ⟨-, hv'⟩ | ⟨happend, htruncated, hv'⟩⟩ | ⟨hnone, hne, hadd, hnode⟩
    · rw [hv'] at hkind hfollow ⊢
      refine ⟨hdir, hv.entry_lt hchild, fun _ ↦ ?_⟩
      rw [hchild, Option.bind_some, hfollow] at hbefore
      simp only [before, hbefore, Option.bind_some,
        Vfs.content_of_kind (hv.entry_lt hchild) hkind, Option.getD_some]
    · rw [hv', Vfs.resolve_writeFile htruncated, (Vfs.writeFile_prunes ..).length]
      exact ⟨hdir, hv.entry_lt hchild, fun h' ↦ by rw [happend] at h'; cases h'⟩
    · have hcreated : (s.vfs.addFile now parent (Vfs.splitPath trimmed).2 [] 0o644 s.uid s.gid).2 ≠
          parent := hnode ▸ hne
      have hroom := Vfs.not_crowded_of_addFile_ne hnone hcreated
      have hopened' : opened =
          (s.vfs.addFile now parent (Vfs.splitPath trimmed).2 [] 0o644 s.uid s.gid).1 := by
        rw [hopened, hadd]
      have hempty := (Vfs.addFile_created hlt hdirectory hnone hcreated).2
      rw [← hopened', ← hnode] at hempty
      obtain ⟨hnodelt, hkind'⟩ := Vfs.kind_of_content hempty
      refine ⟨?_, hnodelt, fun _ ↦ ?_⟩
      · rw [hopened']
        exact (Vfs.extends_addFile hlt hroom hnone).resolve_eq_of_lt hv hcwd hdir
      · rw [hnone, Option.bind_none] at hbefore
        obtain rfl : contents = [] := by simpa using hkind.symm.trans hkind'
        simp [before, hbefore]
  refine ⟨?_, ?_⟩
  · show (opened.writeFile now node data append).1.resolve s.cwd path = _
    rw [Vfs.resolve_writeFile hwrite, ← hsame, Vfs.resolve_eq_entryAt_bind hname, Vfs.entryAt,
      hstate.1, Option.bind_some, hentry, Option.bind_some, hfollow]
  · show ((opened.writeFile now node data append).1.node node).kind = _
    rw [Vfs.node_writeFile hwrite hkind hstate.2.1]
    cases append with
    | true => rw [if_pos rfl, if_pos rfl, hstate.2.2 rfl]
    | false => rfl

/-! ### A stage -/

/-- A command that, run in `s`, prints a text and changes neither the files nor the directory. -/
def Prints (host : Host) (below : Level) (argv : List Str) (text : Str) (s : Shell) : Prop :=
  ∃ status exit t, dispatch host below argv s = (.ok ⟨text, [], status, exit⟩, t) ∧
    t.vfs = s.vfs ∧ t.cwd = s.cwd

/-- The session in which a stage runs its command, its stdout gone to a file. -/
def Shell.staged (s : Shell) (argv : List Str) (piped : Option Str) : Shell :=
  { s with substStderr := [], stdin := piped, stdoutIsTty := false }.log
    (.ran s.nesting argv piped)

theorem redirectError_ne_nil (path : Str) (message : String) : redirectError path message ≠ [] :=
  List.append_ne_nil_of_right_ne_nil _ (List.cons_ne_nil _ _)

/-- The message of an opening that failed is not empty. -/
theorem openRedirect_error {message : Str}
    (h : (openRedirect now s path append).2 = .error message) : message ≠ [] := by
  rw [openRedirect] at h
  split at h
  · exact Except.error.inj h ▸ redirectError_ne_nil _ _
  split at h <;> dsimp only at h <;> split_ifs at h
  all_goals
    cases h
    try exact redirectError_ne_nil _ _

/-- A single redirection of stdout to a file. -/
theorem openRedirects_single {target : Str} {s₁ s₂ : Shell}
    (hpath : parseLine host below target s₁ = (.ok [path], s₂)) :
    openRedirects host below .empty [⟨.stdout, .file target append⟩] s₁ =
      (.ok ((openRedirect host.now s₂ path append).2.map fun sink ↦
        ⟨some ⟨path, sink, append⟩, none, false, false⟩),
        { s₂ with vfs := (openRedirect host.now s₂ path append).1 }) := by
  rw [openRedirects]
  dsimp only
  rw [bind_apply, hpath]
  dsimp only
  rw [bind_apply]
  show (set { s₂ with vfs := (openRedirect host.now s₂ path append).1 } >>= fun _ ↦ _ :
    Run (Except Str Sinks)) s₂ = _
  cases (openRedirect host.now s₂ path append).2 with
  | error message => rfl
  | ok node => rfl

/-- A stage behind one redirection of stdout: either its command runs and its output is routed to
the file opened, or there is an error to report. -/
theorem stagesLoop_redirected {stage text target : Str} {argv : List Str} {piped : Option Str}
    {s₁ s₂ : Shell} {result : CommandResult}
    (hsplit : splitRedirects stage = .ok (text, [⟨.stdout, .file target append⟩]))
    (hwords : parseLine host below text s = (.ok argv, s₁)) (hargv : argv ≠ [])
    (hpath : parseLine host below target s₁ = (.ok [path], s₂))
    (hrun : stagesLoop host below piped [] none [stage] s = (.ok (some result), t))
    (hquiet : result.stderr = []) :
    ∃ sink printed u, (openRedirect host.now s₂ path append).2 = .ok sink ∧
      dispatch host below argv
          (Shell.staged { s₂ with vfs := (openRedirect host.now s₂ path append).1 } argv piped) =
        (.ok printed, u) ∧
      t.cwd = u.cwd ∧
      t.vfs = (routeOutput host.now u.vfs printed
        ⟨some ⟨path, sink, append⟩, none, false, false⟩).1 ∧
      (routeOutput host.now u.vfs printed
        ⟨some ⟨path, sink, append⟩, none, false, false⟩).2.stderr = [] := by
  rw [stagesLoop, hsplit] at hrun
  dsimp only at hrun
  rw [bind_apply, hwords] at hrun
  dsimp only at hrun
  rw [bind_apply, openRedirects_single hpath] at hrun
  rcases hopened : (openRedirect host.now s₂ path append).2 with message | sink
  · -- an error opening the file is what the stage reports
    rw [hopened] at hrun
    obtain ⟨hresult, -⟩ := Prod.mk.inj hrun
    obtain rfl := Option.some.inj (Except.ok.inj hresult)
    exact absurd hquiet (openRedirect_error hopened)
  · rw [hopened] at hrun
    dsimp only [Except.map] at hrun
    obtain ⟨held, u, htake, hrun⟩ := bind_eq_ok hrun
    obtain ⟨-, rfl⟩ := Prod.mk.inj htake
    dsimp only at hrun
    rw [if_neg hargv] at hrun
    obtain ⟨routed, u, hstage, hrun⟩ := bind_eq_ok hrun
    obtain ⟨hresult, rfl⟩ := Prod.mk.inj hrun
    obtain rfl := Option.some.inj (Except.ok.inj hresult)
    have hrouted : routed.stderr = [] :=
      (List.append_eq_nil_iff.mp (truncateStream_eq_nil.mp hquiet)).2
    rw [runStage] at hstage
    obtain ⟨_, u, hmodify, hstage⟩ := bind_eq_ok hstage
    obtain ⟨-, rfl⟩ := Prod.mk.inj hmodify
    obtain ⟨printed, u, hdispatch, hstage⟩ := bind_eq_ok hstage
    obtain ⟨hresult, rfl⟩ := Prod.mk.inj hstage
    obtain rfl := Except.ok.inj hresult
    exact ⟨sink, printed, u, rfl, hdispatch, rfl, rfl, hrouted⟩

/-- An opening that opens no file has found `/dev/null`. -/
theorem openRedirect_none (h : (openRedirect now s path append).2 = .ok none) :
    ∃ parent name e, resolveParent s path = some (parent, name) ∧
      s.vfs.child parent name = some e ∧
      s.vfs.resolve s.vfs.root "/dev/null".toList = some e := by
  rw [openRedirect] at h
  split at h
  · cases h
  rename_i parent name hparent
  split at h <;> dsimp only at h <;> split_ifs at h
  all_goals
    cases h
    try exact ⟨parent, name, _, hparent, ‹_›, Eq.symm ‹_›⟩

/-- What is sent to the one file of a stage is written to it, or the refusal is reported. -/
theorem routeOutput_file {vfs : Vfs} {text : Str} (htext : text ≠ []) {status : ℤ} {exit : Bool}
    (hquiet : (routeOutput now vfs ⟨text, [], status, exit⟩
      ⟨some ⟨path, some node, append⟩, none, false, false⟩).2.stderr = []) :
    (vfs.writeFile now node (Text.toUtf8 text) append).2 = true ∧
      (routeOutput now vfs ⟨text, [], status, exit⟩
        ⟨some ⟨path, some node, append⟩, none, false, false⟩).1 =
          (vfs.writeFile now node (Text.toUtf8 text) append).1 := by
  have happend : (append || (Option.isSome (some node) && (some node == none))) = append := by
    simp
  simp only [routeOutput, divert, if_neg htext, writeRedirect, happend] at hquiet ⊢
  refine ⟨?_, trivial⟩
  by_contra hrefused
  rw [if_neg hrefused] at hquiet
  exact redirectError_ne_nil _ _ (by simpa using hquiet)

/-- **Redirected output reads back.** What a command prints behind `>` or `>>`, if no error is
reported, is what the path of the redirection then leads to, behind what it led to before in the
case of `>>`. To read a path is to follow the entry that opening it finds. -/
theorem redirect_reads_back (host : Host) (below : Level) :
    (∀ (stage text target path : Str) (append : Bool) (argv : List Str) (printed : Str)
        (piped : Option Str) (s s₁ s₂ t : Shell) (result : CommandResult),
      splitRedirects stage = .ok (text, [⟨.stdout, .file target append⟩]) →
      parseLine host below text s = (.ok argv, s₁) → argv ≠ [] →
      parseLine host below target s₁ = (.ok [path], s₂) →
      s₂.vfs.WellFormed → s₂.cwd < s₂.vfs.nodes.length →
      (∀ parent name e, resolveParent s₂ path = some (parent, name) →
        s₂.vfs.child parent name = some e →
        s₂.vfs.resolve s₂.vfs.root "/dev/null".toList ≠ some e) →
      printed ≠ [] →
      Prints host below argv printed
        (Shell.staged { s₂ with vfs := (openRedirect host.now s₂ path append).1 } argv piped) →
      stagesLoop host below piped [] none [stage] s = (.ok (some result), t) →
      result.stderr = [] →
      ∃ x, t.vfs.resolve t.cwd path = some x ∧
        (t.vfs.node x).kind = .file
          (if append then
            ((s₂.vfs.resolve s₂.cwd path).bind s₂.vfs.content).getD [] ++ Text.toUtf8 printed
          else Text.toUtf8 printed)) ∧
    ∀ (s : Shell) (path name : Str) (parent : NodeId),
      resolveParent s path = some (parent, name) →
      s.vfs.resolve s.cwd path =
        (s.vfs.child parent name).bind (s.vfs.follow (s.vfs.resolveInner Vfs.maxSymlinkDepth)) := by
  refine ⟨?_, fun s path name parent ↦ resolveParent_resolve⟩
  intro stage text target path append argv printed piped s s₁ s₂ t result hsplit hwords hargv hpath
    hv hcwd hnull hprinted hprints hrun hquiet
  obtain ⟨sink, printed', u, hopened, hdispatch, htcwd, htvfs, hrouted⟩ :=
    stagesLoop_redirected hsplit hwords hargv hpath hrun hquiet
  obtain ⟨status, exit, u', hdispatch', huvfs, hucwd⟩ := hprints
  obtain ⟨hsame, rfl⟩ := Prod.mk.inj (hdispatch.symm.trans hdispatch')
  obtain rfl := Except.ok.inj hsame
  cases sink with
  | none =>
    obtain ⟨parent, name, e, hparent, hchild, hdev⟩ := openRedirect_none hopened
    exact absurd hdev (hnull parent name e hparent hchild)
  | some node =>
    obtain ⟨hwrite, hfinal⟩ := routeOutput_file hprinted hrouted
    rw [hfinal] at htvfs
    rw [huvfs] at hwrite htvfs
    refine ⟨node, ?_⟩
    rw [htvfs, htcwd, hucwd]
    exact write_reads_back hv hcwd hopened hwrite

/-- A host whose commands print an `o`. -/
def printer : Host :=
  { bareHost with isCommand := fun _ ↦ true, command := fun _ _ s ↦ s.report (.ok ['o']) }

/-- `p>f`, on a filesystem with nothing but its root. -/
theorem redirect_reads_back_new_file :
    ∃ x, (stagesLoop printer .stuck none [] none ["p>f".toList] Shell.bare).2.vfs.resolve
        (stagesLoop printer .stuck none [] none ["p>f".toList] Shell.bare).2.cwd ['f'] = some x ∧
      ((stagesLoop printer .stuck none [] none ["p>f".toList] Shell.bare).2.vfs.node x).kind =
        .file (Text.toUtf8 ['o']) := by
  have hdone : ((stagesLoop printer .stuck none [] none ["p>f".toList]
      Shell.bare).1.toOption.join.any fun result ↦ result.stderr == []) = true := by
    decide +kernel
  rcases hrun : stagesLoop printer .stuck none [] none ["p>f".toList] Shell.bare with
    ⟨e | - | result, t⟩
  · rw [hrun] at hdone
    cases hdone
  · rw [hrun] at hdone
    cases hdone
  · rw [hrun] at hdone
    have hnull : Shell.bare.vfs.resolve Shell.bare.vfs.root "/dev/null".toList = none := by
      decide +kernel
    exact (redirect_reads_back printer .stuck).1 "p>f".toList ['p'] ['f'] ['f'] false [['p']] ['o']
      none Shell.bare Shell.bare Shell.bare t result (by decide +kernel) rfl (by simp) rfl
      (Vfs.wellFormed_new 0) (by decide) (fun _ _ e _ _ h ↦ by rw [hnull] at h; cases h) (by simp)
      ⟨0, false, _, rfl, rfl, rfl⟩ hrun (beq_iff_eq.mp hdone)

end Interp

end Mimic
