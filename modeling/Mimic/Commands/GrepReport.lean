import Mimic.Commands.Grep
import Mimic.Vfs.Traversal

/-!
# What `grep` reports

`grep` comes to its operands one after the other, and with `-r` to the trees under them. What it
comes to is a list of texts to search and of files to refuse (`visits`), each file of a tree at its
place in the tree's order. The answer is what is to be said about each of them, one after the other
(`grep_eq`): the stops of the loop over the lines, the counts and the accumulators that are passed
along are all in `report`, which looks at one text at a time. The exit status tells whether a line
was selected in any of them, whatever is printed.
-/

namespace Mimic

namespace Interp

namespace Grep

open Readers Vfs

variable {u : Unicode} {flags : GrepFlags} {needle path : Str} {i count levels : ℕ} {f : Found}
  {now : Timestamp} {s : Shell} {lines : List Str} {id : NodeId}

/-! ### One text -/

/-- The selected lines, with their places. -/
def selectedFrom (u : Unicode) (flags : GrepFlags) (needle : Str) (i : ℕ) (lines : List Str) :
    List (Str × ℕ) := (lines.zipIdx i).filter fun l ↦ selects u flags needle l.1

/-- What is printed when these lines are selected behind as many as `count`. -/
def reportFrom (u : Unicode) (flags : GrepFlags) (needle path : Str) (count : ℕ)
    (found : List (Str × ℕ)) : Str :=
  if found ≠ [] ∧ flags.filesWithMatches then path ++ ['\n']
  else if found ≠ [] ∧ flags.quiet then []
  else if flags.countOnly then
    (if flags.showFilename then path ++ [':'] else []) ++ Text.decimal (count + found.length) ++
      ['\n']
  else found.flatMap fun l ↦ label flags path l.2 ++ shown u flags needle l.1

/-- What is printed for a text. -/
def report (u : Unicode) (flags : GrepFlags) (needle path text : Str) : Str :=
  reportFrom u flags needle path 0 (selectedFrom u flags needle 0 (Text.lines text))

/-- Whether a line of the text is selected. -/
def matchesText (u : Unicode) (flags : GrepFlags) (needle text : Str) : Bool :=
  (Text.lines text).any (selects u flags needle)

theorem selectedFrom_cons_of_selects {line : Str} (h : selects u flags needle line = true) :
    selectedFrom u flags needle i (line :: lines) =
      (line, i) :: selectedFrom u flags needle (i + 1) lines := by
  rw [selectedFrom, List.zipIdx_cons, List.filter_cons_of_pos (by exact h)]
  rfl

theorem selectedFrom_cons_of_not_selects {line : Str} (h : selects u flags needle line = false) :
    selectedFrom u flags needle i (line :: lines) =
      selectedFrom u flags needle (i + 1) lines := by
  rw [selectedFrom, List.zipIdx_cons, List.filter_cons_of_neg (by rw [h]; exact Bool.false_ne_true)]
  rfl

theorem reportFrom_nil : reportFrom u flags needle path count [] =
    if flags.countOnly then
      (if flags.showFilename then path ++ [':'] else []) ++ Text.decimal count ++ ['\n']
    else [] := by
  rw [reportFrom, if_neg fun h ↦ absurd rfl (And.left h), if_neg fun h ↦ absurd rfl (And.left h)]
  rfl

theorem reportFrom_of_print (hnames : ¬ flags.filesWithMatches = true)
    (hquiet : ¬ flags.quiet = true) (found : List (Str × ℕ)) :
    reportFrom u flags needle path count found =
      if flags.countOnly then
        (if flags.showFilename then path ++ [':'] else []) ++
          Text.decimal (count + found.length) ++ ['\n']
      else found.flatMap fun l ↦ label flags path l.2 ++ shown u flags needle l.1 := by
  rw [reportFrom, if_neg fun h ↦ hnames (And.right h), if_neg fun h ↦ hquiet (And.right h)]

/-- **The loop over the lines** prints the report on what it selects. -/
theorem grepLines_eq (u : Unicode) (flags : GrepFlags) (needle path : Str) (i count : ℕ) (f : Found)
    (lines : List Str) : grepLines u flags needle path i count f lines =
      ⟨f.out ++ reportFrom u flags needle path count (selectedFrom u flags needle i lines),
        f.errs, f.anyMatch || lines.any (selects u flags needle)⟩ := by
  induction lines generalizing i count f with
  | nil =>
    have hnone : selectedFrom u flags needle i [] = [] := rfl
    rw [grepLines, hnone, reportFrom_nil, List.any_nil, Bool.or_false]
    split
    · rfl
    · rw [List.append_nil]
  | cons line lines ih =>
    rw [grepLines, List.any_cons]
    by_cases hline : selects u flags needle line = true
    · have hne : (line, i) :: selectedFrom u flags needle (i + 1) lines ≠ [] :=
        List.cons_ne_nil _ _
      rw [if_pos hline, selectedFrom_cons_of_selects hline, hline, Bool.true_or, Bool.or_true]
      by_cases hnames : flags.filesWithMatches = true
      · have hreport : reportFrom u flags needle path count _ = path ++ ['\n'] :=
          if_pos ⟨hne, hnames⟩
        rw [hreport]
        exact if_pos hnames
      by_cases hquiet : flags.quiet = true
      · have hreport : reportFrom u flags needle path count _ = [] :=
          (if_neg fun h ↦ hnames h.2).trans (if_pos ⟨hne, hquiet⟩)
        rw [hreport, List.append_nil]
        exact (if_neg hnames).trans (if_pos hquiet)
      refine (if_neg hnames).trans ((if_neg hquiet).trans ?_)
      rw [ih, reportFrom_of_print hnames hquiet, reportFrom_of_print hnames hquiet]
      -- one more line is counted, or one more is printed
      by_cases hcount : flags.countOnly = true
      · simp only [if_pos hcount, List.length_cons, Nat.add_assoc, Nat.add_comm 1, Bool.true_or]
      · simp only [if_neg hcount, Found.print, List.flatMap_cons, List.append_assoc, Bool.true_or]
    · rw [Bool.not_eq_true] at hline
      rw [hline, if_neg Bool.false_ne_true, ih, selectedFrom_cons_of_not_selects hline,
        Bool.false_or]

/-! ### What is visited -/

/-- What `grep` comes to. -/
inductive Visit
  /-- A text to search, whose file may be named. -/
  | searched (named : Bool) (path text : Str)
  | refused (message : Str)

namespace Visit

/-- What is printed. -/
def out (u : Unicode) (flags : GrepFlags) (needle : Str) : Visit → Str
  | searched named path text => report u { flags with showFilename := named } needle path text
  | refused _ => []

/-- What is complained about. -/
def err : Visit → Str
  | searched .. => []
  | refused message => message

/-- Whether a line is selected. -/
def hits (u : Unicode) (flags : GrepFlags) (needle : Str) : Visit → Bool
  | searched _ _ text => matchesText u flags needle text
  | refused _ => false

end Visit

/-- What is found when all this is visited. -/
def Found.after (u : Unicode) (flags : GrepFlags) (needle : Str) (f : Found)
    (visits : List Visit) : Found :=
  ⟨f.out ++ visits.flatMap (Visit.out u flags needle), f.errs ++ visits.flatMap Visit.err,
    f.anyMatch || visits.any (Visit.hits u flags needle)⟩

/-- A node that is not a directory: it is searched if it may be read and has bytes. -/
def visitNode (now : Timestamp) (s : Shell) (named : Bool) (path : Str) (id : NodeId) :
    List Visit :=
  if (s.vfs.node id).metadata.isDir then []
  else if readableBy (s.vfs.node id).metadata s.uid s.gid then
    ((s.vfs.node id).fileBytes now).toList.map fun bytes ↦
      .searched named path (Text.fromUtf8Lossy bytes)
  else [.refused ("grep: ".toList ++ path ++ ": Permission denied\n".toList)]

/-- The nodes of a tree, each under its path. -/
def visitTree (now : Timestamp) (s : Shell) (path : Str) (nodes : List (List Str × NodeId)) :
    List Visit := nodes.flatMap fun at' ↦ visitNode now s true (at'.1.foldl childPath path) at'.2

/-- What `grep` comes to at an operand. -/
def visits (now : Timestamp) (s : Shell) (o : GrepArgs) (path : Str) : List Visit :=
  match s.vfs.resolve s.cwd path with
  | none => [.refused ("grep: ".toList ++ path ++ ": No such file or directory\n".toList)]
  | some id =>
    if (s.vfs.node id).metadata.isDir then
      if o.recursive then visitTree now s path (s.vfs.tree id)
      else [.refused ("grep: ".toList ++ path ++ ": Is a directory\n".toList)]
    else visitNode now s (showsFilename o) path id

@[simp] theorem after_nil : f.after u flags needle [] = f := by
  rw [Found.after, List.flatMap_nil, List.flatMap_nil, List.append_nil, List.append_nil,
    List.any_nil, Bool.or_false]

theorem after_append (f : Found) (xs ys : List Visit) :
    f.after u flags needle (xs ++ ys) = (f.after u flags needle xs).after u flags needle ys := by
  simp only [Found.after, List.flatMap_append, List.append_assoc, List.any_append, Bool.or_assoc]

theorem foldl_after {α : Type} {items : List α} {step : Found → α → Found} {g : α → List Visit}
    (h : ∀ a ∈ items, ∀ f, step f a = f.after u flags needle (g a)) (f : Found) :
    items.foldl step f = f.after u flags needle (items.flatMap g) := by
  induction items generalizing f with
  | nil => exact after_nil.symm
  | cons a items ih =>
    rw [List.foldl_cons, h a List.mem_cons_self, ih fun b hb ↦ h b (List.mem_cons_of_mem a hb),
      List.flatMap_cons, after_append]

theorem complain_eq (f : Found) (message : Str) :
    f.complain message = f.after u flags needle [.refused message] := by
  rw [Found.after, List.flatMap_singleton, List.flatMap_singleton, List.any_cons, List.any_nil]
  show Found.mk f.out (f.errs ++ message) f.anyMatch =
    ⟨f.out ++ [], f.errs ++ message, f.anyMatch || (false || false)⟩
  rw [List.append_nil, Bool.or_false, Bool.or_false]

theorem grepText_eq (u : Unicode) (flags : GrepFlags) (needle : Str) (named : Bool)
    (text path : Str) (f : Found) :
    grepText u { flags with showFilename := named } needle text path f =
      f.after u flags needle [.searched named path text] := by
  rw [grepText, grepLines_eq, Found.after, List.flatMap_singleton, List.flatMap_singleton,
    List.any_cons, List.any_nil, Bool.or_false]
  show _ = Found.mk _ (f.errs ++ []) _
  rw [List.append_nil]
  rfl

/-- **A file** is searched, or refused, or it has nothing to read. -/
theorem grepNode_eq (u : Unicode) (flags : GrepFlags) (needle : Str) (named : Bool) (path : Str)
    (f : Found) (hfile : ¬ (s.vfs.node id).metadata.isDir = true) :
    (if readableBy (s.vfs.node id).metadata s.uid s.gid then
        grepFile u { flags with showFilename := named } needle now s.vfs id path f
      else f.complain ("grep: ".toList ++ path ++ ": Permission denied\n".toList)) =
      f.after u flags needle (visitNode now s named path id) := by
  rw [visitNode, if_neg hfile]
  split
  · rw [grepFile]
    rcases (s.vfs.node id).fileBytes now with - | bytes
    · exact after_nil.symm
    · exact grepText_eq u flags needle named _ path f
  · exact complain_eq f _

/-- Naming the files is up to the visits. -/
theorem after_showFilename (f : Found) (xs : List Visit) (named : Bool) :
    f.after u { flags with showFilename := named } needle xs = f.after u flags needle xs := by
  have hout : Visit.out u { flags with showFilename := named } needle =
      Visit.out u flags needle := by
    funext visit
    rcases visit with - | - <;> rfl
  have hhits : Visit.hits u { flags with showFilename := named } needle =
      Visit.hits u flags needle := by
    funext visit
    rcases visit with - | - <;> rfl
  rw [Found.after, Found.after, hout, hhits]

/-! ### Trees -/

/-- What a directory adds is what its entries add. -/
theorem visitTree_of_dir (hdir : (s.vfs.node id).metadata.isDir = true) :
    visitTree now s path (s.vfs.preorder (levels + 1) id) =
      ((s.vfs.entries id).getD []).flatMap fun e ↦
        visitTree now s (childPath path e.1) (s.vfs.preorder levels e.2) := by
  have hnode : visitNode now s true path id = [] := if_pos hdir
  simp only [preorder, visitTree, List.flatMap_cons, List.flatMap_assoc, List.flatMap_map,
    List.foldl_cons, List.foldl_nil, hnode, List.nil_append]

/-- Anything else is all of its tree. -/
theorem visitTree_of_file (hv : s.vfs.WellFormed)
    (hfile : ¬ (s.vfs.node id).metadata.isDir = true) :
    visitTree now s path (s.vfs.preorder (levels + 1) id) = visitNode now s true path id := by
  rw [preorder, entries_eq_none hv hfile, visitTree]
  exact List.flatMap_singleton _ _

/-- **A search through a directory** comes to all nodes of its tree, in their order. -/
theorem grepDir_eq (hv : s.vfs.WellFormed) (u : Unicode) (flags : GrepFlags) (needle : Str)
    (hdir : (s.vfs.node id).metadata.isDir = true) (path : Str) (f : Found) :
    grepDir u now s.vfs needle s.uid s.gid levels flags id path f =
      f.after u flags needle (visitTree now s path (s.vfs.preorder (levels + 1) id)) := by
  induction levels generalizing id path flags f with
  | zero =>
    have hnone : visitTree now s path (s.vfs.preorder 1 id) = [] := by
      rw [visitTree_of_dir hdir, List.flatMap_eq_nil_iff]
      exact fun e _ ↦ rfl
    rw [hnone, after_nil]
    rfl
  | succ levels ih =>
    rw [grepDir, visitTree_of_dir hdir]
    rcases hentries : s.vfs.entries id with - | entries
    · exact after_nil.symm
    refine foldl_after (fun e he f ↦ ?_) f
    have hchild : s.vfs.child id e.1 = some e.2 := mem_entries_iff.mp (by rw [hentries]; exact he)
    by_cases hsub : (s.vfs.node e.2).metadata.isDir = true
    · refine (if_pos hsub).trans ?_
      rw [ih _ hsub, after_showFilename]
    · refine (if_neg hsub).trans ?_
      rw [visitTree_of_file hv hsub]
      exact grepNode_eq u flags needle true _ f hsub

/-- **An operand.** -/
theorem grepPath_eq (hv : s.vfs.WellFormed) (u : Unicode) (o : GrepArgs) (needle path : Str)
    (f : Found) :
    grepPath u now s o needle { o.flags with showFilename := showsFilename o } f path =
      f.after u o.flags needle (visits now s o path) := by
  rw [grepPath, visits]
  rcases hres : s.vfs.resolve s.cwd path with - | id
  · exact complain_eq f _
  by_cases hdir : (s.vfs.node id).metadata.isDir = true
  · simp only [if_pos hdir]
    split
    · have hid := lt_of_isDir hdir
      rw [grepDir_eq hv u _ needle hdir, after_showFilename,
        preorder_eq_tree hv hid (Nat.le_add_right _ 2)]
    · exact complain_eq f _
  · simp only [if_neg hdir]
    rw [← grepNode_eq u o.flags needle (showsFilename o) path f hdir]
    by_cases h : readableBy (s.vfs.node id).metadata s.uid s.gid = true
    · simp only [h, Bool.not_true, Bool.false_eq_true, if_false, if_true]
    · simp only [h, Bool.not_false, Bool.false_eq_true, if_false, if_true]

/-- **What `grep` answers.** It says what there is to say about each text and each file that it
comes to, one after the other, and its status tells whether a line was selected in any of them. -/
theorem grep_eq (u : Unicode) (now : Timestamp) (s : Shell) (args : List Str) {pattern : Str}
    (hv : s.vfs.WellFormed) (hpattern : (args.foldl grepArg .start).pattern = some pattern)
    (hpaths : (args.foldl grepArg .start).paths ≠ []) :
    let o := args.foldl grepArg .start
    let needle := if o.flags.ignoreCase then u.toLowercase pattern else pattern
    let all := o.paths.flatMap (visits now s o)
    grep u now s args = .streams
      (if o.flags.quiet then [] else all.flatMap (Visit.out u o.flags needle))
      (if o.flags.quiet || o.suppressErrors then [] else all.flatMap Visit.err)
      (if all.any (Visit.hits u o.flags needle) then 0 else 1) := by
  intro o needle all
  have hfound : o.paths.foldl (grepPath u now s o needle
      { o.flags with showFilename := showsFilename o }) .start =
        Found.start.after u o.flags needle all :=
    foldl_after (fun path _ f ↦ grepPath_eq hv u o needle path f) .start
  rw [grep, grepRun, hpattern]
  refine (if_neg hpaths).trans ?_
  show CommandResult.streams _ _ _ = _
  rw [hfound]
  rfl

/-- The lines of a tree with a `b` in them, with their numbers. -/
theorem grep_eq_shelf :
    grep ⟨.ascii, fun text ↦ text⟩ 0 { Shell.bare with vfs := shelf }
        ["-rn".toList, ['b'], ['/']] = .streams "/d/f:1:ab\n".toList [] 0 :=
  (grep_eq ⟨.ascii, fun text ↦ text⟩ 0 { Shell.bare with vfs := shelf }
    ["-rn".toList, ['b'], ['/']] wellFormed_shelf rfl (by decide)).trans (by decide +kernel)

end Grep

end Interp

end Mimic
