import Mimic.Commands.Tar
import Mimic.Foundation.GuardedRun
import Mimic.Vfs.Confined
import Mimic.Vfs.Placement

/-!
# What an extraction touches

`tar -x` makes entries in the current directory and in directories that it has come to from there,
so a node elsewhere stays as it is (`tar_confined`). No name of a member leads out, since `..` is
refused and links are not followed.

The permission of a directory is asked for in one place, before the last component of a name. The
directories in front of it are made on the way there, in whatever directory the first one of them is
missing from (`startOf`). `extraction_permissions` says which members therefore enter something into
a directory that may not be written to.
-/

namespace Mimic

namespace Interp

namespace Tar

open Vfs GuardedRun

variable {now : Timestamp} {s : Shell} {inside allowed : NodeId → Prop} {u v w : Vfs}
  {dir d x : NodeId} {comps : List Str} {data : Bytes} {verbose : Bool} {members : List Str}
  {entry : TarEntry} {entries : List TarEntry} {e : Extraction} {member name : Str}

/-! ### One directory after another -/

variable (now s comps) in
/-- **The rule of the loop of `tar_dest`**: what entering a directory and what making one keeps, the
loop keeps. -/
theorem tarDestLoop_rule {P : Vfs → NodeId → Prop}
    (hfound : ∀ w d, ∀ comp ∈ comps, ∀ x, P w d → w.child d comp = some x →
      (w.node x).metadata.isDir = true → P w x)
    (hmade : ∀ w d, ∀ comp ∈ comps, P w d → w.child d comp = none →
      P (w.mkdir now d comp 0o755 s.uid s.gid).1 (w.mkdir now d comp 0o755 s.uid s.gid).2)
    (h : P w dir) :
    (∃ d, P (tarDestLoop now s w dir comps).1 d) ∧
      ∀ d ∈ (tarDestLoop now s w dir comps).2, P (tarDestLoop now s w dir comps).1 d := by
  induction comps generalizing w dir with
  | nil => exact ⟨⟨dir, h⟩, fun d hd ↦ Option.some.inj hd ▸ h⟩
  | cons comp comps ih =>
    have hrest := fun w d h ↦ @ih w d
      (fun w d comp' hmem ↦ hfound w d comp' (List.mem_cons_of_mem comp hmem))
      (fun w d comp' hmem ↦ hmade w d comp' (List.mem_cons_of_mem comp hmem)) h
    rw [tarDestLoop]
    split
    · rename_i existing hchild
      split
      · exact ⟨⟨dir, h⟩, fun d hd ↦ by cases hd⟩
      rename_i hdir
      split
      · exact ⟨⟨dir, h⟩, fun d hd ↦ by cases hd⟩
      · exact hrest _ _
          (hfound w dir comp List.mem_cons_self existing h hchild (by simpa using hdir))
    · rename_i hnone
      have hnext := hmade w dir comp List.mem_cons_self h hnone
      dsimp only
      split
      · exact ⟨⟨_, hnext⟩, fun d hd ↦ by cases hd⟩
      · exact hrest _ _ hnext

variable (now s comps) in
/-- The rule for what making any entry keeps. -/
theorem tarDestLoop_makes {P : Vfs → NodeId → Prop}
    (hstep : ∀ w u d, ∀ comp ∈ comps, ∀ x, P w d → Makes w d comp u x → P u x) (h : P w dir) :
    (∃ d, P (tarDestLoop now s w dir comps).1 d) ∧
      ∀ d ∈ (tarDestLoop now s w dir comps).2, P (tarDestLoop now s w dir comps).1 d :=
  tarDestLoop_rule now s comps
    (fun w d comp hcomp x hP hchild _ ↦ hstep w w d comp hcomp x hP (.found hchild))
    (fun w d comp hcomp hP _ ↦
      hstep w _ d comp hcomp _ hP (makes_mkdir w now d comp 0o755 s.uid s.gid)) h

theorem confined_tarDestLoop (h : Confined inside v w) (hdir : inside dir) :
    Confined inside v (tarDestLoop now s w dir comps).1 ∧
      ∀ d ∈ (tarDestLoop now s w dir comps).2, inside d := by
  obtain ⟨⟨d, hd⟩, hall⟩ := tarDestLoop_makes now s comps
    (P := fun w d ↦ Confined inside v w ∧ inside d)
    (fun w u d comp _ x hP hm ↦ hP.1.makes hP.2 hm) ⟨h, hdir⟩
  exact ⟨hd.1, fun d hd ↦ (hall d hd).2⟩

theorem persists_tarDestLoop (h : Persists v w) :
    Persists v (tarDestLoop now s w dir comps).1 :=
  (tarDestLoop_makes now s comps (P := fun w _ ↦ Persists v w)
    (fun _ _ _ _ _ _ hP hm ↦ hP.makes hm) h).1.elim
    fun _ ↦ id

/-! ### One member -/

/-- The directories in front of the last component of a name, and that component. -/
def destOf (name : Str) : Option (List Str × Str) :=
  let parts := (splitSlash name).filter fun c ↦ c ≠ [] ∧ c ≠ ['.']
  if tarHasDotDot name then none else parts.getLast?.map fun last ↦ (parts.dropLast, last)

/-- **What is extracted gets names that can be looked up.** -/
theorem isEntryName_of_destOf {dirs : List Str} {last comp : Str}
    (h : destOf name = some (dirs, last)) (hcomp : comp ∈ dirs ∨ comp = last) :
    IsEntryName comp := by
  rw [destOf] at h
  split at h
  · cases h
  rename_i hdots
  rw [Bool.not_eq_true, tarHasDotDot, List.any_eq_false] at hdots
  obtain ⟨last', hlast, heq⟩ := Option.map_eq_some_iff.mp h
  cases heq
  have hmem : comp ∈ (splitSlash name).filter fun c ↦ c ≠ [] ∧ c ≠ ['.'] := by
    rcases hcomp with hcomp | rfl
    · exact List.mem_of_mem_dropLast hcomp
    · exact List.mem_of_getLast? hlast
  obtain ⟨hpart, hcounts⟩ := List.mem_filter.mp hmem
  rw [decide_eq_true_eq] at hcounts
  exact ⟨⟨hcounts.1, hcounts.2, fun heq ↦ hdots comp hpart (decide_eq_true heq)⟩,
    slash_not_mem_of_mem_splitSlash hpart⟩

theorem tarDest_eq (v : Vfs) (name : Str) : tarDest now s v name =
    match destOf name with
    | none => (v, none)
    | some (dirs, last) =>
      ((tarDestLoop now s v s.cwd dirs).1,
        (tarDestLoop now s v s.cwd dirs).2.map fun dir ↦ (dir, last)) := by
  rw [tarDest, destOf]
  split
  · rfl
  · dsimp only
    rcases ((splitSlash name).filter fun c ↦ c ≠ [] ∧ c ≠ ['.']).getLast? with - | last <;> rfl

variable (now s) in
/-- What is made of a member in its directory is one entry at most. -/
theorem makes_makeMember (data : Bytes) (entry : TarEntry) (member : Str) (dir : NodeId)
    (name : Str) (e : Extraction) :
    ∃ x, Makes e.vfs dir name (makeMember now s data entry member dir name e).vfs x := by
  rw [makeMember]
  dsimp only
  generalize (if s.uid = 0 then (entry.uid, entry.gid) else (s.uid, s.gid)) = owner
  split
  · exact ⟨_, makes_mkdir ..⟩
  split
  · exact ⟨_, makes_addSymlink ..⟩
  split
  · refine ⟨(e.vfs.addFile now dir name (body data entry) entry.mode owner.1 owner.2).2, ?_⟩
    rw [apply_ite Extraction.vfs, Extraction.fail, ite_self]
    exact makes_addFile ..
  · exact ⟨dir, .refused⟩

/-- The name that an entry is extracted as. -/
def memberName (entry : TarEntry) : Str := entry.name.drop (leading entry.name)

theorem tarStripLeading_fst (name warned errs : Str) :
    (tarStripLeading name warned errs).1 = name.drop (leading name) := by
  rw [tarStripLeading]
  split <;> rfl

/-- Where an entry is extracted to, unless it is passed over: the directories and the name. -/
def target (members : List Str) (entry : TarEntry) : Option (List Str × Str) :=
  if tarSelected entry.name members ∧ tarHasDotDot entry.name = false then
    destOf (memberName entry)
  else none

/-- The extraction before anything is made of an entry. -/
def announced (verbose : Bool) (entry : TarEntry) (e : Extraction) : Extraction :=
  let stripped := tarStripLeading entry.name e.warned e.errs
  let e := { e with warned := stripped.2.1, errs := stripped.2.2 }
  if verbose then { e with out := e.out ++ stripped.1 ++ ['\n'] } else e

theorem extractMember_of_none (h : target members entry = none) :
    (extractMember now s data verbose members entry e).vfs = e.vfs := by
  rw [target] at h
  rw [extractMember]
  cases hselected : tarSelected entry.name members with
  | false => rfl
  | true =>
  cases hdots : tarHasDotDot entry.name with
  | true => rfl
  | false =>
  rw [hselected, hdots, if_pos ⟨rfl, rfl⟩] at h
  simp only [Bool.not_true, Bool.false_eq_true, if_false, tarDest_eq, tarStripLeading_fst]
  rw [show entry.name.drop (leading entry.name) = memberName entry from rfl, h]
  cases verbose <;> rfl

theorem extractMember_of_some {dirs : List Str} {last : Str}
    (h : target members entry = some (dirs, last)) :
    extractMember now s data verbose members entry e =
      let made := tarDestLoop now s e.vfs s.cwd dirs
      let e' := { announced verbose entry e with vfs := made.1 }
      match made.2 with
      | none =>
        e'.fail (memberName entry ++ ": Cannot open: No such file or directory\n".toList)
      | some dir =>
        if writableBy (made.1.node dir).metadata s.uid s.gid = false then
          e'.fail (denied (memberName entry))
        else makeMember now s data entry (memberName entry) dir last e' := by
  rw [target] at h
  rw [extractMember]
  cases hselected : tarSelected entry.name members with
  | false =>
    rw [hselected] at h
    cases h
  | true =>
  cases hdots : tarHasDotDot entry.name with
  | true =>
    rw [hdots] at h
    simp at h
  | false =>
  rw [hselected, hdots, if_pos ⟨rfl, rfl⟩] at h
  simp only [Bool.not_true, Bool.false_eq_true, if_false, tarDest_eq, tarStripLeading_fst]
  rw [show entry.name.drop (leading entry.name) = memberName entry from rfl, h, announced]
  rcases hdir : (tarDestLoop now s e.vfs s.cwd dirs).2 with - | dir
  · cases verbose <;> simp [tarStripLeading_fst, hdir, memberName]
  · cases verbose <;> simp [tarStripLeading_fst, hdir, memberName]

variable (now s data verbose members entry) in
/-- What making an entry in a directory that was come to keeps, extracting a member keeps. -/
theorem extractMember_makes {P : Vfs → NodeId → Prop}
    (hstep : ∀ w u d comp x, IsEntryName comp → P w d → Makes w d comp u x → P u x)
    (h : P e.vfs s.cwd) :
    ∃ d, P (extractMember now s data verbose members entry e).vfs d := by
  cases htarget : target members entry with
  | none => exact ⟨s.cwd, (extractMember_of_none htarget).symm ▸ h⟩
  | some dest =>
    obtain ⟨dirs, last⟩ := dest
    have hdest := htarget
    rw [target] at hdest
    split at hdest
    rotate_left
    · cases hdest
    obtain ⟨hsome, hall⟩ := tarDestLoop_makes now s dirs
      (fun w u d comp hcomp x ↦ hstep w u d comp x (isEntryName_of_destOf hdest (.inl hcomp))) h
    rw [extractMember_of_some htarget]
    dsimp only
    split
    · exact hsome
    rename_i dir hdir
    split
    · exact hsome
    · obtain ⟨x, hx⟩ := makes_makeMember now s data entry (memberName entry) dir last
        { announced verbose entry e with vfs := (tarDestLoop now s e.vfs s.cwd dirs).1 }
      exact ⟨x, hstep _ _ dir last x (isEntryName_of_destOf hdest (.inr rfl)) (hall dir hdir) hx⟩

/-! ### Elsewhere nothing is changed -/

theorem confined_extractMember (hcwd : inside s.cwd) (h : Confined inside v e.vfs) :
    Confined inside v (extractMember now s data verbose members entry e).vfs := by
  obtain ⟨_, hd⟩ := extractMember_makes now s data verbose members entry
    (P := fun w d ↦ Confined inside v w ∧ inside d)
    (fun w u d comp x _ hP hm ↦ hP.1.makes hP.2 hm) ⟨h, hcwd⟩
  exact hd.1

theorem extractAll_eq_run (e : Extraction) : extractAll now s data verbose members entries e =
    run (extractMember now s data verbose members) e entries := rfl

theorem confined_extractAll (hcwd : inside s.cwd) (h : Confined inside v e.vfs) :
    Confined inside v (extractAll now s data verbose members entries e).vfs := by
  rw [extractAll_eq_run]
  exact invariant_run (I := fun (e : Extraction) ↦ Confined inside v e.vfs) admissible_true
    (fun entry e _ he ↦ confined_extractMember hcwd he) h

theorem confined_tar {args : List Str}
    (hcreate : ∀ o, Options.start.parse args = .ok o → o.create = false) :
    Confined (s.vfs.Under s.cwd) s.vfs (tar now args s).1.vfs := by
  have hstart := confined_under s.vfs s.cwd
  rw [tar]
  split
  · exact hstart
  rename_i o ho
  split
  · exact hstart
  dsimp only
  rw [if_neg (by rw [hcreate o ho]; exact Bool.false_ne_true)]
  split
  · exact hstart
  split
  · rw [extract]
    split
    · exact hstart
    · exact confined_extractAll (fun _ ↦ ⟨[], rfl⟩) hstart
  · exact hstart

/-- **An extraction stays where it is**: whatever the archive, no node changes that there was and
that is not the current directory or below it. -/
theorem tar_confined (now : Timestamp) (s : Shell) (args : List Str)
    (hcreate : ∀ o, Options.start.parse args = .ok o → o.create = false)
    (hx : x < s.vfs.nodes.length) (hout : ∀ names, s.vfs.descend s.cwd names ≠ some x) :
    (tar now args s).1.vfs.node x = s.vfs.node x :=
  (confined_tar hcreate).node x fun hunder ↦ (hunder hx).elim hout

/-- A session in an empty directory, with an archive in the root whose one member is called `name`.
-/
def beside (name : Str) : Shell :=
  { Shell.bare with
    cwd := 1
    vfs := (((Vfs.new 0).mkdir 0 0 "d".toList 0o755 0 0).1.addFile 0 0 "t".toList
      (header name [] ⟨0o644, 0, 0, 0⟩ 48 0) 0o644 0 0).1 }

theorem tar_confined_beside :
    (tar 0 ["xf".toList, "/t".toList] (beside "../t".toList)).1.vfs.node 0 =
      (beside "../t".toList).vfs.node 0 := by
  refine tar_confined 0 _ _ (fun o ho ↦ ?_) (by decide +kernel) fun names hnames ↦ ?_
  · obtain rfl : (⟨false, true, false, false, some "/t".toList, [], false, false⟩ : Options) = o :=
      Except.ok.inj ho
    rfl
  · have hempty : (beside "../t".toList).vfs.entries 1 = some [] := by decide +kernel
    rcases names with - | ⟨name, names⟩
    · cases hnames
    · obtain ⟨x, hx, -⟩ := descend_cons.1 hnames
      have hmem := mem_entries_iff.2 hx
      rw [show (beside "../t".toList).cwd = 1 from rfl, hempty] at hmem
      cases hmem

/-! ### Directories that may be written to -/

/-- The directory from which the first of `comps` that is missing is missing. -/
def startOf (v : Vfs) (dir : NodeId) : List Str → Option NodeId
  | [] => none
  | comp :: comps =>
    match v.child dir comp with
    | some existing =>
      if (v.node existing).metadata.isDir = true ∧ existing ≠ dir then startOf v existing comps
      else none
    | none => some dir

/-- An entry could be made in `d`. -/
def Takes (v : Vfs) (d : NodeId) : Prop :=
  (v.node d).kind.isDirectory = true ∧ v.isFull d = false

/-- The directories that are missing are made in one that was made before, or that may be written
to. -/
def StartsWritable (s : Shell) (members : List Str) (entry : TarEntry) (e : Extraction) : Prop :=
  ∀ dirs last d, target members entry = some (dirs, last) → startOf e.vfs s.cwd dirs = some d →
    Takes e.vfs d → d < s.vfs.nodes.length →
      writableBy (s.vfs.node d).metadata s.uid s.gid = true

/-- The metadata of the directories that `tar_dest` makes. -/
def madeMetadata (now : Timestamp) (s : Shell) : Metadata :=
  Metadata.new now sIfDir 0o755 s.uid s.gid

theorem writableBy_madeMetadata : writableBy (madeMetadata now s) s.uid s.gid = true := by
  have hbit : ((sIfDir ||| (0o755 &&& 0o7777)) &&& 0o200 != 0) = true := by decide
  rw [writableBy, madeMetadata, Metadata.new, if_pos rfl]
  split
  · rfl
  · exact hbit

theorem gains_tarDestLoop (hnew : ∀ x, v.nodes.length ≤ x → allowed x)
    (hstart : ∀ d, startOf v dir comps = some d → Takes v d → allowed d) :
    Gains allowed v (tarDestLoop now s v dir comps).1 := by
  induction comps generalizing dir with
  | nil => exact .refl v
  | cons comp comps ih =>
    have hmakes := makes_mkdir v now dir comp 0o755 s.uid s.gid
    rw [tarDestLoop]
    rw [startOf] at hstart
    cases hchild : v.child dir comp with
    | some existing =>
      rw [hchild] at hstart
      dsimp only at hstart ⊢
      split
      · exact .refl v
      rename_i hdir
      split
      · exact .refl v
      rename_i hne
      rw [if_pos ⟨by simpa using hdir, hne⟩] at hstart
      exact ih hstart
    | none =>
      rw [hchild] at hstart
      have hgains : Gains allowed v (v.mkdir now dir comp 0o755 s.uid s.gid).1 :=
        hmakes.gains fun hdir hfull _ ↦ hstart dir rfl ⟨hdir, hfull⟩
      dsimp only
      split
      · exact hgains
      rename_i hne
      -- from here on everything happens in new directories
      obtain ⟨⟨_, hd⟩, -⟩ := tarDestLoop_makes now s comps
        (P := fun w d ↦ Gains allowed v w ∧ Confined (fun y ↦ v.nodes.length ≤ y)
          (v.mkdir now dir comp 0o755 s.uid s.gid).1 w ∧ v.nodes.length ≤ d)
        (fun w u d comp _ x hP hm ↦ ⟨hP.1.trans (hm.gains fun _ _ _ ↦ hnew d hP.2.2),
          hP.2.1.makes hP.2.2 hm⟩) ⟨hgains, hmakes.confined_new, hmakes.le_of_ne hchild hne⟩
      exact hd.1

variable (now s) in
/-- Where directories are missing, one of them is made, and the rest happens in new ones. -/
theorem startOf_spec (hstart : startOf v dir comps = some d) (hd : Takes v d) :
    ∃ comp, v.child d comp = none ∧
      Confined (fun y ↦ v.nodes.length ≤ y) (v.mkdir now d comp 0o755 s.uid s.gid).1
        (tarDestLoop now s v dir comps).1 ∧
      ∀ y ∈ (tarDestLoop now s v dir comps).2, v.nodes.length ≤ y := by
  induction comps generalizing dir with
  | nil => cases hstart
  | cons comp comps ih =>
    rw [tarDestLoop]
    rw [startOf] at hstart
    cases hchild : v.child dir comp with
    | some existing =>
      rw [hchild] at hstart
      dsimp only at hstart ⊢
      split at hstart
      · rename_i hdir
        rw [if_neg (by simpa using hdir.1), if_neg hdir.2]
        exact ih hstart
      · cases hstart
    | none =>
      rw [hchild] at hstart
      obtain rfl := Option.some.inj hstart
      have hmakes := makes_mkdir v now dir comp 0o755 s.uid s.gid
      refine ⟨comp, hchild, ?_⟩
      dsimp only
      split
      · exact ⟨hmakes.confined_new, fun y hy ↦ by cases hy⟩
      · rename_i hne
        exact confined_tarDestLoop hmakes.confined_new (hmakes.le_of_ne hchild hne)

/-- All that is new since `v` was made by `tar_dest`, and `d` is new. -/
def Newly (now : Timestamp) (s : Shell) (v w : Vfs) (d : NodeId) : Prop :=
  v.nodes.length ≤ d ∧ d < w.nodes.length ∧ Confined (fun y ↦ v.nodes.length ≤ y) w w ∧
    ∀ x, v.nodes.length ≤ x → x < w.nodes.length → (w.node x).metadata = madeMetadata now s

theorem newly_graft (hne : v.nodes.length ≠ dir) :
    Newly now s v (v.graftDir (madeMetadata now s) dir name) v.nodes.length := by
  refine ⟨le_rfl, length_lt_length_graft, ⟨fun _ _ ↦ rfl, fun y hy ↦ ?_, fun d nm c hd hchild ↦ ?_⟩,
    fun x hle hlt ↦ ?_⟩
  · exact length_lt_length_graft.le.trans hy
  · rcases child_graft_cases rfl hchild with hold | ⟨-, rfl⟩
    · exact absurd (lt_of_child hold) (Nat.not_lt.mpr hd)
    · exact le_rfl
  · rw [length_graft] at hlt
    obtain rfl : x = v.nodes.length := by omega
    rw [node_graft_self_of_ne hne]

theorem newly_found (w : Vfs) (d : NodeId) (comp : Str) (x : NodeId) (h : Newly now s v w d)
    (hchild : w.child d comp = some x) (hdir : (w.node x).metadata.isDir = true) :
    Newly now s v w x := by
  obtain ⟨hle, hlt, hclosed, hmade⟩ := h
  refine ⟨hclosed.closed d comp x hle hchild, Nat.lt_of_not_le fun hge ↦ ?_, hclosed, hmade⟩
  rw [node_of_le hge] at hdir
  cases hdir

theorem newly_mkdir (w : Vfs) (d : NodeId) (comp : Str) (h : Newly now s v w d)
    (hnone : w.child d comp = none) :
    Newly now s v (w.mkdir now d comp 0o755 s.uid s.gid).1
      (w.mkdir now d comp 0o755 s.uid s.gid).2 := by
  obtain ⟨hle, hlt, hclosed, hmade⟩ := h
  have hmakes := makes_mkdir w now d comp 0o755 s.uid s.gid
  have hafter := (hclosed.makes hle hmakes).1.self
  obtain ⟨x, hx, -⟩ | ⟨-, -, hmk⟩ | ⟨-, -, hmk⟩ := mkdir_cases w now d comp 0o755 s.uid s.gid
  · rw [hnone] at hx
    cases hx
  · rw [hmk]
    exact ⟨hle, hlt, hclosed, hmade⟩
  · rw [hmk] at hafter ⊢
    refine ⟨hle.trans hlt.le, length_lt_length_graft, hafter, fun x hx hxlt ↦ ?_⟩
    rw [length_graft] at hxlt
    rcases Nat.lt_succ_iff_lt_or_eq.mp hxlt with hold | rfl
    · rw [metadata_graft_of_lt hold, hmade x hx hold]
    · rw [node_graft_self hlt, madeMetadata]

/-- A directory that `tar_dest` has come to is one it has made, unless it has made none. -/
theorem metadata_tarDestLoop (hres : (tarDestLoop now s v dir comps).2 = some d) :
    (tarDestLoop now s v dir comps).1 = v ∨
      ((tarDestLoop now s v dir comps).1.node d).metadata = madeMetadata now s := by
  induction comps generalizing dir with
  | nil => exact Or.inl rfl
  | cons comp comps ih =>
    rw [tarDestLoop] at hres ⊢
    cases hchild : v.child dir comp with
    | some existing =>
      rw [hchild] at hres
      dsimp only at hres ⊢
      split at hres
      · cases hres
      rename_i hdir
      split at hres
      · cases hres
      rename_i hne
      rw [if_neg hdir, if_neg hne]
      exact ih hres
    | none =>
      rw [hchild] at hres
      dsimp only at hres ⊢
      split at hres
      · cases hres
      rename_i hne
      rw [if_neg hne]
      have hmakes := makes_mkdir v now dir comp 0o755 s.uid s.gid
      obtain ⟨x, hx, -⟩ | ⟨-, -, hmk⟩ | ⟨-, -, hmk⟩ := mkdir_cases v now dir comp 0o755 s.uid s.gid
      · rw [hchild] at hx
        cases hx
      · exact absurd (congrArg Prod.snd hmk) hne
      have hdir : v.nodes.length ≠ dir := fun heq ↦ hne ((congrArg Prod.snd hmk).trans heq)
      have hnew : Newly now s v (v.mkdir now dir comp 0o755 s.uid s.gid).1
          (v.mkdir now dir comp 0o755 s.uid s.gid).2 := by
        rw [hmk]
        exact newly_graft hdir
      obtain ⟨-, hall⟩ := tarDestLoop_rule now s comps (fun w d comp _ ↦ newly_found w d comp)
        (fun w d comp _ ↦ newly_mkdir w d comp) hnew
      obtain ⟨hle, hlt, -, hmade⟩ := hall d hres
      exact Or.inr (hmade d hle hlt)

/-! ### One member and the permissions -/

/-- `d` may be written to, if it was there before. -/
def Writable (s : Shell) (d : NodeId) : Prop :=
  d < s.vfs.nodes.length → writableBy (s.vfs.node d).metadata s.uid s.gid = true

/-- Extracting the entry ends with a permission error. -/
def PermissionDenied (now : Timestamp) (s : Shell) (data : Bytes) (verbose : Bool)
    (members : List Str) (entry : TarEntry) (e : Extraction) : Prop :=
  (extractMember now s data verbose members entry e).errs =
    (announced verbose entry e).errs ++ "tar: ".toList ++ denied (memberName entry)

variable (now s) in
theorem errs_makeMember (data : Bytes) (entry : TarEntry) (member : Str) (dir : NodeId) (name : Str)
    (e : Extraction) :
    (makeMember now s data entry member dir name e).errs = e.errs ∨
      (makeMember now s data entry member dir name e).errs = e.errs ++ "tar: ".toList ++
        (member ++ ": Cannot write: No space left on device\n".toList) := by
  rw [makeMember]
  dsimp only
  generalize (if s.uid = 0 then (entry.uid, entry.gid) else (s.uid, s.gid)) = owner
  split
  · exact Or.inl rfl
  split
  · exact Or.inl rfl
  split
  · split_ifs
    · exact Or.inl rfl
    · exact Or.inr rfl
  · exact Or.inl rfl

/-- **A member that is denied leaves the filesystem alone.** -/
theorem vfs_of_permissionDenied (h : PermissionDenied now s data verbose members entry e) :
    (extractMember now s data verbose members entry e).vfs = e.vfs := by
  cases htarget : target members entry with
  | none => exact extractMember_of_none htarget
  | some dest =>
  obtain ⟨dirs, last⟩ := dest
  rw [PermissionDenied] at h
  rw [extractMember_of_some htarget] at h ⊢
  dsimp only at h ⊢
  generalize announced verbose entry e = e₁ at h ⊢
  cases hres : (tarDestLoop now s e.vfs s.cwd dirs).2 with
  | none =>
    -- the message is another one
    rw [hres] at h
    have hmessage := List.append_cancel_left (List.append_cancel_left h)
    exact absurd hmessage (by decide)
  | some dir =>
    rw [hres] at h
    dsimp only at h ⊢
    split
    · rename_i hdenied
      rcases metadata_tarDestLoop hres with hsame | hmade
      · exact hsame
      · rw [hmade, writableBy_madeMetadata] at hdenied
        cases hdenied
    · rename_i hwritable
      rw [if_neg hwritable] at h
      rcases errs_makeMember now s data entry (memberName entry) dir last
        { e₁ with vfs := (tarDestLoop now s e.vfs s.cwd dirs).1 } with hsame | hfull
      · have hnil := List.append_cancel_left
          (((List.append_nil _).trans hsame.symm).trans (h.trans (List.append_assoc ..)))
        exact absurd hnil (by simp)
      · have hmessage := List.append_cancel_left (List.append_cancel_left (hfull.symm.trans h))
        exact absurd hmessage (by decide)

theorem persists_extractMember (h : Persists v e.vfs) :
    Persists v (extractMember now s data verbose members entry e).vfs := by
  obtain ⟨_, hd⟩ := extractMember_makes now s data verbose members entry
    (P := fun w _ ↦ Persists v w)
    (fun w u d comp x _ hP hm ↦ hP.makes hm) h
  exact hd

/-- A member whose missing directories are made where they may be made enters something nowhere
else. -/
theorem gains_extractMember (hpersists : Persists s.vfs e.vfs)
    (hstart : StartsWritable s members entry e) :
    Gains (Writable s) e.vfs (extractMember now s data verbose members entry e).vfs := by
  cases htarget : target members entry with
  | none =>
    rw [extractMember_of_none htarget]
    exact .refl _
  | some dest =>
  obtain ⟨dirs, last⟩ := dest
  have hloop : Gains (Writable s) e.vfs (tarDestLoop now s e.vfs s.cwd dirs).1 :=
    gains_tarDestLoop (fun x hle hlt ↦ absurd (hpersists.length_le.trans hle) (Nat.not_le.mpr hlt))
      fun d hd htakes hlt ↦ hstart dirs last d htarget hd htakes hlt
  have hpersists' : Persists s.vfs (tarDestLoop now s e.vfs s.cwd dirs).1 :=
    persists_tarDestLoop hpersists
  rw [extractMember_of_some htarget]
  dsimp only
  split
  · exact hloop
  rename_i dir hdir
  split
  · exact hloop
  rename_i hwritable
  rw [Bool.not_eq_false] at hwritable
  obtain ⟨x, hx⟩ := makes_makeMember now s data entry (memberName entry) dir last
    { announced verbose entry e with vfs := (tarDestLoop now s e.vfs s.cwd dirs).1 }
  refine hloop.trans (hx.gains fun hkind _ _ hlt ↦ ?_)
  rw [← hpersists'.metadata dir hlt hkind]
  exact hwritable

variable (now data verbose) in
/-- Where directories are missing, the one they are missing from gets an entry. -/
theorem exists_entry_extractMember {dirs : List Str} {last : Str}
    (htarget : target members entry = some (dirs, last))
    (hstart : startOf e.vfs s.cwd dirs = some d) (htakes : Takes e.vfs d) :
    ∃ nm c, e.vfs.child d nm = none ∧
      (extractMember now s data verbose members entry e).vfs.child d nm = some c := by
  obtain ⟨comp, hnone, hconfined, hinside⟩ := startOf_spec now s hstart htakes
  have hlt : d < e.vfs.nodes.length := lt_of_isDirectory htakes.1
  have hchild : (e.vfs.mkdir now d comp 0o755 s.uid s.gid).1.child d comp =
      some e.vfs.nodes.length := by
    obtain ⟨x, hx, -⟩ | ⟨-, hfull, -⟩ | ⟨-, -, hmk⟩ :=
      mkdir_cases e.vfs now d comp 0o755 s.uid s.gid
    · rw [hnone] at hx
      cases hx
    · rw [htakes.2] at hfull
      cases hfull
    · rw [hmk, child_graft hlt rfl, if_pos ⟨rfl, rfl, htakes.1⟩]
  have hafter : Confined (fun y ↦ e.vfs.nodes.length ≤ y)
    (e.vfs.mkdir now d comp 0o755 s.uid s.gid).1
      (extractMember now s data verbose members entry e).vfs := by
    rw [extractMember_of_some htarget]
    dsimp only
    split
    · exact hconfined
    rename_i dir hdir
    split
    · exact hconfined
    · obtain ⟨x, hx⟩ := makes_makeMember now s data entry (memberName entry) dir last
        { announced verbose entry e with vfs := (tarDestLoop now s e.vfs s.cwd dirs).1 }
      exact (hconfined.makes (hinside dir hdir) hx).1
  refine ⟨comp, e.vfs.nodes.length, hnone, ?_⟩
  rw [child_eq, hafter.node d (Nat.not_le.mpr hlt), ← child_eq, hchild]

/-! ### A whole archive -/

/-- The extraction after the first `k` members of an archive. -/
def during (now : Timestamp) (s : Shell) (data : Bytes) (verbose : Bool) (members : List Str)
    (entries : List TarEntry) (k : ℕ) : Extraction :=
  extractAll now s data verbose members (entries.take k) ⟨s.vfs, [], [], 0, []⟩

theorem during_eq_run (k : ℕ) : during now s data verbose members entries k =
    run (extractMember now s data verbose members) ⟨s.vfs, [], [], 0, []⟩ (entries.take k) := rfl

theorem during_succ {k : ℕ} (h : entries[k]? = some entry) :
    during now s data verbose members entries (k + 1) =
      extractMember now s data verbose members entry
        (during now s data verbose members entries k) := by
  rw [during_eq_run, List.take_add_one, h, run_append]
  rfl

theorem persists_during (k : ℕ) :
    Persists s.vfs (during now s data verbose members entries k).vfs := by
  rw [during_eq_run]
  exact invariant_run (I := fun (e : Extraction) ↦ Persists s.vfs e.vfs) admissible_true
    (fun entry e _ he ↦ persists_extractMember he) (.refl _)

/-- One member and the directories that got an entry so far. -/
theorem gains_extractMember_iff (hpersists : Persists s.vfs e.vfs)
    (hgains : Gains (Writable s) s.vfs e.vfs) :
    Gains (Writable s) s.vfs (extractMember now s data verbose members entry e).vfs ↔
      StartsWritable s members entry e := by
  constructor
  · intro hafter dirs last d htarget hstart htakes hlt
    obtain ⟨nm, c, hnone, hsome⟩ := exists_entry_extractMember now data verbose
      htarget hstart htakes
    have hbefore : s.vfs.child d nm = none := by
      cases hchild : s.vfs.child d nm with
      | none => rfl
      | some x =>
        rw [hpersists.entry d nm x hlt htakes.1 hchild] at hnone
        cases hnone
    exact hafter.entry d nm c hlt hbefore hsome hlt
  · exact fun hstart ↦ hgains.trans (gains_extractMember hpersists hstart)

/-- **The exact condition for an extraction to respect permissions**: the directories that are
missing in front of a member's last component are made in a directory that may be written to. Then
every directory that gets an entry could be written to, and a member that is denied leaves the
filesystem as it was. -/
theorem extraction_permissions (now : Timestamp) (s : Shell) (data : Bytes) (verbose : Bool)
    (members : List Str) (entries : List TarEntry) :
    ((∀ k d name c, d < s.vfs.nodes.length → s.vfs.child d name = none →
        (during now s data verbose members entries k).vfs.child d name = some c →
          writableBy (s.vfs.node d).metadata s.uid s.gid = true) ∧
      ∀ k entry, entries[k]? = some entry →
        PermissionDenied now s data verbose members entry
            (during now s data verbose members entries k) →
          (during now s data verbose members entries (k + 1)).vfs =
            (during now s data verbose members entries k).vfs) ↔
      Admissible (extractMember now s data verbose members) (StartsWritable s members)
        ⟨s.vfs, [], [], 0, []⟩ entries := by
  have hdenied : ∀ k entry, entries[k]? = some entry →
      PermissionDenied now s data verbose members entry
          (during now s data verbose members entries k) →
        (during now s data verbose members entries (k + 1)).vfs =
          (during now s data verbose members entries k).vfs := fun k entry hk hdenied ↦ by
    rw [during_succ hk, vfs_of_permissionDenied hdenied]
  have hentries : ∀ k, (∀ d name c, d < s.vfs.nodes.length → s.vfs.child d name = none →
      (during now s data verbose members entries k).vfs.child d name = some c →
        writableBy (s.vfs.node d).metadata s.uid s.gid = true) ↔
      Gains (Writable s) s.vfs (during now s data verbose members entries k).vfs := fun k ↦
    ⟨fun h ↦ ⟨(persists_during k).length_le, fun d name c hlt hnone hsome _ ↦
        h d name c hlt hnone hsome⟩,
      fun h d name c hlt hnone hsome ↦ h.entry d name c hlt hnone hsome hlt⟩
  rw [and_iff_left hdenied, forall_congr' hentries]
  exact forall_take_iff (I := fun (e : Extraction) ↦ Persists s.vfs e.vfs)
    (P := fun e ↦ Gains (Writable s) s.vfs e.vfs) admissible_true
    (fun entry e _ he ↦ persists_extractMember he)
    (fun entry e _ hI hP ↦ gains_extractMember_iff hI hP) (.refl _) (.refl _)

/-- The session of somebody else in the root, with an archive whose member is called `a/b`. -/
def visitor : Shell := { beside "a/b".toList with cwd := 0, uid := 1000, gid := 1000 }

theorem extraction_permissions_visitor :
    visitor.vfs.child 0 "a".toList = none ∧
      (tar 0 ["xf".toList, "t".toList] visitor).1.vfs.child 0 "a".toList = some 3 ∧
        writableBy (visitor.vfs.node 0).metadata visitor.uid visitor.gid = false := by
  decide +kernel

end Tar

end Interp

end Mimic
