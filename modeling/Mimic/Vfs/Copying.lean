import Mimic.Vfs.Branches

/-!
# Where a copy goes

`deep_copy` makes an entry for what it copies, and for the entries of a directory it goes on in what
`mkdir` gave it. As long as that is the directory of the name asked for, whatever changes is behind
the entry of the copy (`deepCopy_stays`), also when the copy is refused half way, replaces things of
other kinds, or is made inside of what is copied.

But `mkdir` gives back what is there under the name, and at a cap the directory it was to create
something in. The copy does not look, and goes on in a file, where nothing it makes is attached
(`deepCopy_strays`), or beside its destination.
-/

namespace Mimic

open GuardedRun

namespace Vfs

variable {now : Timestamp} {u v w : Vfs} {src p d x y n : NodeId} {name : Str} {fuel : ℕ}

/-! ### The steps of a copy -/

/-- The directory a copy of the directory `src` is made in. -/
def copyDir (v : Vfs) (now : Timestamp) (src p : NodeId) (name : Str) : Vfs × NodeId :=
  v.mkdir now p name ((v.node src).metadata.mode &&& 0o7777) (v.node src).metadata.uid
    (v.node src).metadata.gid

/-- Copy an entry into `d`. -/
def copyEntry (now : Timestamp) (fuel : ℕ) (d : NodeId) (e : Str × NodeId) (v : Vfs) : Vfs :=
  (deepCopyInner now fuel v e.2 d e.1).1

/-- What there is to copy, once the directory `src` itself is copied. -/
def copyList (v : Vfs) (now : Timestamp) (src p : NodeId) (name : Str) : List (Str × NodeId) :=
  ((v.copyDir now src p name).1.entries src).getD []

theorem deepCopyInner_directory (hdir : (v.node src).kind.isDirectory = true) :
    deepCopyInner now (fuel + 1) v src p name =
      (run (copyEntry now fuel (v.copyDir now src p name).2) (v.copyDir now src p name).1
        (v.copyList now src p name), (v.copyDir now src p name).2) := by
  rw [deepCopyInner]
  cases hkind : (v.node src).kind with
  | directory => rfl
  | _ =>
    rw [hkind] at hdir
    cases hdir

variable (now) in
theorem wellFormed_deepCopyInner (fuel : ℕ) (name : Str) (hv : v.WellFormed)
    (hsrc : src < v.nodes.length) (hp : p < v.nodes.length) :
    (deepCopyInner now fuel v src p name).1.WellFormed := by
  rw [deepCopyInner_eq_run]
  exact wellFormed_run_calls (admissible_deepCopyCalls fuel hv hsrc hp) hv

theorem makes_copyDir (v : Vfs) (now : Timestamp) (src p : NodeId) (name : Str) :
    Makes v p name (v.copyDir now src p name).1 (v.copyDir now src p name).2 :=
  makes_mkdir ..

variable (now src name) in
theorem wellFormed_copyDir (hv : v.WellFormed) (hp : p < v.nodes.length) :
    (v.copyDir now src p name).1.WellFormed :=
  ((Mutator.mkdir now p name _ _ _).rewrites
    fun _ hid ↦ List.mem_singleton.1 hid ▸ hp).wellFormed hv

theorem run_copyEntry_zero (v : Vfs) (d : NodeId) (es : List (Str × NodeId)) :
    run (copyEntry now 0 d) v es = v := by
  induction es with
  | nil => rfl
  | cons e es ih => exact ih

/-- **A copy of anything but a directory** makes its entry, or drops what is there first. -/
theorem altered_leaf (hv : v.WellFormed) (hp : p < v.nodes.length)
    (hdir : (v.node p).kind.isDirectory = true) (hsrc : ¬ (v.node src).kind.isDirectory = true) :
    Altered v (deepCopyInner now (fuel + 1) v src p name).1 p (· = name) := by
  rw [deepCopyInner]
  cases hkind : (v.node src).kind with
  | directory =>
    rw [hkind] at hsrc
    exact absurd rfl hsrc
  | file contents => exact (makes_addFile ..).altered hv hp hdir
  | dynamicFile generator => exact (makes_addDynamicFile ..).altered hv hp hdir
  | symlink target =>
    have hprunes := Prunes.unlink v p name
    have hcleared : (v.unlink p name).1.child p name = none := by
      rw [unlink, child_modifyChildren_erase, if_pos ⟨rfl, rfl⟩]
    have hu := hprunes.wellFormed hv
    have hunlink := altered_unlink v p name
    dsimp only
    generalize hlink : (v.unlink p name).1.insert p name (.symlink target)
      { (v.node src).metadata with mtime := now } = linked
    have hmakes : Makes (v.unlink p name).1 p name linked.1 linked.2 := by
      rw [← hlink]
      exact makes_insert rfl hcleared
    have hmake := hmakes.altered hu (hprunes.length.symm ▸ hp) (hunlink.isDirectory.trans hdir)
    exact (hunlink.trans hmake hu hp (.inl hprunes.length)).mono fun nm hnm ↦ hnm.elim id id

/-! ### Copies that stay where they belong -/

/-- `mkdir` gives a directory of the name asked for: it finds one, or has the room to create it. -/
def Gives (v : Vfs) (p : NodeId) (name : Str) : Prop :=
  (∃ d, v.child p name = some d ∧ (v.node d).kind.isDirectory = true) ∨
    (v.child p name = none ∧ v.isFull p = false)

/-- Wherever the copy comes to a directory with entries that it follows, `mkdir` gives it one. -/
def Steered (now : Timestamp) : ℕ → Vfs → NodeId → NodeId → Str → Prop
  | 0, _, _, _, _ => True
  | fuel + 1, v, src, p, name =>
    (v.node src).kind.isDirectory = true →
      (v.copyList now src p name ≠ [] → fuel ≠ 0 → v.Gives p name) ∧
        Admissible (copyEntry now fuel (v.copyDir now src p name).2)
          (fun e w ↦ Steered now fuel w e.2 (v.copyDir now src p name).2 e.1)
          (v.copyDir now src p name).1 (v.copyList now src p name)

variable (now src) in
/-- What `mkdir` gives. -/
theorem Gives.copyDir (h : v.Gives p name) (hp : p < v.nodes.length)
    (hdir : (v.node p).kind.isDirectory = true) :
    (v.copyDir now src p name).1.child p name = some (v.copyDir now src p name).2 ∧
      ((v.copyDir now src p name).1.node (v.copyDir now src p name).2).kind.isDirectory = true := by
  rw [Vfs.copyDir, mkdir]
  rcases h with ⟨d, hchild, hd⟩ | ⟨hnone, hfull⟩
  · rw [hchild]
    exact ⟨hchild, hd⟩
  · rw [hnone]
    dsimp only
    rw [insert_eq, hfull, if_neg Bool.false_ne_true]
    refine ⟨?_, ?_⟩
    · rw [child_graft hp rfl, if_pos ⟨rfl, rfl, hdir⟩]
    · rw [node_graft_self hp]
      rfl

/-- **A copy that is steered changes nothing but what is behind its entry.** -/
theorem altered_deepCopyInner (fuel : ℕ) :
    ∀ {v : Vfs} {src p : NodeId} {name : Str}, v.WellFormed → src < v.nodes.length →
      p < v.nodes.length → (v.node p).kind.isDirectory = true → Steered now fuel v src p name →
      Altered v (deepCopyInner now fuel v src p name).1 p (· = name) := by
  induction fuel with
  | zero => intro v src p name _ _ _ _ _; exact .refl v p _
  | succ fuel ih =>
    intro v src p name hv hsrc hp hdir hsteered
    by_cases hkind : (v.node src).kind.isDirectory = true
    swap
    · exact altered_leaf hv hp hdir hkind
    obtain ⟨hgives, hall⟩ := hsteered hkind
    rw [deepCopyInner_directory hkind]
    have hmakes := makes_copyDir v now src p name
    have hmade := hmakes.altered hv hp hdir
    have hu := wellFormed_copyDir now src name hv hp
    have hes : v.copyList now src p name = ((v.copyDir now src p name).1.entries src).getD [] := rfl
    generalize v.copyList now src p name = es at *
    rcases eq_or_ne es [] with rfl | hne
    · exact hmade
    rcases eq_or_ne fuel 0 with rfl | hfuel
    · rw [run_copyEntry_zero]
      exact hmade
    obtain ⟨hchild, hgiven⟩ := (hgives hne hfuel).copyDir now src hp hdir
    have hnew : ∀ x, v.nodes.length ≤ x → x < (v.copyDir now src p name).1.nodes.length →
        x = (v.copyDir now src p name).2 := fun x ↦ hmakes.eq_of_le
    generalize (v.copyDir now src p name).1 = u at *
    generalize (v.copyDir now src p name).2 = d at *
    have hlt : ∀ e ∈ es, e.2 < u.nodes.length := fun e he ↦
      hu.entry_lt (mem_entries_iff.1 (hes ▸ he))
    -- what every step keeps is that `d` is a directory
    refine hmade.fill (altered_run (I := fun w ↦ w.WellFormed ∧ u.nodes.length ≤ w.nodes.length ∧
      (w.node d).kind.isDirectory = true) (hes ▸ nodup_entries u src)
      (fun w hw ↦ ⟨hw.1, lt_of_isDirectory hw.2.2⟩) (fun e w he hw ↦ ?_) (hall.and_forall hlt)
      ⟨hu, le_rfl, hgiven⟩) hu hp hchild hnew
    obtain ⟨hw, hlen, hwdir⟩ := hw
    have hsrc' := he.1.trans_le hlen
    have hd := lt_of_isDirectory hwdir
    have hstep := ih hw hsrc' hd hwdir he.2
    exact ⟨⟨wellFormed_deepCopyInner now fuel e.1 hw hsrc' hd, hlen.trans hstep.length_le,
      hstep.isDirectory.trans hwdir⟩, hstep⟩

/-- What a copy is to leave alone: all nodes that there were, but what is behind the entry of the
copy, and all other entries of the directory it is made in. And what it makes is attached. -/
structure StaysInside (v w : Vfs) (p : NodeId) (name : Str) : Prop where
  altered : Altered v w p (· = name)
  attached : v.Attached p → ∀ x, v.nodes.length ≤ x → x < w.nodes.length → w.Attached x

/-! ### Copies that go astray -/

/-- A node that no entry leads to. -/
def Dangles (v : Vfs) (n : NodeId) : Prop := n < v.nodes.length ∧ ∀ d nm, v.child d nm ≠ some n

/-- What dangles is not entered any more. -/
theorem Sprouts.dangles (h : Sprouts v w) (hn : v.Dangles n) : w.Dangles n :=
  ⟨hn.1.trans_le h.length_le, fun d nm hc ↦ hn.2 d nm (h.old d nm n hc hn.1)⟩

theorem sprouts_run {es : List (Str × NodeId)}
    (h : ∀ u e, Sprouts u (copyEntry now fuel d e u)) :
    Sprouts v (run (copyEntry now fuel d) v es) := by
  induction es generalizing v with
  | nil => exact .refl v
  | cons e es ih => exact (h v e).trans ih

theorem sprouts_deepCopyInner (fuel : ℕ) : ∀ (v : Vfs) (src p : NodeId) (name : Str),
    Sprouts v (deepCopyInner now fuel v src p name).1 := by
  induction fuel with
  | zero => intro v src p name; exact .refl v
  | succ fuel ih =>
    intro v src p name
    by_cases hdir : (v.node src).kind.isDirectory = true
    · rw [deepCopyInner_directory hdir]
      exact (makes_copyDir v now src p name).sprouts.trans (sprouts_run fun u e ↦ ih u e.2 _ e.1)
    rw [deepCopyInner]
    cases hkind : (v.node src).kind with
    | directory =>
      rw [hkind] at hdir
      exact absurd rfl hdir
    | file contents => exact (makes_addFile ..).sprouts
    | dynamicFile generator => exact (makes_addDynamicFile ..).sprouts
    | symlink target =>
      have hcleared : (v.unlink p name).1.child p name = none := by
        rw [unlink, child_modifyChildren_erase, if_pos ⟨rfl, rfl⟩]
      exact (Prunes.unlink v p name).sprouts.trans (makes_insert rfl hcleared).sprouts

theorem dangles_graft {kind : NodeKind} {metadata : Metadata} (hv : v.WellFormed)
    (hx : x < v.nodes.length) (hdir : ¬ (v.node x).kind.isDirectory = true)
    (hkind : kind.children = ∅) : (v.graft x name kind metadata).Dangles v.nodes.length := by
  refine ⟨length_lt_length_graft, fun d nm hc ↦ ?_⟩
  rw [child_graft hx hkind, if_neg fun h ↦ hdir h.2.2] at hc
  exact absurd (hv.entry_lt hc) (lt_irrefl _)

variable (now src name fuel) in
/-- **What is copied into something that is no directory dangles**, unless it is a file that there
is no room for. -/
theorem dangles_deepCopyInner (hv : v.WellFormed) (hx : x < v.nodes.length)
    (hdir : ¬ (v.node x).kind.isDirectory = true) (hroom : v.isFull x = false) :
    (deepCopyInner now (fuel + 1) v src x name).1.Dangles v.nodes.length ∨
      (deepCopyInner now (fuel + 1) v src x name).1 = v ∧
        maxVfsBytes < v.contentBytes + (v.node src).kind.contentLen := by
  have hnone : v.child x name = none := by
    rcases hchild : v.child x name with - | c
    · rfl
    · exact absurd (isDirectory_of_child hchild) hdir
  have hinsert : ∀ kind metadata, v.insert x name kind metadata =
      (v.graft x name kind metadata, v.nodes.length) := fun kind metadata ↦ by
    rw [insert_eq, hroom, if_neg Bool.false_ne_true]
  by_cases hsrc : (v.node src).kind.isDirectory = true
  · left
    rw [deepCopyInner_directory hsrc]
    refine (sprouts_run fun u e ↦ sprouts_deepCopyInner fuel u e.2 _ e.1).dangles ?_
    rw [copyDir, mkdir, hnone]
    dsimp only
    rw [hinsert]
    exact dangles_graft hv hx hdir rfl
  rw [deepCopyInner]
  cases hkind : (v.node src).kind with
  | directory =>
    rw [hkind] at hsrc
    exact absurd rfl hsrc
  | file contents =>
    dsimp only
    rw [addFile, hnone]
    dsimp only [Option.map_none, Option.getD_none]
    by_cases hbytes : v.contentBytes - 0 + contents.length > maxVfsBytes
    · rw [if_pos hbytes]
      exact Or.inr ⟨rfl, hbytes⟩
    · left
      rw [if_neg hbytes, hinsert, if_pos (Nat.ne_of_gt hx)]
      exact dangles_graft hv hx hdir rfl
  | dynamicFile generator =>
    left
    dsimp only
    rw [addDynamicFile, hnone]
    dsimp only
    rw [hinsert]
    exact dangles_graft hv hx hdir rfl
  | symlink target =>
    left
    have hprunes := Prunes.unlink v x name
    have hsame : ((v.unlink x name).1.node x).kind.isDirectory = (v.node x).kind.isDirectory :=
      isDirectory_modifyChildren x
    dsimp only
    rw [insert_eq, hprunes.isFull, hroom, if_neg Bool.false_ne_true, ← hprunes.length]
    exact dangles_graft (hprunes.wellFormed hv) (hprunes.length.symm ▸ hx) (hsame ▸ hdir) rfl

/-- The copy of the directory `src` finds something else under its name, and has an entry that it
has room to copy into that. -/
def Clashes (v : Vfs) (src p : NodeId) (name : Str) : Prop :=
  (v.node src).kind.isDirectory = true ∧ ∃ x, v.child p name = some x ∧
    ¬ (v.node x).kind.isDirectory = true ∧ v.isFull x = false ∧
      ∃ nm c, v.child src nm = some c ∧ v.contentBytes + (v.node c).kind.contentLen ≤ maxVfsBytes

variable (now) in
/-- **A copy that clashes leaves a node that dangles.** -/
theorem exists_dangles_of_clashes (hv : v.WellFormed) (h : v.Clashes src p name) :
    ∃ n, v.nodes.length ≤ n ∧ (v.deepCopy now src p name).1.Dangles n := by
  obtain ⟨hsrc, x, hchild, hdir, hroom, nm, c, hc, hbytes⟩ := h
  have hmade : v.copyDir now src p name = (v, x) := by rw [copyDir, mkdir, hchild]
  have hlist : v.copyList now src p name = (v.entries src).getD [] := by rw [copyList, hmade]
  obtain ⟨before, after, hes⟩ := List.append_of_mem (mem_entries_iff.2 hc)
  rw [deepCopy, deepCopyInner_directory hsrc, hlist, hmade, hes]
  dsimp only
  rw [run_append, run_cons]
  have hstep : ∀ u e, Sprouts u (copyEntry now maxCopyDepth x e u) := fun u e ↦
    sprouts_deepCopyInner maxCopyDepth u e.2 x e.1
  have hinto := fun c nm ↦
    dangles_deepCopyInner now c nm (maxCopyDepth - 1) hv (hv.entry_lt hchild) hdir hroom
  -- the entries in front of this one are refused, or something dangles already
  have hbefore : ∀ es : List (Str × NodeId), run (copyEntry now maxCopyDepth x) v es = v ∨
      ∃ n, v.nodes.length ≤ n ∧ (run (copyEntry now maxCopyDepth x) v es).Dangles n := by
    intro es
    induction es using List.reverseRecOn with
    | nil => exact Or.inl rfl
    | append_singleton es e ih =>
      rw [run_append, run_cons, run_nil]
      rcases ih with hsame | ⟨n, hle, hn⟩
      · rw [hsame]
        rcases hinto e.2 e.1 with hn | ⟨hv', -⟩
        · exact Or.inr ⟨_, le_rfl, hn⟩
        · exact Or.inl hv'
      · exact Or.inr ⟨n, hle, (hstep _ e).dangles hn⟩
  rcases hbefore before with hsame | ⟨n, hle, hn⟩
  · rw [hsame]
    refine ⟨v.nodes.length, le_rfl, (sprouts_run hstep).dangles ?_⟩
    rcases hinto c nm with hn | ⟨-, hlt⟩
    · exact hn
    · exact absurd hlt (Nat.not_lt.2 hbytes)
  · exact ⟨n, hle, (sprouts_run hstep).dangles ((hstep _ _).dangles hn)⟩

/-- **A copy stays inside its destination** if it is steered, and does not if it clashes with
something at its destination. -/
theorem deepCopy_stays (now : Timestamp) (hv : v.WellFormed) (hsrc : src < v.nodes.length)
    (hdir : (v.node p).kind.isDirectory = true) (name : Str) :
    (Steered now (maxCopyDepth + 1) v src p name →
      StaysInside v (v.deepCopy now src p name).1 p name) ∧
      (v.Clashes src p name → ¬ StaysInside v (v.deepCopy now src p name).1 p name) := by
  refine ⟨fun hsteered ↦ ?_, fun hclash hstays ↦ ?_⟩
  · have haltered := altered_deepCopyInner _ hv hsrc (lt_of_isDirectory hdir) hdir hsteered
    exact ⟨haltered, fun hp x ↦ haltered.attached_of_le hv hp⟩
  · obtain ⟨n, hle, hlt, hn⟩ := exists_dangles_of_clashes now hv hclash
    obtain ⟨nm, -, rel, hrel⟩ := hstays.altered.fresh n hle hlt
    obtain ⟨init, last, hsnoc⟩ := List.eq_nil_or_concat (nm :: rel) |>.resolve_left (by simp)
    rw [hsnoc, List.concat_eq_append] at hrel
    obtain ⟨y, -, hy⟩ := descend_snoc.1 hrel
    exact hn y last hy

/-- The file `/d/f`, and a file `d` in `/t`. -/
def clashing : Vfs :=
  run Op.apply (new 0) [.mutator (.mkdir 0 0 ['d'] 0o755 0 0),
    .mutator (.addFile 0 1 ['f'] [] 0o644 0 0), .mutator (.mkdir 0 0 ['t'] 0o755 0 0),
    .mutator (.addFile 0 3 ['d'] [] 0o644 0 0)]

theorem wellFormed_clashing : clashing.WellFormed := by
  rw [clashing]
  exact (wellFormed_run 0 _ (by decide +kernel)).1

/-- A copy of `/d` to `/t/e`. -/
theorem deepCopy_stays_beside :
    StaysInside clashing (clashing.deepCopy 0 1 3 ['e']).1 3 ['e'] := by
  refine (deepCopy_stays 0 wellFormed_clashing (by decide +kernel) (by decide +kernel) ['e']).1 ?_
  have hlist : clashing.copyList 0 1 3 ['e'] = [(['f'], 2)] := by decide +kernel
  refine fun _ ↦ ⟨fun _ _ ↦ Or.inr (by decide +kernel), ?_⟩
  rw [hlist]
  refine ⟨fun hdir ↦ absurd hdir (by decide +kernel), trivial⟩

/-- A copy of `/d` into `/t` puts the file below a file. -/
theorem deepCopy_strays :
    clashing.WellFormed ∧ (clashing.node 3).kind.isDirectory = true ∧ clashing.Attached 3 ∧
      ¬ StaysInside clashing (clashing.deepCopy 0 1 3 ['d']).1 3 ['d'] := by
  refine ⟨wellFormed_clashing, by decide +kernel, ⟨[['t']], by decide +kernel⟩, fun hstays ↦ ?_⟩
  have hw : (clashing.deepCopy 0 1 3 ['d']).1.WellFormed :=
    wellFormed_deepCopyInner 0 _ _ wellFormed_clashing (by decide +kernel) (by decide +kernel)
  obtain ⟨names, hnames⟩ := hstays.attached ⟨[['t']], by decide +kernel⟩ 5 (by decide +kernel)
    (by decide +kernel)
  rcases List.eq_nil_or_concat names with rfl | ⟨init, last, rfl⟩
  · revert hnames
    decide +kernel
  rw [List.concat_eq_append] at hnames
  obtain ⟨y, -, hy⟩ := descend_snoc.1 hnames
  -- the new node says it is in node 4, a file
  have hparent : (clashing.deepCopy 0 1 3 ['d']).1.parentOf 5 = some 4 := by decide +kernel
  obtain rfl : y = 4 := Option.some.inj ((hw.entry_parent hy).symm.trans hparent)
  have hfile : ((clashing.deepCopy 0 1 3 ['d']).1.node 4).kind.isDirectory = false := by
    decide +kernel
  rw [isDirectory_of_child hy] at hfile
  cases hfile

end Vfs

end Mimic
