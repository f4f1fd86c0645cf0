import Mimic.Commands.Extraction
import Mimic.Vfs.Lookup

/-!
# Names of members

A member of an archive is called by a path: what is left of the operand (`storedName`) and from
there the names of entries, with a slash at the end of a directory (`nameAt`). When it is extracted,
the path is taken apart again. With the names of entries that can be looked up, the components are
those of the operand and these names (`components_nameAt`), nothing of the name is cut off
(`leading_eq_zero`), and the member is not refused for a `..` (`not_tarHasDotDot_iff`).
-/

namespace Mimic

namespace Interp

namespace Tar

open Vfs

variable {name nm path stored text : Str} {rel : List Str} {fuel i cut : ℕ}

/-! ### Components -/

/-- The components of a path that count. -/
def components (path : Str) : List Str := significant (splitSlash path)

theorem components_append_slash (path path' : Str) :
    components (path ++ '/' :: path') = components path ++ components path' := by
  rw [components, splitSlash, List.splitOn_append_cons_self, significant_append]
  rfl

theorem components_slash (path : Str) : components ('/' :: path) = components path := by
  rw [← List.nil_append ('/' :: path), components_append_slash,
    show components [] = [] by decide, List.nil_append]

theorem components_eq_significant (h : '/' ∉ path) : components path = significant [path] := by
  rw [components, splitSlash, List.splitOn_eq_singleton h]

/-- Slashes in front of a path are not among its components. -/
theorem components_dropWhile (path : Str) :
    components (path.dropWhile (· = '/')) = components path := by
  induction path with
  | nil => rfl
  | cons c path ih =>
    by_cases hc : c = '/'
    · rw [List.dropWhile_cons_of_pos (by simpa using hc), ih, hc, components_slash]
    · rw [List.dropWhile_cons_of_neg (by simpa using hc)]

/-- The path behind its first component and the slashes there. -/
def behindFirst (path : Str) : Str := (path.dropWhile (· ≠ '/')).dropWhile (· = '/')

/-- The first component of a path and the others. -/
theorem components_eq_append (path : Str) : components path =
    significant [path.takeWhile (· ≠ '/')] ++ components (behindFirst path) := by
  have hfirst : '/' ∉ path.takeWhile (· ≠ '/') := fun h ↦ by
    simpa using List.mem_takeWhile_imp h
  have hsplit := List.takeWhile_append_dropWhile (p := (· ≠ '/')) (l := path)
  rw [behindFirst]
  rcases hrest : path.dropWhile (· ≠ '/') with - | ⟨c, rest⟩
  · rw [hrest, List.append_nil] at hsplit
    rw [← components_eq_significant hfirst, hsplit]
    exact (List.append_nil _).symm
  · have hc : c = '/' := by
      have hnot := List.head?_dropWhile_not (fun c ↦ decide (c ≠ '/')) path
      rw [hrest] at hnot
      simpa using hnot
    rw [hrest, hc] at hsplit
    rw [hc, components_dropWhile, components_slash, ← components_eq_significant hfirst,
      ← components_append_slash, hsplit]

/-- **A name has no `..`** if none of its components is one. -/
theorem not_tarHasDotDot_iff : tarHasDotDot name = false ↔ ['.', '.'] ∉ components name := by
  have hcounts : Counts ['.', '.'] := by decide
  rw [tarHasDotDot, List.any_eq_false, components, significant, List.mem_filter]
  constructor
  · exact fun h hmem ↦ h _ hmem.1 (decide_eq_true rfl)
  · exact fun h comp hmem hdots ↦ h ⟨of_decide_eq_true hdots ▸ hmem, decide_eq_true hcounts⟩

theorem destOf_eq (h : ['.', '.'] ∉ components name) :
    destOf name = (components name).getLast?.map fun last ↦ ((components name).dropLast, last) := by
  have hparts : (splitSlash name).filter (fun c ↦ decide (c ≠ [] ∧ c ≠ ['.'])) =
      components name := by
    rw [components, significant]
    refine List.filter_congr fun comp _ ↦ decide_eq_decide.mpr ?_
    rw [Counts, not_or]
  rw [destOf, not_tarHasDotDot_iff.mpr h, if_neg Bool.false_ne_true, hparts]

/-! ### The leading part -/

/-- The test for a leading `..` is one of the first component. -/
theorem dotdot_iff (text : Str) :
    (text.take 2 = ['.', '.'] ∧ (text.drop 2).head?.all (· = '/') = true) ↔
      text.takeWhile (· ≠ '/') = ['.', '.'] := by
  rcases text with - | ⟨a, text⟩
  · simp
  rcases text with - | ⟨b, text⟩
  · by_cases ha : a = '/' <;> simp [ha]
  by_cases ha : a = '/'
  · simp [ha]
  by_cases hb : b = '/'
  · simp [ha, hb]
  rcases text with - | ⟨c, text⟩
  · simp [ha, hb]
  by_cases hc : c = '/' <;> simp [ha, hb, hc]

theorem behindFirst_suffix (text : Str) : behindFirst text <:+ text :=
  (List.dropWhile_suffix _).trans (List.dropWhile_suffix _)

theorem length_behindFirst_lt (hne : text ≠ []) : (behindFirst text).length < text.length := by
  obtain ⟨c, text, rfl⟩ := List.exists_cons_of_ne_nil hne
  have hle : ∀ p : Char → Bool, (text.dropWhile p).length ≤ text.length := fun p ↦
    (List.dropWhile_sublist p).length_le
  rw [behindFirst, List.length_cons, Nat.lt_succ_iff]
  by_cases hc : c = '/'
  · rw [List.dropWhile_cons_of_neg (by simp [hc]), List.dropWhile_cons_of_pos (by simp [hc])]
    exact hle _
  · rw [List.dropWhile_cons_of_pos (by simp [hc])]
    exact (List.dropWhile_sublist _).length_le.trans (hle _)

theorem stripLoop_succ (fuel : ℕ) (text : Str) (i cut : ℕ) : stripLoop (fuel + 1) text i cut =
    if text = [] then cut
    else stripLoop fuel (behindFirst text) (i + (text.length - (behindFirst text).length))
      (if text.takeWhile (· ≠ '/') = ['.', '.'] then i + 2 else cut) := by
  rcases text with - | ⟨c, text⟩
  · rfl
  · rw [if_neg (List.cons_ne_nil c text)]
    simp only [← dotdot_iff]
    rfl

/-- **The loop leaves a path without `..` alone.** -/
theorem stripLoop_eq_cut (h : ['.', '.'] ∉ components text) (fuel i cut : ℕ) :
    stripLoop fuel text i cut = cut := by
  induction fuel generalizing text i with
  | zero => rfl
  | succ fuel ih =>
    rw [stripLoop_succ]
    split
    · rfl
    rw [components_eq_append, List.mem_append, not_or] at h
    rw [if_neg, ih h.2]
    rintro hfirst
    exact h.1 (by rw [hfirst]; decide)

/-- **Behind what the loop finds there is no `..`.** -/
theorem stripLoop_spec (hfuel : text.length ≤ fuel) :
    ['.', '.'] ∉ components text ∧ stripLoop fuel text i cut = cut ∨
      ∃ k, stripLoop fuel text i cut = i + k ∧ ['.', '.'] ∉ components (text.drop k) := by
  induction fuel generalizing text i cut with
  | zero =>
    obtain rfl := List.eq_nil_of_length_eq_zero (Nat.le_zero.mp hfuel)
    exact .inl ⟨by decide, rfl⟩
  | succ fuel ih =>
    rw [stripLoop_succ]
    split
    · rename_i hnil
      rw [hnil]
      exact .inl ⟨by decide, rfl⟩
    rename_i hne
    have hlt := length_behindFirst_lt hne
    have hdrop : text.drop (text.length - (behindFirst text).length) = behindFirst text :=
      (List.suffix_iff_eq_drop.mp (behindFirst_suffix text)).symm
    have hcomps := components_eq_append text
    have hle : (behindFirst text).length ≤ fuel := by omega
    rcases ih hle with ⟨hrest, hcut⟩ | ⟨k, hk, hrest⟩
    · rw [hcut]
      split
      · rename_i hfirst
        -- what is behind the first `..` has the components that follow
        refine .inr ⟨2, rfl, ?_⟩
        have hbehind : text.drop 2 = text.dropWhile (· ≠ '/') := by
          have hsplit := List.takeWhile_append_dropWhile (p := (· ≠ '/')) (l := text)
          rw [hfirst] at hsplit
          conv_lhs => rw [← hsplit]
          rfl
        rwa [hbehind, ← components_dropWhile, ← behindFirst]
      · rename_i hfirst
        refine .inl ⟨?_, rfl⟩
        rw [hcomps, List.mem_append, not_or]
        refine ⟨fun hmem ↦ hfirst ?_, hrest⟩
        exact (List.mem_singleton.mp (List.mem_of_mem_filter hmem)).symm
    · refine .inr ⟨text.length - (behindFirst text).length + k, by rw [hk, Nat.add_assoc], ?_⟩
      rwa [← List.drop_drop, hdrop]

theorem drop_leading (name : Str) : name.drop (leading name) =
    (name.drop (stripLoop name.length name 0 0)).dropWhile (· = '/') := by
  rw [leading, ← List.drop_drop]
  generalize name.drop (stripLoop name.length name 0 0) = behind
  have hsplit := List.takeWhile_append_dropWhile (p := (· = '/')) (l := behind)
  conv_lhs =>
    arg 2
    rw [← hsplit]
  rw [List.drop_left]

/-- **What is kept of a name has no `..`.** -/
theorem components_drop_leading (name : Str) :
    ['.', '.'] ∉ components (name.drop (leading name)) := by
  rw [drop_leading, components_dropWhile]
  rcases stripLoop_spec (le_refl name.length) with ⟨hnot, hcut⟩ | ⟨k, hk, hnot⟩
  · rw [hcut]
    exact hnot
  · rw [hk, Nat.zero_add]
    exact hnot

theorem head?_drop_leading (name : Str) : (name.drop (leading name)).head? ≠ some '/' := by
  rw [drop_leading]
  intro hhead
  have hnot := List.head?_dropWhile_not (fun c ↦ decide (c = '/'))
    (name.drop (stripLoop name.length name 0 0))
  rw [hhead] at hnot
  simp at hnot

/-- **Nothing is cut off** a relative path without `..`. -/
theorem leading_eq_zero (hdots : ['.', '.'] ∉ components name) (hhead : name.head? ≠ some '/') :
    leading name = 0 := by
  rw [leading, stripLoop_eq_cut hdots]
  rcases name with - | ⟨c, name⟩
  · rfl
  · have hc : c ≠ '/' := fun hsame ↦ hhead (congrArg some hsame)
    simp [hc]

/-- **Stripping makes a name relative, and only then changes it**: what is kept has no `..` and
starts with no slash, and all of it is kept if that was so before. -/
theorem stripped_confined (name : Str) :
    (['.', '.'] ∉ components (name.drop (leading name)) ∧
      (name.drop (leading name)).head? ≠ some '/') ∧
      (leading name = 0 ↔ ['.', '.'] ∉ components name ∧ name.head? ≠ some '/') := by
  have hdots := components_drop_leading name
  have hhead := head?_drop_leading name
  refine ⟨⟨hdots, hhead⟩, fun hzero ↦ ?_, fun h ↦ leading_eq_zero h.1 h.2⟩
  rw [hzero, List.drop_zero] at hdots hhead
  exact ⟨hdots, hhead⟩

/-! ### Paths of members -/

/-- The name that `tar_walk` gives a directory. -/
def dirName (name : Str) : Str := Text.trimEndMatches '/' name ++ ['/']

/-- What `tar_walk` calls the node that entries lead to from one called `stored`. -/
def nameAt (stored : Str) (rel : List Str) : Str :=
  rel.foldl (fun name nm ↦ dirName name ++ nm) stored

/-- What `tar -c` calls its operand. -/
def storedName (operand : Str) : Str :=
  let path := stripTrailingSlashes operand
  let stripped := path.drop (leading path)
  if stripped = [] then ['.'] else stripped

/-- The name is not empty and does not start with a slash. -/
def Relative (name : Str) : Prop := name ≠ [] ∧ name.head? ≠ some '/'

theorem components_dirName_append (name nm : Str) :
    components (dirName name ++ nm) = components name ++ components nm := by
  rw [dirName, List.append_assoc, List.singleton_append, components_append_slash, components,
    significant_trimEndMatches]
  rfl

theorem components_dirName (name : Str) : components (dirName name) = components name := by
  have h := components_dirName_append name []
  rwa [List.append_nil, show components [] = [] by decide, List.append_nil] at h

theorem components_entryName (h : IsEntryName nm) : components nm = [nm] := by
  rw [components_eq_significant h.2]
  exact significant_eq_self (List.forall_mem_singleton.mpr h.1)

theorem nameAt_snoc (stored : Str) (rel : List Str) (nm : Str) :
    nameAt stored (rel ++ [nm]) = dirName (nameAt stored rel) ++ nm :=
  List.foldl_concat ..

theorem nameAt_cons (stored nm : Str) (rel : List Str) :
    nameAt stored (nm :: rel) = nameAt (dirName stored ++ nm) rel := rfl

/-- **The components of a member's name** are those of the operand and the names of the entries. -/
theorem components_nameAt (stored : Str) (h : ∀ nm ∈ rel, IsEntryName nm) :
    components (nameAt stored rel) = components stored ++ rel := by
  induction rel using List.reverseRecOn with
  | nil => exact (List.append_nil _).symm
  | append_singleton rel nm ih =>
    obtain ⟨hrel, hnm⟩ := List.forall_mem_append.mp h
    rw [nameAt_snoc, components_dirName_append, ih hrel,
      components_entryName (hnm nm (List.mem_singleton_self nm)), List.append_assoc]

namespace Relative

theorem trimEndMatches (h : Relative name) : Relative (Text.trimEndMatches '/' name) := by
  have hfront : Text.trimEndMatches '/' name <+: name := by
    rw [← List.reverse_suffix, Text.trimEndMatches, List.reverse_reverse]
    exact List.dropWhile_suffix _
  obtain ⟨c, rest, rfl⟩ := List.exists_cons_of_ne_nil h.1
  have hne : Text.trimEndMatches '/' (c :: rest) ≠ [] := fun hnil ↦ by
    rw [Text.trimEndMatches, List.reverse_eq_nil_iff, List.dropWhile_eq_nil_iff] at hnil
    have hc := hnil c (List.mem_reverse.mpr List.mem_cons_self)
    exact h.2 (congrArg some (by simpa using hc))
  obtain ⟨c', front, hc'⟩ := List.exists_cons_of_ne_nil hne
  rw [hc'] at hfront ⊢
  obtain rfl := (List.cons_prefix_cons.mp hfront).1
  exact ⟨List.cons_ne_nil _ _, h.2⟩

theorem append (h : Relative name) (rest : Str) : Relative (name ++ rest) := by
  obtain ⟨c, name, rfl⟩ := List.exists_cons_of_ne_nil h.1
  exact ⟨List.cons_ne_nil _ _, h.2⟩

theorem dirName (h : Relative name) : Relative (dirName name) := h.trimEndMatches.append _

theorem nameAt (h : Relative stored) (rel : List Str) : Relative (nameAt stored rel) := by
  induction rel using List.reverseRecOn with
  | nil => exact h
  | append_singleton rel nm ih =>
    rw [nameAt_snoc]
    exact ih.dirName.append nm

end Relative

theorem relative_storedName (operand : Str) : Relative (storedName operand) := by
  rw [storedName]
  split
  · exact ⟨by decide, by decide⟩
  · rename_i hne
    exact ⟨hne, head?_drop_leading _⟩

theorem components_storedName (operand : Str) :
    ['.', '.'] ∉ components (storedName operand) := by
  rw [storedName]
  split
  · decide
  · exact components_drop_leading _

/-! ### Names that are extracted as they are -/

/-- A member name that an extraction takes as it is. -/
structure Extractable (name : Str) : Prop where
  relative : Relative name
  not_dots : ['.', '.'] ∉ components name

theorem Extractable.dirName (h : Extractable name) : Extractable (dirName name) :=
  ⟨h.relative.dirName, (components_dirName name).symm ▸ h.not_dots⟩

theorem extractable_nameAt (operand : Str) (h : ∀ nm ∈ rel, IsEntryName nm) :
    Extractable (nameAt (storedName operand) rel) := by
  refine ⟨(relative_storedName operand).nameAt rel, ?_⟩
  rw [components_nameAt _ h, List.mem_append, not_or]
  exact ⟨components_storedName operand, fun hmem ↦ (h _ hmem).1.2.2 rfl⟩

/-- **Where a member is extracted to** when all are. -/
theorem target_eq {entry : TarEntry} (h : Extractable entry.name) :
    target [] entry = (components entry.name).getLast?.map fun last ↦
      ((components entry.name).dropLast, last) := by
  rw [target, if_pos ⟨rfl, not_tarHasDotDot_iff.mpr h.not_dots⟩, memberName,
    leading_eq_zero h.not_dots h.relative.2, List.drop_zero, destOf_eq h.not_dots]

end Tar

end Interp

end Mimic
