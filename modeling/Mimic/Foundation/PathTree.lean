import Mathlib.Data.List.Infix
import Mathlib.Data.Option.Basic

/-!
# Trees as functions of paths

Nodes that name each other through tables of entries make a graph, and what can be seen of it from
one node is a function of the paths: `tree` takes a path to the label of the node it leads to. To
change where one entry leads (`rewire`) is to cut off what is behind the path of the entry and to
put there what the new target has behind it, as long as no other path leads to the table that was
changed (`reach_rewire`). From this come the operations on functions of paths: taking off what is
behind a path (`cut`), putting a leaf in its place (`plant`), moving it (`move`), and changing one
label (`relabel`).
-/

namespace PathTree

variable {ι κ α : Type*}

/-! ### Following entries -/

/-- Follow names from a node through the entries of a graph. -/
def reach (g : ι → κ → Option ι) : ι → List κ → Option ι
  | x, [] => some x
  | x, k :: ks => (g x k).bind fun y ↦ reach g y ks

variable {g g' : ι → κ → Option ι} {x y p r : ι} {k : κ} {ks ks' path : List κ}

theorem reach_append : reach g x (ks ++ ks') = (reach g x ks).bind fun y ↦ reach g y ks' := by
  induction ks generalizing x with
  | nil => rfl
  | cons k ks ih =>
    show ((g x k).bind fun y ↦ reach g y (ks ++ ks')) = ((g x k).bind _).bind _
    rw [Option.bind_assoc]
    exact congrArg _ (funext fun y ↦ ih)

theorem reach_snoc : reach g x (ks ++ [k]) = (reach g x ks).bind fun y ↦ g y k := by
  rw [reach_append]
  refine congrArg _ (funext fun y ↦ ?_)
  show (g y k).bind some = g y k
  exact Option.bind_fun_some _

/-- Graphs that agree on what is followed are the same to `reach`. -/
theorem reach_congr (h : ∀ ks y, reach g x ks = some y → ∀ k, g' y k = g y k) :
    reach g' x ks = reach g x ks := by
  induction ks using List.reverseRecOn with
  | nil => rfl
  | append_singleton ks k ih =>
    rw [reach_snoc, reach_snoc, ih]
    rcases hy : reach g x ks with - | y
    · rfl
    · exact h ks y hy k

/-! ### Another target for one entry -/

section Rewire

variable [DecidableEq ι] [DecidableEq κ] {target : Option ι}

/-- The graph with another target for one entry. -/
def rewire (g : ι → κ → Option ι) (p : ι) (k : κ) (target : Option ι) : ι → κ → Option ι :=
  fun x l ↦ if x = p ∧ l = k then target else g x l

/-- What does not lead to the table goes on as before. -/
theorem reach_rewire_of_apart (h : ∀ ks, reach g x ks ≠ some p) :
    reach (rewire g p k target) x ks = reach g x ks := by
  refine reach_congr fun ks y hy l ↦ if_neg ?_
  rintro ⟨rfl, -⟩
  exact h ks hy

/-- **Only what is behind the entry changes**, if one path alone leads to its table. -/
theorem reach_rewire (hat : reach g r path = some p)
    (honly : ∀ ks, reach g r ks = some p → ks = path) :
    reach (rewire g p k target) r ks =
      if path ++ [k] <+: ks then
        target.bind fun x ↦ reach (rewire g p k target) x (ks.drop (path.length + 1))
      else reach g r ks := by
  induction ks using List.reverseRecOn with
  | nil => rw [if_neg fun h ↦ by simpa using List.prefix_nil.mp h]; rfl
  | append_singleton ks l ih =>
    rw [reach_snoc, ih]
    by_cases hfront : path ++ [k] <+: ks
    · rw [if_pos hfront, if_pos (hfront.trans (List.prefix_append ks [l]))]
      have hle := hfront.length_le
      rw [List.length_append, List.length_singleton] at hle
      rw [List.drop_append_of_le_length hle, Option.bind_assoc]
      exact congrArg _ (funext fun x ↦ reach_snoc.symm)
    rw [if_neg hfront, reach_snoc]
    rcases hx : reach g r ks with - | x
    · rw [if_neg]
      · rfl
      · intro hpre
        have hwhole := (List.prefix_concat_iff.mp hpre).resolve_right hfront
        obtain ⟨rfl, -⟩ := List.append_inj' hwhole rfl
        rw [hat] at hx
        cases hx
    show rewire g p k target x l = _
    rw [rewire]
    by_cases hentry : x = p ∧ l = k
    · obtain ⟨rfl, rfl⟩ := hentry
      obtain rfl := honly ks hx
      rw [if_pos ⟨rfl, rfl⟩, if_pos (List.prefix_refl _), List.drop_eq_nil_of_le (by simp)]
      exact (Option.bind_fun_some target).symm
    · rw [if_neg hentry, if_neg]
      · rfl
      · intro hpre
        have hwhole := (List.prefix_concat_iff.mp hpre).resolve_right hfront
        obtain ⟨rfl, heq⟩ := List.append_inj' hwhole rfl
        rw [hat] at hx
        exact hentry ⟨(Option.some.inj hx).symm, (List.singleton_inj.mp heq).symm⟩

end Rewire

/-! ### A table without entries -/

section Emptied

variable [DecidableEq ι] [DecidableEq κ]

/-- The graph without the entries of one node. -/
def emptied (g : ι → κ → Option ι) (p : ι) : ι → κ → Option ι :=
  fun x k ↦ if x = p then none else g x k

theorem reach_emptied (hat : reach g r path = some p)
    (honly : ∀ ks, reach g r ks = some p → ks = path) :
    reach (emptied g p) r ks = if path <+: ks ∧ ks ≠ path then none else reach g r ks := by
  induction ks using List.reverseRecOn with
  | nil =>
    rw [if_neg]
    · rfl
    · rintro ⟨hpre, hne⟩
      exact hne (List.prefix_nil.mp hpre).symm
  | append_singleton ks l ih =>
    have hlonger : path <+: ks → path <+: ks ++ [l] ∧ ks ++ [l] ≠ path := fun hpre ↦ by
      refine ⟨hpre.trans (List.prefix_append ks [l]), fun heq ↦ ?_⟩
      have hle := hpre.length_le
      rw [← heq, List.length_append, List.length_singleton] at hle
      omega
    rw [reach_snoc, ih]
    by_cases hpre : path <+: ks
    · rw [if_pos (hlonger hpre)]
      by_cases hks : ks = path
      · rw [if_neg fun h ↦ h.2 hks, hks, hat]
        show emptied g p p l = none
        exact if_pos rfl
      · rw [if_pos ⟨hpre, hks⟩]
        rfl
    · have hnot : ¬ (path <+: ks ++ [l] ∧ ks ++ [l] ≠ path) := fun h ↦
        (List.prefix_concat_iff.mp h.1).elim (fun heq ↦ h.2 heq.symm) hpre
      rw [if_neg fun h ↦ hpre h.1, if_neg hnot, reach_snoc]
      rcases hx : reach g r ks with - | x
      · rfl
      · show emptied g p x l = g x l
        refine if_neg ?_
        rintro rfl
        exact hpre (honly ks hx ▸ List.prefix_refl _)

end Emptied

/-! ### Labels -/

/-- What a path from `r` leads to, by its label. -/
def tree (g : ι → κ → Option ι) (label : ι → α) (r : ι) (ks : List κ) : Option α :=
  (reach g r ks).map label

/-- Labels count where paths lead. -/
theorem tree_congr {label label' : ι → α} (h : ∀ ks y, reach g r ks = some y → label' y = label y) :
    tree g label' r = tree g label r := by
  funext ks
  rw [tree, tree]
  rcases hy : reach g r ks with - | y
  · rfl
  · exact congrArg some (h ks y hy)

section Operations

variable [DecidableEq κ] {label label' : ι → α} {t : List κ → Option α} {a : α}

/-- Take off what is behind a path. -/
def cut (t : List κ → Option α) (path ks : List κ) : Option α :=
  if path <+: ks then none else t ks

/-- Put a leaf in the place of what is behind a path. -/
def plant (t : List κ → Option α) (path : List κ) (a : α) (ks : List κ) : Option α :=
  if ks = path then some a else cut t path ks

/-- Move what is behind a path to another one, in the place of what is there. -/
def move (t : List κ → Option α) (src dst ks : List κ) : Option α :=
  if dst <+: ks then t (src ++ ks.drop dst.length) else cut t src ks

/-- Change the label at a path. -/
def relabel (t : List κ → Option α) (path : List κ) (f : α → α) (ks : List κ) : Option α :=
  if ks = path then (t ks).map f else t ks

section Labels

variable (hat : reach g r path = some p) (honly : ∀ ks, reach g r ks = some p → ks = path)
  (hothers : ∀ x, x ≠ p → label' x = label x)

include hat honly hothers

/-- **Another label for one node.** -/
theorem tree_relabel {f : α → α} (hp : label' p = f (label p)) :
    tree g label' r = relabel (tree g label r) path f := by
  funext ks
  rw [tree, relabel, tree]
  split
  · rename_i hks
    rw [hks, hat]
    exact congrArg some hp
  · rename_i hks
    rcases hx : reach g r ks with - | x
    · rfl
    · refine congrArg some (hothers x ?_)
      rintro rfl
      exact hks (honly ks hx)

/-- **Another label for one node and no entries** put a leaf in its place. -/
theorem tree_plant [DecidableEq ι] (hp : label' p = a) :
    tree (emptied g p) label' r = plant (tree g label r) path a := by
  funext ks
  rw [tree, reach_emptied hat honly, plant, cut]
  by_cases hks : ks = path
  · rw [if_pos hks, if_neg fun h ↦ h.2 hks, hks, hat]
    exact congrArg some hp
  rw [if_neg hks]
  by_cases hpre : path <+: ks
  · rw [if_pos hpre, if_pos ⟨hpre, hks⟩]
    rfl
  · rw [if_neg hpre, if_neg fun h ↦ hpre h.1, tree]
    rcases hx : reach g r ks with - | x
    · rfl
    · refine congrArg some (hothers x ?_)
      rintro rfl
      exact hks (honly ks hx)

end Labels

section Rewire

variable [DecidableEq ι] (hat : reach g r path = some p)
  (honly : ∀ ks, reach g r ks = some p → ks = path)

include hat honly

/-- **Erasing an entry** takes off what is behind it. -/
theorem tree_erase : tree (rewire g p k none) label r = cut (tree g label r) (path ++ [k]) := by
  funext ks
  rw [tree, reach_rewire hat honly, cut]
  split <;> rfl

/-- **An entry for a leaf** puts it in the place of what is behind the entry. -/
theorem tree_enter (hx : ∀ l, rewire g p k (some x) x l = none) :
    tree (rewire g p k (some x)) label r =
      plant (tree g label r) (path ++ [k]) (label x) := by
  have hleaf : ∀ l ls, reach (rewire g p k (some x)) x (l :: ls) = none := fun l ls ↦ by
    rw [reach, hx l]
    rfl
  funext ks
  rw [tree, reach_rewire hat honly, plant, cut]
  split
  · rename_i hpre
    obtain ⟨rest, rfl⟩ := hpre
    have hdrop : (path ++ [k] ++ rest).drop (path.length + 1) = rest :=
      List.drop_left' (by rw [List.length_append, List.length_singleton])
    rw [Option.bind_some, hdrop]
    rcases rest with - | ⟨l, ls⟩
    · rw [List.append_nil, if_pos rfl]
      rfl
    · rw [hleaf, if_neg]
      · rfl
      · simp
  · rename_i hnot
    rw [if_neg]
    · rfl
    · rintro rfl
      exact hnot (List.prefix_refl _)

end Rewire

/-- **Giving an entry's target another entry** moves what is behind it, if neither table is behind
it. -/
theorem tree_move [DecidableEq ι] {src dst : List κ} {x q : ι} {l : κ}
    (hsrc : reach g r src = some p) (hsrcOnly : ∀ ks, reach g r ks = some p → ks = src)
    (hentry : g p k = some x)
    (hdst : reach g r dst = some q) (hdstOnly : ∀ ks, reach g r ks = some q → ks = dst)
    (hp : ∀ ks, reach g x ks ≠ some p) (hq : ∀ ks, reach g x ks ≠ some q) :
    tree (rewire (rewire g p k none) q l (some x)) label r =
      move (tree g label r) (src ++ [k]) (dst ++ [l]) := by
  have herased : ∀ ks, reach (rewire g p k none) r ks =
      if src ++ [k] <+: ks then none else reach g r ks := fun ks ↦ reach_rewire hsrc hsrcOnly
  have hbehind : ∀ ks, reach g r (src ++ [k] ++ ks) = reach g x ks := fun ks ↦ by
    rw [reach_append, reach_snoc, hsrc, Option.bind_some, hentry, Option.bind_some]
  have hbelow : ∀ ks, reach (rewire g p k none) x ks = reach g x ks := fun ks ↦
    reach_rewire_of_apart hp
  have hat : reach (rewire g p k none) r dst = some q := by
    rw [herased, if_neg, hdst]
    rintro ⟨ks, rfl⟩
    exact hq ks (hbehind ks ▸ hdst)
  have honly : ∀ ks, reach (rewire g p k none) r ks = some q → ks = dst := fun ks hks ↦ by
    rw [herased] at hks
    split at hks
    · cases hks
    · exact hdstOnly ks hks
  funext ks
  rw [tree, reach_rewire hat honly, move, List.length_append, List.length_singleton]
  split
  · rw [Option.bind_some, reach_rewire_of_apart fun ks' ↦ by rw [hbelow]; exact hq ks', hbelow,
      tree, hbehind]
  · rw [herased, cut]
    split <;> rfl

end Operations

end PathTree
