import Mathlib.Tactic

/-!
# Cutting a list into pieces

A list is cut where a scan finds a separator in front of it (`split`). The pieces with the
separators between them are the list (`join_split`), and where finding a separator does not depend
on what comes behind it, a piece is not cut again (`split_piece`).
-/

namespace Pieces

variable {α β : Type*}

/-- Put an element in front of the first of the pieces. -/
def push (x : α) : List (β × List α) → List (β × List α)
  | [] => []
  | (kind, piece) :: pieces => (kind, x :: piece) :: pieces

/-- Cut a list at the separators that `cut` finds. A piece has the kind of the separator in front of
it. -/
def split (sep : β → List α) (cut : List α → Option β) (kind : β) : List α → List (β × List α)
  | [] => [(kind, [])]
  | x :: rest =>
    match cut (x :: rest) with
    | some next => (kind, []) :: split sep cut next (rest.drop ((sep next).length - 1))
    | none => push x (split sep cut kind rest)
termination_by xs => xs.length

/-- The pieces, with a separator in front of each. -/
def joinTail (sep : β → List α) (pieces : List (β × List α)) : List α :=
  pieces.flatMap fun piece ↦ sep piece.1 ++ piece.2

/-- The pieces with the separators between them. -/
def join (sep : β → List α) : List (β × List α) → List α
  | [] => []
  | piece :: pieces => piece.2 ++ joinTail sep pieces

/-- What is found as a separator is one, whatever comes behind it. -/
structure Cuts (sep : β → List α) (cut : List α → Option β) : Prop where
  ne_nil : ∀ kind, sep kind ≠ []
  starts : ∀ {xs kind}, cut xs = some kind → sep kind <+: xs
  append : ∀ {xs kind}, cut xs = some kind → ∀ ys, cut (xs ++ ys) = some kind

variable {sep : β → List α} {cut : List α → Option β} {kind kind' : β} {xs piece : List α}
  {pieces front back : List (β × List α)}

theorem split_nil : split sep cut kind [] = [(kind, [])] := by
  rw [split]

theorem split_cons_of_none {x : α} (h : cut (x :: xs) = none) :
    split sep cut kind (x :: xs) = push x (split sep cut kind xs) := by
  rw [split, h]

/-- The first piece, and what is behind its separator. -/
theorem split_of_some {next : β} (hcuts : Cuts sep cut) (h : cut xs = some next) :
    split sep cut kind xs = (kind, []) :: split sep cut next (xs.drop (sep next).length) := by
  obtain ⟨x, s, hs⟩ := List.exists_cons_of_ne_nil (hcuts.ne_nil next)
  obtain ⟨rest, rfl⟩ := hcuts.starts h
  rw [hs, List.cons_append] at h ⊢
  rw [split, h]
  simp [hs]

variable (sep cut) in
theorem exists_split_eq_cons (kind : β) (xs : List α) :
    ∃ piece pieces, split sep cut kind xs = (kind, piece) :: pieces := by
  induction xs with
  | nil => exact ⟨[], [], split_nil⟩
  | cons x xs ih =>
    rw [split]
    split
    · exact ⟨_, _, rfl⟩
    · obtain ⟨piece, pieces, h⟩ := ih
      exact ⟨x :: piece, pieces, by rw [h]; rfl⟩

/-- **The pieces and the separators are the list.** -/
theorem join_split (hcuts : Cuts sep cut) (kind : β) (xs : List α) :
    join sep (split sep cut kind xs) = xs := by
  induction hn : xs.length using Nat.strong_induction_on generalizing kind xs with
  | _ n ih =>
  subst hn
  cases h : cut xs with
  | some next =>
    obtain ⟨rest, rfl⟩ := hcuts.starts h
    have hpos := List.length_pos_of_ne_nil (hcuts.ne_nil next)
    have hrest := ih rest.length (by rw [List.length_append]; omega) next rest rfl
    rw [split_of_some hcuts h, List.drop_left]
    obtain ⟨piece, pieces, hsplit⟩ := exists_split_eq_cons sep cut next rest
    rw [hsplit] at hrest ⊢
    exact congrArg (sep next ++ ·) hrest ▸ by simp [join, joinTail]
  | none =>
    cases xs with
    | nil => rw [split_nil]; rfl
    | cons x xs =>
      have hrest := ih xs.length (Nat.lt_succ_self _) kind xs rfl
      rw [split_cons_of_none h]
      obtain ⟨piece, pieces, hsplit⟩ := exists_split_eq_cons sep cut kind xs
      rw [hsplit] at hrest ⊢
      exact congrArg (x :: ·) hrest

theorem join_append (hfront : front ≠ []) :
    join sep (front ++ back) = join sep front ++ joinTail sep back := by
  obtain ⟨first, rest, rfl⟩ := List.exists_cons_of_ne_nil hfront
  rw [List.cons_append, join, join, joinTail, List.flatMap_append, List.append_assoc]
  rfl

/-- Where no separator is found, there is one piece. -/
theorem split_eq_single (h : ∀ ys, ys <:+ xs → cut ys = none) :
    split sep cut kind xs = [(kind, xs)] := by
  induction xs with
  | nil => exact split_nil
  | cons x xs ih =>
    rw [split_cons_of_none (h _ List.suffix_rfl),
      ih fun ys hys ↦ h ys (hys.trans (List.suffix_cons x xs))]
    rfl

/-- No separator is found in a piece, not even with what comes behind it. -/
theorem cut_of_mem_split (hcuts : Cuts sep cut) (hnil : cut [] = none)
    (h : (kind, piece) ∈ split sep cut kind' xs) : ∀ ys, ys <:+ piece → cut ys = none := by
  induction hn : xs.length using Nat.strong_induction_on generalizing kind' xs kind piece with
  | _ n ih =>
  subst hn
  cases hcut : cut xs with
  | some next =>
    obtain ⟨rest, rfl⟩ := hcuts.starts hcut
    have hpos := List.length_pos_of_ne_nil (hcuts.ne_nil next)
    rw [split_of_some hcuts hcut, List.drop_left, List.mem_cons] at h
    rcases h with heq | h
    · obtain ⟨rfl, rfl⟩ := Prod.mk.inj heq
      intro ys hys
      rw [List.suffix_nil.mp hys, hnil]
    · exact ih rest.length (by rw [List.length_append]; omega) h rfl
  | none =>
    cases xs with
    | nil =>
      rw [split_nil, List.mem_singleton] at h
      obtain ⟨rfl, rfl⟩ := Prod.mk.inj h
      intro ys hys
      rw [List.suffix_nil.mp hys, hnil]
    | cons x xs =>
      rw [split_cons_of_none hcut] at h
      obtain ⟨first, rest, hsplit⟩ := exists_split_eq_cons sep cut kind' xs
      have hpieces : ∀ kind piece, (kind, piece) ∈ split sep cut kind' xs →
          ∀ ys, ys <:+ piece → cut ys = none := fun _ _ h ↦ ih xs.length (Nat.lt_succ_self _) h rfl
      have hjoin := join_split hcuts kind' xs
      rw [hsplit] at h hpieces hjoin
      rcases List.mem_cons.mp h with heq | h
      · obtain ⟨rfl, rfl⟩ := Prod.mk.inj heq
        intro ys hys
        rcases List.suffix_cons_iff.mp hys with rfl | hys
        · cases hfirst : cut (x :: first) with
          | none => rfl
          | some next =>
            rw [← hjoin, join, ← List.cons_append, hcuts.append hfirst] at hcut
            cases hcut
        · exact hpieces _ _ List.mem_cons_self ys hys
      · exact hpieces _ _ (List.mem_cons_of_mem _ h)

/-- **A piece is not cut again.** -/
theorem split_piece (hcuts : Cuts sep cut) (hnil : cut [] = none)
    (h : (kind, piece) ∈ split sep cut kind' xs) (again : β) :
    split sep cut again piece = [(again, piece)] :=
  split_eq_single (cut_of_mem_split hcuts hnil h)

/-- No separator is found in a list, not even with what comes behind it. -/
def Whole (cut : List α → Option β) (xs : List α) : Prop :=
  ∀ ys, ys <:+ xs → ys ≠ [] → ∀ zs, cut (ys ++ zs) = none

theorem whole_nil : Whole cut [] := fun _ hys hne ↦ absurd (List.suffix_nil.mp hys) hne

theorem Whole.cons {x : α} (hx : ∀ zs, cut (x :: xs ++ zs) = none) (hxs : Whole cut xs) :
    Whole cut (x :: xs) := fun ys hys hne zs ↦
  (List.suffix_cons_iff.mp hys).elim (fun heq ↦ heq ▸ hx zs) fun h ↦ hxs ys h hne zs

theorem Whole.append {ys : List α} (hxs : Whole cut xs) (hys : Whole cut ys) :
    Whole cut (xs ++ ys) := by
  intro zs hzs hne rest
  rcases List.suffix_or_suffix_of_suffix hzs (List.suffix_append xs ys) with hback | ⟨front, rfl⟩
  · exact hys zs hback hne rest
  · rcases front with - | ⟨x, front⟩
    · exact hys ys List.suffix_rfl hne rest
    · rw [List.append_assoc]
      exact hxs (x :: front) (List.suffix_append_inj_of_length_eq rfl |>.mp hzs).1
        (List.cons_ne_nil x front) _

theorem split_whole_append {ys : List α} (hxs : Whole cut xs)
    (hys : split sep cut kind ys = (kind, piece) :: pieces) :
    split sep cut kind (xs ++ ys) = (kind, xs ++ piece) :: pieces := by
  induction xs with
  | nil => exact hys
  | cons x xs ih =>
    have hrest : Whole cut xs := fun zs hzs ↦ hxs zs (hzs.trans (List.suffix_cons x xs))
    have hnone : cut (x :: (xs ++ ys)) = none := hxs _ List.suffix_rfl (List.cons_ne_nil x xs) ys
    rw [List.cons_append, split_cons_of_none hnone, ih hrest]
    rfl

/-- **Pieces that are whole are the ones that their list is cut into.** -/
theorem split_join (hcuts : Cuts sep cut) (hsep : ∀ kind zs, cut (sep kind ++ zs) = some kind)
    {first : β × List α} (hfirst : Whole cut first.2)
    (hrest : ∀ piece ∈ pieces, Whole cut piece.2) :
    split sep cut first.1 (join sep (first :: pieces)) = first :: pieces := by
  induction pieces generalizing first with
  | nil =>
    have hnil : split sep cut first.1 [] = [(first.1, [])] := split_nil
    have hend := split_whole_append hfirst hnil
    rw [List.append_nil] at hend
    rw [join, joinTail, List.flatMap_nil, List.append_nil, hend]
  | cons next pieces ih =>
    have hnext := ih (hrest next List.mem_cons_self) fun piece h ↦
      hrest piece (List.mem_cons_of_mem next h)
    have hcut : split sep cut first.1 (sep next.1 ++ join sep (next :: pieces)) =
        (first.1, []) :: next :: pieces := by
      rw [split_of_some hcuts (hsep next.1 _), List.drop_left, hnext]
    have hall := split_whole_append hfirst hcut
    rw [List.append_nil] at hall
    rw [join, joinTail, List.flatMap_cons, List.append_assoc]
    exact hall

end Pieces
