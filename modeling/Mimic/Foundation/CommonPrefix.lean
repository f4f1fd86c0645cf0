import Mathlib.Data.List.Infix
import Mathlib.Data.Nat.Find
import Mathlib.Data.Set.Basic
import Mathlib.Tactic

/-!
# Common prefixes

The longest common prefix of a set of lists is the greatest list that each of them starts with
(`IsLongestCommonPrefix`). For a list of lists it can be cut out of the first: start with all of it,
and for each of the others move the end back for as long as the two differ (`commonLength`).

Lists may be compared through an encoding, too. What the longest common prefix of the encodings cuts
through is then lost, and the rest is the longest common prefix of the lists
(`IsLongestCommonPrefix.of_encoding`).
-/

namespace CommonPrefix

variable {α β : Type*} {first s p q : List α} {rest : List (List α)} {S : Set (List α)} {m n : ℕ}

/-- Each of the lists starts with `p`, and `p` with all that each of them starts with. -/
structure IsLongestCommonPrefix (S : Set (List α)) (p : List α) : Prop where
  front : ∀ s ∈ S, p <+: s
  greatest : ∀ q, (∀ s ∈ S, q <+: s) → q <+: p

/-- **Encodings may be compared instead**, where one starts with another only if the list does. -/
theorem IsLongestCommonPrefix.of_encoding {encode : List α → List β}
    (hencode : ∀ q s, encode q <+: encode s ↔ q <+: s) {b : List β}
    (hb : IsLongestCommonPrefix (encode '' S) b) (hfront : encode p <+: b)
    (hgreatest : ∀ q, encode q <+: b → q <+: p) : IsLongestCommonPrefix S p where
  front s hs := (hencode p s).mp (hfront.trans (hb.front _ (Set.mem_image_of_mem encode hs)))
  greatest q hq := by
    refine hgreatest q (hb.greatest _ ?_)
    rintro - ⟨s, hs, rfl⟩
    exact (hencode q s).mpr (hq s hs)

variable [DecidableEq α]

/-- The end of what `first` has in common with each of the others, which is at most `n`. -/
def commonLength (first : List α) : List (List α) → ℕ → ℕ
  | [], n => n
  | s :: rest, n =>
    let stop := Nat.findGreatest (fun m ↦ s.take m = first.take m) (min n s.length)
    if stop = 0 then stop else commonLength first rest stop

theorem le_findGreatest_take_iff (hn : n ≤ first.length) :
    m ≤ Nat.findGreatest (fun m ↦ s.take m = first.take m) (min n s.length) ↔
      m ≤ n ∧ first.take m <+: s := by
  constructor
  · intro h
    have hle : m ≤ min n s.length := h.trans (Nat.findGreatest_le _)
    have hsame := Nat.findGreatest_spec (P := fun m ↦ s.take m = first.take m)
      (Nat.zero_le (min n s.length)) rfl
    refine ⟨hle.trans (min_le_left _ _), ?_⟩
    have hsame : (s.take _).take m = (first.take _).take m := congrArg (List.take m) hsame
    rw [List.take_take, List.take_take, min_eq_left h] at hsame
    exact hsame ▸ List.take_prefix m s
  · rintro ⟨hle, hfront⟩
    have hlength : (first.take m).length = m := List.length_take_of_le (hle.trans hn)
    have hshort : m ≤ s.length := hlength ▸ hfront.length_le
    refine Nat.le_findGreatest (le_min hle hshort) ?_
    rw [List.prefix_iff_eq_take, hlength] at hfront
    exact hfront.symm

/-- **What is not behind the end** is in each of the others. -/
theorem le_commonLength_iff (hn : n ≤ first.length) :
    m ≤ commonLength first rest n ↔ m ≤ n ∧ ∀ s ∈ rest, first.take m <+: s := by
  induction rest generalizing n with
  | nil => exact ⟨fun h ↦ ⟨h, nofun⟩, And.left⟩
  | cons s rest ih =>
    have hs := le_findGreatest_take_iff (m := m) (s := s) hn
    rw [commonLength]
    generalize hstop : Nat.findGreatest (fun m ↦ s.take m = first.take m) (min n s.length) = stop
      at hs ⊢
    have hshort : stop ≤ first.length :=
      hstop ▸ (Nat.findGreatest_le _).trans ((min_le_left _ _).trans hn)
    rw [List.forall_mem_cons, ← and_assoc, ← hs]
    split
    · rename_i hzero
      refine ⟨fun h ↦ ⟨h, ?_⟩, And.left⟩
      obtain rfl := Nat.le_zero.mp (hzero ▸ h)
      exact fun _ _ ↦ List.nil_prefix
    · exact ih hshort

/-- **What is cut out is the longest common prefix.** -/
theorem isLongestCommonPrefix_take (first : List α) (rest : List (List α)) :
    IsLongestCommonPrefix {s | s ∈ first :: rest}
      (first.take (commonLength first rest first.length)) where
  front := List.forall_mem_cons.mpr
    ⟨List.take_prefix _ _, ((le_commonLength_iff le_rfl).mp le_rfl).2⟩
  greatest q hq := by
    obtain ⟨hfirst, hrest⟩ := List.forall_mem_cons.mp hq
    have htake : first.take q.length = q := (List.prefix_iff_eq_take.mp hfirst).symm
    have hle : q.length ≤ commonLength first rest first.length :=
      (le_commonLength_iff le_rfl).mpr ⟨hfirst.length_le, htake.symm ▸ hrest⟩
    rw [← htake]
    exact List.take_prefix_take_left hle

end CommonPrefix
