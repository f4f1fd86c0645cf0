import Mathlib.Tactic

/-!
# Reading a list in pages

A reader asks for some elements from where it stands, gets as many as there are up to what it asks
for, and moves on behind them. However many it asks for at a time, the pages are the list, cut
(`Pages.flatten_eq`).
-/

namespace Paging

variable {α : Type*}

/-- Pages of a list from a place on, and whether the end is seen behind them. -/
inductive Pages (data : List α) : ℕ → List (List α) → Bool → Prop
  | pause (n : ℕ) : Pages data n [] false
  | stop {n : ℕ} : data.length ≤ n → Pages data n [] true
  | page {n k : ℕ} {pages : List (List α)} {ended : Bool} : 0 < k → n < data.length →
    Pages data (n + ((data.drop n).take k).length) pages ended →
    Pages data n ((data.drop n).take k :: pages) ended

variable {data : List α} {n k : ℕ} {pages : List (List α)} {ended : Bool}

theorem length_page_pos (hk : 0 < k) (hn : n < data.length) :
    0 < ((data.drop n).take k).length := by
  rw [List.length_take, List.length_drop]
  omega

/-- What is behind a page. -/
theorem take_append_drop_page (data : List α) (n k : ℕ) :
    (data.drop n).take k ++ data.drop (n + ((data.drop n).take k).length) = data.drop n := by
  rw [← List.drop_drop]
  exact List.prefix_iff_eq_append.mp (List.take_prefix k (data.drop n))

/-- **The pages are the list from there on**, all of it if the end is seen. -/
theorem Pages.flatten_eq (h : Pages data n pages ended) :
    pages.flatten <+: data.drop n ∧ (ended = true → pages.flatten = data.drop n) := by
  induction h with
  | pause n => exact ⟨List.nil_prefix, nofun⟩
  | stop hn =>
    rw [List.drop_eq_nil_of_le hn]
    exact ⟨List.nil_prefix, fun _ ↦ rfl⟩
  | @page n k pages ended _ _ _ ih =>
    obtain ⟨⟨rest, hrest⟩, hall⟩ := ih
    rw [List.flatten_cons]
    refine ⟨⟨rest, ?_⟩, fun hended ↦ ?_⟩
    · rw [List.append_assoc, hrest, take_append_drop_page]
    · rw [hall hended, take_append_drop_page]

/-- No page is empty, so there are no more of them than elements. -/
theorem Pages.length_le (h : Pages data n pages ended) : pages.length ≤ data.length - n := by
  induction h with
  | pause n => exact Nat.zero_le _
  | stop hn => exact Nat.zero_le _
  | page hk hn _ ih =>
    have hpos := length_page_pos hk hn
    rw [List.length_cons]
    omega

end Paging
