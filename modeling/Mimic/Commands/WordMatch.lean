import Mimic.Foundation.Occurrences
import Mimic.Shell.Arith

/-!
# Words

`grep -w` keeps a line in which the needle occurs with no word character on either side
(`BoundedAt`). `word_match` (`commands/fs.rs`) looks at the occurrences that `str::match_indices`
gives, which do not overlap. An occurrence that another one reaches into is not looked at, even if
it is the one that counts.

What it takes for that is a needle that occurs again in itself, behind a character that is no word
character (`SplitsAt`); with any other needle every line is decided right (`wordMatch_iff`).
-/

namespace Mimic

namespace WordMatch

open Occurrences

variable {classes : Arith.CharClasses} {line needle : Str} {i j k : ℕ}

/-- A word character: alphanumeric or `_`. -/
def isWord (classes : Arith.CharClasses) (c : Char) : Bool := classes.isAlphanumeric c || c == '_'

/-- `word_match`. -/
def wordMatch (classes : Arith.CharClasses) (hay needle : Str) : Bool :=
  if needle = [] then false
  else
    (hits needle hay).any fun i ↦
      let before := (hay.take i).getLast?.all fun c ↦ !isWord classes c
      let after := (hay.drop (i + needle.length)).head?.all fun c ↦ !isWord classes c
      before && after

/-- The needle occurs at this place, with no word character on either side. -/
structure BoundedAt (classes : Arith.CharClasses) (line needle : Str) (i : ℕ) : Prop where
  occurs : needle <+: line.drop i
  before : ∀ c ∈ (line.take i).getLast?, isWord classes c = false
  after : ∀ c ∈ (line.drop (i + needle.length)).head?, isWord classes c = false

/-- The needle occurs again `k` characters into itself, behind a character that is no word
character. -/
structure SplitsAt (classes : Arith.CharClasses) (needle : Str) (k : ℕ) : Prop where
  pos : 0 < k
  lt : k < needle.length
  occurs : needle.drop k <+: needle
  before : ∀ c ∈ (needle.take k).getLast?, isWord classes c = false

theorem wordMatch_iff_hit (hne : needle ≠ []) :
    wordMatch classes line needle = true ↔
      ∃ i ∈ hits needle line, BoundedAt classes line needle i := by
  rw [wordMatch, if_neg hne, List.any_eq_true]
  refine exists_congr fun i ↦ and_congr_right fun hi ↦ ?_
  simp only [Bool.and_eq_true, Option.all_eq_true, Bool.not_eq_true']
  exact ⟨fun h ↦ ⟨((mem_hits_iff hne).1 hi).2.1, h.1, h.2⟩, fun h ↦ ⟨h.before, h.after⟩⟩

/-- A hit that reaches into a bounded occurrence splits the needle. -/
theorem splitsAt_of_overlap (hj : needle <+: line.drop j) (hji : j < i)
    (hij : i < j + needle.length) (h : BoundedAt classes line needle i) :
    SplitsAt classes needle (i - j) := by
  obtain ⟨k, rfl⟩ := Nat.exists_eq_add_of_lt hji
  obtain ⟨rest, hrest⟩ := hj
  have hk : k + 1 < needle.length := by omega
  rw [show j + k + 1 - j = k + 1 by omega]
  have hoccurs := h.occurs
  rw [Nat.add_assoc, ← List.drop_drop, ← hrest, List.drop_append_of_le_length hk.le] at hoccurs
  refine ⟨Nat.succ_pos k, hk, ?_, fun c hc ↦ h.before c ?_⟩
  · exact List.prefix_of_prefix_length_le (List.prefix_append _ rest) hoccurs
      (by rw [List.length_drop]; omega)
  · -- the character in front of the occurrence is in the needle
    have htake : line.take (j + k + 1) = line.take j ++ needle.take (k + 1) := by
      rw [Nat.add_assoc, List.take_add, ← hrest, List.take_append_of_le_length hk.le]
    rw [htake, List.getLast?_append, Option.mem_def.1 hc]
    rfl

/-- A word character that a text does not start with. -/
theorem exists_word_ne (classes : Arith.CharClasses) (text : Str) :
    ∃ x, isWord classes x = true ∧ text.head? ≠ some x := by
  have hword : ∀ x : Char, x.toNat < 128 → x.isAlpha = true → isWord classes x = true :=
    fun x hx halpha ↦ by
      rw [isWord, Arith.CharClasses.isAlphanumeric, classes.isAlphabetic_ascii x hx, halpha]
      rfl
  by_cases h : text.head? = some 'a'
  · exact ⟨'b', hword 'b' (by decide) (by decide), by rw [h]; decide⟩
  · exact ⟨'a', hword 'a' (by decide) (by decide), h⟩

/-- **A needle that splits is missed** behind a word character and its own first part. -/
theorem exists_missed (h : SplitsAt classes needle k) : ∃ line,
    (∃ i, BoundedAt classes line needle i) ∧ wordMatch classes line needle = false := by
  have hne : needle ≠ [] := List.length_pos_iff.1 (h.pos.trans h.lt)
  obtain ⟨x, hx, hhead⟩ := exists_word_ne classes needle
  -- the first occurrence in `x :: needle.take k ++ needle` is at 1, and reaches into the one at
  -- `k + 1`
  have hfirst : needle <+: needle.take k ++ needle := by
    obtain ⟨rest, hrest⟩ := h.occurs
    refine ⟨rest, ?_⟩
    conv_lhs => rw [← List.take_append_drop k needle]
    rw [List.append_assoc, hrest]
  have hlen : (x :: (needle.take k ++ needle)).length = k + needle.length + 1 := by
    rw [List.length_cons, List.length_append, List.length_take, Nat.min_eq_left h.lt.le]
  have hzero : 0 ∉ hits needle (x :: (needle.take k ++ needle)) := fun hmem ↦ by
    obtain ⟨rest, hrest⟩ := ((mem_hits_iff hne).1 hmem).2.1
    obtain ⟨y, ys, rfl⟩ := List.exists_cons_of_ne_nil hne
    obtain ⟨rfl, -⟩ := List.cons.inj (show y :: (ys ++ rest) = x :: _ from hrest)
    exact hhead rfl
  have hpos := h.pos
  have hone : 1 ∈ hits needle (x :: (needle.take k ++ needle)) :=
    (mem_hits_iff hne).2 ⟨by rw [hlen]; omega, hfirst, fun j hj hlt ↦ by
      obtain rfl := Nat.lt_one_iff.1 hlt
      exact absurd hj hzero⟩
  refine ⟨x :: (needle.take k ++ needle), ⟨k + 1, ?_, ?_, ?_⟩, ?_⟩
  · rw [List.drop_succ_cons, List.drop_left' (by rw [List.length_take, Nat.min_eq_left h.lt.le])]
  · intro c hc
    refine h.before c ?_
    rw [List.take_succ_cons, List.take_left' (by rw [List.length_take, Nat.min_eq_left h.lt.le])]
      at hc
    have htake : needle.take k ≠ [] := by
      rw [Ne, List.take_eq_nil_iff, not_or]
      exact ⟨hpos.ne', hne⟩
    rwa [List.getLast?_cons_of_ne_nil htake] at hc
  · intro c hc
    rw [List.drop_eq_nil_of_le (by rw [hlen]; omega)] at hc
    cases hc
  · rw [Bool.eq_false_iff]
    intro hmatch
    obtain ⟨i, hi, hbounded⟩ := (wordMatch_iff_hit hne).1 hmatch
    rcases Nat.lt_trichotomy i 1 with hlt | rfl | hlt
    · obtain rfl := Nat.lt_one_iff.1 hlt
      exact hzero hi
    · have := hbounded.before x rfl
      rw [hx] at this
      cases this
    · have hbehind := ((mem_hits_iff hne).1 hi).2.2 1 hone hlt
      have hle := hbounded.occurs.length_le
      rw [List.length_drop, hlen] at hle
      have := h.lt
      omega

/-- **When `word_match` decides `grep -w`.** Its answer for a line is right if and only if the
needle, should it occur with no word character on either side, does so in a place that no occurrence
found before reaches into. Its answers are right for all lines if and only if the needle does not
occur again in itself behind a character that is no word character. -/
theorem wordMatch_iff (classes : Arith.CharClasses) (hne : needle ≠ []) :
    (∀ line, (wordMatch classes line needle = true ↔ ∃ i, BoundedAt classes line needle i) ↔
      ((∃ i, BoundedAt classes line needle i) → ∃ i, BoundedAt classes line needle i ∧
        ∀ j ∈ hits needle line, j < i → j + needle.length ≤ i)) ∧
      ((∀ line, wordMatch classes line needle = true ↔ ∃ i, BoundedAt classes line needle i) ↔
        ¬ ∃ k, SplitsAt classes needle k) := by
  have hmem : ∀ {line i}, BoundedAt classes line needle i →
      (i ∈ hits needle line ↔ ∀ j ∈ hits needle line, j < i → j + needle.length ≤ i) := by
    intro line i h
    have hlt : i < line.length := by
      have hle := h.occurs.length_le
      have hpos := List.length_pos_iff.2 hne
      rw [List.length_drop] at hle
      omega
    rw [mem_hits_iff hne]
    exact ⟨fun hi ↦ hi.2.2, fun hi ↦ ⟨hlt, h.occurs, hi⟩⟩
  refine ⟨fun line ↦ ⟨fun h hsome ↦ ?_, fun h ↦ ⟨fun hmatch ↦ ?_, fun hsome ↦ ?_⟩⟩,
    fun h ⟨k, hk⟩ ↦ ?_, fun h line ↦ ⟨fun hmatch ↦ ?_, fun ⟨i, hi⟩ ↦ ?_⟩⟩
  · obtain ⟨i, hi, hbounded⟩ := (wordMatch_iff_hit hne).1 (h.2 hsome)
    exact ⟨i, hbounded, (hmem hbounded).1 hi⟩
  · obtain ⟨i, -, hbounded⟩ := (wordMatch_iff_hit hne).1 hmatch
    exact ⟨i, hbounded⟩
  · obtain ⟨i, hbounded, hi⟩ := h hsome
    exact (wordMatch_iff_hit hne).2 ⟨i, (hmem hbounded).2 hi, hbounded⟩
  · obtain ⟨line, hsome, hmissed⟩ := exists_missed hk
    rw [(h line).2 hsome] at hmissed
    cases hmissed
  · obtain ⟨i, -, hbounded⟩ := (wordMatch_iff_hit hne).1 hmatch
    exact ⟨i, hbounded⟩
  · refine (wordMatch_iff_hit hne).2 ⟨i, (hmem hi).2 fun j hj hlt ↦ ?_, hi⟩
    by_contra hover
    exact h ⟨i - j, splitsAt_of_overlap ((mem_hits_iff hne).1 hj).2.1 hlt (by omega) hi⟩

/-- The needle `ab` does not occur again in itself. -/
theorem wordMatch_ab : wordMatch .ascii "xab ab".toList ['a', 'b'] = true ↔
    ∃ i, BoundedAt .ascii "xab ab".toList ['a', 'b'] i := by
  refine (wordMatch_iff .ascii (List.cons_ne_nil _ _)).2.2 ?_ _
  rintro ⟨k, hpos, hlt, hoccurs, -⟩
  obtain rfl : k = 1 := by simp at hlt; omega
  revert hoccurs
  decide

/-- `a a` is found in `xa a a` behind the `x` only. -/
theorem wordMatch_missed : ¬ (wordMatch .ascii "xa a a".toList "a a".toList = true ↔
    ∃ i, BoundedAt .ascii "xa a a".toList "a a".toList i) := by
  intro h
  have hblank : ∀ c ∈ ("xa a a".toList.take 3).getLast?, isWord .ascii c = false := fun c hc ↦ by
    obtain rfl : ' ' = c := Option.some.inj hc
    rfl
  have hfound := h.2 ⟨3, by decide, hblank, nofun⟩
  revert hfound
  decide

end WordMatch

end Mimic
