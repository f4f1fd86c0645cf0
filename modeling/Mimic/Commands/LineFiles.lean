import Mimic.Text

/-!
# Files of named lines

`/etc/passwd` and its relatives: a file is a list of lines, and what stands before the first `:` of
a line is whom it is for. `names` lists these, so that a file with at most one line for each name is
one whose `names` have no duplicates.

The source tests a line with `starts_with("name:")`, which is a comparison of names
(`startsWith_iff`), and changes a file in two ways: it appends a line, or it joins the lines it read
anew. Both are followed through `names` (`names_append`, `names_rejoined`).
-/

namespace Mimic

namespace Text

variable {text line name : Str} {ls : List Str}

/-! ### Lines -/

/-- A line without the carriage return at its end. -/
def chomp (line : Str) : Str := if line.getLast? = some '\r' then line.dropLast else line

/-- Nothing follows the last line feed. -/
def Ended (text : Str) : Prop := text = [] ∨ text.getLast? = some '\n'

instance : DecidablePred Ended := fun text ↦
  inferInstanceAs (Decidable (text = [] ∨ text.getLast? = some '\n'))

theorem Ended.append (text : Str) (h : line.getLast? = some '\n') : Ended (text ++ line) := by
  right
  rw [List.getLast?_append, h]
  rfl

theorem ended_snoc (text : Str) : Ended (text ++ ['\n']) := .append text rfl

theorem lines_snoc_append (text rest : Str) :
    lines (text ++ '\n' :: rest) = lines (text ++ ['\n']) ++ lines rest := by
  rw [lines, lines, lines, List.splitOn_append_cons_self, List.splitOn_append_cons_self]
  have hrest := List.splitOn_ne_nil '\n' rest
  rw [List.dropLast_append_of_ne_nil hrest, List.getLast?_append_of_ne_nil _ hrest]
  simp

/-- **The lines of a text that is ended and another one.** -/
theorem lines_append (h : Ended text) (rest : Str) :
    lines (text ++ rest) = lines text ++ lines rest := by
  obtain rfl | hlast := h
  · rfl
  · obtain ⟨front, rfl⟩ := List.getLast?_eq_some_iff.mp hlast
    rw [List.append_assoc]
    exact lines_snoc_append front rest

theorem lines_snoc (h : '\n' ∉ line) : lines (line ++ ['\n']) = [chomp line] := by
  rw [lines, List.splitOn_append_cons_self, List.splitOn_eq_singleton h]
  rfl

/-- **The lines of lines joined anew.** -/
theorem lines_rejoined (hne : ls ≠ []) (h : ∀ line ∈ ls, '\n' ∉ line) :
    lines (List.intercalate ['\n'] ls ++ ['\n']) = ls.map chomp := by
  rw [lines, List.splitOn_append_cons_self, List.splitOn_intercalate _ h hne]
  simp [chomp]

theorem newline_not_mem_of_mem_lines (h : line ∈ lines text) : '\n' ∉ line := by
  have hpiece : ∀ {piece}, piece ∈ text.splitOn '\n' → '\n' ∉ piece := not_mem_of_mem_splitOn
  obtain hended | hlast := List.mem_append.mp h
  · obtain ⟨piece, hmem, rfl⟩ := List.mem_map.mp hended
    have hnone := hpiece (List.mem_of_mem_dropLast hmem)
    split
    · exact fun hline ↦ hnone (List.mem_of_mem_dropLast hline)
    · exact hnone
  · have hmem := List.mem_of_mem_filter hlast
    rw [Option.mem_toList] at hmem
    exact hpiece (List.mem_of_getLast? hmem)

theorem subset_of_mem_lines (h : line ∈ lines text) : line ⊆ text := by
  obtain hended | hlast := List.mem_append.mp h
  · obtain ⟨piece, hmem, rfl⟩ := List.mem_map.mp hended
    have hpiece := subset_of_mem_splitOn (List.mem_of_mem_dropLast hmem)
    split
    · exact List.Subset.trans (List.dropLast_subset _) hpiece
    · exact hpiece
  · have hmem := List.mem_of_mem_filter hlast
    rw [Option.mem_toList] at hmem
    exact subset_of_mem_splitOn (List.mem_of_getLast? hmem)

theorem rejoined_eq (hne : ls ≠ []) :
    List.intercalate ['\n'] ls ++ ['\n'] = ls.flatMap (· ++ ['\n']) := by
  induction ls with
  | nil => exact absurd rfl hne
  | cons line ls ih =>
    rcases eq_or_ne ls [] with rfl | hne'
    · simp [List.intercalate]
    · rw [List.flatMap_cons, ← ih hne', List.intercalate_cons_of_ne_nil hne']
      simp

theorem flatMap_lines_sublist (h : Ended text) :
    ((lines text).flatMap (· ++ ['\n'])).Sublist text := by
  obtain rfl | hlast := h
  · exact List.Sublist.refl _
  obtain ⟨front, rfl⟩ := List.getLast?_eq_some_iff.mp hlast
  have htext : front ++ ['\n'] = (front.splitOn '\n').flatMap (· ++ ['\n']) := by
    rw [← rejoined_eq (List.splitOn_ne_nil _ _), List.intercalate_splitOn]
  have hlines : lines (front ++ ['\n']) = (front.splitOn '\n').map chomp := by
    rw [lines, List.splitOn_append_cons_self]
    simp [chomp]
  rw [hlines, List.flatMap_map]
  conv_rhs => rw [htext]
  refine List.Sublist.flatMap_right _ fun piece _ ↦ .append ?_ (.refl _)
  rw [chomp]
  split
  · exact List.dropLast_sublist _
  · exact .refl _

/-- **Some of the lines joined anew** are not longer than the text. -/
theorem rejoined_sublist (h : Ended text) (hne : text ≠ []) (hls : ls.Sublist (lines text)) :
    (List.intercalate ['\n'] ls ++ ['\n']).Sublist text := by
  rcases eq_or_ne ls [] with rfl | hls'
  · obtain ⟨front, rfl⟩ := List.getLast?_eq_some_iff.mp (h.resolve_left hne)
    exact List.sublist_append_right _ _
  · rw [rejoined_eq hls']
    exact (hls.flatMap _).trans (flatMap_lines_sublist h)

/-! ### Names -/

/-- `str::split_once`, at a character. -/
def splitOnce (c : Char) (text : Str) : Option (Str × Str) :=
  if c ∈ text then some (text.takeWhile (· ≠ c), (text.dropWhile (· ≠ c)).tail) else none

/-- Whom a line is for. -/
def lineName (line : Str) : Option Str := (splitOnce ':' line).map Prod.fst

/-- Whom the lines of a file are for. -/
def names (text : Str) : List Str := (lines text).filterMap lineName

theorem lineName_append (h : ':' ∉ name) (rest : Str) :
    lineName (name ++ ':' :: rest) = some name := by
  have hname : ∀ c ∈ name, decide (c ≠ ':') = true := fun c hc ↦
    decide_eq_true fun hsame ↦ h (hsame ▸ hc)
  rw [lineName, splitOnce, if_pos (by simp), Option.map_some,
    List.takeWhile_append_of_pos hname]
  simp

theorem lineName_eq_some (h : lineName line = some name) :
    ':' ∉ name ∧ ∃ rest, line = name ++ ':' :: rest := by
  have hmem : ':' ∈ line := by
    by_contra hnone
    rw [lineName, splitOnce, if_neg hnone] at h
    cases h
  obtain ⟨front, rest, rfl, hfront⟩ := List.eq_append_cons_of_mem hmem
  obtain rfl : front = name := Option.some.inj ((lineName_append hfront rest).symm.trans h)
  exact ⟨hfront, rest, rfl⟩

theorem colon_not_mem_of_mem_names (h : name ∈ names text) : ':' ∉ name := by
  obtain ⟨line, -, hline⟩ := List.mem_filterMap.mp h
  exact (lineName_eq_some hline).1

/-- **Testing the start of a line is comparing names.** -/
theorem startsWith_iff (h : ':' ∉ name) : name ++ [':'] <+: line ↔ lineName line = some name := by
  constructor
  · rintro ⟨rest, rfl⟩
    rw [List.append_assoc]
    exact lineName_append h rest
  · intro hname
    obtain ⟨-, rest, rfl⟩ := lineName_eq_some hname
    exact ⟨rest, by simp⟩

/-- Lines that start with the same field have the same name, even where the field is not one. -/
theorem lineName_congr {field line' : Str} (h : field ++ [':'] <+: line)
    (h' : field ++ [':'] <+: line') : lineName line = lineName line' := by
  obtain ⟨front, rest, hfield, hfront⟩ := List.eq_append_cons_of_mem
    (List.mem_append_right field (List.mem_singleton_self ':'))
  rw [hfield] at h h'
  obtain ⟨back, rfl⟩ := h
  obtain ⟨back', rfl⟩ := h'
  rw [List.append_assoc, List.append_assoc]
  exact (lineName_append hfront _).trans (lineName_append hfront _).symm

theorem lineName_chomp (line : Str) : lineName (chomp line) = lineName line := by
  rw [chomp]
  split
  · rename_i hlast
    obtain ⟨front, rfl⟩ := List.getLast?_eq_some_iff.mp hlast
    rw [List.dropLast_concat]
    by_cases hmem : ':' ∈ front
    · obtain ⟨name, rest, rfl, hname⟩ := List.eq_append_cons_of_mem hmem
      rw [lineName_append hname, List.append_assoc]
      exact (lineName_append hname _).symm
    · rw [lineName, lineName, splitOnce, splitOnce, if_neg hmem, if_neg (by simp [hmem])]
  · rfl

/-! ### Names of changed files -/

theorem names_append (h : Ended text) (rest : Str) :
    names (text ++ rest) = names text ++ names rest := by
  rw [names, lines_append h, List.filterMap_append]
  rfl

theorem names_line (h : '\n' ∉ line) : names (line ++ ['\n']) = (lineName line).toList := by
  rw [names, lines_snoc h, ← lineName_chomp]
  cases hname : lineName (chomp line) <;> simp [hname]

/-- **The names of lines joined anew.** -/
theorem names_rejoined (h : ∀ line ∈ ls, '\n' ∉ line) :
    names (List.intercalate ['\n'] ls ++ ['\n']) = ls.filterMap lineName := by
  rcases eq_or_ne ls [] with rfl | hne
  · decide
  · rw [names, lines_rejoined hne h, List.filterMap_map]
    exact List.filterMap_congr fun line _ ↦ lineName_chomp line

/-- Whom a value that is put at the end of a line adds lines for, when it has line feeds in it. -/
def furtherNames (value : Str) : List Str := ((lines (value ++ ['\n'])).tail).filterMap lineName

theorem furtherNames_of_not_mem (h : '\n' ∉ line) : furtherNames line = [] := by
  rw [furtherNames, lines_snoc h]
  rfl

/-- **The names of a line with a value at its end.** -/
theorem names_entry {front value : Str} (h : '\n' ∉ name ++ ':' :: front) (hname : ':' ∉ name) :
    names (name ++ ':' :: front ++ value ++ ['\n']) = name :: furtherNames value := by
  have hline : ∀ rest, lineName (name ++ ':' :: front ++ rest) = some name := fun rest ↦ by
    rw [List.append_assoc]
    exact lineName_append hname _
  by_cases hfeed : '\n' ∈ value
  · obtain ⟨first, rest, rfl, hfirst⟩ := List.eq_append_cons_of_mem hfeed
    have hfront : '\n' ∉ name ++ ':' :: front ++ first := fun hmem ↦
      (List.mem_append.mp hmem).elim h hfirst
    have hentry : name ++ ':' :: front ++ (first ++ '\n' :: rest) ++ ['\n'] =
        name ++ ':' :: front ++ first ++ '\n' :: (rest ++ ['\n']) := by simp
    have hvalue : first ++ '\n' :: rest ++ ['\n'] = first ++ '\n' :: (rest ++ ['\n']) := by simp
    rw [hentry, names, lines_snoc_append _ (rest ++ ['\n']), lines_snoc hfront, furtherNames,
      hvalue,
      lines_snoc_append first (rest ++ ['\n']), lines_snoc hfirst, List.singleton_append,
      List.singleton_append, List.tail_cons,
      List.filterMap_cons_some ((lineName_chomp _).trans (hline first))]
  · rw [names_line fun hmem ↦ (List.mem_append.mp hmem).elim h hfeed, hline,
      furtherNames_of_not_mem hfeed]
    rfl

end Text

end Mimic
