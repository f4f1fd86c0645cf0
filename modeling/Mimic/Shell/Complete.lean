import Mathlib.Data.List.DropRight
import Mimic.Foundation.CommonPrefix
import Mimic.Foundation.Comparators
import Mimic.Network.Connection
import Mimic.Shell.Substitutions

/-!
# Tab completion

`complete` of `shell/complete.rs`, for the word at the cursor. A word that may be a command and has
no slash is completed with the names under `/usr/bin` and `/usr/sbin` and with the builtins, and any
other word with the entries of its directory portion, of which the hidden ones need a dot.

Both ways the names that start with what was typed are sorted, and what follows is the same
(`completion`): a name that is the only one is the replacement, several names are replaced by what
they have in common if that is more than what was typed, and listed otherwise. What they have in
common is looked for in their bytes. It may end inside a character, so it is cut at the last
boundary before that (`longestCommonPrefix_eq_some`).

Whatever is typed, the program does not panic, and what it does is right (`complete_fits`).
-/

namespace Mimic

namespace Text

/-! ### Encodings that start alike -/

variable {text text' : Str}

/-- **Encodings start alike where the texts do.** -/
theorem toUtf8_front_iff : toUtf8 text <+: toUtf8 text' ↔ text <+: text' := by
  constructor
  · rintro ⟨rest, hrest⟩
    refine ⟨fromUtf8Lossy rest, ?_⟩
    rw [← fromUtf8Lossy_toUtf8_append, hrest, fromUtf8Lossy_toUtf8]
  · rintro ⟨rest, rfl⟩
    rw [toUtf8_append]
    exact List.prefix_append _ _

theorem take_toUtf8 (text behind : Str) :
    (toUtf8 (text ++ behind)).take (byteLen text) = toUtf8 text := by
  rw [toUtf8_append, ← length_toUtf8, List.take_left]

/-- A text that starts with another of the same length is that text. -/
theorem eq_of_front (h : text <+: text') (hlen : byteLen text' ≤ byteLen text) : text' = text := by
  obtain ⟨rest, rfl⟩ := h
  rcases rest with - | ⟨c, rest⟩
  · exact List.append_nil text
  · have hpos := c.utf8Size_pos
    rw [byteLen_append, byteLen_cons] at hlen
    omega

end Text

namespace Metadata

/-- Whether the mode says symbolic link. -/
def isSymlink (m : Metadata) : Bool := m.mode &&& sIfMt == sIfLnk

end Metadata

namespace Complete

open CommonPrefix (IsLongestCommonPrefix commonLength isLongestCommonPrefix_take)
open Connection (Completion)
open Interp (Shell)

/-! ### The functions -/

/-- Shell builtins. -/
def builtins : List Str :=
  ["cd", "export", "unset", "history", "exit", "logout", "alias", "source"].map String.toList

/-- Where commands are listed. -/
def commandDirs : List Str := ["/usr/bin".toList, "/usr/sbin".toList]

/-- The longest common prefix of some texts: in bytes, and moved back to a boundary of the first
text. To slice it anywhere else would panic. -/
def longestCommonPrefix : List Str → Option Str
  | [] => some []
  | first :: rest =>
    let stop := commonLength (Text.toUtf8 first) (rest.map Text.toUtf8) (Text.byteLen first)
    Text.slice first 0 (Nat.findGreatest (fun m ↦ Text.isCharBoundary first m) stop)

/-- Resolve a directory portion (`/etc/`, `sub/` or nothing), if it is that of a directory. -/
def resolveDir (vfs : Vfs) (cwd : NodeId) (dirPart : Str) : Option NodeId :=
  match if dirPart = [] then some cwd else vfs.resolve cwd dirPart with
  | some id => if (vfs.node id).metadata.isDir then some id else none
  | none => none

/-- Whether a node is a directory once a link is followed, which is looked up by its path. -/
def followIsDir (vfs : Vfs) (id : NodeId) : Bool :=
  if (vfs.node id).metadata.isSymlink then
    match vfs.resolve vfs.root (vfs.pathOf id) with
    | some target => (vfs.node target).metadata.isDir
    | none => false
  else (vfs.node id).metadata.isDir

/-- The slash behind the name of a directory. -/
def slash (isDir : Bool) : Str := if isDir then ['/'] else []

/-- What candidates in order make of a word: the end of `complete_command` and `complete_path`. The
candidates are names and whether they are those of directories. -/
def completion (dirPart base : Str) (cands : List (Str × Bool)) : Option Completion :=
  match cands with
  | [] => some .none
  | [(name, isDir)] => some (.single (dirPart ++ (name ++ slash isDir)) (!isDir))
  | _ =>
    (longestCommonPrefix (cands.map Prod.fst)).map fun lcp ↦
      if Text.byteLen base < Text.byteLen lcp then .single (dirPart ++ lcp) false
      else .listing (cands.map fun cand ↦ cand.1 ++ slash cand.2)

/-- Complete a command name. -/
def completeCommand (shell : Shell) (word : Str) : Option Completion :=
  let listed := commandDirs.flatMap fun dir ↦
    match shell.vfs.resolve shell.vfs.root dir with
    | some id => ((shell.vfs.entries id).getD []).map Prod.fst
    | none => []
  let names := (listed ++ builtins).filter fun name ↦ word <+: name
  let names := (names.mergeSort fun a b ↦ (compare a b).isLE).destutter (· ≠ ·)
  completion [] word (names.map fun name ↦ (name, false))

/-- The directory portion of a word, up to its last slash, and the base behind it. -/
def splitWord (word : Str) : Str × Str := (word.rdropWhile (· ≠ '/'), word.rtakeWhile (· ≠ '/'))

/-- Complete a path. -/
def completePath (shell : Shell) (word : Str) : Option Completion :=
  let dirPart := (splitWord word).1
  let base := (splitWord word).2
  match resolveDir shell.vfs shell.cwd dirPart with
  | none => some .none
  | some dir =>
    match shell.vfs.entries dir with
    | none => some .none
    | some entries =>
      let entries := entries.filter fun e ↦ base <+: e.1
      let entries := entries.filter fun e ↦ base.head? = some '.' ∨ ¬ e.1.head? = some '.'
      let cands := entries.map fun e ↦ (e.1, followIsDir shell.vfs e.2)
      completion dirPart base (cands.mergeSort fun a b ↦ (compare a.1 b.1).isLE)

/-- Complete a word, with a panic for none. -/
def complete (shell : Shell) (word : Str) (isCommand : Bool) : Option Completion :=
  if isCommand ∧ '/' ∉ word then completeCommand shell word else completePath shell word

/-! ### What a completion is to be -/

/-- What is kept of a word, and what names have to start with. -/
def typed (isCommand : Bool) (word : Str) : Str × Str :=
  if isCommand ∧ '/' ∉ word then ([], word) else splitWord word

/-- The name of a command. -/
def IsCommandName (shell : Shell) (name : Str) : Prop :=
  (∃ dir ∈ commandDirs, ∃ id, shell.vfs.resolve shell.vfs.root dir = some id ∧
    ∃ c, shell.vfs.child id name = some c) ∨ name ∈ builtins

/-- The entry of a name in a directory portion. -/
def entryNamed (shell : Shell) (dirPart name : Str) : Option NodeId :=
  (resolveDir shell.vfs shell.cwd dirPart).bind fun dir ↦ shell.vfs.child dir name

/-- The names that complete a word: those of commands, or of entries that are hidden only if a dot
was typed. -/
def candidates (shell : Shell) (word : Str) (isCommand : Bool) : Set Str :=
  {name | (typed isCommand word).2 <+: name ∧
    if isCommand ∧ '/' ∉ word then IsCommandName shell name
    else (∃ c, entryNamed shell (typed isCommand word).1 name = some c) ∧
      (name.head? = some '.' → (typed isCommand word).2.head? = some '.')}

/-- Whether a candidate is the name of a directory. -/
def isDirName (shell : Shell) (word : Str) (isCommand : Bool) (name : Str) : Bool :=
  if isCommand ∧ '/' ∉ word then false
  else (entryNamed shell (typed isCommand word).1 name).any (followIsDir shell.vfs)

/-- What a completion says of the candidates, where `dirPart` and `base` were typed. -/
def Fits (dirPart base : Str) (names : Set Str) (isDir : Str → Bool) : Completion → Prop
  | .none => names = ∅
  | .single replacement addSpace => dirPart ++ base <+: replacement ∧
      ((∃ name, names = {name} ∧ replacement = dirPart ++ (name ++ slash (isDir name)) ∧
          addSpace = !isDir name) ∨
        (names.Nontrivial ∧ addSpace = false ∧
          Text.byteLen (dirPart ++ base) < Text.byteLen replacement ∧
          ∃ lcp, IsLongestCommonPrefix names lcp ∧ replacement = dirPart ++ lcp))
  | .listing items => names.Nontrivial ∧ IsLongestCommonPrefix names base ∧
      ∃ sorted : List Str, sorted.Pairwise (compare · · = .lt) ∧
        (∀ name, name ∈ sorted ↔ name ∈ names) ∧
        items = sorted.map fun name ↦ name ++ slash (isDir name)

/-! ### The longest common prefix -/

/-- **The longest common prefix of some texts** is what is left of that of their encodings. -/
theorem longestCommonPrefix_eq_some (first : Str) (rest : List Str) :
    ∃ lcp, longestCommonPrefix (first :: rest) = some lcp ∧
      IsLongestCommonPrefix {s | s ∈ first :: rest} lcp := by
  have hbytes := isLongestCommonPrefix_take (Text.toUtf8 first) (rest.map Text.toUtf8)
  rw [Text.length_toUtf8] at hbytes
  rw [longestCommonPrefix]
  generalize commonLength (Text.toUtf8 first) (rest.map Text.toUtf8) (Text.byteLen first) = stop
    at hbytes ⊢
  generalize hcut : Nat.findGreatest (fun m ↦ Text.isCharBoundary first m = true) stop = cut
  have hle : cut ≤ stop := hcut ▸ Nat.findGreatest_le stop
  have hboundary : Text.isCharBoundary first cut = true := by
    rw [← hcut]
    exact Nat.findGreatest_spec (P := fun m ↦ Text.isCharBoundary first m = true)
      (Nat.zero_le stop) (Text.isCharBoundary_iff.mpr ⟨[], first, rfl, rfl⟩)
  obtain ⟨lcp, behind, rfl, hlen⟩ := Text.isCharBoundary_iff.mp hboundary
  refine ⟨lcp, ?_, ?_⟩
  · have hslice := Text.slice_append [] lcp behind
    rwa [show Text.byteLen [] = 0 from rfl, Nat.zero_add, hlen, List.nil_append] at hslice
  have himage : Text.toUtf8 '' {s | s ∈ (lcp ++ behind) :: rest} =
      {b | b ∈ Text.toUtf8 (lcp ++ behind) :: rest.map Text.toUtf8} := by
    ext b
    rw [← List.map_cons]
    exact List.mem_map.symm
  rw [← himage] at hbytes
  have htake := Text.take_toUtf8 lcp behind
  rw [hlen] at htake
  refine hbytes.of_encoding (fun _ _ ↦ Text.toUtf8_front_iff) ?_ fun q hq ↦ ?_
  · rw [← htake]
    exact List.take_prefix_take_left hle
  · obtain ⟨rest', hrest'⟩ := Text.toUtf8_front_iff.mp (hq.trans (List.take_prefix _ _))
    have hshort : Text.byteLen q ≤ stop := by
      have hlength := hq.length_le
      rw [Text.length_toUtf8, List.length_take] at hlength
      exact hlength.trans (min_le_left _ _)
    have hcutq : Text.byteLen q ≤ cut := by
      rw [← hcut]
      exact Nat.le_findGreatest hshort (Text.isCharBoundary_iff.mpr ⟨q, rest', hrest'.symm, rfl⟩)
    refine Text.toUtf8_front_iff.mp ?_
    rw [← htake, ← Text.take_toUtf8 q rest', hrest']
    exact List.take_prefix_take_left hcutq

/-- `é` and `ê` start with the same byte. -/
example : longestCommonPrefix ["xé".toList, "xê".toList] = some ['x'] := by decide

/-! ### What follows for candidates in order -/

section Candidates

variable {cands : List (Str × Bool)} {dirPart base : Str} {names : Set Str} {isDir : Str → Bool}

theorem completion_fits (hsorted : (cands.map Prod.fst).Pairwise (compare · · = .lt))
    (hnames : ∀ name, name ∈ cands.map Prod.fst ↔ name ∈ names)
    (hdir : ∀ cand ∈ cands, cand.2 = isDir cand.1) (hbase : ∀ name ∈ names, base <+: name) :
    ∃ c, completion dirPart base cands = some c ∧ Fits dirPart base names isDir c := by
  rcases cands with - | ⟨⟨name, d⟩, - | ⟨other, others⟩⟩
  · refine ⟨_, rfl, Set.eq_empty_of_forall_notMem fun name hname ↦ ?_⟩
    exact List.not_mem_nil ((hnames name).mpr hname)
  · -- the only candidate
    obtain rfl : d = isDir name := hdir _ List.mem_cons_self
    have hname : name ∈ names := (hnames name).mp List.mem_cons_self
    refine ⟨_, rfl, ?_, Or.inl ⟨name, Set.ext fun other ↦ ?_, rfl, rfl⟩⟩
    · exact (List.prefix_append_right_inj dirPart).mpr
        ((hbase name hname).trans (List.prefix_append _ _))
    · exact (hnames other).symm.trans List.mem_singleton
  · -- several candidates
    have hseveral : names.Nontrivial := by
      refine ⟨name, (hnames name).mp List.mem_cons_self, other.1,
        (hnames other.1).mp (List.mem_cons_of_mem _ List.mem_cons_self), ?_⟩
      rintro rfl
      have hlt := List.rel_of_pairwise_cons hsorted List.mem_cons_self
      rw [Std.ReflOrd.compare_self] at hlt
      cases hlt
    obtain ⟨lcp, hlcp, hlongest⟩ :=
      longestCommonPrefix_eq_some name (other.1 :: others.map Prod.fst)
    rw [show {s | s ∈ name :: other.1 :: others.map Prod.fst} = names from Set.ext hnames]
      at hlongest
    have hfront : base <+: lcp := hlongest.greatest base hbase
    refine ⟨_, congrArg (Option.map _) hlcp, ?_⟩
    beta_reduce
    split
    · rename_i hlt
      refine ⟨(List.prefix_append_right_inj dirPart).mpr hfront, Or.inr ⟨hseveral, rfl, ?_, lcp,
        hlongest, rfl⟩⟩
      rw [Text.byteLen_append, Text.byteLen_append]
      omega
    · rename_i hle
      rw [Text.eq_of_front hfront (Nat.not_lt.mp hle)] at hlongest
      refine ⟨hseveral, hlongest, _, hsorted, hnames, ?_⟩
      rw [List.map_map]
      exact List.map_congr_left fun cand hcand ↦ by
        rw [hdir cand hcand, Function.comp_apply]

end Candidates

/-! ### Commands -/

theorem mem_listed_iff {shell : Shell} {dir name : Str} :
    name ∈ (match shell.vfs.resolve shell.vfs.root dir with
      | some id => ((shell.vfs.entries id).getD []).map Prod.fst
      | none => []) ↔
    ∃ id, shell.vfs.resolve shell.vfs.root dir = some id ∧
      ∃ c, shell.vfs.child id name = some c := by
  rcases shell.vfs.resolve shell.vfs.root dir with - | id
  · exact iff_of_false List.not_mem_nil nofun
  · simp [← Vfs.mem_entries_iff]

theorem completeCommand_fits (shell : Shell) (word : Str) :
    ∃ c, completeCommand shell word = some c ∧
      Fits [] word {name | word <+: name ∧ IsCommandName shell name} (fun _ ↦ false) c := by
  rw [completeCommand]
  refine completion_fits ?_ (fun name ↦ ?_) ?_ fun _ ↦ And.left
  · rw [List.map_map, show Prod.fst ∘ (fun name : Str ↦ (name, false)) = id from rfl, List.map_id]
    exact Comparators.pairwise_destutter_mergeSort _
  · rw [List.map_map, show Prod.fst ∘ (fun name : Str ↦ (name, false)) = id from rfl, List.map_id,
      Comparators.mem_destutter_mergeSort, List.mem_filter, List.mem_append, List.mem_flatMap,
      decide_eq_true_iff, and_comm]
    simp only [mem_listed_iff, IsCommandName, Set.mem_ofPred_eq]
  · intro cand hcand
    obtain ⟨name, -, rfl⟩ := List.mem_map.mp hcand
    rfl

/-! ### Paths -/

theorem splitWord_append (word : Str) : (splitWord word).1 ++ (splitWord word).2 = word := by
  rw [splitWord, List.rdropWhile, List.rtakeWhile, ← List.reverse_append,
    List.takeWhile_append_dropWhile, List.reverse_reverse]

/-- The names of a directory portion that complete a base. -/
def entryNames (shell : Shell) (dirPart base : Str) : Set Str :=
  {name | base <+: name ∧ (∃ c, entryNamed shell dirPart name = some c) ∧
    (name.head? = some '.' → base.head? = some '.')}

theorem entryNames_eq_empty {shell : Shell} {dirPart : Str}
    (h : ∀ name, entryNamed shell dirPart name = none) (base : Str) :
    entryNames shell dirPart base = ∅ := by
  refine Set.eq_empty_of_forall_notMem fun name hname ↦ ?_
  obtain ⟨-, ⟨c, hc⟩, -⟩ := hname
  rw [h name] at hc
  cases hc

theorem completePath_fits (shell : Shell) (word : Str) :
    ∃ c, completePath shell word = some c ∧
      Fits (splitWord word).1 (splitWord word).2
        (entryNames shell (splitWord word).1 (splitWord word).2)
        (fun name ↦ (entryNamed shell (splitWord word).1 name).any (followIsDir shell.vfs)) c := by
  rw [completePath]
  generalize (splitWord word).1 = dirPart
  generalize (splitWord word).2 = base
  dsimp only
  rcases hdir : resolveDir shell.vfs shell.cwd dirPart with - | dir
  · refine ⟨_, rfl, entryNames_eq_empty (fun name ↦ ?_) base⟩
    rw [entryNamed, hdir, Option.bind_none]
  have hentry (name : Str) : entryNamed shell dirPart name = shell.vfs.child dir name := by
    rw [entryNamed, hdir, Option.bind_some]
  have hmem (name : Str) (c : NodeId) :
      (name, c) ∈ (shell.vfs.entries dir).getD [] ↔ entryNamed shell dirPart name = some c := by
    rw [Vfs.mem_entries_iff, hentry]
  have hkeys := shell.vfs.pairwise_entries dir
  dsimp only
  rcases hentries : shell.vfs.entries dir with - | entries
  · refine ⟨_, rfl, entryNames_eq_empty (fun name ↦ Option.eq_none_iff_forall_ne_some.mpr ?_) base⟩
    intro c hc
    rw [hentries] at hmem
    exact List.not_mem_nil ((hmem name c).mpr hc)
  rw [hentries, Option.getD_some] at hmem hkeys
  dsimp only
  generalize hshown : List.filter _ (List.filter _ entries) = shown
  have hmem_shown (name : Str) (c : NodeId) : (name, c) ∈ shown ↔
      entryNamed shell dirPart name = some c ∧ base <+: name ∧
        (name.head? = some '.' → base.head? = some '.') := by
    rw [← hshown, List.mem_filter, List.mem_filter, hmem, decide_eq_true_iff, decide_eq_true_iff,
      and_assoc, or_comm, ← imp_iff_not_or]
  have hkeys_shown : (shown.map Prod.fst).Pairwise (compare · · = .lt) := by
    rw [← hshown]
    exact hkeys.sublist ((List.filter_sublist.trans List.filter_sublist).map _)
  have hfst : (shown.map fun e ↦ (e.1, followIsDir shell.vfs e.2)).map Prod.fst =
      shown.map Prod.fst := List.map_map
  rw [List.mergeSort_of_pairwise]
  · refine completion_fits ?_ (fun name ↦ ?_) ?_ fun _ ↦ And.left
    · rwa [hfst]
    · rw [hfst, List.mem_map]
      constructor
      · rintro ⟨⟨name, c⟩, he, rfl⟩
        obtain ⟨hc, hfront, hdot⟩ := (hmem_shown name c).mp he
        exact ⟨hfront, ⟨c, hc⟩, hdot⟩
      · rintro ⟨hfront, ⟨c, hc⟩, hdot⟩
        exact ⟨(name, c), (hmem_shown name c).mpr ⟨hc, hfront, hdot⟩, rfl⟩
    · intro cand hcand
      obtain ⟨⟨name, c⟩, he, rfl⟩ := List.mem_map.mp hcand
      rw [((hmem_shown name c).mp he).1, Option.any_some]
  · -- the entries are sorted already
    rw [List.pairwise_map] at hkeys_shown ⊢
    refine hkeys_shown.imp fun {a b} hlt ↦ ?_
    dsimp only
    rw [hlt]
    rfl

/-! ### Completion -/

theorem typed_append (isCommand : Bool) (word : Str) :
    (typed isCommand word).1 ++ (typed isCommand word).2 = word := by
  rw [typed]
  split
  · rfl
  · exact splitWord_append word

/-- **A completion fits the candidates.** Whatever is typed, the program does not panic. It offers
nothing if nothing starts with what was typed, the only candidate if there is one, and otherwise
what all candidates have in common, or a list of them if that is no more than what was typed. -/
theorem complete_fits (shell : Shell) (word : Str) (isCommand : Bool) :
    (typed isCommand word).1 ++ (typed isCommand word).2 = word ∧
      ∃ c, complete shell word isCommand = some c ∧
        Fits (typed isCommand word).1 (typed isCommand word).2 (candidates shell word isCommand)
          (isDirName shell word isCommand) c := by
  refine ⟨typed_append isCommand word, ?_⟩
  unfold candidates isDirName
  rw [complete]
  by_cases h : isCommand = true ∧ '/' ∉ word
  · simp only [typed, if_pos h]
    exact completeCommand_fits shell word
  · simp only [typed, if_neg h]
    exact completePath_fits shell word

end Complete

end Mimic
