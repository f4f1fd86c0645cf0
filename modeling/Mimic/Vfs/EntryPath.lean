import Mimic.Vfs.Depth
import Mimic.Vfs.Resolve

/-!
# Entry paths

`descend` follows entry names literally: no links, no `.` or `..`. In a tree every attached node has
exactly one entry path from the root (`descend_unique`), so entry paths are what two ways of reading
a path text are compared by.

* Where all components are names of directories, resolving the text and descending agree
  (`walks_of_descend`).
* Wherever it starts, resolution only ever ends at nodes whose entry path consists of names
  (`Walks.named`). An entry called `..`, and everything below it, is out of its reach.
-/

namespace Mimic

open ParentForest

namespace Vfs

/-- Follow entry names one after the other. -/
def descend (v : Vfs) : NodeId → List Str → Option NodeId
  | c, [] => some c
  | c, name :: rest => (v.child c name).bind fun x ↦ descend v x rest

/-- Reachable from the root through entry tables. -/
def Attached (v : Vfs) (x : NodeId) : Prop := ∃ names, v.descend v.root names = some x

/-- Reachable from the root through entries with names in `P`. -/
def NamedBy (P : Str → Prop) (v : Vfs) (x : NodeId) : Prop :=
  ∃ names, (∀ name ∈ names, P name) ∧ v.descend v.root names = some x

/-- Reachable from the root through entries that resolution can name. -/
abbrev Named (v : Vfs) (x : NodeId) : Prop := NamedBy IsName v x

variable {v w : Vfs} {c d x parent : NodeId} {name comp : Str} {names names' rest comps : List Str}
  {n : ℕ}

theorem descend_nil : v.descend c [] = some c := rfl

theorem descend_cons : v.descend c (name :: rest) = some x ↔
    ∃ y, v.child c name = some y ∧ v.descend y rest = some x :=
  Option.bind_eq_some_iff

theorem descend_append :
    v.descend c (names ++ rest) = (v.descend c names).bind fun x ↦ v.descend x rest := by
  induction names generalizing c with
  | nil => rfl
  | cons name names ih =>
    rw [List.cons_append, descend, descend, Option.bind_assoc]
    simp only [ih]

theorem descend_snoc : v.descend c (names ++ [name]) = some x ↔
    ∃ y, v.descend c names = some y ∧ v.child y name = some x := by
  rw [descend_append, Option.bind_eq_some_iff]
  simp only [descend_cons, descend_nil, Option.some.injEq, exists_eq_right]

theorem below_of_descend (h : v.descend c names = some x) : Below v c x names.length := by
  induction names generalizing c with
  | nil =>
    obtain rfl := Option.some.inj h
    exact .refl
  | cons name names ih =>
    obtain ⟨y, hy, hrest⟩ := descend_cons.1 h
    exact Below.head hy (ih hrest)

theorem lt_of_descend (hv : v.WellFormed) (hc : c < v.nodes.length)
    (h : v.descend c names = some x) : x < v.nodes.length :=
  (below_of_descend h).lt hv hc

/-- More entries, more descents. -/
theorem descend_mono (h : ∀ d name c, v.child d name = some c → w.child d name = some c)
    (hd : v.descend c names = some x) : w.descend c names = some x := by
  induction names generalizing c with
  | nil => exact hd
  | cons name names ih =>
    obtain ⟨y, hy, hrest⟩ := descend_cons.1 hd
    exact descend_cons.2 ⟨y, h c name y hy, ih hrest⟩

/-- **Every attached node has one entry path.** -/
theorem descend_unique (hv : v.WellFormed) (h : v.descend v.root names = some x)
    (h' : v.descend v.root names' = some x) : names = names' := by
  have hroot : ∀ {y name}, v.child y name ≠ some v.root := fun hc ↦ by
    have := hv.entry_parent hc
    rw [hv.root_parent] at this
    cases this
  induction names using List.reverseRecOn generalizing names' x with
  | nil =>
    obtain rfl := Option.some.inj h
    rcases List.eq_nil_or_concat names' with rfl | ⟨init, last, rfl⟩
    · rfl
    · obtain ⟨y, -, hy⟩ := descend_snoc.1 (List.concat_eq_append ▸ h')
      exact absurd hy hroot
  | append_singleton init last ih =>
    obtain ⟨y, hinit, hy⟩ := descend_snoc.1 h
    rcases List.eq_nil_or_concat names' with rfl | ⟨init', last', rfl⟩
    · obtain rfl := Option.some.inj h'
      exact absurd hy hroot
    · rw [List.concat_eq_append] at h' ⊢
      obtain ⟨y', hinit', hy'⟩ := descend_snoc.1 h'
      obtain ⟨rfl, rfl⟩ := hv.entry_unique hy hy'
      rw [ih hinit hinit']

/-! ### Descents and walks -/

/-- Whatever has an entry is no link. -/
theorem not_symlink_of_isDirectory (h : (v.node x).kind.isDirectory = true) (target : Str) :
    (v.node x).kind ≠ .symlink target := by
  intro hkind
  rw [hkind] at h
  cases h

theorem walks_of_descend (hnames : ∀ name ∈ names, IsName name)
    (h : v.descend c names = some x) (hx : ∀ target, (v.node x).kind ≠ .symlink target) :
    Walks v c names x 0 := by
  induction names generalizing c with
  | nil =>
    obtain rfl := Option.some.inj h
    exact .nil
  | cons name names ih =>
    obtain ⟨y, hy, hrest⟩ := descend_cons.1 h
    refine .down (hnames name List.mem_cons_self) hy (fun target ↦ ?_)
      (ih (fun name' h' ↦ hnames name' (List.mem_cons_of_mem _ h')) hrest)
    -- the last node is no link by assumption, the others have entries
    rcases names with - | ⟨name', names⟩
    · obtain rfl := Option.some.inj hrest
      exact hx target
    · obtain ⟨z, hz, -⟩ := descend_cons.1 hrest
      exact not_symlink_of_isDirectory (isDirectory_of_child hz) target

section NamedBy

variable {P : Str → Prop}

theorem namedBy_root (v : Vfs) : NamedBy P v v.root :=
  ⟨[], fun _ h ↦ absurd h List.not_mem_nil, rfl⟩

theorem NamedBy.attached (h : NamedBy P v x) : v.Attached x := h.imp fun _ ↦ And.right

theorem NamedBy.child (h : NamedBy P v c) (hname : P name) (hc : v.child c name = some x) :
    NamedBy P v x := by
  obtain ⟨names, hnames, hdesc⟩ := h
  refine ⟨names ++ [name], fun name' hname' ↦ ?_, descend_snoc.2 ⟨c, hdesc, hc⟩⟩
  rcases List.mem_append.1 hname' with h | h
  · exact hnames name' h
  · exact List.mem_singleton.1 h ▸ hname

theorem NamedBy.parentOrRoot (hv : v.WellFormed) (h : NamedBy P v x) :
    NamedBy P v (v.parentOrRoot x) := by
  obtain ⟨names, hnames, hdesc⟩ := h
  rcases List.eq_nil_or_concat names with rfl | ⟨init, last, rfl⟩
  · obtain rfl := Option.some.inj hdesc
    rw [Vfs.parentOrRoot, hv.root_parent]
    exact namedBy_root v
  · rw [List.concat_eq_append] at hdesc hnames
    obtain ⟨y, hinit, hy⟩ := descend_snoc.1 hdesc
    rw [Vfs.parentOrRoot, hv.entry_parent hy]
    exact ⟨init, fun name hname ↦ hnames name (List.mem_append_left _ hname), hinit⟩

theorem NamedBy.origin (h : NamedBy P v c) (path : Str) : NamedBy P v (v.origin c path) := by
  rw [Vfs.origin]
  split
  · exact namedBy_root v
  · exact h

/-- The entry path of such a node consists of such names. -/
theorem NamedBy.of_descend (hv : v.WellFormed) (h : NamedBy P v x)
    (hdesc : v.descend v.root names = some x) : ∀ name ∈ names, P name := by
  obtain ⟨names', hnames', hdesc'⟩ := h
  rwa [descend_unique hv hdesc hdesc']

/-- So does the entry of such a node, and its directory is one of them. -/
theorem NamedBy.of_child (hv : v.WellFormed) (h : NamedBy P v x) (hc : v.child c name = some x) :
    NamedBy P v c ∧ P name := by
  obtain ⟨names, hnames, hdesc⟩ := h
  rcases List.eq_nil_or_concat names with rfl | ⟨init, last, rfl⟩
  · obtain rfl := Option.some.inj hdesc
    have hroot := hv.entry_parent hc
    rw [hv.root_parent] at hroot
    cases hroot
  · rw [List.concat_eq_append] at hdesc hnames
    obtain ⟨y, hinit, hy⟩ := descend_snoc.1 hdesc
    obtain ⟨rfl, rfl⟩ := hv.entry_unique hc hy
    obtain ⟨hinits, hlast⟩ := List.forall_mem_append.1 hnames
    exact ⟨⟨init, hinits, hinit⟩, hlast _ (List.mem_singleton_self _)⟩

end NamedBy

/-- **Walks stay among named nodes.** -/
theorem Walks.named (hv : v.WellFormed) (h : Walks v c comps d n) (hc : v.Named c) : v.Named d := by
  induction h with
  | nil => exact hc
  | skip _ _ ih => exact ih hc
  | up _ ih => exact ih (hc.parentOrRoot hv)
  | down hname hchild _ _ ih => exact ih (hc.child hname hchild)
  | link hname hchild _ _ _ ihin ih =>
    exact ih (ihin (((hc.child hname hchild).parentOrRoot hv).origin _))

/-- A component that the loops of `resolve` and `mkdir_p` do not skip. -/
def Counts (comp : Str) : Prop := ¬ (comp = [] ∨ comp = ['.'])

instance : DecidablePred Counts := fun comp ↦
  inferInstanceAs (Decidable (¬ (comp = [] ∨ comp = ['.'])))

/-- The components that count. -/
def significant (comps : List Str) : List Str := comps.filter fun comp ↦ decide (Counts comp)

theorem significant_cons_of_skip (h : comp = [] ∨ comp = ['.']) :
    significant (comp :: rest) = significant rest := by
  rw [significant, List.filter_cons_of_neg (by exact fun hd ↦ of_decide_eq_true hd h), significant]

theorem significant_cons_of_counts (h : Counts comp) :
    significant (comp :: rest) = comp :: significant rest := by
  rw [significant, List.filter_cons_of_pos (by exact decide_eq_true h), significant]

theorem walks_significant_iff :
    Walks v c (significant comps) d n ↔ Walks v c comps d n := by
  induction comps generalizing c n with
  | nil => rfl
  | cons comp rest ih =>
    by_cases hskip : comp = [] ∨ comp = ['.']
    · rw [significant_cons_of_skip hskip, ih, walks_skip_iff hskip]
    rw [significant_cons_of_counts hskip]
    by_cases hup : comp = ['.', '.']
    · subst hup
      rw [walks_up_iff, walks_up_iff, ih]
    · have hname : IsName comp := ⟨fun h ↦ hskip (.inl h), fun h ↦ hskip (.inr h), hup⟩
      simp only [walks_name_iff hname, ih]

theorem counts_of_mem_significant (h : name ∈ significant comps) : Counts name :=
  of_decide_eq_true (List.mem_filter.1 h).2

/-- A component that counts is a name or `..`. -/
theorem Counts.isName (h : Counts name) (hup : name ≠ ['.', '.']) : IsName name :=
  ⟨fun h' ↦ h (.inl h'), fun h' ↦ h (.inr h'), hup⟩

end Vfs

end Mimic
