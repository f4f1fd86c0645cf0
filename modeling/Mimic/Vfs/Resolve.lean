import Mimic.Vfs.WellFormed

/-!
# Path resolution

`resolve`, `path_of` and `split_path` of `vfs/mod.rs`.

`resolve_inner` carries the depth of the link it is resolving and gives up past
`MAX_SYMLINK_DEPTH`. Here it carries the levels it has left, so that it recurses structurally: the
source's `depth` is `MAX_SYMLINK_DEPTH + 1` minus the budget.

What `resolve` computes is compared with a walk that follows links without any limit (`Walks`). Such
a walk has a **nesting**: how deep it goes into links met while following links. `resolve` finds the
end of the walk exactly when the nesting is within the limit (`resolve_eq_some_iff`). Nesting is not
the number of links followed. Two links side by side nest no deeper than one, so the limit does not
bound how many links a path makes `resolve` follow, and the number of loop iterations is bounded by
a geometric sum only (`steps_resolveTally_le`).
-/

namespace Mimic

namespace Vfs

/-- Maximum symlink-resolution depth before giving up. -/
def maxSymlinkDepth : ℕ := 40

section Definitions

variable (v : Vfs)

/-- The directory a path starts from. -/
def origin (start : NodeId) (path : Str) : NodeId :=
  if path.head? = some '/' then v.root else start

/-- The parent of a node, the root standing in for its own. -/
def parentOrRoot (id : NodeId) : NodeId := (v.parentOf id).getD v.root

/-- The loop of `resolve_inner` over the remaining components. -/
def walkComps (follow : NodeId → Option NodeId) : NodeId → List Str → Option NodeId
  | current, [] => some current
  | current, comp :: rest =>
    if comp = [] ∨ comp = ['.'] then walkComps follow current rest
    else if comp = ['.', '.'] then walkComps follow (v.parentOrRoot current) rest
    else
      match v.child current comp with
      | none => none
      | some child =>
        match follow child with
        | none => none
        | some next => walkComps follow next rest

/-- If `id` is a symlink, resolve it relative to its parent; otherwise return `id` unchanged. -/
def follow (resolveInner : NodeId → Str → Option NodeId) (id : NodeId) : Option NodeId :=
  match (v.node id).kind with
  | .symlink target => resolveInner (v.parentOrRoot id) target
  | _ => some id

/-- Resolve a path with `budget` levels of links left. -/
def resolveInner : ℕ → NodeId → Str → Option NodeId
  | 0, _, _ => none
  | budget + 1, start, path =>
    v.walkComps (v.follow (resolveInner budget)) (v.origin start path) (splitSlash path)

/-- Resolve `path` starting from `start`, following symlinks. -/
def resolve (start : NodeId) (path : Str) : Option NodeId :=
  v.resolveInner (maxSymlinkDepth + 1) start path

/-- The loop of `path_of`: the names met on the way up, the topmost first. -/
def pathParts : ℕ → NodeId → List Str → List Str
  | 0, _, parts => parts
  | fuel + 1, current, parts =>
    match v.parentOf current with
    | none => parts
    | some parent => pathParts fuel parent ((v.node current).name :: parts)

/-- Join components with slashes. -/
def joinSlash (parts : List Str) : Str := List.intercalate ['/'] parts

/-- The absolute path of `id`, by walking parents. -/
def pathOf (id : NodeId) : Str := '/' :: joinSlash (v.pathParts v.nodes.length id [])

end Definitions

/-- Split `path` into its directory portion and final component. -/
def splitPath (path : Str) : Str × Str :=
  if '/' ∈ path then
    let name := (path.reverse.takeWhile (· ≠ '/')).reverse
    let dir := path.take (path.length - name.length - 1)
    (if dir = [] then ['/'] else dir, name)
  else (['.'], path)

/-! ### Walks without a limit -/

/-- Components the loop takes as the name of an entry. -/
def IsName (comp : Str) : Prop := comp ≠ [] ∧ comp ≠ ['.'] ∧ comp ≠ ['.', '.']

instance : DecidablePred IsName := fun comp ↦
  inferInstanceAs (Decidable (comp ≠ [] ∧ comp ≠ ['.'] ∧ comp ≠ ['.', '.']))

/-- `Walks v c comps d n`: from `c`, the components `comps` lead to `d` when every link is followed,
and links are met at most `n` levels deep inside other links. -/
inductive Walks (v : Vfs) : NodeId → List Str → NodeId → ℕ → Prop
  | nil {c} : Walks v c [] c 0
  | skip {c comp rest d n} : comp = [] ∨ comp = ['.'] → Walks v c rest d n →
      Walks v c (comp :: rest) d n
  | up {c rest d n} : Walks v (v.parentOrRoot c) rest d n → Walks v c (['.', '.'] :: rest) d n
  | down {c comp x rest d n} : IsName comp → v.child c comp = some x →
      (∀ target, (v.node x).kind ≠ .symlink target) → Walks v x rest d n →
      Walks v c (comp :: rest) d n
  | link {c comp x target y n rest d n'} : IsName comp → v.child c comp = some x →
      (v.node x).kind = .symlink target →
      Walks v (v.origin (v.parentOrRoot x) target) (splitSlash target) y n →
      Walks v y rest d n' → Walks v c (comp :: rest) d (max (n + 1) n')

variable {v : Vfs} {c x y d d' start : NodeId} {comp path target : Str} {rest comps : List Str}
  {b n n' : ℕ}

/-- Following one node without a limit. -/
def Follows (v : Vfs) (x y : NodeId) (n : ℕ) : Prop :=
  match (v.node x).kind with
  | .symlink target =>
    ∃ m, Walks v (v.origin (v.parentOrRoot x) target) (splitSlash target) y m ∧ n = m + 1
  | _ => y = x ∧ n = 0

theorem follows_of_symlink (h : (v.node x).kind = .symlink target) : Follows v x y n ↔
    ∃ m, Walks v (v.origin (v.parentOrRoot x) target) (splitSlash target) y m ∧ n = m + 1 := by
  rw [Follows, h]

theorem follows_of_not_symlink (h : ∀ target, (v.node x).kind ≠ .symlink target) :
    Follows v x y n ↔ y = x ∧ n = 0 := by
  rw [Follows]
  split
  · exact absurd ‹_› (h _)
  · rfl

theorem walks_nil_iff : Walks v c [] d n ↔ d = c ∧ n = 0 := by
  constructor
  · rintro ⟨⟩
    exact ⟨rfl, rfl⟩
  · rintro ⟨rfl, rfl⟩
    exact .nil

theorem not_isName_of_skip (h : comp = [] ∨ comp = ['.']) : ¬ IsName comp := by
  rintro ⟨h₁, h₂, -⟩
  exact h.elim h₁ h₂

theorem walks_skip_iff (h : comp = [] ∨ comp = ['.']) :
    Walks v c (comp :: rest) d n ↔ Walks v c rest d n := by
  refine ⟨fun hw ↦ ?_, .skip h⟩
  cases hw with
  | skip _ hw => exact hw
  | up => simp at h
  | down hname => exact absurd hname (not_isName_of_skip h)
  | link hname => exact absurd hname (not_isName_of_skip h)

theorem walks_up_iff :
    Walks v c (['.', '.'] :: rest) d n ↔ Walks v (v.parentOrRoot c) rest d n := by
  refine ⟨fun hw ↦ ?_, .up⟩
  cases hw with
  | skip h => simp at h
  | up hw => exact hw
  | down hname => exact absurd rfl hname.2.2
  | link hname => exact absurd rfl hname.2.2

theorem walks_name_iff (h : IsName comp) : Walks v c (comp :: rest) d n ↔
    ∃ x y m m', v.child c comp = some x ∧ Follows v x y m ∧ Walks v y rest d m' ∧
      n = max m m' := by
  constructor
  · intro hw
    cases hw with
    | skip hskip => exact absurd h (not_isName_of_skip hskip)
    | up => exact absurd rfl h.2.2
    | down _ hchild hkind hw =>
      exact ⟨_, _, 0, n, hchild, (follows_of_not_symlink hkind).2 ⟨rfl, rfl⟩, hw,
        (Nat.zero_max n).symm⟩
    | link _ hchild hkind hin hw =>
      exact ⟨_, _, _, _, hchild, (follows_of_symlink hkind).2 ⟨_, hin, rfl⟩, hw, rfl⟩
  · rintro ⟨x, y, m, m', hchild, hfollow, hw, rfl⟩
    by_cases hkind : ∃ target, (v.node x).kind = .symlink target
    · obtain ⟨target, hkind⟩ := hkind
      obtain ⟨k, hin, rfl⟩ := (follows_of_symlink hkind).1 hfollow
      exact .link h hchild hkind hin hw
    · rw [not_exists] at hkind
      obtain ⟨rfl, rfl⟩ := (follows_of_not_symlink hkind).1 hfollow
      rw [Nat.zero_max]
      exact .down h hchild hkind hw

/-! ### What the limit does -/

/-- The loop walks as far as `follow` lets it. -/
theorem walkComps_eq_some_iff {F : NodeId → Option NodeId}
    (hF : ∀ x y, F x = some y ↔ ∃ n, n ≤ b ∧ Follows v x y n) (comps : List Str) :
    ∀ c, v.walkComps F c comps = some d ↔ ∃ n, n ≤ b ∧ Walks v c comps d n := by
  induction comps with
  | nil =>
    intro c
    simp only [walkComps, walks_nil_iff, Option.some.injEq]
    exact ⟨fun h ↦ ⟨0, Nat.zero_le b, h.symm, rfl⟩, fun ⟨_, _, h, _⟩ ↦ h.symm⟩
  | cons comp rest ih =>
    intro c
    rw [walkComps]
    by_cases hskip : comp = [] ∨ comp = ['.']
    · simp only [if_pos hskip, walks_skip_iff hskip, ih]
    by_cases hup : comp = ['.', '.']
    · subst hup
      rw [if_neg hskip, if_pos rfl, ih]
      simp only [walks_up_iff]
    have hname : IsName comp := ⟨fun h ↦ hskip (.inl h), fun h ↦ hskip (.inr h), hup⟩
    rw [if_neg hskip, if_neg hup]
    -- a name nests as deep as its link or the rest of the walk, whichever is deeper
    simp only [walks_name_iff hname]
    rcases hchild : v.child c comp with - | x
    · simp
    dsimp only
    constructor
    · intro hw
      rcases hfx : F x with - | y
      · rw [hfx] at hw
        cases hw
      · rw [hfx] at hw
        obtain ⟨m, hm, hfollow⟩ := (hF x y).1 hfx
        obtain ⟨m', hm', hrest⟩ := (ih y).1 hw
        exact ⟨max m m', max_le hm hm', x, y, m, m', rfl, hfollow, hrest, rfl⟩
    · rintro ⟨n, hn, x', y, m, m', hx', hfollow, hrest, rfl⟩
      obtain rfl := Option.some.inj hx'
      have hfx := (hF x y).2 ⟨m, (le_max_left m m').trans hn, hfollow⟩
      rw [hfx]
      exact (ih y).2 ⟨m', (le_max_right m m').trans hn, hrest⟩

/-- Following with `b` levels left, given what resolving with `b` levels left does. -/
theorem follow_eq_some_iff {F : NodeId → Str → Option NodeId}
    (hF : ∀ start path d, F start path = some d ↔
      ∃ n, n < b ∧ Walks v (v.origin start path) (splitSlash path) d n) :
    v.follow F x = some y ↔ ∃ n, n ≤ b ∧ Follows v x y n := by
  rw [follow]
  split
  · rename_i target hkind
    rw [hF]
    simp only [follows_of_symlink hkind]
    constructor
    · rintro ⟨m, hm, hw⟩
      exact ⟨m + 1, hm, m, hw, rfl⟩
    · rintro ⟨-, hn, m, hw, rfl⟩
      exact ⟨m, hn, hw⟩
  · rename_i hkind
    simp only [follows_of_not_symlink hkind, Option.some.injEq]
    exact ⟨fun h ↦ ⟨0, Nat.zero_le b, h.symm, rfl⟩, fun ⟨_, _, h, _⟩ ↦ h.symm⟩

theorem resolveInner_eq_some_iff (b : ℕ) :
    ∀ start path d, v.resolveInner b start path = some d ↔
      ∃ n, n < b ∧ Walks v (v.origin start path) (splitSlash path) d n := by
  induction b with
  | zero =>
    intro start path d
    simp [resolveInner]
  | succ b ih =>
    intro start path d
    simp only [resolveInner, Nat.lt_succ_iff]
    exact walkComps_eq_some_iff (fun x y ↦ follow_eq_some_iff ih) _ _

theorem follow_resolveInner_eq_some_iff :
    v.follow (v.resolveInner b) x = some y ↔ ∃ n, n ≤ b ∧ Follows v x y n :=
  follow_eq_some_iff (resolveInner_eq_some_iff b)

/-- **`resolve` finds the end of the walk exactly when links nest at most `MAX_SYMLINK_DEPTH`
deep.** -/
theorem resolve_eq_some_iff : v.resolve start path = some d ↔
    ∃ n, n ≤ maxSymlinkDepth ∧ Walks v (v.origin start path) (splitSlash path) d n := by
  rw [resolve, resolveInner_eq_some_iff]
  simp only [Nat.lt_succ_iff]

/-- A walk has one end and one nesting. -/
theorem Walks.unique (h : Walks v c comps d n) (h' : Walks v c comps d' n') : d = d' ∧ n = n' := by
  induction h generalizing d' n' with
  | nil =>
    obtain ⟨rfl, rfl⟩ := walks_nil_iff.1 h'
    exact ⟨rfl, rfl⟩
  | skip hskip _ ih => exact ih ((walks_skip_iff hskip).1 h')
  | up _ ih => exact ih (walks_up_iff.1 h')
  | down hname hchild hkind _ ih =>
    obtain ⟨x, y, m, m', hx, hfollow, hw, rfl⟩ := (walks_name_iff hname).1 h'
    obtain rfl := Option.some.inj (hchild.symm.trans hx)
    obtain ⟨rfl, rfl⟩ := (follows_of_not_symlink hkind).1 hfollow
    rw [Nat.zero_max]
    exact ih hw
  | link hname hchild hkind _ _ ihin ih =>
    obtain ⟨x, y, m, m', hx, hfollow, hw, rfl⟩ := (walks_name_iff hname).1 h'
    obtain rfl := Option.some.inj (hchild.symm.trans hx)
    obtain ⟨k, hin, rfl⟩ := (follows_of_symlink hkind).1 hfollow
    obtain ⟨rfl, rfl⟩ := ihin hin
    obtain ⟨rfl, rfl⟩ := ih hw
    exact ⟨rfl, rfl⟩

/-! ### Counting steps and links -/

/-- What a resolution came to, the loop iterations it took and the links it followed. -/
structure Tally where
  result : Option NodeId
  steps : ℕ
  links : ℕ

section Tally

variable (v : Vfs)

/-- `walkComps`, with one step counted for each component looked at. -/
def walkTally (follow : NodeId → Tally) : NodeId → List Str → Tally
  | current, [] => ⟨some current, 0, 0⟩
  | current, comp :: rest =>
    if comp = [] ∨ comp = ['.'] then
      let t := walkTally follow current rest
      ⟨t.result, t.steps + 1, t.links⟩
    else if comp = ['.', '.'] then
      let t := walkTally follow (v.parentOrRoot current) rest
      ⟨t.result, t.steps + 1, t.links⟩
    else
      match v.child current comp with
      | none => ⟨none, 1, 0⟩
      | some child =>
        let followed := follow child
        match followed.result with
        | none => ⟨none, followed.steps + 1, followed.links⟩
        | some next =>
          let t := walkTally follow next rest
          ⟨t.result, followed.steps + t.steps + 1, followed.links + t.links⟩

/-- `follow`, with one link counted for each symlink. -/
def followTally (resolveInner : NodeId → Str → Tally) (id : NodeId) : Tally :=
  match (v.node id).kind with
  | .symlink target =>
    let t := resolveInner (v.parentOrRoot id) target
    ⟨t.result, t.steps, t.links + 1⟩
  | _ => ⟨some id, 0, 0⟩

/-- `resolveInner`, counting. -/
def resolveInnerTally : ℕ → NodeId → Str → Tally
  | 0, _, _ => ⟨none, 0, 0⟩
  | budget + 1, start, path =>
    v.walkTally (v.followTally (resolveInnerTally budget)) (v.origin start path) (splitSlash path)

/-- `resolve`, counting. -/
def resolveTally (start : NodeId) (path : Str) : Tally :=
  v.resolveInnerTally (maxSymlinkDepth + 1) start path

/-- The number of components of a link target. -/
def targetWidth (n : Node) : ℕ :=
  match n.kind with
  | .symlink target => (splitSlash target).length
  | _ => 0

/-- The largest number of components of a link target in the arena. -/
def widestTarget : ℕ := v.nodes.foldr (fun n w ↦ max (targetWidth n) w) 0

end Tally

theorem result_walkTally {F : NodeId → Tally} {G : NodeId → Option NodeId}
    (h : ∀ x, (F x).result = G x) (comps : List Str) :
    ∀ c, (v.walkTally F c comps).result = v.walkComps G c comps := by
  induction comps with
  | nil => intro c; rfl
  | cons comp rest ih =>
    intro c
    rw [walkTally, walkComps]
    split
    · exact ih c
    split
    · exact ih _
    rcases v.child c comp with - | x
    · rfl
    dsimp only
    rw [h x]
    rcases G x with - | y
    · rfl
    · exact ih y

/-- **Counting changes nothing.** -/
theorem result_resolveInnerTally (b : ℕ) :
    ∀ start path, (v.resolveInnerTally b start path).result = v.resolveInner b start path := by
  induction b with
  | zero => intro start path; rfl
  | succ b ih =>
    intro start path
    refine result_walkTally (fun x ↦ ?_) _ _
    rw [followTally, follow]
    split
    · exact ih _ _
    · rfl

theorem le_widestTarget (h : (v.node x).kind = .symlink target) :
    (splitSlash target).length ≤ v.widestTarget := by
  have hwidth : targetWidth (v.node x) = (splitSlash target).length := by rw [targetWidth, h]
  rw [← hwidth, node, widestTarget]
  clear h hwidth
  generalize v.nodes = l
  induction l generalizing x with
  | nil => exact Nat.zero_le _
  | cons m l ih =>
    rcases x with - | x
    · exact le_max_left _ _
    · exact ih.trans (le_max_right _ _)

/-- A step for each component, and what following it takes. -/
theorem walkTally_le {F : NodeId → Tally} {k : ℕ}
    (h : ∀ x, (F x).steps ≤ k ∧ (F x).links ≤ (F x).steps + 1) (comps : List Str) :
    ∀ c, (v.walkTally F c comps).steps ≤ comps.length * (k + 1) ∧
      (v.walkTally F c comps).links ≤ (v.walkTally F c comps).steps := by
  induction comps with
  | nil => intro c; exact ⟨Nat.zero_le _, le_rfl⟩
  | cons comp rest ih =>
    intro c
    rw [walkTally, List.length_cons, Nat.succ_mul]
    split
    · obtain ⟨hsteps, hlinks⟩ := ih c
      dsimp only
      omega
    split
    · obtain ⟨hsteps, hlinks⟩ := ih (v.parentOrRoot c)
      dsimp only
      omega
    rcases v.child c comp with - | x
    · dsimp only
      omega
    dsimp only
    obtain ⟨hfs, hfl⟩ := h x
    rcases (F x).result with - | y
    · dsimp only
      omega
    · obtain ⟨hsteps, hlinks⟩ := ih y
      dsimp only
      omega

/-- **The cost of a resolution** with `b` levels of links left: each level can be as wide as the
widest target, once for every component of the level above. -/
theorem resolveInnerTally_le (b : ℕ) :
    ∀ start path, (v.resolveInnerTally b start path).steps ≤
        (splitSlash path).length * ∑ i ∈ Finset.range b, v.widestTarget ^ i ∧
      (v.resolveInnerTally b start path).links ≤ (v.resolveInnerTally b start path).steps := by
  induction b with
  | zero => intro start path; exact ⟨Nat.zero_le _, le_rfl⟩
  | succ b ih =>
    intro start path
    rw [resolveInnerTally, geom_sum_succ]
    refine walkTally_le (fun x ↦ ?_) _ _
    rw [followTally]
    split
    · rename_i target hkind
      obtain ⟨hsteps, hlinks⟩ := ih (v.parentOrRoot x) target
      exact ⟨hsteps.trans (Nat.mul_le_mul_right _ (le_widestTarget hkind)), Nat.succ_le_succ hlinks⟩
    · exact ⟨Nat.zero_le _, Nat.zero_le _⟩

/-- **The link limit is a limit on nesting.** `resolve` ends at `d` exactly when the walk that
follows every link ends there with links nested at most `MAX_SYMLINK_DEPTH` deep, and fails on a
walk nested deeper. Whether it succeeds or fails, it follows no more links than it takes steps, and
the steps are at most the components of the path times the geometric sum of the widest target. -/
theorem resolve_nesting (v : Vfs) (start : NodeId) (path : Str) :
    (∀ d, v.resolve start path = some d ↔
        ∃ n, n ≤ maxSymlinkDepth ∧ Walks v (v.origin start path) (splitSlash path) d n) ∧
      (∀ d n, Walks v (v.origin start path) (splitSlash path) d n → maxSymlinkDepth < n →
        v.resolve start path = none) ∧
      (v.resolveTally start path).result = v.resolve start path ∧
      (v.resolveTally start path).links ≤ (v.resolveTally start path).steps ∧
      (v.resolveTally start path).steps ≤
        (splitSlash path).length *
          ∑ i ∈ Finset.range (maxSymlinkDepth + 1), v.widestTarget ^ i := by
  refine ⟨fun d ↦ resolve_eq_some_iff, fun d n hw hn ↦ ?_, result_resolveInnerTally _ _ _,
    (resolveInnerTally_le _ _ _).2, (resolveInnerTally_le _ _ _).1⟩
  rcases hres : v.resolve start path with - | d'
  · rfl
  · obtain ⟨n', hn', hw'⟩ := resolve_eq_some_iff.1 hres
    exact absurd ((hw.unique hw').2 ▸ hn') (Nat.not_le.2 hn)

/-- Forty-one links side by side: a link to the root, named once in each component. -/
theorem resolve_follows_forty_one_links :
    ¬ ∀ (now : Timestamp) (ops : List Op),
      GuardedRun.Admissible Op.apply Op.InRange (new now) ops →
      ∀ start < (GuardedRun.run Op.apply (new now) ops).nodes.length, ∀ path d,
        (GuardedRun.run Op.apply (new now) ops).resolve start path = some d →
          ((GuardedRun.run Op.apply (new now) ops).resolveTally start path).links ≤
            maxSymlinkDepth ∧
          ((GuardedRun.run Op.apply (new now) ops).resolveTally start path).steps ≤
            (splitSlash path).length +
              maxSymlinkDepth * (GuardedRun.run Op.apply (new now) ops).widestTarget := by
  intro h
  refine absurd (h 0 [.mutator (.addSymlink 0 0 "l".toList "/".toList)] (by decide +kernel) 0
    (by decide +kernel) (List.replicate 41 "l/".toList).flatten 0 (by decide +kernel)) ?_
  decide +kernel

end Vfs

end Mimic
