import Mimic.Shell.Interp

/-!
# What a run of the shell does to the session

`Ran lvl s t tr` relates the sessions before and after a run to what the run entered in the log: how
deep it went, which captures it pushed, what its substitutions spliced in, who was given which
standard input. It is a relation between two sessions and not between a call and its result, so that
runs compose (`Ran.trans`).

`Runs lvl s₀ m s` says that the program `m`, started in `s`, returns in a session that `Ran` reaches
from `s₀`, or stops with a panic. The starting point `s₀` need not be `s`: a command line drops the
captures it finds, so it is compared with a session without them.
-/

namespace Mimic

namespace Interp

open Outcomes

/-! ### Reading a log -/

namespace Event

/-- The capture an event pushed. -/
@[simp] def capture? : Event → Option Capture
  | captured c => some c
  | _ => none

/-- The bytes an event spliced in. -/
@[simp] def bytes : Event → ℕ
  | spliced n => n
  | _ => 0

/-- Whether the event is the start of a command. -/
@[simp] def isRan : Event → Bool
  | ran .. => true
  | _ => false

/-- Whether the event clears the history. -/
@[simp] def isCleared : Event → Bool
  | cleared => true
  | _ => false

/-- Whether the event only marks a place in the run of a script or of `sudo`. -/
@[simp] def isMark : Event → Bool
  | script .. => true
  | scriptLine .. => true
  | left .. => true
  | elevated .. => true
  | _ => false

/-- The nesting of the pipeline an event belongs to. -/
@[simp] def stage? : Event → Option ℕ
  | pipeline n _ => some n
  | ran n _ _ => some n
  | piped n _ => some n
  | _ => none

/-- A change of the nesting stays within the limit, and the substitutions among the levels are no
more than the levels, counted from `n` levels and `d` substitutions on. -/
@[simp] def within (n d : ℕ) : Event → Prop
  | nested n' d' => n' ≤ maxNestedCommands ∧ d' + n ≤ n' + d
  | _ => True

end Event

/-- The captures pushed. -/
def captured (tr : List Event) : List Capture := tr.filterMap Event.capture?

/-- The bytes spliced in. -/
def spliced (tr : List Event) : ℕ := (tr.map Event.bytes).sum

/-- Whether a command was started. -/
def started (tr : List Event) : Bool := tr.any Event.isRan

/-- Whether the history was cleared. -/
def forgot (tr : List Event) : Bool := tr.any Event.isCleared

/-- Every change of the nesting stays within the limit. -/
def Within (n d : ℕ) (tr : List Event) : Prop := ∀ e ∈ tr, e.within n d

/-- Every pipeline is at nesting `lvl` or deeper. -/
def Above (lvl : ℕ) (tr : List Event) : Prop := ∀ e ∈ tr, ∀ n ∈ e.stage?, lvl ≤ n

section Log

variable {a b tr : List Event} {e : Event} {n d lvl : ℕ}

@[simp] theorem captured_nil : captured [] = [] := rfl

@[simp] theorem captured_cons : captured (e :: tr) = e.capture?.toList ++ captured tr := by
  rw [captured, List.filterMap_cons]
  cases e <;> rfl

@[simp] theorem captured_append : captured (a ++ b) = captured a ++ captured b :=
  List.filterMap_append

@[simp] theorem captured_map (cs : List Capture) : captured (cs.map .captured) = cs := by
  rw [captured, List.filterMap_map]
  exact List.filterMap_some

@[simp] theorem spliced_nil : spliced [] = 0 := rfl

@[simp] theorem spliced_cons : spliced (e :: tr) = e.bytes + spliced tr := List.sum_cons

@[simp] theorem spliced_append : spliced (a ++ b) = spliced a + spliced b := by simp [spliced]

@[simp] theorem started_nil : started [] = false := rfl

@[simp] theorem started_cons : started (e :: tr) = (e.isRan || started tr) := rfl

@[simp] theorem started_append : started (a ++ b) = (started a || started b) := List.any_append

@[simp] theorem forgot_nil : forgot [] = false := rfl

@[simp] theorem forgot_cons : forgot (e :: tr) = (e.isCleared || forgot tr) := rfl

@[simp] theorem forgot_append : forgot (a ++ b) = (forgot a || forgot b) := List.any_append

@[simp] theorem within_nil : Within n d [] := fun _ h ↦ absurd h List.not_mem_nil

@[simp] theorem within_cons : Within n d (e :: tr) ↔ e.within n d ∧ Within n d tr :=
  List.forall_mem_cons

@[simp] theorem within_append : Within n d (a ++ b) ↔ Within n d a ∧ Within n d b :=
  List.forall_mem_append

/-- One more level of nesting leaves no less room. -/
theorem Within.shift {k : ℕ} (h : Within (n + 1) (d + k) tr) (hk : k ≤ 1) : Within n d tr := by
  intro e he
  have := h e he
  cases e with
  | nested n' d' => exact ⟨this.1, by have := this.2; omega⟩
  | _ => trivial

@[simp] theorem above_nil : Above lvl [] := fun _ h ↦ absurd h List.not_mem_nil

@[simp] theorem above_cons : Above lvl (e :: tr) ↔ (∀ n ∈ e.stage?, lvl ≤ n) ∧ Above lvl tr :=
  List.forall_mem_cons

@[simp] theorem above_append : Above lvl (a ++ b) ↔ Above lvl a ∧ Above lvl b :=
  List.forall_mem_append

theorem Above.mono {lvl' : ℕ} (h : Above lvl tr) (hl : lvl' ≤ lvl) : Above lvl' tr :=
  fun e he n hn ↦ hl.trans (h e he n hn)

end Log

/-! ### Standard input -/

/-- What is there to be read: a here-document body that waits for a pipeline, and for each nesting
the input of the next command there. -/
structure Feed where
  waiting : Option Str
  next : ℕ → Option Str

namespace Feed

/-- Whether an event takes the input that is there: a pipeline the waiting body, a command what its
pipeline has for it. -/
def allows (f : Feed) : Event → Prop
  | .pipeline _ body => body = f.waiting
  | .ran n _ stdin => stdin = f.next n
  | _ => True

/-- A pipeline takes the waiting body for its first command. A command leaves its output for the
next. -/
def after (f : Feed) : Event → Feed
  | .pipeline n body => ⟨none, Function.update f.next n body⟩
  | .piped n output => ⟨f.waiting, Function.update f.next n (some output)⟩
  | _ => f

/-- All the events take the input that is there for them. -/
def Allows (f : Feed) : List Event → Prop
  | [] => True
  | e :: tr => f.allows e ∧ (f.after e).Allows tr

/-- The input that is there at the end. -/
def thru (f : Feed) (tr : List Event) : Feed := tr.foldl after f

variable {f : Feed} {a b tr : List Event} {lvl : ℕ}

@[simp] theorem allows_cons {e : Event} : f.Allows (e :: tr) ↔ f.allows e ∧ (f.after e).Allows tr :=
  Iff.rfl

@[simp] theorem thru_cons {e : Event} : f.thru (e :: tr) = (f.after e).thru tr := rfl

@[simp] theorem allows_nil : f.Allows [] := trivial

@[simp] theorem thru_nil : f.thru [] = f := rfl

@[simp] theorem thru_append : f.thru (a ++ b) = (f.thru a).thru b := List.foldl_append

@[simp] theorem allows_append : f.Allows (a ++ b) ↔ f.Allows a ∧ (f.thru a).Allows b := by
  induction a generalizing f with
  | nil => simp
  | cons e a ih =>
    show (f.allows e ∧ (f.after e).Allows (a ++ b)) ↔ (f.allows e ∧ (f.after e).Allows a) ∧ _
    rw [ih, and_assoc]
    rfl

/-- Pipelines at deeper levels leave the input of a level alone. -/
theorem next_thru {n : ℕ} (h : Above lvl tr) (hn : n < lvl) : (f.thru tr).next n = f.next n := by
  induction tr generalizing f with
  | nil => rfl
  | cons e tr ih =>
    have hrest := ih (f := f.after e) fun e' he' ↦ h e' (List.mem_cons_of_mem e he')
    refine hrest.trans ?_
    have hstage : ∀ k ∈ e.stage?, n ≠ k := fun k hk ↦ by
      have := h e List.mem_cons_self k hk
      omega
    cases e with
    | pipeline k body => exact Function.update_of_ne (hstage k rfl) _ _
    | piped k output => exact Function.update_of_ne (hstage k rfl) _ _
    | _ => rfl

end Feed

/-! ### Runs -/

/-- From `s` to `t`, with these entries in the log. -/
structure Ran (lvl : ℕ) (s t : Shell) (tr : List Event) : Prop where
  trace : t.trace = s.trace ++ tr
  nesting : t.nesting = s.nesting
  substDepth : t.substDepth = s.substDepth
  within : Within s.nesting s.substDepth tr
  above : Above lvl tr
  /-- Every capture pushed is there, once. -/
  captures : t.captures.Perm (s.captures ++ captured tr)
  budget : t.substBudget + spliced tr = s.substBudget
  hostname : t.hostname = s.hostname
  pid : t.pid = s.pid
  interactive : t.interactive = s.interactive
  heredocLog : t.heredocLog = s.heredocLog
  history : t.history = if forgot tr then [] else s.history
  stdin : t.stdin = if started tr then none else s.stdin
  stdoutIsTty : t.stdoutIsTty = (started tr || s.stdoutIsTty)
  fed : ∀ next, Feed.Allows ⟨s.heredocStdin, next⟩ tr
  waiting : ∀ next, (Feed.thru ⟨s.heredocStdin, next⟩ tr).waiting = t.heredocStdin

/-- The fields `Ran` is about. -/
def Shell.tracked (s : Shell) :=
  (s.trace, s.nesting, s.substDepth, s.captures, s.substBudget, s.hostname, s.pid, s.interactive,
    s.heredocLog, s.history, s.stdin, s.stdoutIsTty, s.heredocStdin)

namespace Ran

variable {lvl : ℕ} {s t u : Shell} {a b : List Event}

/-- What the log does not speak of may change. -/
theorem quiet (h : t.tracked = s.tracked) : Ran lvl s t [] := by
  simp only [Shell.tracked, Prod.mk.injEq] at h
  obtain ⟨h₁, h₂, h₃, h₄, h₅, h₆, h₇, h₈, h₉, h₁₀, h₁₁, h₁₂, h₁₃⟩ := h
  constructor <;> simp [*]

theorem refl : Ran lvl s s [] := quiet rfl

theorem mark {e : Event} (he : e.isMark) : Ran lvl s (s.log e) [e] := by
  cases e <;> cases he <;> constructor <;> simp [Shell.log, Feed.allows, Feed.after]

theorem fed_append (h : Ran lvl s t a) (next : ℕ → Option Str)
    (hb : Feed.Allows ⟨t.heredocStdin, (Feed.thru ⟨s.heredocStdin, next⟩ a).next⟩ b) :
    Feed.Allows ⟨s.heredocStdin, next⟩ (a ++ b) := by
  rw [← h.waiting next] at hb
  exact Feed.allows_append.mpr ⟨h.fed next, hb⟩

/-- **Composition.** -/
theorem trans (h : Ran lvl s t a) (h' : Ran lvl t u b) : Ran lvl s u (a ++ b) where
  trace := by rw [h'.trace, h.trace, List.append_assoc]
  nesting := h'.nesting.trans h.nesting
  substDepth := h'.substDepth.trans h.substDepth
  within := within_append.mpr ⟨h.within, by
    have := h'.within
    rwa [h.nesting, h.substDepth] at this⟩
  above := above_append.mpr ⟨h.above, h'.above⟩
  captures := by
    rw [captured_append, ← List.append_assoc]
    exact h'.captures.trans (h.captures.append_right _)
  budget := by
    rw [spliced_append, ← h.budget, ← h'.budget]
    omega
  hostname := h'.hostname.trans h.hostname
  pid := h'.pid.trans h.pid
  interactive := h'.interactive.trans h.interactive
  heredocLog := h'.heredocLog.trans h.heredocLog
  history := by
    rw [h'.history, h.history, forgot_append]
    cases forgot a <;> cases forgot b <;> rfl
  stdin := by
    rw [h'.stdin, h.stdin, started_append]
    cases started a <;> cases started b <;> rfl
  stdoutIsTty := by
    rw [h'.stdoutIsTty, h.stdoutIsTty, started_append, Bool.or_assoc, Bool.or_left_comm]
  fed next := h.fed_append next (h'.fed _)
  waiting next := by
    have hb := h'.waiting (Feed.thru ⟨s.heredocStdin, next⟩ a).next
    rwa [← h.waiting next, ← Feed.thru_append] at hb

/-- The rest of the session may change behind a run. -/
theorem thenQuiet (h : Ran lvl s t a) (hq : u.tracked = t.tracked) : Ran lvl s u a := by
  simpa using h.trans (.quiet hq)

theorem mono {lvl' : ℕ} (h : Ran lvl s t a) (hl : lvl' ≤ lvl) : Ran lvl' s t a :=
  { h with above := h.above.mono hl }

end Ran

/-- A run that stopped, by a panic, and what holds of it until then. -/
def Stopped (s : Shell) (e : Stop) (t : Shell) : Prop :=
  e = .panic ∧ ∃ tr, t.trace = s.trace ++ tr ∧ Within s.nesting s.substDepth tr ∧
    t.substBudget + spliced tr = s.substBudget ∧ ∀ next, Feed.Allows ⟨s.heredocStdin, next⟩ tr

/-- `m`, started in `s`, runs on from `s₀`. -/
def Runs {α : Type} (lvl : ℕ) (s₀ : Shell) (m : Run α) (s : Shell) : Prop :=
  ensures (Stopped s₀) m (fun _ t ↦ ∃ tr, Ran lvl s₀ t tr) s

namespace Runs

variable {α β : Type} {lvl : ℕ} {s₀ s t : Shell} {m : Run α} {f : α → Run β} {tr : List Event}

theorem pure {x : α} (h : Ran lvl s₀ s tr) : Runs lvl s₀ (pure x) s := ⟨tr, h⟩

theorem panic (h : Ran lvl s₀ s tr) : Runs lvl s₀ (throw .panic : Run α) s :=
  ⟨rfl, tr, h.trace, h.within, h.budget, h.fed⟩

theorem bind (hm : Runs lvl s₀ m s) (hf : ∀ x t tr, Ran lvl s₀ t tr → Runs lvl s₀ (f x) t) :
    Runs lvl s₀ (m >>= f) s := by
  rw [Runs, ensures_bind]
  exact ensures_mono (fun _ _ h ↦ h) (fun x t ⟨tr, h⟩ ↦ hf x t tr h) hm

theorem map {g : α → β} (hm : Runs lvl s₀ m s) : Runs lvl s₀ (g <$> m) s := by
  rw [Runs, ensures_map]
  exact hm

/-- A run after another one. -/
theorem after (h : Ran lvl s₀ t tr) (hm : Runs lvl t m s) : Runs lvl s₀ m s := by
  refine ensures_mono ?_ (fun x u ⟨tr', h'⟩ ↦ ⟨tr ++ tr', h.trans h'⟩) hm
  rintro e u ⟨he, tr', htr, hw, hbudget, hfed⟩
  refine ⟨he, tr ++ tr', ?_, within_append.mpr ⟨h.within, ?_⟩, ?_, fun next ↦ ?_⟩
  · rw [htr, h.trace, List.append_assoc]
  · rwa [h.nesting, h.substDepth] at hw
  · rw [spliced_append, ← h.budget, ← hbudget]
    omega
  · exact h.fed_append next (hfed _)

theorem mono {lvl' : ℕ} (hm : Runs lvl s₀ m s) (hl : lvl' ≤ lvl) : Runs lvl' s₀ m s :=
  ensures_mono (fun _ _ h ↦ h) (fun _ _ ⟨tr, h⟩ ↦ ⟨tr, h.mono hl⟩) hm

/-- Run on, and then go on from there. -/
theorem step (h : Ran lvl s₀ s tr) (hm : Runs lvl s m s)
    (hf : ∀ x t tr, Ran lvl s₀ t tr → Runs lvl s₀ (f x) t) : Runs lvl s₀ (m >>= f) s :=
  bind (after h hm) hf

/-- Run deeper levels, and then go on from there. -/
theorem inner {lvl' : ℕ} (h : Ran lvl s₀ s tr) (hl : lvl ≤ lvl') (hm : Runs lvl' s m s)
    (hf : ∀ x t tr, Ran lvl' s t tr → Runs lvl s₀ (f x) t) : Runs lvl s₀ (m >>= f) s := by
  have hm' := after h (hm.mono hl)
  rw [Runs, ensures_bind, ensures]
  rw [Runs, ensures] at hm hm'
  rcases hr : m s with ⟨e | x, t⟩ <;> rw [hr] at hm hm'
  · exact hm'
  · obtain ⟨tr', h'⟩ := hm
    exact hf x t tr' h'

@[simp] theorem get_bind {f : Shell → Run β} :
    Runs lvl s₀ (get >>= f) s ↔ Runs lvl s₀ (f s) s := Iff.rfl

@[simp] theorem set_bind {f : PUnit → Run β} :
    Runs lvl s₀ (set t >>= f) s ↔ Runs lvl s₀ (f ⟨⟩) t := Iff.rfl

@[simp] theorem modify_bind {g : Shell → Shell} {f : PUnit → Run β} :
    Runs lvl s₀ (modify g >>= f) s ↔ Runs lvl s₀ (f ⟨⟩) (g s) := Iff.rfl

end Runs

end Interp

end Mimic
