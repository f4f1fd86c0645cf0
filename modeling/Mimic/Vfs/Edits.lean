import Mimic.Vfs.Accounting
import Mimic.Vfs.Depth

/-!
# What mutator calls can make of an arena

`Edits v w` says that some run of mutator calls, each with ids of the arena it is made in, takes `v`
to `w`. That is all a user of the filesystem can do to it, so whatever a run of calls keeps, every
user keeps: the arena stays a tree (`Edits.wellFormed`) and within its caps (`Edits.within`).

A user that goes through a list of things to do edits the arena if every one of them does
(`Edits.foldl`).
-/

namespace Mimic

open GuardedRun

namespace Vfs

variable {u v w : Vfs} {now : Timestamp} {id parent src : NodeId} {name : Str}

/-- Some run of mutator calls with ids in range leads from `v` to `w`. -/
def Edits (v w : Vfs) : Prop :=
  ∃ ops, Admissible Op.apply Op.InRange v ops ∧ run Op.apply v ops = w

/-- The arena keeps to its caps on nodes, on levels and on bytes. -/
structure Within (v : Vfs) : Prop where
  nodes : v.nodes.length ≤ maxVfsNodes
  depth : ∀ x k, Below v v.root x k → k ≤ maxVfsDepth
  bytes : v.resident ≤ v.contentBytes ∧ v.contentBytes ≤ maxVfsBytes

namespace Edits

theorem refl (v : Vfs) : Edits v v := ⟨[], trivial, rfl⟩

theorem trans (h : Edits u v) (h' : Edits v w) : Edits u w := by
  obtain ⟨ops, hops, rfl⟩ := h
  obtain ⟨ops', hops', rfl⟩ := h'
  exact ⟨ops ++ ops', admissible_append.mpr ⟨hops, hops'⟩, run_append⟩

/-- One operation. -/
theorem op (a : Op) (h : a.InRange v) : Edits v (a.apply v) := ⟨[a], ⟨h, trivial⟩, rfl⟩

/-- One call. -/
theorem mutator (m : Mutator) (h : ∀ id ∈ m.ids, id < v.nodes.length) : Edits v (m.apply v) :=
  op (.mutator m) h

/-! ### What is kept -/

theorem wellFormed (h : Edits v w) (hv : v.WellFormed) : w.WellFormed := by
  obtain ⟨ops, hops, rfl⟩ := h
  exact invariant_run hops (fun a _ ha hs ↦ a.wellFormed ha hs) hv

theorem length_le (h : Edits v w) (hv : v.WellFormed) : v.nodes.length ≤ w.nodes.length := by
  obtain ⟨ops, hops, rfl⟩ := h
  rw [run_ops_eq_run_calls]
  exact length_le_run_calls (admissible_callsOf hops hv)

/-- What is made of a fresh arena. -/
theorem within (h : Edits (new now) w) : w.Within := by
  obtain ⟨ops, hops, rfl⟩ := h
  obtain ⟨hnodes, hdepth⟩ : (run Op.apply (new now) ops).nodes.length ≤ maxVfsNodes ∧
      ∀ x k, Below (run Op.apply (new now) ops) (run Op.apply (new now) ops).root x k →
        k ≤ maxVfsDepth := by
    have hcalls := admissible_callsOf hops (wellFormed_new now)
    rw [run_ops_eq_run_calls]
    have hcap := invariant_run (I := fun w ↦ w.WellFormed ∧ w.Capped) hcalls
      (fun a _ ha hs ↦ ⟨(a.rewrites ha).wellFormed hs.1, (a.rewrites ha).capped hs.1 hs.2⟩)
      ⟨wellFormed_new now, capped_new now⟩
    exact ⟨hcap.2.nodes, fun _ _ hb ↦ hcap.2.depth hb⟩
  have hbytes := funded_run_calls (admissible_callsOf hops (wellFormed_new now)) (funded_new now)
  rw [← run_ops_eq_run_calls] at hbytes
  exact ⟨hnodes, hdepth, hbytes.covered, hbytes.capped⟩

/-- **The rule of loops**: a loop each of whose steps edits the arena edits it. What the steps rely
on may be carried along. -/
theorem foldl {σ α : Type} {P : σ → Prop} (vfs : σ → Vfs) {step : σ → α → σ}
    (as : List α) (hstep : ∀ s, ∀ a ∈ as, P s → Edits (vfs s) (vfs (step s a)) ∧ P (step s a))
    {s : σ} (hs : P s) : Edits (vfs s) (vfs (as.foldl step s)) ∧ P (as.foldl step s) := by
  induction as generalizing s with
  | nil => exact ⟨refl _, hs⟩
  | cons a as ih =>
    obtain ⟨hfirst, hP⟩ := hstep s a List.mem_cons_self hs
    obtain ⟨hrest, hlast⟩ := ih (fun s b hb ↦ hstep s b (List.mem_cons_of_mem a hb)) hP
    exact ⟨hfirst.trans hrest, hlast⟩

/-! ### The calls -/

theorem mkdir (h : parent < v.nodes.length) (perms uid gid : UInt32) :
    Edits v (v.mkdir now parent name perms uid gid).1 :=
  mutator (.mkdir now parent name perms uid gid) (List.forall_mem_singleton.mpr h)

theorem addFile (h : parent < v.nodes.length) (contents : Bytes) (perms uid gid : UInt32) :
    Edits v (v.addFile now parent name contents perms uid gid).1 :=
  mutator (.addFile now parent name contents perms uid gid) (List.forall_mem_singleton.mpr h)

theorem addSymlink (h : parent < v.nodes.length) (target : Str) :
    Edits v (v.addSymlink now parent name target).1 :=
  mutator (.addSymlink now parent name target) (List.forall_mem_singleton.mpr h)

theorem touch (h : parent < v.nodes.length) (uid gid : UInt32) :
    Edits v (v.touch now parent name uid gid).1 :=
  mutator (.touch now parent name uid gid) (List.forall_mem_singleton.mpr h)

theorem unlink (h : parent < v.nodes.length) : Edits v (v.unlink parent name).1 :=
  mutator (.unlink parent name) (List.forall_mem_singleton.mpr h)

theorem chmod (h : id < v.nodes.length) (perms : UInt32) : Edits v (v.chmod id perms) :=
  mutator (.chmod id perms) (List.forall_mem_singleton.mpr h)

theorem chown (h : id < v.nodes.length) (uid gid : UInt32) : Edits v (v.chown id uid gid) :=
  mutator (.chown id uid gid) (List.forall_mem_singleton.mpr h)

theorem rename (h : id < v.nodes.length) (h' : parent < v.nodes.length) :
    Edits v (v.rename id parent name).1 :=
  mutator (.rename id parent name) (List.forall_mem_cons.mpr ⟨h, List.forall_mem_singleton.mpr h'⟩)

theorem deepCopy (h : src < v.nodes.length) (h' : parent < v.nodes.length) :
    Edits v (v.deepCopy now src parent name).1 :=
  op (.deepCopy now src parent name)
    (List.forall_mem_cons.mpr ⟨h, List.forall_mem_singleton.mpr h'⟩)

theorem mkdirP (path : Str) (perms uid gid : UInt32) :
    Edits v (v.mkdirP now path perms uid gid).1 :=
  op (.mkdirP now path perms uid gid) fun _ hid ↦ absurd hid List.not_mem_nil

theorem writeFile (h : id < v.nodes.length) (data : Bytes) (append : Bool) :
    Edits v (v.writeFile now id data append).1 :=
  mutator (.writeFile now id data append) (List.forall_mem_singleton.mpr h)

end Edits

/-- `add_file` returns a node of the arena it leaves behind. -/
theorem addFile_snd_lt (hv : v.WellFormed) (hp : parent < v.nodes.length) {contents : Bytes}
    {perms uid gid : UInt32} :
    (v.addFile now parent name contents perms uid gid).2 <
      (v.addFile now parent name contents perms uid gid).1.nodes.length := by
  have hedit : v.Edits (v.addFile now parent name contents perms uid gid).1 := .addFile hp _ _ _ _
  have hlen := hedit.length_le hv
  rw [Vfs.addFile] at hlen ⊢
  dsimp only at hlen ⊢
  split at hlen <;> rename_i hcap
  · rw [if_pos hcap]
    cases hchild : v.child parent name with
    | none => exact hp
    | some existing => exact hv.entry_lt hchild
  · rw [if_neg hcap]
    cases hchild : v.child parent name with
    | some existing =>
      rw [hchild] at hlen
      exact (hv.entry_lt hchild).trans_le hlen
    | none =>
      dsimp only
      rw [insert_eq]
      split
      · split
        · exact hp
        · exact hp
      · split
        · rw [length_graft]
          exact Nat.lt_succ_self _
        · exact length_lt_length_graft

end Vfs

end Mimic
