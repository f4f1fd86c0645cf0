import Mimic.Foundation.GuardedRun

/-!
# Files built by writes

A file is a list, and a write at an offset fills it with a blank up to the end of what is written,
if it is shorter, and puts the new content in its place (`pwrite`).

A sequence of writes builds a file (`build`). It also has a stream, the contents in the order of the
writes. The two are equal when each write starts where the stream has come to (`build_of_inOrder`).
-/

namespace SparseWrite

open GuardedRun

variable {α : Type*}

/-- Extend a file with blanks to a length. -/
def fillTo (blank : α) (n : ℕ) (data : List α) : List α :=
  data ++ List.replicate (n - data.length) blank

/-- Write a chunk at an offset. -/
def pwrite (blank : α) (offset : ℕ) (chunk data : List α) : List α :=
  let filled := fillTo blank (offset + chunk.length) data
  filled.take offset ++ chunk ++ filled.drop (offset + chunk.length)

/-- The file after some writes, each an offset and a chunk. -/
def build (blank : α) (data : List α) (writes : List (ℕ × List α)) : List α :=
  run (fun w d ↦ pwrite blank w.1 w.2 d) data writes

/-- The chunks in the order of the writes. -/
def stream (writes : List (ℕ × List α)) : List α := writes.flatMap Prod.snd

/-- From a stream of `n` on, each write starts where the stream has come to. -/
def InOrder (n : ℕ) : List (ℕ × List α) → Prop
  | [] => True
  | w :: ws => w.1 = n ∧ InOrder (n + w.2.length) ws

variable {blank : α} {offset n : ℕ} {chunk data : List α} {w : ℕ × List α}
  {ws : List (ℕ × List α)}

theorem fillTo_of_le (h : n ≤ data.length) : fillTo blank n data = data := by
  rw [fillTo, Nat.sub_eq_zero_of_le h, List.replicate_zero, List.append_nil]

/-- Writing at the end appends. -/
theorem pwrite_length : pwrite blank data.length chunk data = data ++ chunk := by
  have hfilled : fillTo blank (data.length + chunk.length) data =
      data ++ List.replicate chunk.length blank := by
    rw [fillTo, Nat.add_sub_cancel_left]
  rw [pwrite, hfilled]
  simp

@[simp] theorem build_nil : build blank data [] = data := rfl

@[simp] theorem build_cons : build blank data (w :: ws) =
    build blank (pwrite blank w.1 w.2 data) ws := rfl

theorem build_append (ws ws' : List (ℕ × List α)) :
    build blank data (ws ++ ws') = build blank (build blank data ws) ws' := run_append ..

@[simp] theorem stream_nil : stream ([] : List (ℕ × List α)) = [] := rfl

@[simp] theorem stream_cons : stream (w :: ws) = w.2 ++ stream ws := rfl

/-- Writes in order append. -/
theorem build_of_inOrder (h : InOrder data.length ws) :
    build blank data ws = data ++ stream ws := by
  induction ws generalizing data with
  | nil => rw [build_nil, stream_nil, List.append_nil]
  | cons w ws ih =>
    obtain ⟨hoffset, hrest⟩ := h
    rw [build_cons, stream_cons, hoffset, pwrite_length, ih, List.append_assoc]
    rwa [List.length_append]

end SparseWrite
