import Mathlib.Tactic

/-!
# Fixed-width records

A record is a list of a fixed length in which fields stand at fixed places. `put` writes a field
into a record and `field` reads one. What `field` reads behind a `put` is decided by where the two
stand: the new content in its place (`field_put_self`), and what was there anywhere else
(`field_put_of_le`, `field_put_of_ge`).

A whole record is laid out slot by slot (`layOut`), and reading where a slot is gives its text as
long as the other slots stand apart from it (`field_layOut`).
-/

namespace Records

variable {α : Type*} {record content content' : List α} {start start' width : ℕ}

/-- Write `content` into a record from a place on. -/
def put (record : List α) (start : ℕ) (content : List α) : List α :=
  record.take start ++ content ++ record.drop (start + content.length)

/-- The field of a width at a place. -/
def field (record : List α) (start width : ℕ) : List α := (record.drop start).take width

@[simp] theorem length_put (h : start + content.length ≤ record.length) :
    (put record start content).length = record.length := by
  rw [put, List.length_append, List.length_append, List.length_take, List.length_drop]
  omega

/-- **A field that stands before what is written.** -/
theorem field_put_of_le (h : start + width ≤ start') (hrecord : start' ≤ record.length) :
    field (put record start' content) start width = field record start width := by
  have htake : (record.take start').length = start' := List.length_take_of_le hrecord
  rw [field, field, put, List.append_assoc, List.drop_append_of_le_length (by omega),
    List.take_append_of_le_length (by rw [List.length_drop]; omega), List.drop_take, List.take_take,
    Nat.min_eq_left (by omega)]

/-- **A field that stands behind what is written.** -/
theorem field_put_of_ge (h : start' + content.length ≤ start) (hrecord : start' ≤ record.length) :
    field (put record start' content) start width = field record start width := by
  have htake : (record.take start').length = start' := List.length_take_of_le hrecord
  have hdrop : start - (record.take start' ++ content).length =
      start - (start' + content.length) := by rw [List.length_append, htake]
  rw [field, field, put, List.drop_append, List.drop_eq_nil_of_le
    (by rw [List.length_append, htake]; exact h), List.nil_append, hdrop, List.drop_drop]
  congr 2
  omega

/-- **The field that is written.** What is shorter than it leaves the end of the field as it was. -/
theorem field_put_self (h : content.length ≤ width) (hrecord : start ≤ record.length) :
    field (put record start content) start width =
      content ++ field record (start + content.length) (width - content.length) := by
  have htake : (record.take start).length = start := List.length_take_of_le hrecord
  rw [field, field, put, List.append_assoc, List.drop_append_of_le_length (by omega),
    List.drop_eq_nil_of_le htake.le, List.nil_append, List.take_append, List.take_of_length_le h]

/-- One place of a record. -/
theorem head?_field (record : List α) (start : ℕ) :
    (field record start 1).head? = record[start]? := by
  rw [field, List.head?_take, if_neg one_ne_zero, List.head?_drop]

/-- What a list has behind a front. -/
theorem field_append (front content rest : List α) :
    field (front ++ (content ++ rest)) front.length content.length = content := by
  rw [field, List.drop_left, List.take_left]

theorem field_append_of_le (h : start + width ≤ record.length) (rest : List α) :
    field (record ++ rest) start width = field record start width := by
  rw [field, field, List.drop_append_of_le_length (by omega),
    List.take_append_of_le_length (by rw [List.length_drop]; omega)]

/-! ### Laying out a record -/

/-- A place in a record and what to write there. -/
structure Slot (α : Type*) where
  start : ℕ
  width : ℕ
  content : List α

namespace Slot

/-- The content, cut to the width of the slot. -/
def text (slot : Slot α) : List α := slot.content.take slot.width

theorem length_text_le (slot : Slot α) : slot.text.length ≤ slot.width := List.length_take_le ..

/-- The slot ends before a field, or begins behind it. -/
def Apart (slot : Slot α) (start width : ℕ) : Prop :=
  slot.start + slot.width ≤ start ∨ start + width ≤ slot.start

end Slot

variable {slot : Slot α} {slots : List (Slot α)}

/-- Write slots one after the other. -/
def layOut (record : List α) (slots : List (Slot α)) : List α :=
  slots.foldl (fun record slot ↦ put record slot.start slot.text) record

theorem layOut_snoc (record : List α) (slots : List (Slot α)) (slot : Slot α) :
    layOut record (slots ++ [slot]) = put (layOut record slots) slot.start slot.text :=
  List.foldl_concat ..

theorem length_layOut (hin : ∀ slot ∈ slots, slot.start + slot.width ≤ record.length) :
    (layOut record slots).length = record.length := by
  induction slots using List.reverseRecOn with
  | nil => rfl
  | append_singleton slots slot ih =>
    obtain ⟨hslots, hslot⟩ := List.forall_mem_append.mp hin
    have hlen := ih hslots
    have hfit := hslot slot (List.mem_singleton_self slot)
    have htext := slot.length_text_le
    rw [layOut_snoc, length_put (by omega), hlen]

/-- **A field that no slot touches.** -/
theorem field_layOut_of_apart (hin : ∀ slot ∈ slots, slot.start + slot.width ≤ record.length)
    (hapart : ∀ slot ∈ slots,
      slot.start + slot.text.length ≤ start ∨ start + width ≤ slot.start) :
    field (layOut record slots) start width = field record start width := by
  induction slots using List.reverseRecOn with
  | nil => rfl
  | append_singleton slots slot ih =>
    obtain ⟨hslots, hslot⟩ := List.forall_mem_append.mp hin
    obtain ⟨hothers, hself⟩ := List.forall_mem_append.mp hapart
    have hlen := length_layOut hslots
    have hfit := hslot slot (List.mem_singleton_self slot)
    rw [layOut_snoc, ← ih hslots hothers]
    rcases hself slot (List.mem_singleton_self slot) with hle | hge
    · exact field_put_of_ge hle (by omega)
    · exact field_put_of_le hge (by omega)

/-- **The field of a slot**, which may go on behind it. -/
theorem field_layOut (hin : ∀ slot ∈ slots, slot.start + slot.width ≤ record.length)
    (hslot : slot ∈ slots) (hle : slot.width ≤ width)
    (hapart : ∀ other ∈ slots, other = slot ∨ other.Apart slot.start width) :
    field (layOut record slots) slot.start width = slot.text ++
      field record (slot.start + slot.text.length) (width - slot.text.length) := by
  have htext := slot.length_text_le
  have hfit := hin slot hslot
  induction slots using List.reverseRecOn with
  | nil => cases hslot
  | append_singleton slots last ih =>
    obtain ⟨hslots, hlast⟩ := List.forall_mem_append.mp hin
    obtain ⟨hothers, hself⟩ := List.forall_mem_append.mp hapart
    have hlen := length_layOut hslots
    have hlastfit := hlast last (List.mem_singleton_self last)
    rw [layOut_snoc]
    by_cases hsame : last = slot
    · subst hsame
      rw [field_put_self (htext.trans hle) (by omega)]
      refine congrArg _ (field_layOut_of_apart hslots fun other hother ↦ ?_)
      have := other.length_text_le
      -- what the slot itself has written before ends where its text ends
      rcases hothers other hother with rfl | hout | hout
      · exact .inl le_rfl
      · exact .inl (by omega)
      · exact .inr (by omega)
    · have hmem : slot ∈ slots := (List.mem_append.mp hslot).resolve_right fun hmem ↦
        hsame (List.mem_singleton.mp hmem).symm
      have := last.length_text_le
      rw [← ih hslots hmem hothers]
      rcases (hself last (List.mem_singleton_self last)).resolve_left hsame with hout | hout
      · exact field_put_of_ge (by omega) (by omega)
      · exact field_put_of_le hout (by omega)

end Records
