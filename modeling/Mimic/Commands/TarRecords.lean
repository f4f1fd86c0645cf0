import Mimic.Commands.Tar
import Mimic.Shell.ArithTokens

/-!
# Records of an archive

What `tar_write_header` writes of a member, `tar_parse` reads, as long as it fits into the fields of
a record (`readHeader_header`): a name that can be split across two of them, a link target, and
numbers of as many octal digits as there are places for. The two numbers that may be larger, the
modification time and the checksum, are not needed to read the others.

An archive is one such record a member, with what the member contains behind it up to a whole number
of records. It is read member by member, each from where the one before ends (`tarParse_finish`).
-/

namespace Mimic

namespace Interp

namespace Tar

open Arith (Numeral)
open Records
open Scp (parseUnsigned)

variable {name link text : Str} {metadata : Metadata} {typeflag : UInt8}
  {size offset n width k start : ℕ} {radix bits : ℕ} {bytes data : Bytes}

/-! ### Texts -/

/-- The text fits into a field of the width: it has no NUL and not too many bytes. -/
def FitsField (width : ℕ) (text : Str) : Prop := '\x00' ∉ text ∧ Text.byteLen text ≤ width

instance (width : ℕ) (text : Str) : Decidable (FitsField width text) :=
  inferInstanceAs (Decidable ('\x00' ∉ text ∧ Text.byteLen text ≤ width))

/-- What is cut to the width of a field is all of a text that fits. -/
theorem FitsField.take (h : FitsField width text) :
    (Text.toUtf8 text).take width = Text.toUtf8 text :=
  List.take_of_length_le (by rw [Text.length_toUtf8]; exact h.2)

/-- **A text is read up to the first zero.** -/
theorem tarReadStr_zeros (h : '\x00' ∉ text) (k : ℕ) :
    tarReadStr (Text.toUtf8 text ++ List.replicate k 0) = text := by
  have hbytes : ∀ b ∈ Text.toUtf8 text, decide (b ≠ 0) = true := fun b hb ↦
    decide_eq_true fun hzero ↦ h (Text.zero_mem_toUtf8_iff.mp (hzero ▸ hb))
  have hzeros : (List.replicate k (0 : UInt8)).takeWhile (fun b ↦ decide (b ≠ 0)) = [] := by
    cases k <;> rfl
  rw [tarReadStr, List.takeWhile_append_of_pos hbytes, hzeros, List.append_nil,
    Text.fromUtf8Lossy_toUtf8]

/-! ### Numbers -/

theorem parseUnsigned_of_numeral (h : Numeral radix text n) (hplus : text.head? ≠ some '+')
    (hlt : n < 2 ^ bits) : parseUnsigned radix bits text = some n := by
  obtain ⟨hne, hvalue⟩ := Arith.numeral_iff.mp h
  rw [parseUnsigned, if_neg hplus, if_neg hne, hvalue]
  exact Option.filter_eq_some_iff.mpr ⟨rfl, decide_eq_true hlt⟩

theorem isDigit_of_mem_octal {c : Char} (h : c ∈ octal width n) : c.isDigit := by
  rcases List.mem_append.mp h with h | h
  · rw [List.eq_of_mem_replicate h]
    decide
  · exact Nat.isDigit_of_mem_toDigits (by decide) (by decide) h

theorem numeral_octal (width n : ℕ) : Numeral 8 (octal width n) n :=
  (Arith.numeral_toDigits (by decide) (by decide) n).zeros (by decide) _

/-- A number that has the places it needs fills them. -/
theorem length_octal (hwidth : 0 < width) (hlt : n < 8 ^ width) :
    (octal width n).length = width := by
  have hle := (Nat.length_toDigits_le_iff (by decide) hwidth).mpr hlt
  rw [octal, List.length_append, List.length_replicate]
  omega

theorem length_toUtf8_digits (h : ∀ c ∈ text, c.isDigit) :
    (Text.toUtf8 text).length = text.length := by
  rw [Text.length_toUtf8, Text.byteLen, List.map_congr_left (g := fun _ ↦ 1), List.map_const',
    List.sum_replicate, smul_eq_mul, mul_one]
  intro c hc
  have hdigit := h c hc
  simp only [Char.isDigit, Bool.and_eq_true, decide_eq_true_eq] at hdigit
  rw [Char.utf8Size_eq_one_iff, UInt32.le_iff_toNat_le]
  exact (UInt32.le_iff_toNat_le.mp hdigit.2).trans (by decide)

/-- Padding behind digits is taken off. -/
theorem trimPadding_digits (hne : text ≠ []) (h : ∀ c ∈ text, c.isDigit) (k : ℕ) :
    trimPadding (text ++ List.replicate k '\x00') = text := by
  have hdigit : ∀ c ∈ text, decide (c = '\x00' ∨ c = ' ') = false := fun c hc ↦ by
    refine decide_eq_false ?_
    rintro (rfl | rfl) <;> exact absurd (h _ hc) (by decide)
  have hfront : ∀ rest, (text ++ rest).dropWhile (fun c ↦ decide (c = '\x00' ∨ c = ' ')) =
      text ++ rest := fun rest ↦ by
    obtain ⟨c, text, rfl⟩ := List.exists_cons_of_ne_nil hne
    rw [List.cons_append, List.dropWhile_cons_of_neg]
    rw [hdigit c List.mem_cons_self]
    exact Bool.false_ne_true
  have hzeros : ∀ c ∈ List.replicate k '\x00', decide (c = '\x00' ∨ c = ' ') = true := fun c hc ↦
    decide_eq_true (.inl (List.eq_of_mem_replicate hc))
  have hback : text.reverse.dropWhile (fun c ↦ decide (c = '\x00' ∨ c = ' ')) = text.reverse := by
    obtain ⟨c, rest, hc⟩ := List.exists_cons_of_ne_nil (List.reverse_ne_nil_iff.mpr hne)
    rw [hc, List.dropWhile_cons_of_neg]
    rw [hdigit c (List.mem_reverse.mp (hc ▸ List.mem_cons_self))]
    exact Bool.false_ne_true
  rw [trimPadding, hfront, List.reverse_append, List.reverse_replicate,
    List.dropWhile_append_of_pos hzeros, hback, List.reverse_reverse]

/-- **A number is read back** where it has the places it needs. -/
theorem tarReadOctal_octal (hlt : n < 2 ^ 64) (width k : ℕ) :
    tarReadOctal (Text.toUtf8 (octal width n) ++ List.replicate k 0) = n := by
  have hzeros : List.replicate k (0 : UInt8) = Text.toUtf8 (List.replicate k '\x00') := by
    induction k with
    | zero => rfl
    | succ k ih =>
      rw [List.replicate_succ, List.replicate_succ, Text.toUtf8_cons, ih]
      rfl
  have hnum := numeral_octal width n
  have hplus : (octal width n).head? ≠ some '+' := fun hhead ↦
    absurd (isDigit_of_mem_octal (List.mem_of_mem_head? hhead)) (by decide)
  rw [tarReadOctal, hzeros, ← Text.toUtf8_append, Text.fromUtf8Lossy_toUtf8,
    trimPadding_digits (Arith.numeral_iff.mp hnum).1 (fun c ↦ isDigit_of_mem_octal),
    parseUnsigned_of_numeral hnum hplus hlt, Option.getD_some]

/-! ### The header -/

/-- What stands where in a header record. The checksum is blank. -/
def slots (name link : Str) (metadata : Metadata) (typeflag : UInt8) (size : ℕ) :
    List (Slot UInt8) :=
  [⟨0, 100, Text.toUtf8 (tarSplitName name).2⟩,
    ⟨100, 7, Text.toUtf8 (octal 7 (metadata.mode &&& 0o7777).toNat)⟩,
    ⟨108, 7, Text.toUtf8 (octal 7 metadata.uid.toNat)⟩,
    ⟨116, 7, Text.toUtf8 (octal 7 metadata.gid.toNat)⟩,
    ⟨124, 11, Text.toUtf8 (octal 11 size)⟩,
    ⟨136, 11, Text.toUtf8 (octal 11 metadata.mtime.toNat)⟩,
    ⟨148, 8, List.replicate 8 32⟩,
    ⟨156, 1, [typeflag]⟩,
    ⟨157, 100, Text.toUtf8 link⟩,
    ⟨257, 6, magic ++ [0]⟩,
    ⟨263, 2, [48, 48]⟩,
    ⟨265, 32, Text.toUtf8 (Listing.uidName metadata.uid)⟩,
    ⟨297, 32, Text.toUtf8 (Listing.gidName metadata.gid)⟩,
    ⟨345, 155, Text.toUtf8 (tarSplitName name).1⟩]

/-- The checksum. -/
def checksum (name link : Str) (metadata : Metadata) (typeflag : UInt8) (size : ℕ) : Slot UInt8 :=
  ⟨148, 8, Text.toUtf8 (octal 6
    ((headerFields name link metadata typeflag size).map UInt8.toNat).sum) ++ [0, 32]⟩

theorem headerFields_eq : headerFields name link metadata typeflag size =
    layOut (List.replicate tarBlock 0) (slots name link metadata typeflag size) := rfl

/-- The places and the widths of the slots. -/
def places : List (ℕ × ℕ) :=
  [(0, 100), (100, 7), (108, 7), (116, 7), (124, 11), (136, 11), (148, 8), (156, 1), (157, 100),
    (257, 6), (263, 2), (265, 32), (297, 32), (345, 155)]

theorem places_eq : (slots name link metadata typeflag size).map
    (fun slot ↦ (slot.start, slot.width)) = places := rfl

theorem forall_mem_slots {P : ℕ → ℕ → Prop} (h : ∀ place ∈ places, P place.1 place.2) :
    ∀ slot ∈ slots name link metadata typeflag size, P slot.start slot.width :=
  fun slot hslot ↦ h (slot.start, slot.width) (places_eq ▸ List.mem_map_of_mem hslot)

theorem length_headerFields :
    (headerFields name link metadata typeflag size).length = tarBlock := by
  rw [headerFields_eq, length_layOut]
  · exact List.length_replicate
  · rw [List.length_replicate]
    exact forall_mem_slots (P := fun start width ↦ start + width ≤ tarBlock) (by decide)

/-- The bytes of a record add up to a number of six octal digits. -/
theorem sum_headerFields_lt :
    ((headerFields name link metadata typeflag size).map UInt8.toNat).sum < 8 ^ 6 := by
  have hle := List.sum_le_card_nsmul
    ((headerFields name link metadata typeflag size).map UInt8.toNat) 255 fun n hn ↦ by
      obtain ⟨b, -, rfl⟩ := List.mem_map.mp hn
      exact Nat.le_of_lt_succ b.toNat_lt
  rw [List.length_map, length_headerFields, smul_eq_mul] at hle
  exact hle.trans_lt (by decide)

theorem header_eq : header name link metadata typeflag size =
    layOut (List.replicate tarBlock 0)
      (slots name link metadata typeflag size ++ [checksum name link metadata typeflag size]) := by
  have hlen : (checksum name link metadata typeflag size).content.length =
      (checksum name link metadata typeflag size).width := by
    rw [checksum, List.length_append, length_toUtf8_digits fun c ↦ isDigit_of_mem_octal,
      length_octal (by decide) sum_headerFields_lt]
    rfl
  rw [layOut_snoc, ← headerFields_eq, Slot.text, List.take_of_length_le hlen.le]
  rfl

theorem slots_inside : ∀ slot ∈ slots name link metadata typeflag size ++
    [checksum name link metadata typeflag size],
      slot.start + slot.width ≤ (List.replicate tarBlock (0 : UInt8)).length := by
  rw [List.length_replicate, List.forall_mem_append, List.forall_mem_singleton]
  exact ⟨forall_mem_slots (P := fun start width ↦ start + width ≤ tarBlock) (by decide),
    show 148 + 8 ≤ tarBlock by decide⟩

theorem length_header : (header name link metadata typeflag size).length = tarBlock := by
  rw [header_eq, length_layOut slots_inside, List.length_replicate]

theorem field_zeros (h : start + width ≤ n) :
    field (List.replicate n (0 : UInt8)) start width = List.replicate width 0 := by
  rw [field, List.drop_replicate, List.take_replicate, Nat.min_eq_left (by omega)]

/-- **A field of a header record** holds the text of its slot, and zeros behind it. -/
theorem field_header {content : Bytes} {slotWidth : ℕ}
    (hslot : ⟨start, slotWidth, content⟩ ∈ slots name link metadata typeflag size)
    (hle : slotWidth ≤ width) (hin : start + width ≤ tarBlock)
    (hplaces : ∀ place ∈ places,
      place.1 = start ∨ place.1 + place.2 ≤ start ∨ start + width ≤ place.1)
    (hchecksum : 148 + 8 ≤ start ∨ start + width ≤ 148) :
    ∃ k, field (header name link metadata typeflag size) start width =
      content.take slotWidth ++ List.replicate k 0 := by
  have hnodup : ((slots name link metadata typeflag size).map Slot.start).Nodup := by
    rw [show (slots name link metadata typeflag size).map Slot.start = places.map Prod.fst from rfl]
    decide
  have hapart : ∀ other ∈ slots name link metadata typeflag size,
      other = ⟨start, slotWidth, content⟩ ∨ other.Apart start width := fun other hother ↦
    (forall_mem_slots (P := fun start' width' ↦
      start' = start ∨ start' + width' ≤ start ∨ start + width ≤ start') hplaces other hother).imp
        (fun heq ↦ List.inj_on_of_nodup_map hnodup hother hslot heq) id
  have htext := Slot.length_text_le (⟨start, slotWidth, content⟩ : Slot UInt8)
  have hfield := field_layOut slots_inside
    (List.mem_append_left [checksum name link metadata typeflag size] hslot) hle
    (List.forall_mem_append.mpr ⟨hapart, List.forall_mem_singleton.mpr (.inr hchecksum)⟩)
  rw [header_eq, hfield, field_zeros (by dsimp only at htext ⊢; omega)]
  exact ⟨_, rfl⟩

/-! ### Names -/

/-- The name fits into a record: as it is, or split at a slash. -/
def FitsName (name : Str) : Prop :=
  '\x00' ∉ name ∧ (Text.byteLen name ≤ 100 ∨
    ∃ cut ∈ slashCuts name, Text.byteLen cut.1 ≤ 155 ∧ Text.byteLen cut.2 ≤ 100)

instance (name : Str) : Decidable (FitsName name) :=
  inferInstanceAs (Decidable ('\x00' ∉ name ∧ (Text.byteLen name ≤ 100 ∨
    ∃ cut ∈ slashCuts name, Text.byteLen cut.1 ≤ 155 ∧ Text.byteLen cut.2 ≤ 100)))

theorem eq_of_mem_slashCuts {cut : Str × Str} (h : cut ∈ slashCuts name) :
    name = cut.1 ++ '/' :: cut.2 := by
  induction name generalizing cut with
  | nil => cases h
  | cons c name ih =>
    have hlater : cut ∈ (slashCuts name).map (fun cut ↦ (c :: cut.1, cut.2)) →
        c :: name = cut.1 ++ '/' :: cut.2 := fun hcut ↦ by
      obtain ⟨later, hmem, rfl⟩ := List.mem_map.mp hcut
      exact congrArg (c :: ·) (ih hmem)
    rw [slashCuts] at h
    split at h
    · rename_i hc
      rcases List.mem_cons.mp h with rfl | h
      · rw [hc]
        rfl
      · exact hlater h
    · exact hlater h

/-- The two parts of a name that fits. -/
theorem tarSplitName_spec (h : FitsName name) (hhead : name.head? ≠ some '/') :
    Text.byteLen (tarSplitName name).1 ≤ 155 ∧ Text.byteLen (tarSplitName name).2 ≤ 100 ∧
      ((tarSplitName name).1 = [] ∧ (tarSplitName name).2 = name ∨
        (tarSplitName name).1 ≠ [] ∧
          name = (tarSplitName name).1 ++ '/' :: (tarSplitName name).2) := by
  rw [tarSplitName]
  split
  · rename_i hlen
    exact ⟨Nat.zero_le _, hlen, .inl ⟨rfl, rfl⟩⟩
  rename_i hlong
  obtain ⟨cut, hmem, hcut⟩ := h.2.resolve_left hlong
  dsimp only
  cases hfind : (slashCuts name).find? fun cut ↦
      decide (Text.byteLen cut.1 ≤ 155 ∧ Text.byteLen cut.2 ≤ 100) with
  | none => exact absurd (decide_eq_true hcut) (List.find?_eq_none.mp hfind cut hmem)
  | some cut =>
    have hname := eq_of_mem_slashCuts (List.mem_of_find?_eq_some hfind)
    have hfits := List.find?_some hfind
    rw [decide_eq_true_eq] at hfits
    obtain ⟨hfront, hstem⟩ := hfits
    refine ⟨hfront, hstem, .inr ⟨fun hnil ↦ ?_, hname⟩⟩
    -- a name that starts with its first slash is absolute
    rw [Option.getD_some] at hnil
    rw [hname, hnil] at hhead
    exact hhead rfl

/-! ### Members -/

/-- What an archive has of a node. -/
structure Member where
  name : Str
  link : Str
  metadata : Metadata
  typeflag : UInt8
  contents : Bytes

/-- What a member needs to survive its record. -/
structure Member.Fits (m : Member) : Prop where
  name : FitsName m.name
  relative : m.name.head? ≠ some '/'
  link : FitsField 100 m.link
  uid : m.metadata.uid.toNat < 8 ^ 7
  gid : m.metadata.gid.toNat < 8 ^ 7
  size : m.contents.length < 8 ^ 11

/-- What is read of a member: all that an extraction uses. -/
structure Describes (data : Bytes) (entry : TarEntry) (m : Member) : Prop where
  name : entry.name = m.name
  link : entry.link = m.link
  mode : entry.mode = m.metadata.mode &&& 0o7777
  uid : entry.uid = m.metadata.uid
  gid : entry.gid = m.metadata.gid
  typeflag : entry.typeflag = m.typeflag
  size : entry.size = m.contents.length
  body : body data entry = m.contents

namespace Member

variable {m : Member}

/-- The header record of a member. -/
def header (m : Member) : Bytes :=
  Tar.header m.name m.link m.metadata m.typeflag m.contents.length

/-- A member in an archive: its header record, its contents and padding. -/
def encode (m : Member) : Bytes :=
  m.header ++ m.contents ++
    List.replicate (nextMultipleOf m.contents.length tarBlock - m.contents.length) 0

end Member

/-- **A text field is read back.** -/
theorem tarReadStr_header {slotWidth : ℕ} (htext : FitsField slotWidth text)
    (hslot : ⟨start, slotWidth, Text.toUtf8 text⟩ ∈ slots name link metadata typeflag size)
    (hin : start + slotWidth ≤ tarBlock)
    (hplaces : ∀ place ∈ places,
      place.1 = start ∨ place.1 + place.2 ≤ start ∨ start + slotWidth ≤ place.1)
    (hchecksum : 148 + 8 ≤ start ∨ start + slotWidth ≤ 148) :
    tarReadStr (field (header name link metadata typeflag size) start slotWidth) = text := by
  obtain ⟨k, hk⟩ := field_header hslot le_rfl hin hplaces hchecksum
  rw [hk, htext.take, tarReadStr_zeros htext.1]

/-- **A number field is read back.** -/
theorem tarReadOctal_header {digits : ℕ} (hpos : 0 < digits) (hlt : n < 8 ^ digits)
    (hword : n < 2 ^ 64)
    (hslot : ⟨start, digits, Text.toUtf8 (octal digits n)⟩ ∈
      slots name link metadata typeflag size)
    (hin : start + (digits + 1) ≤ tarBlock)
    (hplaces : ∀ place ∈ places,
      place.1 = start ∨ place.1 + place.2 ≤ start ∨ start + (digits + 1) ≤ place.1)
    (hchecksum : 148 + 8 ≤ start ∨ start + (digits + 1) ≤ 148) :
    tarReadOctal (field (header name link metadata typeflag size) start (digits + 1)) = n := by
  have hlen : (Text.toUtf8 (octal digits n)).length = digits := by
    rw [length_toUtf8_digits fun c ↦ isDigit_of_mem_octal, length_octal hpos hlt]
  obtain ⟨k, hk⟩ := field_header hslot (Nat.le_succ digits) hin hplaces hchecksum
  rw [hk, List.take_of_length_le hlen.le, tarReadOctal_octal hword]

/-- **A header record is read back.** -/
theorem readHeader_header {m : Member} (h : m.Fits) (offset : ℕ) :
    ∃ mtime, readHeader m.header offset =
      { name := m.name
        mode := m.metadata.mode &&& 0o7777
        uid := m.metadata.uid
        gid := m.metadata.gid
        size := m.contents.length
        mtime := mtime
        typeflag := m.typeflag
        link := m.link
        offset := offset } := by
  obtain ⟨hfront, hstem, hname⟩ := tarSplitName_spec h.name h.relative
  have hnul : '\x00' ∉ (tarSplitName m.name).1 ∧ '\x00' ∉ (tarSplitName m.name).2 := by
    rcases hname with ⟨hnil, hsame⟩ | ⟨-, hparts⟩
    · rw [hnil, hsame]
      exact ⟨List.not_mem_nil, h.name.1⟩
    · have hmem := h.name.1
      rw [hparts, List.mem_append, List.mem_cons, not_or, not_or] at hmem
      exact ⟨hmem.1, hmem.2.2⟩
  have hmode : (m.metadata.mode &&& 0o7777).toNat < 8 ^ 7 := by
    rw [UInt32.toNat_and]
    exact Nat.and_le_right.trans_lt (by decide)
  have hsplit : (if tarReadStr (field m.header 345 155) = [] then tarReadStr (field m.header 0 100)
      else tarReadStr (field m.header 345 155) ++ '/' :: tarReadStr (field m.header 0 100)) =
      m.name := by
    rw [Member.header, tarReadStr_header ⟨hnul.1, hfront⟩ (by simp [slots]) (by decide) (by decide)
      (by decide), tarReadStr_header ⟨hnul.2, hstem⟩ (by simp [slots]) (by decide) (by decide)
      (by decide)]
    rcases hname with ⟨hnil, hsame⟩ | ⟨hne, hparts⟩
    · rw [if_pos hnil, hsame]
    · rw [if_neg hne, ← hparts]
  have hmode' : UInt32.ofNat (tarReadOctal (field m.header 100 8)) &&& 0o7777 =
      m.metadata.mode &&& 0o7777 := by
    rw [Member.header, tarReadOctal_header (by decide) hmode (hmode.trans (by decide))
      (by simp [slots]) (by decide) (by decide) (by decide), UInt32.ofNat_toNat, UInt32.and_assoc,
      UInt32.and_self]
  have huid : UInt32.ofNat (tarReadOctal (field m.header 108 8)) = m.metadata.uid := by
    rw [Member.header, tarReadOctal_header (by decide) h.uid (h.uid.trans (by decide))
      (by simp [slots]) (by decide) (by decide) (by decide), UInt32.ofNat_toNat]
  have hgid : UInt32.ofNat (tarReadOctal (field m.header 116 8)) = m.metadata.gid := by
    rw [Member.header, tarReadOctal_header (by decide) h.gid (h.gid.trans (by decide))
      (by simp [slots]) (by decide) (by decide) (by decide), UInt32.ofNat_toNat]
  have hsize : tarReadOctal (field m.header 124 12) = m.contents.length := by
    rw [Member.header, tarReadOctal_header (by decide) h.size (h.size.trans (by decide))
      (by simp [slots]) (by decide) (by decide) (by decide)]
  have hlink : tarReadStr (field m.header 157 100) = m.link := by
    rw [Member.header, tarReadStr_header h.link (by simp [slots]) (by decide) (by decide)
      (by decide)]
  have htype : m.header.getD 156 0 = m.typeflag := by
    have hslot : (⟨156, 1, [m.typeflag]⟩ : Slot UInt8) ∈
        slots m.name m.link m.metadata m.typeflag m.contents.length := by simp [slots]
    obtain ⟨k, hk⟩ := field_header hslot le_rfl (by decide) (by decide) (by decide)
    rw [List.getD_eq_getElem?_getD, ← head?_field, Member.header, hk]
    rfl
  refine ⟨tarReadOctal (field m.header 136 12), ?_⟩
  rw [readHeader, hsplit, hmode', huid, hgid, hsize, hlink, htype]

/-! ### A whole archive -/

theorem le_nextMultipleOf (n : ℕ) : n ≤ nextMultipleOf n tarBlock := by
  rw [nextMultipleOf, tarBlock]
  omega

@[simp] theorem length_encode (m : Member) :
    m.encode.length = tarBlock + nextMultipleOf m.contents.length tarBlock := by
  have hle := le_nextMultipleOf m.contents.length
  rw [Member.encode, List.length_append, List.length_append, List.length_replicate, Member.header,
    length_header]
  omega

theorem finish_eq (bytes : Bytes) :
    ∃ k, tarBlock ≤ k ∧ finish bytes = bytes ++ List.replicate k 0 := by
  refine ⟨2 * tarBlock + (nextMultipleOf (bytes ++ List.replicate (2 * tarBlock) 0).length
    tarBlocking - (bytes ++ List.replicate (2 * tarBlock) 0).length), by omega, ?_⟩
  rw [finish, List.append_assoc, List.replicate_append_replicate]

theorem field_header_magic {m : Member} : field m.header 257 5 = magic := by
  have hslot : (⟨257, 6, magic ++ [0]⟩ : Slot UInt8) ∈
      slots m.name m.link m.metadata m.typeflag m.contents.length := by simp [slots]
  obtain ⟨k, hk⟩ := field_header hslot le_rfl (by decide) (by decide) (by decide)
  have htake : field m.header 257 5 = (field m.header 257 6).take 5 := by
    rw [field, field, List.take_take]
    rfl
  rw [htake, Member.header, hk]
  rfl

theorem body_eq {entry : TarEntry} {front contents rest : Bytes}
    (hdata : data = front ++ (contents ++ rest)) (hoffset : entry.offset = front.length)
    (hsize : entry.size = contents.length) : body data entry = contents := by
  have hstop : min (front.length + contents.length) data.length =
      (front ++ contents).length := by
    rw [hdata, List.length_append, List.length_append, List.length_append]
    omega
  rw [body, hoffset, hsize, hstop, hdata, ← List.append_assoc, List.take_left,
    Nat.min_eq_left (by rw [List.length_append]; omega), List.drop_left]

/-- **Members are read one after the other**, from wherever they stand. -/
theorem tarParseLoop_members {members : List Member} (hfits : ∀ m ∈ members, m.Fits)
    {front : Bytes} (hk : tarBlock ≤ k)
    (hdata : data = front ++ (members.flatMap Member.encode ++ List.replicate k 0)) {fuel : ℕ}
    (hfuel : members.length < fuel) :
    List.Forall₂ (Describes data) (tarParseLoop data fuel front.length) members := by
  induction members generalizing front fuel with
  | nil =>
    obtain ⟨fuel, rfl⟩ := Nat.exists_eq_succ_of_ne_zero (Nat.ne_of_gt hfuel)
    have hzeros : field data front.length tarBlock = List.replicate tarBlock 0 := by
      rw [hdata, List.flatMap_nil, List.nil_append, field, List.drop_left, List.take_replicate,
        Nat.min_eq_left hk]
    have hstop : (List.replicate tarBlock (0 : UInt8)).all (· == 0) = true ∨
        field (List.replicate tarBlock (0 : UInt8)) 257 5 ≠ magic := .inl (by decide +kernel)
    rw [tarParseLoop, hzeros, if_pos hstop, ite_self]
    exact .nil
  | cons m members ih =>
    obtain ⟨fuel, rfl⟩ := Nat.exists_eq_succ_of_ne_zero (Nat.ne_of_gt (Nat.zero_lt_of_lt hfuel))
    obtain ⟨hm, hmembers⟩ := List.forall_mem_cons.mp hfits
    obtain ⟨mtime, hread⟩ := readHeader_header hm (front.length + tarBlock)
    have hheader : m.header.length = tarBlock := length_header
    have hle := le_nextMultipleOf m.contents.length
    rw [List.flatMap_cons, List.append_assoc] at hdata
    have hlen : ¬ data.length < front.length + tarBlock := by
      rw [hdata, List.length_append, List.length_append, length_encode]
      omega
    have hfield : field data front.length tarBlock = m.header := by
      rw [hdata, ← hheader, Member.encode, List.append_assoc, List.append_assoc]
      exact field_append ..
    have hnonzero : ¬ (m.header.all (· == 0) = true ∨ field m.header 257 5 ≠ magic) := by
      rintro (hall | hmagic)
      · have hmem : (117 : UInt8) ∈ field m.header 257 5 := by
          rw [field_header_magic]
          decide
        have hmem' : 117 ∈ m.header := List.mem_of_mem_drop (List.mem_of_mem_take hmem)
        exact absurd (List.all_eq_true.mp hall 117 hmem') (by decide)
      · exact hmagic field_header_magic
    have hnext : front.length + (tarBlock + nextMultipleOf m.contents.length tarBlock) =
        (front ++ m.encode).length := by rw [List.length_append, length_encode]
    have hbehind : data = (front ++ m.encode) ++
        (members.flatMap Member.encode ++ List.replicate k 0) := by rw [hdata, List.append_assoc]
    have hcontents : data = (front ++ m.header) ++ (m.contents ++
        (List.replicate (nextMultipleOf m.contents.length tarBlock - m.contents.length) 0 ++
          (members.flatMap Member.encode ++ List.replicate k 0))) := by
      rw [hdata, Member.encode]
      simp only [List.append_assoc]
    have hoffset : front.length + tarBlock = (front ++ m.header).length := by
      rw [List.length_append, hheader]
    rw [tarParseLoop, if_neg hlen, hfield, if_neg hnonzero]
    dsimp only
    rw [hread, hnext]
    exact .cons ⟨rfl, rfl, rfl, rfl, rfl, rfl, rfl, body_eq hcontents hoffset rfl⟩
      (ih hmembers hbehind (Nat.lt_of_succ_lt_succ hfuel))

theorem mul_length_le_encode (members : List Member) :
    tarBlock * members.length ≤ (members.flatMap Member.encode).length := by
  induction members with
  | nil => exact Nat.zero_le _
  | cons m members ih =>
    rw [List.flatMap_cons, List.length_append, List.length_cons, length_encode, Nat.mul_succ]
    omega

/-- **An archive is read back** as the members that were written. -/
theorem tarParse_finish {members : List Member} (hne : members ≠ [])
    (hfits : ∀ m ∈ members, m.Fits) :
    ∃ entries, tarParse (finish (members.flatMap Member.encode)) = some entries ∧
      List.Forall₂ (Describes (finish (members.flatMap Member.encode))) entries members := by
  obtain ⟨k, hk, hfinish⟩ := finish_eq (members.flatMap Member.encode)
  obtain ⟨m, others, rfl⟩ := List.exists_cons_of_ne_nil hne
  have hmembers := mul_length_le_encode (m :: others)
  have hlen : (finish ((m :: others).flatMap Member.encode)).length =
      ((m :: others).flatMap Member.encode).length + k := by
    rw [hfinish, List.length_append, List.length_replicate]
  have hmagic : field (finish ((m :: others).flatMap Member.encode)) 257 5 = magic := by
    have hheader : 257 + 5 ≤ m.header.length := by
      rw [Member.header, length_header]
      decide
    rw [hfinish, List.flatMap_cons, Member.encode, List.append_assoc, List.append_assoc,
      List.append_assoc, field_append_of_le hheader, field_header_magic]
  have hnot : ¬ ((finish ((m :: others).flatMap Member.encode)).length < tarBlock ∨
      field (finish ((m :: others).flatMap Member.encode)) 257 5 ≠ magic) := by
    rintro (hshort | hforeign)
    · omega
    · exact hforeign hmagic
  have hfuel : (m :: others).length <
      (finish ((m :: others).flatMap Member.encode)).length / tarBlock := by
    rw [Nat.lt_iff_add_one_le, Nat.le_div_iff_mul_le (by decide)]
    linarith
  have hfront : finish ((m :: others).flatMap Member.encode) =
      [] ++ ((m :: others).flatMap Member.encode ++ List.replicate k 0) := by
    rw [hfinish, List.nil_append]
  have hloop := tarParseLoop_members hfits hk hfront hfuel
  refine ⟨_, ?_, hloop⟩
  rw [tarParse, if_neg hnot, List.length_nil]

theorem length_finish (bytes : Bytes) :
    (finish bytes).length = nextMultipleOf (bytes.length + 2 * tarBlock) tarBlocking := by
  have hlen : (bytes ++ List.replicate (2 * tarBlock) (0 : UInt8)).length =
      bytes.length + 2 * tarBlock := by
    rw [List.length_append, List.length_replicate]
  rw [finish, List.length_append, List.length_replicate, hlen]
  rw [nextMultipleOf, tarBlocking, tarBlock]
  omega

/-- What an extraction uses of a member: all but the modification time. -/
structure Description where
  name : Str
  link : Str
  mode : UInt32
  uid : UInt32
  gid : UInt32
  typeflag : UInt8
  contents : Bytes

/-- What was read of a member. -/
def TarEntry.description (data : Bytes) (entry : TarEntry) : Description :=
  ⟨entry.name, entry.link, entry.mode, entry.uid, entry.gid, entry.typeflag, body data entry⟩

/-- What was written of a member. -/
def Member.description (m : Member) : Description :=
  ⟨m.name, m.link, m.metadata.mode &&& 0o7777, m.metadata.uid, m.metadata.gid, m.typeflag,
    m.contents⟩

theorem Describes.description_eq {entry : TarEntry} {m : Member} (h : Describes data entry m) :
    entry.description data = m.description := by
  rw [TarEntry.description, Member.description, h.name, h.link, h.mode, h.uid, h.gid, h.typeflag,
    h.body]

/-- **What `tar` writes it reads**: an archive of members that fit has as many whole blocks as it
takes, and is taken apart into these members. One without members is not taken for an archive. -/
theorem archive_read_back {members : List Member} (hfits : ∀ m ∈ members, m.Fits) :
    let data := finish (members.flatMap Member.encode)
    tarBlocking ∣ data.length ∧
      (tarParse data).map (List.map (TarEntry.description data)) =
        if members = [] then none else some (members.map Member.description) := by
  refine ⟨?_, ?_⟩
  · show tarBlocking ∣ (finish _).length
    rw [length_finish]
    exact Dvd.intro_left _ rfl
  split
  · rename_i hnil
    rw [hnil]
    decide +kernel
  · rename_i hne
    obtain ⟨entries, hparse, hall⟩ := tarParse_finish hne hfits
    rw [hparse, Option.map_some, Option.some_inj, ← List.forall₂_eq_eq_eq]
    rw [List.forall₂_map_left_iff, List.forall₂_map_right_iff]
    exact hall.imp fun _ _ ↦ Describes.description_eq

/-- A file called `a` with one byte. -/
theorem archive_read_back_a :
    let m : Member := ⟨['a'], [], Metadata.new 0 sIfReg 0o644 0 0, 48, [7]⟩
    let data := finish ([m].flatMap Member.encode)
    tarBlocking ∣ data.length ∧
      (tarParse data).map (List.map (TarEntry.description data)) =
        if [m] = [] then none else some ([m].map Member.description) :=
  archive_read_back (List.forall_mem_singleton.mpr
    ⟨by decide, by decide, by decide, by decide, by decide, by decide⟩)

end Tar

end Interp

end Mimic
