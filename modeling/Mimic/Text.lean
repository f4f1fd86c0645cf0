import Mathlib.Data.List.TakeWhile
import Mathlib.Tactic

/-!
# Text and bytes

The source's `String` and `&str` are lists of characters (`Str`), its `Vec<u8>` and `&[u8]` lists of
bytes (`Bytes`). Lexicographic order on code points is the order the source's maps use, since UTF-8
preserves it.

The rest are the pieces of the standard library's text handling the program uses.
-/

namespace Mimic

/-- Text: the source's `String` and `&str`, as the characters they hold. -/
abbrev Str := List Char

/-- Raw bytes: the source's `Vec<u8>` and `&[u8]`. -/
abbrev Bytes := List UInt8

/-- Membership in a list of texts is decided by comparing them. -/
instance : LawfulBEq Str := inferInstance

namespace Text

/-! ### Characters -/

/-- `char::is_whitespace`: the Unicode property `White_Space`. -/
def isWhitespace (c : Char) : Bool :=
  let n := c.toNat
  (9 ≤ n && n ≤ 13) || n == 0x20 || n == 0x85 || n == 0xa0 || n == 0x1680 ||
    (0x2000 ≤ n && n ≤ 0x200a) || n == 0x2028 || n == 0x2029 || n == 0x202f || n == 0x205f ||
    n == 0x3000

/-- `char::is_control`: the Unicode category `Cc`. -/
def isControl (c : Char) : Bool := c.toNat < 0x20 || (0x7f ≤ c.toNat && c.toNat ≤ 0x9f)

/-- `str::trim`. -/
def trim (text : Str) : Str :=
  ((text.dropWhile isWhitespace).reverse.dropWhile isWhitespace).reverse

/-- `str::trim_end_matches`, of one character. -/
def trimEndMatches (c : Char) (text : Str) : Str :=
  (text.reverse.dropWhile (· == c)).reverse

/-- `str::trim_start_matches`, of one character. -/
def trimStartMatches (c : Char) (text : Str) : Str := text.dropWhile (· == c)

/-- `str::lines`: the pieces in front of line feeds, each without a carriage return at its end, and
the piece after the last one unless it is empty. -/
def lines (text : Str) : List Str :=
  let pieces := text.splitOn '\n'
  let ended := pieces.dropLast.map fun line ↦
    if line.getLast? = some '\r' then line.dropLast else line
  ended ++ pieces.getLast?.toList.filter (· ≠ [])

/-- `str::split_whitespace`. -/
def splitWhitespace (text : Str) : List Str := (text.splitOnP isWhitespace).filter (· ≠ [])

/-! ### Encoding -/

/-- `str::as_bytes`. -/
def toUtf8 (text : Str) : Bytes := text.flatMap String.utf8EncodeChar

/-- A continuation byte of a multi-byte sequence. -/
def isContinuation (b : UInt8) : Bool := b.toNat / 64 == 2

/-- `std::str::from_utf8`: well-formed UTF-8 only, so no overlong forms, no surrogates and nothing
past U+10FFFF. -/
def fromUtf8 : Bytes → Option Str
  | [] => some []
  | b₀ :: rest₀ =>
    if b₀ < 0x80 then (fromUtf8 rest₀).map (Char.ofNat b₀.toNat :: ·)
    else
      match rest₀ with
      | [] => none
      | b₁ :: rest₁ =>
        if !isContinuation b₁ then none
        else if 0xc2 ≤ b₀ ∧ b₀ ≤ 0xdf then
          let n := (b₀.toNat - 0xc0) * 64 + (b₁.toNat - 0x80)
          (fromUtf8 rest₁).map (Char.ofNat n :: ·)
        else
          match rest₁ with
          | [] => none
          | b₂ :: rest₂ =>
            if !isContinuation b₂ then none
            else if 0xe0 ≤ b₀ ∧ b₀ ≤ 0xef then
              let n := (b₀.toNat - 0xe0) * 4096 + (b₁.toNat - 0x80) * 64 + (b₂.toNat - 0x80)
              if n < 0x800 ∨ 0xd800 ≤ n ∧ n ≤ 0xdfff then none
              else (fromUtf8 rest₂).map (Char.ofNat n :: ·)
            else
              match rest₂ with
              | [] => none
              | b₃ :: rest₃ =>
                if !isContinuation b₃ then none
                else if 0xf0 ≤ b₀ ∧ b₀ ≤ 0xf4 then
                  let n := (b₀.toNat - 0xf0) * 262144 + (b₁.toNat - 0x80) * 4096 +
                    (b₂.toNat - 0x80) * 64 + (b₃.toNat - 0x80)
                  if n < 0x10000 ∨ 0x10ffff < n then none
                  else (fromUtf8 rest₃).map (Char.ofNat n :: ·)
                else none

/-- `String::from_utf8_lossy`: each maximal part of a sequence that is not well formed becomes one
U+FFFD. -/
def fromUtf8Lossy : Bytes → Str
  | [] => []
  | b₀ :: rest₀ =>
    -- the bytes that may follow the first one, and how many of them belong to it
    let second : UInt8 → Bool := fun b ↦
      if b₀ = 0xe0 then 0xa0 ≤ b && b ≤ 0xbf else if b₀ = 0xed then 0x80 ≤ b && b ≤ 0x9f
      else if b₀ = 0xf0 then 0x90 ≤ b && b ≤ 0xbf else if b₀ = 0xf4 then 0x80 ≤ b && b ≤ 0x8f
      else isContinuation b
    if b₀ < 0x80 then Char.ofNat b₀.toNat :: fromUtf8Lossy rest₀
    else if b₀ < 0xc2 ∨ 0xf4 < b₀ then '\ufffd' :: fromUtf8Lossy rest₀
    else
      match rest₀ with
      | [] => ['\ufffd']
      | b₁ :: rest₁ =>
        if !second b₁ then '\ufffd' :: fromUtf8Lossy (b₁ :: rest₁)
        else if b₀ ≤ 0xdf then
          Char.ofNat ((b₀.toNat - 0xc0) * 64 + (b₁.toNat - 0x80)) :: fromUtf8Lossy rest₁
        else
          match rest₁ with
          | [] => ['\ufffd']
          | b₂ :: rest₂ =>
            if !isContinuation b₂ then '\ufffd' :: fromUtf8Lossy (b₂ :: rest₂)
            else if b₀ ≤ 0xef then
              Char.ofNat ((b₀.toNat - 0xe0) * 4096 + (b₁.toNat - 0x80) * 64 + (b₂.toNat - 0x80)) ::
                fromUtf8Lossy rest₂
            else
              match rest₂ with
              | [] => ['\ufffd']
              | b₃ :: rest₃ =>
                if !isContinuation b₃ then '\ufffd' :: fromUtf8Lossy (b₃ :: rest₃)
                else
                  Char.ofNat ((b₀.toNat - 0xf0) * 262144 + (b₁.toNat - 0x80) * 4096 +
                    (b₂.toNat - 0x80) * 64 + (b₃.toNat - 0x80)) :: fromUtf8Lossy rest₃

/-- `str::len`: the length in bytes. -/
def byteLen (text : Str) : ℕ := (text.map Char.utf8Size).sum

/-- The longest prefix of at most `budget` bytes, which is where a cut at `budget` ends up when it
moves down to a character boundary. -/
def takeBytes (budget : ℕ) : Str → Str
  | [] => []
  | c :: rest => if c.utf8Size ≤ budget then c :: takeBytes (budget - c.utf8Size) rest else []

/-! ### Formatting -/

/-- `{}` of an unsigned number. -/
def decimal (n : ℕ) : Str := Nat.toDigits 10 n

theorem isDigit_of_mem_decimal {n : ℕ} {c : Char} (h : c ∈ decimal n) : c.isDigit :=
  Nat.isDigit_of_mem_toDigits (by norm_num) le_rfl h

/-- `{}` of a signed number. -/
def decimalInt (n : ℤ) : Str := if n < 0 then '-' :: decimal n.natAbs else decimal n.natAbs

/-- `{:>width}`. -/
def alignRight (width : ℕ) (text : Str) : Str := List.replicate (width - text.length) ' ' ++ text

/-- `{:<width}`. -/
def alignLeft (width : ℕ) (text : Str) : Str := text ++ List.replicate (width - text.length) ' '

/-- `{:02}` of a number that is not negative. -/
def twoDigits (n : ℕ) : Str := List.replicate (2 - (decimal n).length) '0' ++ decimal n

/-! ### Encoding and decoding -/

/-- **An encoded character is decoded to itself.** -/
theorem fromUtf8Lossy_encodeChar (c : Char) (rest : Bytes) :
    fromUtf8Lossy (String.utf8EncodeChar c ++ rest) = c :: fromUtf8Lossy rest := by
  have hvalid : c.val.toNat < 0xd800 ∨ 0xdfff < c.val.toNat ∧ c.val.toNat < 0x110000 := c.valid
  have hc : Char.ofNat c.val.toNat = c := Char.ofNat_toNat c
  rw [String.utf8EncodeChar]
  generalize c.val.toNat = n at *
  subst hc
  have hbyte : ∀ k < 256, (UInt8.ofNat k).toNat = k := fun k hk ↦ by
    rw [UInt8.toNat_ofNat', Nat.mod_eq_of_lt hk]
  have hdigit : ∀ k, (UInt8.ofNat (k % 64 + 128)).toNat = k % 64 + 128 := fun k ↦
    hbyte _ (by omega)
  have hcontinues : ∀ k, isContinuation (UInt8.ofNat (k % 64 + 128)) = true := fun k ↦ by
    rw [isContinuation, hdigit]
    exact beq_iff_eq.mpr (by omega)
  -- the cases are those of the encoder: one to four bytes
  split_ifs with h₁ h₂ h₃
  · have hb := hbyte n (by omega)
    rw [List.singleton_append, fromUtf8Lossy.eq_def]
    dsimp only
    rw [if_pos, hb]
    rw [UInt8.lt_iff_toNat_lt, hb]
    exact Nat.lt_succ_of_le h₁
  · have hb := hbyte (n / 64 % 32 + 192) (by omega)
    have hd := hdigit n
    have hcont := hcontinues n
    have hn : (n / 64 % 32 + 192 - 192) * 64 + (n % 64 + 128 - 128) = n := by omega
    generalize UInt8.ofNat (n / 64 % 32 + 192) = b₀ at hb ⊢
    generalize UInt8.ofNat (n % 64 + 128) = b₁ at hd hcont ⊢
    rw [List.cons_append, List.singleton_append, fromUtf8Lossy.eq_def]
    simp only [UInt8.lt_iff_toNat_lt, UInt8.le_iff_toNat_le, ← UInt8.toNat_inj,
      UInt8.reduceToNat, hb, hd, hcont]
    rw [if_neg (by omega), if_neg (by omega), if_neg (by grind), if_pos (by omega), hn]
  · have hb := hbyte (n / 4096 % 16 + 224) (by omega)
    have hd := hdigit (n / 64)
    have he := hdigit n
    have hcont := hcontinues (n / 64)
    have hcont' := hcontinues n
    have hn : (n / 4096 % 16 + 224 - 224) * 4096 + (n / 64 % 64 + 128 - 128) * 64 +
        (n % 64 + 128 - 128) = n := by omega
    generalize UInt8.ofNat (n / 4096 % 16 + 224) = b₀ at hb ⊢
    generalize UInt8.ofNat (n / 64 % 64 + 128) = b₁ at hd hcont ⊢
    generalize UInt8.ofNat (n % 64 + 128) = b₂ at he hcont' ⊢
    rw [List.cons_append, List.cons_append, List.singleton_append, fromUtf8Lossy.eq_def]
    simp only [UInt8.lt_iff_toNat_lt, UInt8.le_iff_toNat_le, ← UInt8.toNat_inj,
      UInt8.reduceToNat, hb, hd, he, hcont, hcont']
    rw [if_neg (by omega), if_neg (by omega), if_neg (by grind), if_neg (by omega),
      if_neg (by simp), if_pos (by omega), hn]
  · have hb := hbyte (n / 262144 % 8 + 240) (by omega)
    have hd := hdigit (n / 4096)
    have he := hdigit (n / 64)
    have hf := hdigit n
    have hcont := hcontinues (n / 4096)
    have hcont' := hcontinues (n / 64)
    have hcont'' := hcontinues n
    have hn : (n / 262144 % 8 + 240 - 240) * 262144 + (n / 4096 % 64 + 128 - 128) * 4096 +
        (n / 64 % 64 + 128 - 128) * 64 + (n % 64 + 128 - 128) = n := by omega
    generalize UInt8.ofNat (n / 262144 % 8 + 240) = b₀ at hb ⊢
    generalize UInt8.ofNat (n / 4096 % 64 + 128) = b₁ at hd hcont ⊢
    generalize UInt8.ofNat (n / 64 % 64 + 128) = b₂ at he hcont' ⊢
    generalize UInt8.ofNat (n % 64 + 128) = b₃ at hf hcont'' ⊢
    rw [List.cons_append, List.cons_append, List.cons_append, List.singleton_append,
      fromUtf8Lossy.eq_def]
    simp only [UInt8.lt_iff_toNat_lt, UInt8.le_iff_toNat_le, ← UInt8.toNat_inj,
      UInt8.reduceToNat, hb, hd, he, hf, hcont, hcont', hcont'']
    rw [if_neg (by omega), if_neg (by omega), if_neg (by grind), if_neg (by omega),
      if_neg (by simp), if_neg (by omega), if_neg (by simp), hn]

/-! ### Bytes of a text -/

@[simp] theorem toUtf8_nil : toUtf8 [] = [] := rfl

theorem toUtf8_cons (c : Char) (text : Str) :
    toUtf8 (c :: text) = String.utf8EncodeChar c ++ toUtf8 text := rfl

theorem toUtf8_append (text text' : Str) : toUtf8 (text ++ text') = toUtf8 text ++ toUtf8 text' :=
  List.flatMap_append

/-- An ASCII character is one byte. -/
theorem utf8EncodeChar_ascii {c : Char} (h : c.toNat < 0x80) :
    String.utf8EncodeChar c = [c.toUInt8] := by
  rw [String.utf8EncodeChar, if_pos (by exact Nat.le_of_lt_succ h)]
  rfl

/-- No byte of another character is ASCII. -/
theorem ascii_le_of_mem_utf8EncodeChar {c : Char} {b : UInt8} (h : 0x80 ≤ c.toNat)
    (hb : b ∈ String.utf8EncodeChar c) : 0x80 ≤ b.toNat := by
  have hbyte : ∀ k, 0x80 ≤ k → k < 256 → 0x80 ≤ (UInt8.ofNat k).toNat := fun k hle hlt ↦ by
    rwa [UInt8.toNat_ofNat', Nat.mod_eq_of_lt hlt]
  have hvalid : c.val.toNat < 0xd800 ∨ 0xdfff < c.val.toNat ∧ c.val.toNat < 0x110000 := c.valid
  have h' : 0x80 ≤ c.val.toNat := h
  rw [String.utf8EncodeChar] at hb
  generalize c.val.toNat = n at *
  split_ifs at hb <;> simp only [List.mem_cons, List.not_mem_nil, or_false] at hb
  · omega
  · rcases hb with rfl | rfl <;> exact hbyte _ (by omega) (by omega)
  · rcases hb with rfl | rfl | rfl <;> exact hbyte _ (by omega) (by omega)
  · rcases hb with rfl | rfl | rfl | rfl <;> exact hbyte _ (by omega) (by omega)

theorem toNat_toUInt8 {c : Char} (h : c.toNat < 0x80) : c.toUInt8.toNat = c.toNat := by
  show c.val.toUInt8.toNat = c.val.toNat
  rw [UInt32.toNat_toUInt8]
  exact Nat.mod_eq_of_lt (lt_trans h (by norm_num))

/-- **A NUL byte is a NUL.** -/
theorem zero_mem_toUtf8_iff {text : Str} : 0 ∈ toUtf8 text ↔ '\x00' ∈ text := by
  rw [toUtf8, List.mem_flatMap]
  constructor
  · rintro ⟨c, hc, hzero⟩
    by_cases hascii : c.toNat < 0x80
    · rw [utf8EncodeChar_ascii hascii, List.mem_singleton] at hzero
      have hnat : c.toNat = 0 := by rw [← toNat_toUInt8 hascii, ← hzero]; rfl
      have hchar : c = '\x00' := Char.toNat_inj.mp hnat
      exact hchar ▸ hc
    · exact absurd (ascii_le_of_mem_utf8EncodeChar (Nat.not_lt.mp hascii) hzero) (by decide)
  · exact fun h ↦ ⟨_, h, by decide⟩

theorem fromUtf8Lossy_toUtf8_append (text : Str) (rest : Bytes) :
    fromUtf8Lossy (toUtf8 text ++ rest) = text ++ fromUtf8Lossy rest := by
  induction text with
  | nil => rfl
  | cons c text ih => rw [toUtf8_cons, List.append_assoc, fromUtf8Lossy_encodeChar, ih,
      List.cons_append]

/-- **A text survives its encoding.** -/
theorem fromUtf8Lossy_toUtf8 (text : Str) : fromUtf8Lossy (toUtf8 text) = text := by
  have h := fromUtf8Lossy_toUtf8_append text []
  rwa [List.append_nil, show fromUtf8Lossy [] = [] from rfl, List.append_nil] at h

/-! ### Splitting -/

/-- No piece has the separator in it. -/
theorem not_mem_of_mem_splitOn {c : Char} {piece text : Str} (h : piece ∈ text.splitOn c) :
    c ∉ piece := by
  induction text generalizing piece with
  | nil =>
    obtain rfl := List.mem_singleton.1 h
    exact List.not_mem_nil
  | cons ch text ih =>
    rw [List.splitOn_cons_eq_if_modifyHead] at h
    split at h
    · rcases List.mem_cons.1 h with rfl | h
      · exact List.not_mem_nil
      · exact ih h
    · rename_i hch
      rcases hsplit : text.splitOn c with - | ⟨first, others⟩
      · exact absurd hsplit (List.splitOn_ne_nil _ _)
      rw [hsplit, List.modifyHead_cons] at h
      rw [hsplit] at ih
      rcases List.mem_cons.1 h with rfl | h
      · rintro (- | ⟨_, hmem⟩)
        · exact hch (beq_self_eq_true _)
        · exact ih List.mem_cons_self hmem
      · exact ih (List.mem_cons_of_mem _ h)

/-- What a piece consists of is in the text. -/
theorem subset_of_mem_splitOn {c : Char} {piece text : Str} (h : piece ∈ text.splitOn c) :
    piece ⊆ text := by
  induction text generalizing piece with
  | nil =>
    obtain rfl := List.mem_singleton.1 h
    exact List.Subset.refl _
  | cons ch text ih =>
    rw [List.splitOn_cons_eq_if_modifyHead] at h
    split at h
    · rcases List.mem_cons.1 h with rfl | h
      · exact List.nil_subset _
      · exact List.subset_cons_of_subset _ (ih h)
    · rcases hsplit : text.splitOn c with - | ⟨first, others⟩
      · exact absurd hsplit (List.splitOn_ne_nil _ _)
      rw [hsplit, List.modifyHead_cons] at h
      rw [hsplit] at ih
      rcases List.mem_cons.1 h with rfl | h
      · exact List.cons_subset_cons _ (ih List.mem_cons_self)
      · exact List.subset_cons_of_subset _ (ih (List.mem_cons_of_mem _ h))

/-! ### Lengths -/

@[simp] theorem byteLen_cons (c : Char) (text : Str) :
    byteLen (c :: text) = c.utf8Size + byteLen text := rfl

@[simp] theorem byteLen_append (text text' : Str) :
    byteLen (text ++ text') = byteLen text + byteLen text' := by
  rw [byteLen, List.map_append, List.sum_append, byteLen, byteLen]

theorem byteLen_takeBytes_le (budget : ℕ) (text : Str) :
    byteLen (takeBytes budget text) ≤ budget := by
  induction text generalizing budget with
  | nil => exact Nat.zero_le _
  | cons c rest ih =>
    rw [takeBytes]
    split
    · have := ih (budget - c.utf8Size)
      rw [byteLen_cons]
      omega
    · exact Nat.zero_le _

@[simp] theorem length_toUtf8 (text : Str) : (toUtf8 text).length = byteLen text := by
  induction text with
  | nil => rfl
  | cons c text ih =>
    rw [toUtf8, List.flatMap_cons, List.length_append, String.length_utf8EncodeChar, byteLen_cons]
    exact congrArg _ ih

theorem byteLen_le_of_sublist {text text' : Str} (h : text.Sublist text') :
    byteLen text ≤ byteLen text' :=
  (h.map _).sum_le_sum fun _ _ ↦ Nat.zero_le _

theorem byteLen_trim_le (text : Str) : byteLen (trim text) ≤ byteLen text := by
  refine byteLen_le_of_sublist (.trans ?_ (List.dropWhile_sublist isWhitespace))
  exact List.reverse_sublist.mp (by
    rw [trim, List.reverse_reverse]
    exact List.dropWhile_sublist isWhitespace)

theorem utf8Size_ofNat_of_lt {b : UInt8} (h : b < 0x80) : (Char.ofNat b.toNat).utf8Size = 1 := by
  have hb : b.toNat < 128 := UInt8.lt_iff_toNat_lt.mp h
  have hvalid : b.toNat.isValidChar := .inl (by omega)
  rw [Char.utf8Size_eq_one_iff, Char.ofNat, dif_pos hvalid]
  show (b.toNat : ℕ) ≤ 127
  omega

/-- Decoding makes at most three bytes of one, those of U+FFFD. -/
theorem byteLen_fromUtf8Lossy_le (bytes : Bytes) :
    byteLen (fromUtf8Lossy bytes) ≤ 3 * bytes.length := by
  have hfffd : '\ufffd'.utf8Size = 3 := rfl
  have hnil : byteLen [] = 0 := rfl
  fun_induction fromUtf8Lossy bytes with
  | case1 => exact Nat.zero_le _
  | case2 b₀ rest h ih =>
    rw [byteLen_cons, utf8Size_ofNat_of_lt (by assumption), List.length_cons]
    omega
  | case6 b₀ b₁ rest | case9 b₀ b₁ b₂ rest | case12 b₀ b₁ b₂ b₃ rest =>
    rw [byteLen_cons]
    refine (Nat.add_le_add_right (Char.utf8Size_le_four _) _).trans ?_
    simp only [List.length_cons]
    omega
  | _ => simp only [byteLen_cons, List.length_cons] at *; omega
/-! ### Blank texts -/

theorem trim_eq_nil_iff {text : Str} : trim text = [] ↔ ∀ c ∈ text, isWhitespace c := by
  simp only [trim, List.reverse_eq_nil_iff, List.dropWhile_eq_nil_iff, List.mem_reverse]
  constructor
  · intro h c hc
    rw [← List.takeWhile_append_dropWhile (p := isWhitespace) (l := text), List.mem_append] at hc
    exact hc.elim List.mem_takeWhile_imp (h c)
  · exact fun h c hc ↦ h c ((List.dropWhile_suffix _).subset hc)

end Text

end Mimic
