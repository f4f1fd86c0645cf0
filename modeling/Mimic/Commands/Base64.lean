import Mimic.Shell.Parser

/-!
# Base64

`b64_encode` writes three bytes as four characters, and pads what is left over. `b64_decode` shifts
the values of the characters into an accumulator of 32 bits, and takes a byte from it as soon as
eight of its bits belong to none. The accumulator is never masked: what counts are its lowest bits,
and the decoder is one that keeps no others (`decodeFrom_eq`).
-/

namespace Mimic

namespace Base64

open Mimic.Parser (isAsciiWhitespace)

/-- The characters for the values, in order. -/
def b64 : Str := "ABCDEFGHIJKLMNOPQRSTUVWXYZabcdefghijklmnopqrstuvwxyz0123456789+/".toList

/-- The character for the low six bits of a value. -/
def b64Char (n : UInt32) : Char := b64.getD (n.toNat &&& 63) '='

/-- A chunk of one, two or three bytes. -/
def encodeChunk (chunk : Bytes) : Str :=
  let n := ((chunk.getD 0 0).toUInt32 <<< 16) ||| ((chunk.getD 1 0).toUInt32 <<< 8) |||
    (chunk.getD 2 0).toUInt32
  [b64Char (n >>> 18), b64Char (n >>> 12),
    if chunk.length > 1 then b64Char (n >>> 6) else '=',
    if chunk.length > 2 then b64Char n else '=']

def b64Encode : Bytes → Str
  | a :: b :: c :: data => encodeChunk [a, b, c] ++ b64Encode data
  | [] => []
  | chunk => encodeChunk chunk

/-- The value of a character. -/
def b64Value (c : Char) : Option UInt32 :=
  if 'A' ≤ c ∧ c ≤ 'Z' then some (c.val - 'A'.val)
  else if 'a' ≤ c ∧ c ≤ 'z' then some (c.val - 'a'.val + 26)
  else if '0' ≤ c ∧ c ≤ '9' then some (c.val - '0'.val + 52)
  else if c = '+' then some 62
  else if c = '/' then some 63
  else none

/-- The loop of `b64_decode`. -/
def decodeFrom (acc : UInt32) (bits : ℕ) (out : Bytes) : Str → Option Bytes
  | [] => some out
  | c :: text =>
    if isAsciiWhitespace c then decodeFrom acc bits out text
    else if c = '=' then some out
    else
      match b64Value c with
      | none => none
      | some v =>
        let acc := (acc <<< 6) ||| v
        let bits := bits + 6
        if bits ≥ 8 then
          decodeFrom acc (bits - 8) (out ++ [(acc >>> UInt32.ofNat (bits - 8)).toUInt8]) text
        else decodeFrom acc bits out text

def b64Decode (text : Str) : Option Bytes := decodeFrom 0 0 [] text

/-- `slice::chunks`. -/
def chunks (size : ℕ) (text : Str) : List Str :=
  if text = [] ∨ size = 0 then [] else text.take size :: chunks size (text.drop size)
termination_by text.length
decreasing_by
  rename_i h
  obtain ⟨htext, hsize⟩ := not_or.mp h
  have := List.length_pos_iff.mpr htext
  rw [List.length_drop]
  omega

/-- What `base64` prints without `-w0`. -/
def wrap (encoded : Str) : Str := (chunks 76 encoded).flatMap fun chunk ↦ chunk ++ ['\n']

variable {acc : UInt32} {bits n r : ℕ} {out data : Bytes} {text : Str}

/-! ### Characters -/

/-- **What is written is read.** -/
theorem b64Value_b64Char (n : UInt32) :
    b64Value (b64Char n) = some (UInt32.ofNat (n.toNat % 64)) ∧
      isAsciiWhitespace (b64Char n) = false ∧ b64Char n ≠ '=' := by
  have h : ∀ v : Fin 64, b64Value (b64.getD v '=') = some (UInt32.ofNat v) ∧
      isAsciiWhitespace (b64.getD v '=') = false ∧ b64.getD v '=' ≠ '=' := by
    decide +kernel
  rw [b64Char, show (63 : ℕ) = 2 ^ 6 - 1 from rfl, Nat.and_two_pow_sub_one_eq_mod]
  exact h ⟨n.toNat % 64, Nat.mod_lt _ (by decide)⟩

/-! ### The bits that count -/

/-- The decoder that has only the bits that no byte has yet, as a number below `2 ^ bits`. -/
def pendingFrom (r bits : ℕ) (out : Bytes) : Str → Option Bytes
  | [] => some out
  | c :: text =>
    if isAsciiWhitespace c then pendingFrom r bits out text
    else if c = '=' then some out
    else
      match b64Value c with
      | none => none
      | some v =>
        let r := 64 * r + v.toNat
        if bits < 2 then pendingFrom r (bits + 6) out text
        else
          pendingFrom (r % 2 ^ (bits - 2)) (bits - 2)
            (out ++ [UInt8.ofNat (r / 2 ^ (bits - 2))]) text

theorem toNat_sub_add_lt {c low high : Char} {k : UInt32} (h : low ≤ c ∧ c ≤ high)
    (hk : high.toNat - low.toNat + k.toNat < 64) : (c.val - low.val + k).toNat < 64 := by
  obtain ⟨hlow, hhigh⟩ := h
  rw [Char.le_def, UInt32.le_iff_toNat_le] at hlow hhigh
  rw [UInt32.toNat_add, UInt32.toNat_sub_of_le _ _ (UInt32.le_iff_toNat_le.mpr hlow)]
  refine (Nat.mod_le _ _).trans_lt (lt_of_le_of_lt ?_ hk)
  exact Nat.add_le_add_right (Nat.sub_le_sub_right hhigh _) _

theorem b64Value_lt {c : Char} {v : UInt32} (h : b64Value c = some v) : v.toNat < 64 := by
  rw [b64Value] at h
  split at h
  · rename_i hc
    have hlt := toNat_sub_add_lt (k := 0) hc (by decide)
    rw [UInt32.add_zero] at hlt
    cases h
    exact hlt
  split at h
  · cases h
    exact toNat_sub_add_lt ‹_› (by decide)
  split at h
  · cases h
    exact toNat_sub_add_lt ‹_› (by decide)
  split at h
  · cases h
    decide
  split at h
  · cases h
    decide
  · cases h

theorem toNat_shift_or (acc : UInt32) {v : UInt32} (hv : v.toNat < 64) :
    ((acc <<< 6) ||| v).toNat = (64 * acc.toNat + v.toNat) % 2 ^ 32 := by
  have hmod : v.toNat = v.toNat % 2 ^ 32 := (Nat.mod_eq_of_lt (by omega)).symm
  rw [UInt32.toNat_or, UInt32.toNat_shiftLeft, hmod]
  show acc.toNat <<< 6 % 2 ^ 32 ||| v.toNat % 2 ^ 32 = _
  rw [← Nat.or_mod_two_pow, ← Nat.shiftLeft_add_eq_or_of_lt (i := 6) hv, Nat.shiftLeft_eq]
  omega

/-- **What is above the pending bits does not count.** -/
theorem decodeFrom_eq (hbits : bits < 8) :
    decodeFrom acc bits out text = pendingFrom (acc.toNat % 2 ^ bits) bits out text := by
  induction text generalizing acc bits out with
  | nil => rfl
  | cons c text ih =>
    rw [decodeFrom, pendingFrom]
    split
    · exact ih hbits
    split
    · rfl
    rcases hvalue : b64Value c with - | v
    · rfl
    have hv := b64Value_lt hvalue
    have hacc := toNat_shift_or acc hv
    dsimp only
    by_cases hfew : bits < 2
    · rw [if_neg (by omega), if_pos hfew, ih (by omega), hacc]
      congr 1
      interval_cases bits <;> omega
    · rw [if_pos (by omega), if_neg hfew, ih (by omega), hacc]
      obtain ⟨k, rfl⟩ : ∃ k, bits = k + 2 := ⟨bits - 2, by omega⟩
      have hk : k < 6 := by omega
      have hbyte : (((acc <<< 6) ||| v) >>> UInt32.ofNat (k + 2 + 6 - 8)).toUInt8 =
          UInt8.ofNat ((64 * (acc.toNat % 2 ^ (k + 2)) + v.toNat) / 2 ^ (k + 2 - 2)) := by
        rw [← UInt8.toNat_inj, UInt32.toNat_toUInt8, UInt32.toNat_shiftRight, hacc,
          UInt8.toNat_ofNat',
          UInt32.toNat_ofNat', Nat.shiftRight_eq_div_pow]
        interval_cases k <;> norm_num <;> omega
      rw [hbyte]
      congr 1
      interval_cases k <;> norm_num <;> omega

/-- Whitespace does not count either. -/
theorem pendingFrom_filter :
    pendingFrom r bits out (text.filter fun c ↦ !isAsciiWhitespace c) =
      pendingFrom r bits out text := by
  induction text generalizing r bits out with
  | nil => rfl
  | cons c text ih =>
    rw [List.filter_cons]
    by_cases hc : isAsciiWhitespace c
    · rw [if_neg (by simpa using hc), ih]
      exact (if_pos hc).symm
    · rw [if_pos (by simpa using hc), pendingFrom, pendingFrom]
      simp only [ih]

/-! ### The round trip -/

/-- **A character of the encoder's.** -/
theorem pendingFrom_b64Char (m : UInt32) :
    pendingFrom r bits out (b64Char m :: text) =
      if bits < 2 then pendingFrom (64 * r + m.toNat % 64) (bits + 6) out text
      else
        pendingFrom ((64 * r + m.toNat % 64) % 2 ^ (bits - 2)) (bits - 2)
          (out ++ [UInt8.ofNat ((64 * r + m.toNat % 64) / 2 ^ (bits - 2))]) text := by
  obtain ⟨hvalue, hspace, hpad⟩ := b64Value_b64Char m
  have hnat : (UInt32.ofNat (m.toNat % 64)).toNat = m.toNat % 64 := by
    rw [UInt32.toNat_ofNat']
    omega
  rw [pendingFrom, if_neg (by simp [hspace]), if_neg hpad, hvalue]
  dsimp only
  rw [hnat]

theorem ofNat_congr {m n : ℕ} (h : m % 256 = n % 256) : UInt8.ofNat m = UInt8.ofNat n := by
  rw [← UInt8.toNat_inj, UInt8.toNat_ofNat', UInt8.toNat_ofNat', h]

/-- **The first two characters** of a chunk have its first byte, and four bits of the next. -/
theorem pendingFrom_first (n : UInt32) :
    pendingFrom 0 0 out (b64Char (n >>> 18) :: b64Char (n >>> 12) :: text) =
      pendingFrom (n.toNat / 4096 % 16) 4 (out ++ [UInt8.ofNat (n.toNat / 65536)]) text := by
  have h18 : (n >>> 18).toNat = n.toNat / 2 ^ 18 := Nat.shiftRight_eq_div_pow _ _
  have h12 : (n >>> 12).toNat = n.toNat / 2 ^ 12 := Nat.shiftRight_eq_div_pow _ _
  rw [pendingFrom_b64Char, if_pos (by decide), pendingFrom_b64Char, if_neg (by decide), h18, h12]
  rw [ofNat_congr (n := n.toNat / 65536) (by norm_num; omega)]
  congr 1
  norm_num
  omega

/-- **The third** has four bits of the second byte, and two of the last. -/
theorem pendingFrom_second (n : UInt32) :
    pendingFrom (n.toNat / 4096 % 16) 4 out (b64Char (n >>> 6) :: text) =
      pendingFrom (n.toNat / 64 % 4) 2 (out ++ [UInt8.ofNat (n.toNat / 256)]) text := by
  have h6 : (n >>> 6).toNat = n.toNat / 2 ^ 6 := Nat.shiftRight_eq_div_pow _ _
  rw [pendingFrom_b64Char, if_neg (by decide), h6,
    ofNat_congr (n := n.toNat / 256) (by norm_num; omega)]
  congr 1
  norm_num
  omega

/-- **The last** has the bits that are left, so that none is pending. -/
theorem pendingFrom_third (n : UInt32) :
    pendingFrom (n.toNat / 64 % 4) 2 out (b64Char n :: text) =
      pendingFrom 0 0 (out ++ [UInt8.ofNat n.toNat]) text := by
  rw [pendingFrom_b64Char, if_neg (by decide), ofNat_congr (n := n.toNat) (by norm_num; omega)]
  congr 1
  exact Nat.mod_one _

/-- A pad ends the text. -/
theorem pendingFrom_pad : pendingFrom r bits out ('=' :: text) = some out := rfl

/-- The number whose bits are those of three bytes. -/
def group (a b c : UInt8) : UInt32 :=
  (a.toUInt32 <<< 16) ||| (b.toUInt32 <<< 8) ||| c.toUInt32

theorem toNat_group (a b c : UInt8) :
    (group a b c).toNat = 65536 * a.toNat + 256 * b.toNat + c.toNat := by
  have ha := a.toNat_lt
  have hb := b.toNat_lt
  have hc := c.toNat_lt
  rw [group, UInt32.toNat_or, UInt32.toNat_or, UInt32.toNat_shiftLeft, UInt32.toNat_shiftLeft,
    UInt8.toNat_toUInt32, UInt8.toNat_toUInt32, UInt8.toNat_toUInt32]
  show a.toNat <<< 16 % 2 ^ 32 ||| b.toNat <<< 8 % 2 ^ 32 ||| c.toNat = _
  rw [Nat.shiftLeft_eq, Nat.shiftLeft_eq, Nat.mod_eq_of_lt (by omega), Nat.mod_eq_of_lt (by omega),
    ← Nat.shiftLeft_eq, ← Nat.shiftLeft_add_eq_or_of_lt (by omega), Nat.shiftLeft_eq]
  rw [show a.toNat * 2 ^ 16 + b.toNat * 2 ^ 8 = (a.toNat * 2 ^ 8 + b.toNat) <<< 8 by
    rw [Nat.shiftLeft_eq]; omega, ← Nat.shiftLeft_add_eq_or_of_lt (by omega), Nat.shiftLeft_eq]
  omega

theorem ofNat_group (a b c : UInt8) :
    UInt8.ofNat ((group a b c).toNat / 65536) = a ∧ UInt8.ofNat ((group a b c).toNat / 256) = b ∧
      UInt8.ofNat (group a b c).toNat = c := by
  have ha := a.toNat_lt
  have hb := b.toNat_lt
  have hc := c.toNat_lt
  rw [toNat_group]
  refine ⟨?_, ?_, ?_⟩ <;> rw [← UInt8.toNat_inj, UInt8.toNat_ofNat'] <;> omega

/-- **A chunk of three bytes.** -/
theorem pendingFrom_encodeChunk (a b c : UInt8) :
    pendingFrom 0 0 out (encodeChunk [a, b, c] ++ text) =
      pendingFrom 0 0 (out ++ [a, b, c]) text := by
  obtain ⟨ha, hb, hc⟩ := ofNat_group a b c
  refine (pendingFrom_first (group a b c)).trans ((pendingFrom_second _).trans
    ((pendingFrom_third _).trans ?_))
  rw [ha, hb, hc, List.append_assoc, List.append_assoc]
  rfl

theorem pendingFrom_encodeChunk_two (a b : UInt8) :
    pendingFrom 0 0 out (encodeChunk [a, b]) = some (out ++ [a, b]) := by
  obtain ⟨ha, hb, -⟩ := ofNat_group a b 0
  refine (pendingFrom_first (group a b 0)).trans ((pendingFrom_second _).trans
    (pendingFrom_pad.trans ?_))
  rw [ha, hb, List.append_assoc]
  rfl

theorem pendingFrom_encodeChunk_one (a : UInt8) :
    pendingFrom 0 0 out (encodeChunk [a]) = some (out ++ [a]) := by
  obtain ⟨ha, -⟩ := ofNat_group a 0 0
  refine (pendingFrom_first (group a 0 0)).trans (pendingFrom_pad.trans ?_)
  rw [ha]

theorem pendingFrom_b64Encode (data : Bytes) :
    pendingFrom 0 0 out (b64Encode data) = some (out ++ data) := by
  induction data using b64Encode.induct generalizing out with
  | case1 a b c data ih => rw [b64Encode, pendingFrom_encodeChunk, ih, List.append_assoc]; rfl
  | case2 => rw [b64Encode, List.append_nil]; rfl
  | case3 chunk hfull hne =>
    match chunk, hfull, hne with
    | [a], _, _ => exact pendingFrom_encodeChunk_one a
    | [a, b], _, _ => exact pendingFrom_encodeChunk_two a b
    | [], _, hne => exact absurd rfl hne
    | a :: b :: c :: data, hfull, _ => exact absurd rfl (hfull a b c data)

/-- **The encoder writes no whitespace.** -/
theorem isAsciiWhitespace_of_mem (data : Bytes) :
    ∀ c ∈ b64Encode data, isAsciiWhitespace c = false := by
  have hchunk (chunk : Bytes) : ∀ c ∈ encodeChunk chunk, isAsciiWhitespace c = false := by
    have hpad (n : UInt32) (p : Prop) [Decidable p] :
        isAsciiWhitespace (if p then b64Char n else '=') = false := by
      split
      · exact (b64Value_b64Char n).2.1
      · rfl
    simp only [encodeChunk, List.forall_mem_cons, hpad, (b64Value_b64Char _).2.1, true_and,
      List.not_mem_nil, false_implies, implies_true]
  induction data using b64Encode.induct with
  | case1 a b c data ih =>
    rw [b64Encode]
    exact List.forall_mem_append.mpr ⟨hchunk _, ih⟩
  | case2 => simp [b64Encode]
  | case3 chunk hfull hne =>
    rw [b64Encode.eq_3 chunk hfull hne]
    exact hchunk _

/-- Wrapping inserts line feeds. -/
theorem filter_wrap (encoded : Str) :
    (wrap encoded).filter (fun c ↦ !isAsciiWhitespace c) =
      encoded.filter fun c ↦ !isAsciiWhitespace c := by
  rw [wrap]
  induction encoded using chunks.induct 76 with
  | case1 text h =>
    obtain rfl := h.resolve_right (by decide)
    rw [chunks, if_pos h]
    rfl
  | case2 text h ih =>
    have hfeed : (['\n'].filter fun c ↦ !isAsciiWhitespace c) = [] := rfl
    rw [chunks, if_neg h, List.flatMap_cons, List.filter_append, List.filter_append, hfeed, ih,
      List.append_nil, ← List.filter_append, List.take_append_drop]

/-- **Round trip**: with any ASCII whitespace in what the encoder writes, the decoder has the bytes;
and the line feeds that `base64` prints are some. -/
theorem b64Decode_b64Encode (data : Bytes) :
    (∀ text, (text.filter fun c ↦ !isAsciiWhitespace c) = b64Encode data →
      b64Decode text = some data) ∧ b64Decode (wrap (b64Encode data)) = some data := by
  have hdecode (text : Str) (h : (text.filter fun c ↦ !isAsciiWhitespace c) = b64Encode data) :
      b64Decode text = some data := by
    rw [b64Decode, decodeFrom_eq (by decide), ← pendingFrom_filter, h]
    exact pendingFrom_b64Encode data
  refine ⟨hdecode, hdecode _ ?_⟩
  rw [filter_wrap, List.filter_eq_self]
  intro c hc
  rw [isAsciiWhitespace_of_mem data c hc]
  rfl

end Base64

end Mimic
