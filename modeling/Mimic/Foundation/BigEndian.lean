import Mathlib.Tactic

/-!
# Big-endian numbers

Numbers written as a fixed number of bytes, most significant first. `encode k n` keeps the low
`k` bytes of `n`, and `decode` reads any byte string back as a number.

Reading what was written gives the number modulo `256 ^ k` (`decode_encode`), so a width that is
large enough loses nothing and one that is too small wraps.
-/

namespace BigEndian

/-- The low `k` bytes of `n`, most significant first. -/
def encode : ℕ → ℕ → List UInt8
  | 0, _ => []
  | k + 1, n => UInt8.ofNat (n / 256 ^ k) :: encode k n

/-- The number a byte string denotes. -/
def decode (bytes : List UInt8) : ℕ := bytes.foldl (fun acc b ↦ acc * 256 + b.toNat) 0

@[simp] theorem length_encode (k n : ℕ) : (encode k n).length = k := by
  induction k with
  | zero => rfl
  | succ k ih => rw [encode, List.length_cons, ih]

theorem decode_append_singleton (bytes : List UInt8) (b : UInt8) :
    decode (bytes ++ [b]) = decode bytes * 256 + b.toNat := by
  rw [decode, List.foldl_append]
  rfl

theorem decode_lt (bytes : List UInt8) : decode bytes < 256 ^ bytes.length := by
  induction bytes using List.reverseRecOn with
  | nil => exact Nat.one_pos
  | append_singleton bytes b ih =>
    rw [decode_append_singleton, List.length_append, List.length_singleton, Nat.pow_succ]
    have := b.toNat_lt
    omega

/-- The last byte of an encoding is the number's remainder, the others encode its quotient. -/
theorem encode_succ_eq (k n : ℕ) : encode (k + 1) n = encode k (n / 256) ++ [UInt8.ofNat n] := by
  induction k with
  | zero => simp [encode]
  | succ k ih =>
    rw [encode, ih, encode, List.cons_append, Nat.pow_succ, Nat.mul_comm, Nat.div_div_eq_div_mul]

/-- **Reading back what was written.** -/
theorem decode_encode (k n : ℕ) : decode (encode k n) = n % 256 ^ k := by
  induction k generalizing n with
  | zero => rw [pow_zero, Nat.mod_one]; rfl
  | succ k ih =>
    rw [encode_succ_eq, decode_append_singleton, ih, UInt8.toNat_ofNat', pow_succ' 256 k,
      Nat.mod_mul]
    omega

/-- The bytes of a number depend on its low part only. -/
theorem encode_mod (k n : ℕ) : encode k (n % 256 ^ k) = encode k n := by
  induction k generalizing n with
  | zero => rfl
  | succ k ih =>
    have hquot : n % 256 ^ (k + 1) / 256 = n / 256 % 256 ^ k := by
      rw [pow_succ' 256 k, Nat.mod_mul_right_div_self]
    have hrem : UInt8.ofNat (n % 256 ^ (k + 1)) = UInt8.ofNat n := by
      rw [← UInt8.toNat_inj, UInt8.toNat_ofNat', UInt8.toNat_ofNat', pow_succ' 256 k]
      exact Nat.mod_mul_right_mod n 256 (256 ^ k)
    rw [encode_succ_eq, encode_succ_eq, hquot, hrem, ih]

theorem decode_encode_of_lt {k n : ℕ} (h : n < 256 ^ k) : decode (encode k n) = n := by
  rw [decode_encode, Nat.mod_eq_of_lt h]

/-- Writing back what was read. -/
theorem encode_decode (bytes : List UInt8) : encode bytes.length (decode bytes) = bytes := by
  induction bytes using List.reverseRecOn with
  | nil => rfl
  | append_singleton bytes b ih =>
    have hquot : (decode bytes * 256 + b.toNat) / 256 = decode bytes := by
      have := b.toNat_lt
      omega
    have hrem : UInt8.ofNat (decode bytes * 256 + b.toNat) = b := by
      rw [← UInt8.toNat_inj, UInt8.toNat_ofNat']
      have := b.toNat_lt
      omega
    rw [List.length_append, List.length_singleton, decode_append_singleton, encode_succ_eq, hquot,
      hrem, ih]

end BigEndian
