import Mathlib

/-!
# Base-128 groups

A natural number written in groups of seven bits, the lowest group first. A
byte with its high bit set says that another group follows, a byte below `128`
ends the number. Writer and reader are bounded by the number of groups: the
writer writes the last group it is allowed without a continuation bit, the
reader gives up after the last group it is allowed.

`decode_encode` is the round trip: what was written is read back and the bytes
behind it are left alone.
-/

namespace Varint

/-! ## Writer and reader -/

/-- The groups of `n`, at most `k + 1` of them. -/
def encode : Nat → Nat → List UInt8
  | 0, n => [UInt8.ofNat n]
  | k + 1, n =>
    if n < 128 then [UInt8.ofNat n] else UInt8.ofNat (n % 128 + 128) :: encode k (n / 128)

/-- The number at the beginning of the bytes, in at most `k` groups, and the bytes behind it. -/
def decode : Nat → List UInt8 → Option (Nat × List UInt8)
  | 0, _ => none
  | _ + 1, [] => none
  | k + 1, b :: bytes =>
    if b.toNat < 128 then some (b.toNat, bytes)
    else (decode k bytes).map fun r => (b.toNat - 128 + 128 * r.1, r.2)

theorem decode_encode {k n : Nat} (hn : n < 128 ^ (k + 1)) (rest : List UInt8) :
    decode (k + 1) (encode k n ++ rest) = some (n, rest) := by
  induction k generalizing n with
  | zero =>
    have hbyte : (UInt8.ofNat n).toNat = n := UInt8.toNat_ofNat_of_lt' (show n < 256 by simp at hn; omega)
    simp only [encode, List.cons_append, List.nil_append, decode, hbyte]
    rw [if_pos (by simpa using hn)]
  | succ k ih =>
    by_cases hlast : n < 128
    · have hbyte : (UInt8.ofNat n).toNat = n := UInt8.toNat_ofNat_of_lt' (show n < 256 by omega)
      simp only [encode, if_pos hlast, List.cons_append, List.nil_append, decode, hbyte]
    · have hrest : n / 128 < 128 ^ (k + 1) := by
        rw [Nat.div_lt_iff_lt_mul (by decide)]
        rwa [← Nat.pow_succ]
      have hbyte : (UInt8.ofNat (n % 128 + 128)).toNat = n % 128 + 128 :=
        UInt8.toNat_ofNat_of_lt' (show n % 128 + 128 < 256 by omega)
      simp only [encode, if_neg hlast, List.cons_append, decode, hbyte, ih hrest, Option.map_some]
      rw [if_neg (by omega)]
      congr 2
      omega

/-! ## Lengths -/

theorem length_encode_pos (k n : Nat) : 0 < (encode k n).length := by
  cases k with
  | zero => simp [encode]
  | succ k =>
    unfold encode
    split <;> simp

theorem length_encode_le (k n : Nat) : (encode k n).length ≤ k + 1 := by
  induction k generalizing n with
  | zero => simp [encode]
  | succ k ih =>
    unfold encode
    split
    · simp
    · simpa using ih (n / 128)

/-- A byte below `128` stands for itself. -/
theorem decode_cons_of_lt {b : UInt8} (h : b.toNat < 128) (k : Nat) (bytes : List UInt8) :
    decode (k + 1) (b :: bytes) = some (b.toNat, bytes) := by
  simp [decode, h]

/-- A number takes at least one byte from the front of the bytes. -/
theorem length_lt_of_decode {k n : Nat} {bytes rest : List UInt8}
    (h : decode k bytes = some (n, rest)) : rest.length < bytes.length := by
  induction k generalizing n bytes with
  | zero => simp [decode] at h
  | succ k ih =>
    cases bytes with
    | nil => simp [decode] at h
    | cons b bytes =>
      unfold decode at h
      split at h
      · obtain ⟨-, rfl⟩ : b.toNat = n ∧ bytes = rest := by simpa using h
        simp
      · obtain ⟨⟨m, rest'⟩, hdecode, heq⟩ := Option.map_eq_some_iff.mp h
        obtain ⟨-, rfl⟩ : _ ∧ rest' = rest := by simpa using heq
        have := ih hdecode
        simp only [List.length_cons]
        omega

/-! ## Machine words

A group as a writer cuts it from a word, and as a reader shifts it into one. -/

/-- The high bit set in a byte. -/
theorem toNat_or_128 (b : UInt8) : (b ||| 128).toNat = b.toNat % 128 + 128 := by
  revert b
  decide +kernel

theorem eq_ofNat_of_toNat {b : UInt8} {n : Nat} (h : b.toNat = n % 256) : b = UInt8.ofNat n := by
  apply UInt8.toNat_inj.mp
  rw [h, UInt8.toNat_ofNat']

theorem toUInt8_eq_ofNat32 (v : UInt32) : v.toUInt8 = UInt8.ofNat v.toNat :=
  eq_ofNat_of_toNat (by simp)

theorem toUInt8_eq_ofNat64 (v : UInt64) : v.toUInt8 = UInt8.ofNat v.toNat :=
  eq_ofNat_of_toNat (by simp)

theorem toUInt8_or_128_32 (v : UInt32) :
    (v ||| 128).toUInt8 = UInt8.ofNat (v.toNat % 128 + 128) := by
  apply eq_ofNat_of_toNat
  rw [UInt32.toUInt8_or, show (128 : UInt32).toUInt8 = 128 from rfl, toNat_or_128]
  simp
  omega

theorem toUInt8_or_128_64 (v : UInt64) :
    (v ||| 128).toUInt8 = UInt8.ofNat (v.toNat % 128 + 128) := by
  apply eq_ofNat_of_toNat
  rw [UInt64.toUInt8_or, show (128 : UInt64).toUInt8 = 128 from rfl, toNat_or_128]
  simp
  omega

theorem and_128_eq_zero_iff (b : UInt8) : b &&& 128 = 0 ↔ b.toNat < 128 := by
  revert b
  decide +kernel

theorem toNat_and_127 (b : UInt8) : (b &&& 127).toNat = b.toNat % 128 := by
  revert b
  decide +kernel

theorem ofNat_or (w m n : Nat) :
    BitVec.ofNat w (m ||| n) = BitVec.ofNat w m ||| BitVec.ofNat w n := by
  apply BitVec.eq_of_getLsbD_eq
  intro i hi
  simp [hi]

theorem ofNat_shiftLeft (w n s : Nat) : BitVec.ofNat w (n <<< s) = BitVec.ofNat w n <<< s := by
  apply BitVec.eq_of_toNat_eq
  simp [Nat.shiftLeft_eq, Nat.mod_mul_mod]

theorem setWidth_toBitVec (w : Nat) (b : UInt8) :
    b.toBitVec.setWidth w = BitVec.ofNat w b.toNat := by
  apply BitVec.eq_of_toNat_eq
  rw [BitVec.toNat_setWidth, BitVec.toNat_ofNat, UInt8.toNat_toBitVec]


/-- A group put in front of a number, as bits. -/
theorem group_add {b : Nat} (hb : b < 128) (n : Nat) : b + 128 * n = b ||| n <<< 7 := by
  rw [Nat.or_comm, ← Nat.shiftLeft_add_eq_or_of_lt (i := 7) hb, Nat.shiftLeft_eq]
  omega

end Varint
