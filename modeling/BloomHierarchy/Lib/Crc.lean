import Mathlib

/-!
# Cyclic redundancy checks, low bit first

A register of `w` bits divides a stream of bits by a polynomial, whose
coefficients are the bits of `poly` with the highest power at bit `0`. A bit is
added to bit `0` of the register, and the register moves down by one place
(`feed`).

Moving down is linear in exclusive or (`shifts_xor`), and the places above the
lowest `n` only move (`shifts_split`). Both together are what implementations by
tables rest on: the remainder of a word is put together from the remainders of
its parts, and these are a table with one entry for each part (`table`).

With a polynomial whose bit `w - 1` is set, moving down can be undone
(`shifts_injective`), so a change within `w` bits is never lost (`feed_bits_injective`).
-/

namespace Crc

variable {w : Nat}

/-! ## The register -/

/-- The register moves down by one place. -/
def shift (poly c : BitVec w) : BitVec w :=
  if c.getLsbD 0 then (c >>> 1) ^^^ poly else c >>> 1

def shifts (poly : BitVec w) (n : Nat) : BitVec w → BitVec w :=
  (shift poly)^[n]

/-- The register takes in bits, the first one first. -/
def feed (poly c : BitVec w) (bits : List Bool) : BitVec w :=
  bits.foldl (fun c b => shift poly (c ^^^ (BitVec.ofBool b).setWidth w)) c

/-- The lowest `n` bits, from the lowest one on. -/
def bits {v : Nat} (n : Nat) (x : BitVec v) : List Bool :=
  (List.range n).map x.getLsbD

/-- The lowest `n` places; the others are cleared. -/
def low (n : Nat) (x : BitVec w) : BitVec w :=
  (x.setWidth n).setWidth w

theorem getLsbD_low (n : Nat) (x : BitVec w) (i : Nat) :
    (low n x).getLsbD i = (decide (i < n) && x.getLsbD i) := by
  by_cases hi : i < w
  · simp [low, hi]
  · simp [low, BitVec.getLsbD_of_ge x i (by omega)]

/-! ## Linearity -/

theorem shift_xor (poly a b : BitVec w) :
    shift poly (a ^^^ b) = shift poly a ^^^ shift poly b := by
  have hcancel (x y : BitVec w) : x ^^^ y = (x ^^^ poly) ^^^ (y ^^^ poly) := by
    rw [BitVec.xor_comm y poly, BitVec.xor_assoc, ← BitVec.xor_assoc poly poly y,
      BitVec.xor_self, BitVec.zero_xor]
  unfold shift
  rw [BitVec.getLsbD_xor, BitVec.ushiftRight_xor_distrib]
  cases a.getLsbD 0 <;> cases b.getLsbD 0
  · rfl
  · exact BitVec.xor_assoc _ _ _
  · show (a >>> 1 ^^^ b >>> 1) ^^^ poly = (a >>> 1 ^^^ poly) ^^^ b >>> 1
    rw [BitVec.xor_assoc, BitVec.xor_comm (b >>> 1), BitVec.xor_assoc]
  · exact hcancel _ _

theorem shifts_succ (poly : BitVec w) (n : Nat) (x : BitVec w) :
    shifts poly (n + 1) x = shift poly (shifts poly n x) :=
  Function.iterate_succ_apply' _ n x

theorem shifts_xor (poly : BitVec w) (n : Nat) (a b : BitVec w) :
    shifts poly n (a ^^^ b) = shifts poly n a ^^^ shifts poly n b := by
  induction n with
  | zero => rfl
  | succ n ih => rw [shifts_succ, shifts_succ, shifts_succ, ih, shift_xor]

theorem shifts_add (poly : BitVec w) (m n : Nat) (x : BitVec w) :
    shifts poly (m + n) x = shifts poly m (shifts poly n x) :=
  Function.iterate_add_apply _ m n x

@[simp] theorem shifts_zero (poly : BitVec w) (n : Nat) : shifts poly n 0#w = 0#w :=
  Function.iterate_fixed (by simp [shift]) n

/-- A register whose lowest `n` places are clear only moves. -/
theorem shifts_of_low_clear (poly : BitVec w) {n : Nat} {x : BitVec w}
    (hclear : ∀ i < n, x.getLsbD i = false) : shifts poly n x = x >>> n := by
  induction n with
  | zero => exact (BitVec.ushiftRight_zero x).symm
  | succ n ih =>
    have hbit : (x >>> n).getLsbD 0 = false := by
      rw [BitVec.getLsbD_ushiftRight]
      exact hclear n (Nat.lt_succ_self n)
    have hmoved := ih fun i hi => hclear i (Nat.lt_succ_of_lt hi)
    rw [shifts_succ, hmoved, shift, hbit, BitVec.shiftRight_add]
    rfl

/-- The lowest `n` places are divided, the places above them move. -/
theorem shifts_split (poly : BitVec w) (n : Nat) (x : BitVec w) :
    shifts poly n x = shifts poly n (low n x) ^^^ x >>> n := by
  have hparts : x = low n x ^^^ (x ^^^ low n x) := by
    rw [BitVec.xor_comm x, ← BitVec.xor_assoc, BitVec.xor_self, BitVec.zero_xor]
  have hclear : ∀ i < n, (x ^^^ low n x).getLsbD i = false := by
    intro i hi
    simp [getLsbD_low, hi]
  have hmoved : (x ^^^ low n x) >>> n = x >>> n := by
    apply BitVec.eq_of_getLsbD_eq
    intro i _
    simp [getLsbD_low, show ¬ n + i < n by omega]
  conv => lhs; rw [hparts]
  rw [shifts_xor, shifts_of_low_clear poly hclear, hmoved]

/-- `shifts_split` with more steps behind it. -/
theorem shifts_add_split (poly : BitVec w) (m n : Nat) (x : BitVec w) :
    shifts poly (m + n) x = shifts poly (m + n) (low n x) ^^^ shifts poly m (x >>> n) := by
  rw [shifts_add, shifts_split poly n x, shifts_xor, ← shifts_add]

/-! ## Bits of a number -/

theorem feed_append (poly c : BitVec w) (xs ys : List Bool) :
    feed poly c (xs ++ ys) = feed poly (feed poly c xs) ys :=
  List.foldl_append

theorem bits_succ {v : Nat} (n : Nat) (x : BitVec v) :
    bits (n + 1) x = bits n x ++ [x.getLsbD n] := by
  simp [bits, List.range_succ]

theorem bits_add {v : Nat} (m n : Nat) (x : BitVec v) :
    bits (m + n) x = bits m x ++ bits n (x >>> m) := by
  simp [bits, List.range_add, Function.comp_def]

theorem bits_congr {u v n : Nat} {x : BitVec u} {y : BitVec v}
    (h : ∀ i < n, x.getLsbD i = y.getLsbD i) : bits n x = bits n y :=
  List.map_congr_left fun i hi => h i (List.mem_range.mp hi)

/-- The bits of a number are taken in all at once. -/
theorem feed_bits (poly c : BitVec w) {n : Nat} (hn : n ≤ w) (x : BitVec w) :
    feed poly c (bits n x) = shifts poly n (c ^^^ low n x) := by
  induction n with
  | zero =>
    have hlow : low 0 x = 0#w := by
      apply BitVec.eq_of_getLsbD_eq
      intro i _
      simp [getLsbD_low]
    rw [hlow, BitVec.xor_zero]
    rfl
  | succ n ih =>
    -- bit `n` stands at place `0` when the `n` bits in front of it are taken in
    have hbit : (low (n + 1) x ^^^ low n x).getLsbD n = x.getLsbD n := by
      simp [getLsbD_low]
    have hclear : ∀ i < n, (low (n + 1) x ^^^ low n x).getLsbD i = false := by
      intro i hi
      simp [getLsbD_low, hi, Nat.lt_succ_of_lt hi]
    have hlast : shifts poly n (low (n + 1) x ^^^ low n x) =
        (BitVec.ofBool (x.getLsbD n)).setWidth w := by
      rw [shifts_of_low_clear poly hclear]
      apply BitVec.eq_of_getLsbD_eq
      intro i hi
      rw [BitVec.getLsbD_ushiftRight]
      cases i with
      | zero => simpa [hi] using hbit
      | succ i => simp [getLsbD_low, show ¬ n + (i + 1) < n by omega]
    have hparts : c ^^^ low (n + 1) x = (c ^^^ low n x) ^^^ (low (n + 1) x ^^^ low n x) := by
      rw [BitVec.xor_comm (low (n + 1) x), BitVec.xor_assoc, ← BitVec.xor_assoc (low n x),
        BitVec.xor_self, BitVec.zero_xor]
    rw [bits_succ, feed_append, ih (by omega), hparts, shifts_succ,
      shifts_xor poly n (c ^^^ low n x), hlast]
    rfl

/-! ## Tables -/

/-- What becomes of each number below `2 ^ k` in `n` steps, put together from the powers of
two. -/
def table (poly : BitVec w) (n : Nat) : Nat → List (BitVec w)
  | 0 => [0#w]
  | k + 1 =>
    table poly n k ++
      (table poly n k).map (shifts poly n (BitVec.twoPow w k) ^^^ ·)

@[simp] theorem length_table (poly : BitVec w) (n k : Nat) : (table poly n k).length = 2 ^ k := by
  induction k with
  | zero => rfl
  | succ k ih => simp [table, ih, Nat.pow_succ, Nat.mul_two]

theorem ofNat_two_pow_add {k j : Nat} (hj : j < 2 ^ k) :
    BitVec.ofNat w (2 ^ k + j) = BitVec.twoPow w k ^^^ BitVec.ofNat w j := by
  apply BitVec.eq_of_getLsbD_eq
  intro i hi
  have hor : 2 ^ k + j = 2 ^ k ||| j := by
    simpa using Nat.two_pow_add_eq_or_of_lt hj 1
  rw [hor, BitVec.getLsbD_xor, BitVec.getLsbD_ofNat,
    BitVec.getLsbD_ofNat, BitVec.getLsbD_twoPow, Nat.testBit_or, Nat.testBit_two_pow]
  by_cases hik : k = i
  · subst hik
    simp [hi, Nat.testBit_lt_two_pow hj]
  · simp [hi, hik]

theorem getElem?_table (poly : BitVec w) (n : Nat) {k i : Nat} (hi : i < 2 ^ k) :
    (table poly n k)[i]? = some (shifts poly n (BitVec.ofNat w i)) := by
  induction k generalizing i with
  | zero =>
    obtain rfl : i = 0 := by omega
    simp [table]
  | succ k ih =>
    rw [table]
    by_cases hlow : i < 2 ^ k
    · rw [List.getElem?_append_left (by simpa using hlow), ih hlow]
    · obtain ⟨j, rfl⟩ := Nat.exists_eq_add_of_le (Nat.le_of_not_lt hlow)
      have hj : j < 2 ^ k := by
        rw [Nat.pow_succ] at hi
        omega
      rw [List.getElem?_append_right (by simp), List.getElem?_map, length_table,
        Nat.add_sub_cancel_left, ih hj, ofNat_two_pow_add hj, shifts_xor]
      rfl

/-! ## Changes are seen -/

theorem shift_eq_zero {poly : BitVec w} (htop : poly.getLsbD (w - 1) = true) {x : BitVec w}
    (h : shift poly x = 0#w) : x = 0#w := by
  have hw : w - 1 < w := BitVec.lt_of_getLsbD htop
  unfold shift at h
  split at h
  next =>
    -- the polynomial sets the highest place, which nothing else can do
    have hhigh := congrArg (·.getLsbD (w - 1)) h
    simp [htop, BitVec.getLsbD_of_ge x (1 + (w - 1)) (by omega)] at hhigh
  next hbit =>
    apply BitVec.eq_of_getLsbD_eq
    intro i _
    cases i with
    | zero => simpa using hbit
    | succ i => simpa [Nat.add_comm] using congrArg (·.getLsbD i) h

theorem shifts_injective {poly : BitVec w} (htop : poly.getLsbD (w - 1) = true) (n : Nat) :
    Function.Injective (shifts poly n) := by
  refine Function.Injective.iterate (fun a b hab => ?_) n
  have hzero : shift poly (a ^^^ b) = 0#w := by
    rw [shift_xor, hab, BitVec.xor_self]
  exact BitVec.xor_eq_zero_iff.mp (shift_eq_zero htop hzero)

theorem feed_injective {poly : BitVec w} (htop : poly.getLsbD (w - 1) = true)
    (bits : List Bool) : Function.Injective (feed poly · bits) := by
  induction bits with
  | nil => exact fun _ _ h => h
  | cons b bits ih =>
    intro c d h
    have hstep := shifts_injective htop 1 (ih h)
    simpa using congrArg (· ^^^ (BitVec.ofBool b).setWidth w) hstep

theorem bits_low (n : Nat) (x : BitVec w) : bits n (low n x) = bits n x :=
  bits_congr fun i hi => by rw [getLsbD_low, decide_eq_true hi, Bool.true_and]

theorem exists_bits {xs : List Bool} (hle : xs.length ≤ w) :
    ∃ x : BitVec w, bits xs.length x = xs := by
  refine ⟨(BitVec.ofBoolListLE xs).setWidth w, List.ext_getElem (by simp [bits]) ?_⟩
  intro i _ hi
  simp [bits, List.getElem?_eq_getElem hi, Nat.lt_of_lt_of_le hi hle]

/-- Two sequences of at most `w` bits, and of one length, leave different registers. -/
theorem feed_bits_injective {poly : BitVec w} (htop : poly.getLsbD (w - 1) = true)
    {c : BitVec w} {xs ys : List Bool} (hlen : ys.length = xs.length) (hle : xs.length ≤ w)
    (h : feed poly c xs = feed poly c ys) : xs = ys := by
  obtain ⟨x, hx⟩ := exists_bits hle
  obtain ⟨y, hy⟩ := exists_bits (hlen ▸ hle : ys.length ≤ w)
  rw [hlen] at hy
  rw [← hx, ← hy, feed_bits poly c hle, feed_bits poly c hle] at h
  have hlow : low xs.length x = low xs.length y :=
    (BitVec.xor_right_inj c).mp (shifts_injective htop _ h)
  rw [← hx, ← hy, ← bits_low, hlow, bits_low]

end Crc
