import Mathlib.Data.List.Basic

/-!
# Bits packed eight to a signed `char`

The C++ idiom that writes a bit array into a `std::vector<char>` and reads it
back: bit `p` is bit `p % 8` of byte `p / 8`. A `char` is signed, so both
directions go through a promotion to a 32-bit `int`:

* `buffer[p / 8] |= b << (p % 8)` sign-extends the byte, ors the shifted bit
  in and truncates the result back to eight bits (`orBit`);
* `(buffer[p / 8] >> (p % 8)) & 1` shifts the sign-extended byte
  arithmetically (`shiftedBit`).

`bitAt_packBits` and `unpackBits_packBits` say that neither the truncation nor
the sign extension disturbs a bit, for every number of bits.
`packBits_unpackBits_iff` says which buffers come back when they are read and
written again.
-/

namespace BitPacking

/-! ## One byte -/

/-- `c |= b << s` for a `char c`. -/
def orBit (c : UInt8) (b : Bool) (s : Nat) : UInt8 :=
  ⟨((c.toBitVec.signExtend 32) ||| ((BitVec.ofBool b).setWidth 32 <<< s)).setWidth 8⟩

/-- `(c >> s) & 1` for a `char c`, converted to `bool`. -/
def shiftedBit (c : UInt8) (s : Nat) : Bool :=
  ((c.toBitVec.signExtend 32).sshiftRight s &&& 1#32) != 0#32

theorem getLsbD_orBit (c : UInt8) (b : Bool) {s j : Nat} (hj : j < 8) :
    (orBit c b s).toBitVec.getLsbD j = (c.toBitVec.getLsbD j || (b && decide (j = s))) := by
  have hshift : ((BitVec.ofBool b).setWidth 32 <<< s).getLsbD j = (b && decide (j = s)) := by
    rw [BitVec.getLsbD_shiftLeft, BitVec.getLsbD_setWidth, BitVec.getLsbD_ofBool]
    by_cases hjs : j = s
    · subst hjs
      simp
      omega
    · by_cases hlt : j < s
      · simp [hlt, hjs]
      · have hpos : j - s ≠ 0 := by omega
        simp [hjs, hpos]
  have hext : (c.toBitVec.signExtend 32).getLsbD j = c.toBitVec.getLsbD j := by
    rw [BitVec.getLsbD_signExtend]
    simp [hj, Nat.lt_of_lt_of_le hj (by decide : 8 ≤ 32)]
  simp only [orBit, BitVec.getLsbD_setWidth, hj, decide_true, Bool.true_and,
    BitVec.getLsbD_or, hext, hshift]

theorem shiftedBit_eq (c : UInt8) {s : Nat} (hs : s < 8) :
    shiftedBit c s = c.toBitVec.getLsbD s := by
  have hbit : ((c.toBitVec.signExtend 32).sshiftRight s).getLsbD 0 = c.toBitVec.getLsbD s := by
    rw [BitVec.getLsbD_sshiftRight, BitVec.getLsbD_signExtend]
    simp [hs, Nat.lt_of_lt_of_le hs (by decide : 8 ≤ 32)]
  rw [← hbit, shiftedBit]
  generalize (c.toBitVec.signExtend 32).sshiftRight s = x
  cases hx : x.getLsbD 0 with
  | false =>
    have hzero : x &&& 1#32 = 0#32 := by
      apply BitVec.eq_of_getLsbD_eq
      intro i hi
      rw [BitVec.getLsbD_and, BitVec.getLsbD_one]
      by_cases h0 : i = 0
      · rw [h0, hx, Bool.false_and, BitVec.getLsbD_zero]
      · simp [h0]
    simp [hzero]
  | true =>
    have hone : x &&& 1#32 ≠ 0#32 := by
      intro h
      have := congrArg (fun y : BitVec 32 => y.getLsbD 0) h
      simp only [BitVec.getLsbD_and, hx] at this
      exact absurd this (by decide)
    simpa using hone

/-- `(c & (1 << s)) != 0` for a `char c`. -/
def maskedBit (c : UInt8) (s : Nat) : Bool :=
  (c.toBitVec.signExtend 32 &&& 1#32 <<< s) != 0#32

theorem maskedBit_eq (c : UInt8) {s : Nat} (hs : s < 8) :
    maskedBit c s = c.toBitVec.getLsbD s := by
  have hbit (i : Nat) (hi : i < 32) :
      (c.toBitVec.signExtend 32 &&& 1#32 <<< s).getLsbD i =
        (decide (i = s) && c.toBitVec.getLsbD s) := by
    rw [BitVec.getLsbD_and, BitVec.getLsbD_signExtend, BitVec.getLsbD_shiftLeft,
      BitVec.getLsbD_one]
    by_cases his : i = s
    · subst his
      simp [hi, hs]
    · rcases Nat.lt_or_ge i s with hlt | hge
      · simp [hlt, his]
      · have hpos : i - s ≠ 0 := by omega
        simp [his, hpos]
  cases hc : c.toBitVec.getLsbD s with
  | false =>
    have hzero : c.toBitVec.signExtend 32 &&& 1#32 <<< s = 0#32 := by
      apply BitVec.eq_of_getLsbD_eq
      intro i hi
      rw [hbit i hi, hc, Bool.and_false, BitVec.getLsbD_zero]
    simp [maskedBit, hzero]
  | true =>
    have hne : c.toBitVec.signExtend 32 &&& 1#32 <<< s ≠ 0#32 := by
      intro h
      have hset := hbit s (by omega)
      rw [h, hc, BitVec.getLsbD_zero] at hset
      simp at hset
    simpa [maskedBit] using hne

/-! ## The buffer -/

/-- Bit `p` of a buffer. -/
def bitAt (buffer : List UInt8) (p : Nat) : Bool :=
  (buffer.getD (p / 8) 0).toBitVec.getLsbD (p % 8)

/-- The write loop over `p = 0, …, n - 1`. -/
def packBits (bit : Nat → Bool) (n : Nat) (buffer : List UInt8) : List UInt8 :=
  (List.range n).foldl
    (fun buffer p => buffer.modify (p / 8) fun c => orBit c (bit p) (p % 8)) buffer

theorem packBits_succ (bit : Nat → Bool) (n : Nat) (buffer : List UInt8) :
    packBits bit (n + 1) buffer =
      (packBits bit n buffer).modify (n / 8) fun c => orBit c (bit n) (n % 8) := by
  simp [packBits, List.range_succ]

@[simp] theorem length_packBits (bit : Nat → Bool) (n : Nat) (buffer : List UInt8) :
    (packBits bit n buffer).length = buffer.length := by
  induction n with
  | zero => simp [packBits]
  | succ n ih => rw [packBits_succ, List.length_modify, ih]

theorem bitAt_modify {buffer : List UInt8} {p : Nat} (h : p / 8 < buffer.length) (b : Bool)
    (q : Nat) :
    bitAt (buffer.modify (p / 8) fun c => orBit c b (p % 8)) q =
      (bitAt buffer q || (b && decide (q = p))) := by
  have hq : q % 8 < 8 := Nat.mod_lt _ (by decide)
  rw [bitAt, bitAt, List.getD_eq_getElem?_getD, List.getD_eq_getElem?_getD,
    List.getElem?_modify]
  by_cases hbyte : p / 8 = q / 8
  · have hsome : buffer[q / 8]? = some buffer[q / 8] :=
      List.getElem?_eq_getElem (hbyte ▸ h)
    have hiff : q % 8 = p % 8 ↔ q = p := by omega
    rw [hsome]
    simp only [if_pos hbyte, Option.map_eq_map, Option.map_some, Option.getD_some]
    rw [getLsbD_orBit _ _ hq]
    simp only [hiff]
  · have hne : q ≠ p := fun h => hbyte (by rw [h])
    simp [if_neg hbyte, hne]

/-- The invariant of the write loop: after `n` rounds the bits below `n` have
been or-ed into the buffer and no other bit has changed. -/
theorem bitAt_packBits_of_le (bit : Nat → Bool) {n : Nat} {buffer : List UInt8}
    (h : n ≤ 8 * buffer.length) (q : Nat) :
    bitAt (packBits bit n buffer) q = (bitAt buffer q || (decide (q < n) && bit q)) := by
  induction n with
  | zero => simp [packBits]
  | succ n ih =>
    have hbyte : n / 8 < (packBits bit n buffer).length := by
      rw [length_packBits]
      omega
    rw [packBits_succ, bitAt_modify hbyte, ih (Nat.le_of_succ_le h)]
    by_cases hqn : q = n
    · subst hqn
      simp
    · have hlt : q < n + 1 ↔ q < n := by omega
      simp [hqn, hlt]

theorem bitAt_replicate_zero (k q : Nat) : bitAt (List.replicate k 0) q = false := by
  have h : (List.replicate k (0 : UInt8)).getD (q / 8) 0 = 0 := by
    rw [List.getD_eq_getElem?_getD, List.getElem?_replicate]
    split <;> rfl
  rw [bitAt, h]
  simp

theorem bitAt_packBits (bit : Nat → Bool) (n q : Nat) :
    bitAt (packBits bit n (List.replicate ((n + 7) / 8) 0)) q = (decide (q < n) && bit q) := by
  rw [bitAt_packBits_of_le bit (by rw [List.length_replicate]; omega), bitAt_replicate_zero,
    Bool.false_or]

/-! ## Back into a bit array -/

/-- Assign one bit of a bit array. -/
def setBit {n : Nat} (x : BitVec n) (i : Nat) (b : Bool) : BitVec n :=
  if b then x ||| BitVec.twoPow n i else x &&& ~~~ BitVec.twoPow n i

theorem getLsbD_setBit {n : Nat} (x : BitVec n) {i : Nat} (hi : i < n) (b : Bool) (j : Nat) :
    (setBit x i b).getLsbD j = if j = i then b else x.getLsbD j := by
  by_cases hji : j = i
  · subst hji
    cases b <;> simp [setBit, hi]
  · have hne : i ≠ j := fun h => hji h.symm
    cases b with
    | false =>
      by_cases hj : j < n
      · simp [setBit, hji, hj]
      · simp [setBit, hji, BitVec.getLsbD_of_ge _ _ (Nat.le_of_not_lt hj)]
    | true => simp [setBit, hji, hne]

/-- The read loop over `i = 0, …, n - 1`. -/
def unpackBits (n : Nat) (buffer : List UInt8) : BitVec n :=
  (List.range n).foldl
    (fun x i => setBit x i (shiftedBit (buffer.getD (i / 8) 0) (i % 8))) 0

theorem getLsbD_foldl_setBit {n : Nat} (bit : Nat → Bool) {k : Nat} (hk : k ≤ n) (x : BitVec n)
    (j : Nat) :
    ((List.range k).foldl (fun x i => setBit x i (bit i)) x).getLsbD j =
      if j < k then bit j else x.getLsbD j := by
  induction k with
  | zero => simp
  | succ k ih =>
    rw [List.range_succ, List.foldl_append, List.foldl_cons, List.foldl_nil,
      getLsbD_setBit _ (by omega), ih (by omega)]
    by_cases hjk : j = k
    · subst hjk
      simp
    · have hlt : j < k + 1 ↔ j < k := by omega
      simp [hjk, hlt]

theorem getLsbD_unpackBits {n : Nat} (buffer : List UInt8) {j : Nat} (hj : j < n) :
    (unpackBits n buffer).getLsbD j = bitAt buffer j := by
  have hmod : j % 8 < 8 := Nat.mod_lt _ (by decide)
  rw [unpackBits, getLsbD_foldl_setBit _ (Nat.le_refl n), if_pos hj, shiftedBit_eq _ hmod, bitAt]

/-- Reading back what the write loop produced gives the same bits. -/
theorem unpackBits_packBits {n : Nat} (x : BitVec n) :
    unpackBits n (packBits x.getLsbD n (List.replicate ((n + 7) / 8) 0)) = x := by
  apply BitVec.eq_of_getLsbD_eq
  intro j hj
  rw [getLsbD_unpackBits _ hj, bitAt_packBits]
  simp [hj]

/-! ## Back into a buffer -/

/-- Two buffers of one length with the same bits are the same buffer. -/
theorem eq_of_bitAt {a b : List UInt8} (hlen : a.length = b.length)
    (h : ∀ p, bitAt a p = bitAt b p) : a = b := by
  refine List.ext_getElem hlen fun k ha hb => ?_
  apply UInt8.toBitVec_inj.mp
  apply BitVec.eq_of_getLsbD_eq
  intro i hi
  have hbit := h (8 * k + i)
  have hbyte : (8 * k + i) / 8 = k := by omega
  have hmod : (8 * k + i) % 8 = i := by omega
  rw [bitAt, bitAt, hbyte, hmod, List.getD_eq_getElem?_getD, List.getD_eq_getElem?_getD,
    List.getElem?_eq_getElem ha, List.getElem?_eq_getElem hb] at hbit
  exact hbit

/-- A buffer comes back exactly if it has the right length and no bit set beyond
the last one that is read. -/
theorem packBits_unpackBits_iff (n : Nat) (buffer : List UInt8) :
    packBits (unpackBits n buffer).getLsbD n (List.replicate ((n + 7) / 8) 0) = buffer ↔
      buffer.length = (n + 7) / 8 ∧ ∀ p, n ≤ p → bitAt buffer p = false := by
  have hbits : ∀ p, bitAt (packBits (unpackBits n buffer).getLsbD n
      (List.replicate ((n + 7) / 8) 0)) p = (decide (p < n) && bitAt buffer p) := by
    intro p
    rw [bitAt_packBits]
    by_cases hp : p < n
    · rw [getLsbD_unpackBits _ hp]
    · simp [hp]
  constructor
  · intro h
    refine ⟨?_, fun p hp => ?_⟩
    · rw [← h, length_packBits, List.length_replicate]
    · rw [← h, hbits, decide_eq_false (Nat.not_lt.mpr hp), Bool.false_and]
  · rintro ⟨hlen, hpad⟩
    refine eq_of_bitAt (by rw [length_packBits, List.length_replicate, hlen]) fun p => ?_
    rw [hbits]
    by_cases hp : p < n
    · rw [decide_eq_true hp, Bool.true_and]
    · rw [hpad p (Nat.not_lt.mp hp), Bool.and_false]

end BitPacking
