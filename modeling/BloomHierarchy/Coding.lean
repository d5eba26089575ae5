import BloomHierarchy.Dump
import BloomHierarchy.Lib.Varint

/-!
# Numbers in files (`util/coding`, `util/crc32c`)

The fixed-width and variable-width numbers that tables and logs are made of.
The writers return the bytes they append; the readers take the bytes between
`p` and `limit` and return the number with the bytes left, `none` where the
source returns `nullptr` or `false`.

Results:

1. the writers and readers of variable-width numbers are the two directions of
   the base-128 code (`encodeVarint32_eq`, `encodeVarint64_eq`,
   `getVarint32Ptr_eq`, `getVarint64Ptr_eq`), so that what was written is read
   back in front of anything (`getVarint32_append`, `getVarint64_append`);
2. a slice behind its length is read back (`getLengthPrefixedSlice_put`);
3. a stored checksum is unmasked to the checksum (`unmask_mask`).
-/

namespace BloomHierarchy

/-- `Status::Corruption(msg).ToString()`. -/
def corruption (msg : String) : Bytes :=
  ascii ("Corruption: " ++ msg).toList

/-! ## Fixed width -/

def encodeFixed32 (value : UInt32) : Bytes :=
  [value.toUInt8, (value >>> 8).toUInt8, (value >>> 16).toUInt8, (value >>> 24).toUInt8]

def decodeFixed32 : Bytes → UInt32
  | [b0, b1, b2, b3] =>
    b0.toUInt32 ||| (b1.toUInt32 <<< 8) ||| (b2.toUInt32 <<< 16) ||| (b3.toUInt32 <<< 24)
  | _ => 0

def putFixed32 (dst : Bytes) (value : UInt32) : Bytes :=
  dst ++ encodeFixed32 value

def putFixed64 (dst : Bytes) (value : UInt64) : Bytes :=
  dst ++ encodeFixed64 value

@[simp] theorem length_encodeFixed32 (value : UInt32) : (encodeFixed32 value).length = 4 := rfl

@[simp] theorem decodeFixed32_encodeFixed32 (value : UInt32) :
    decodeFixed32 (encodeFixed32 value) = value := by
  apply UInt32.toBitVec_inj.mp
  apply BitVec.eq_of_getLsbD_eq
  intro i hi
  -- bit i comes from byte i / 8 alone
  simp only [decodeFixed32, encodeFixed32, UInt32.toBitVec_or, UInt32.toBitVec_shiftLeft,
    UInt32.toBitVec_shiftRight, UInt8.toBitVec_toUInt32, UInt32.toBitVec_toUInt8,
    UInt32.toBitVec_ofNat, BitVec.getLsbD_or, BitVec.getLsbD_setWidth]
  grind

/-- `DecodeFixed32(data + offset)`. -/
def fixed32At (data : Bytes) (offset : Nat) : Nat :=
  (decodeFixed32 ((data.drop offset).take 4)).toNat

/-- Numbers of fixed width one behind the other. -/
theorem take_drop_flatMap_encodeFixed32 {l : List UInt32} {r : Nat} (hr : r < l.length)
    (tail : Bytes) :
    ((l.flatMap encodeFixed32 ++ tail).drop (r * 4)).take 4 = encodeFixed32 l[r] := by
  induction l generalizing r with
  | nil => cases hr
  | cons v l ih =>
    cases r with
    | zero => simp [encodeFixed32]
    | succ r =>
      rw [List.flatMap_cons, List.append_assoc, Nat.succ_mul, Nat.add_comm (r * 4) 4,
        ← List.drop_drop, List.drop_left' (length_encodeFixed32 v)]
      exact ih (Nat.lt_of_succ_lt_succ hr)

theorem length_flatMap_encodeFixed32 (l : List UInt32) :
    (l.flatMap encodeFixed32).length = l.length * 4 := by
  induction l with
  | nil => rfl
  | cons v l ih =>
    rw [List.flatMap_cons, List.length_append, length_encodeFixed32, ih, List.length_cons]
    omega

theorem foldl_putFixed32 (l : List UInt32) (dst : Bytes) :
    l.foldl putFixed32 dst = dst ++ l.flatMap encodeFixed32 := by
  induction l generalizing dst with
  | nil => simp
  | cons v l ih => simp [ih, putFixed32]

/-- A number in an array of them behind other bytes. -/
theorem fixed32At_append {front tail : Bytes} {l : List UInt32} {r : Nat} (hr : r < l.length) :
    fixed32At (front ++ (l.flatMap encodeFixed32 ++ tail)) (front.length + r * 4) =
      l[r].toNat := by
  rw [fixed32At, ← List.drop_drop, List.drop_left, take_drop_flatMap_encodeFixed32 hr,
    decodeFixed32_encodeFixed32]

/-! ## Variable width: the writers -/

def encodeVarint32 (v : UInt32) : Bytes :=
  if v < (1 : UInt32) <<< 7 then [v.toUInt8]
  else if v < (1 : UInt32) <<< 14 then [(v ||| 128).toUInt8, (v >>> 7).toUInt8]
  else if v < (1 : UInt32) <<< 21 then
    [(v ||| 128).toUInt8, (v >>> 7 ||| 128).toUInt8, (v >>> 14).toUInt8]
  else if v < (1 : UInt32) <<< 28 then
    [(v ||| 128).toUInt8, (v >>> 7 ||| 128).toUInt8, (v >>> 14 ||| 128).toUInt8,
      (v >>> 21).toUInt8]
  else
    [(v ||| 128).toUInt8, (v >>> 7 ||| 128).toUInt8, (v >>> 14 ||| 128).toUInt8,
      (v >>> 21 ||| 128).toUInt8, (v >>> 28).toUInt8]

def putVarint32 (dst : Bytes) (v : UInt32) : Bytes :=
  dst ++ encodeVarint32 v

/-- The loop, with the places left in the buffer before the last one. -/
def encodeVarint64Loop : Nat → UInt64 → Bytes
  | 0, v => [v.toUInt8]
  | k + 1, v =>
    if 128 ≤ v then (v ||| 128).toUInt8 :: encodeVarint64Loop k (v >>> 7) else [v.toUInt8]

/-- The buffer of the callers has ten bytes, and ten groups of seven bits hold any value. -/
def encodeVarint64 (v : UInt64) : Bytes :=
  encodeVarint64Loop 9 v

def putVarint64 (dst : Bytes) (v : UInt64) : Bytes :=
  dst ++ encodeVarint64 v

def putLengthPrefixedSlice (dst value : Bytes) : Bytes :=
  putVarint32 dst (UInt32.ofNat value.length) ++ value

theorem encodeVarint32_eq (v : UInt32) : encodeVarint32 v = Varint.encode 4 v.toNat := by
  have hlt := v.toNat_lt
  have h7 : (v >>> 7).toNat = v.toNat / 128 := by
    simp [UInt32.toNat_shiftRight, Nat.shiftRight_eq_div_pow]
  have h14 : (v >>> 14).toNat = v.toNat / 128 / 128 := by
    simp [UInt32.toNat_shiftRight, Nat.shiftRight_eq_div_pow, Nat.div_div_eq_div_mul]
  have h21 : (v >>> 21).toNat = v.toNat / 128 / 128 / 128 := by
    simp [UInt32.toNat_shiftRight, Nat.shiftRight_eq_div_pow, Nat.div_div_eq_div_mul]
  have h28 : (v >>> 28).toNat = v.toNat / 128 / 128 / 128 / 128 := by
    simp [UInt32.toNat_shiftRight, Nat.shiftRight_eq_div_pow, Nat.div_div_eq_div_mul]
  simp only [encodeVarint32, Varint.encode, Varint.toUInt8_or_128_32, UInt32.lt_iff_toNat_lt]
  simp only [Varint.toUInt8_eq_ofNat32, h7, h14, h21, h28]
  have e7 : ((1 : UInt32) <<< 7).toNat = 128 := rfl
  have e14 : ((1 : UInt32) <<< 14).toNat = 16384 := rfl
  have e21 : ((1 : UInt32) <<< 21).toNat = 2097152 := rfl
  have e28 : ((1 : UInt32) <<< 28).toNat = 268435456 := rfl
  rw [e7, e14, e21, e28]
  split
  · rfl
  split
  · rw [if_pos (by omega)]
  split
  · rw [if_neg (by omega), if_pos (by omega)]
  split
  · rw [if_neg (by omega), if_neg (by omega), if_pos (by omega)]
  · rw [if_neg (by omega), if_neg (by omega), if_neg (by omega)]

theorem encodeVarint64Loop_eq (k : Nat) (v : UInt64) :
    encodeVarint64Loop k v = Varint.encode k v.toNat := by
  induction k generalizing v with
  | zero => simp only [encodeVarint64Loop, Varint.encode, Varint.toUInt8_eq_ofNat64]
  | succ k ih =>
    have hshift : (v >>> 7).toNat = v.toNat / 128 := by
      simp [UInt64.toNat_shiftRight, Nat.shiftRight_eq_div_pow]
    simp only [encodeVarint64Loop, Varint.encode, Varint.toUInt8_or_128_64, ih, hshift,
      UInt64.le_iff_toNat_le, Varint.toUInt8_eq_ofNat64 v]
    by_cases h : v.toNat < 128
    · rw [if_neg (by simpa using h), if_pos h]
    · rw [if_pos (by simpa using h), if_neg h]

theorem encodeVarint64_eq (v : UInt64) : encodeVarint64 v = Varint.encode 9 v.toNat :=
  encodeVarint64Loop_eq 9 v

/-! ## Variable width: the readers -/

/-- The loop of both readers, over the bytes from `p` to `limit`. -/
def getVarintLoop {w : Nat} (maxShift : Nat) (shift : Nat) (result : BitVec w) :
    Bytes → Option (BitVec w × Bytes)
  | [] => none
  | byte :: p =>
    if shift ≤ maxShift then
      if byte &&& 128 ≠ 0 then
        -- more bytes are present
        getVarintLoop maxShift (shift + 7)
          (result ||| (byte &&& 127).toBitVec.setWidth w <<< shift) p
      else some (result ||| byte.toBitVec.setWidth w <<< shift, p)
    else none

def getVarint32PtrFallback (p : Bytes) : Option (UInt32 × Bytes) :=
  (getVarintLoop 28 0 0#32 p).map fun r => (UInt32.ofBitVec r.1, r.2)

def getVarint32Ptr (p : Bytes) : Option (UInt32 × Bytes) :=
  match p with
  | [] => getVarint32PtrFallback []
  | result :: rest =>
    if result &&& 128 = 0 then some (result.toUInt32, rest)
    else getVarint32PtrFallback (result :: rest)

def getVarint32 (input : Bytes) : Option (UInt32 × Bytes) :=
  getVarint32Ptr input

def getVarint64Ptr (p : Bytes) : Option (UInt64 × Bytes) :=
  (getVarintLoop 63 0 0#64 p).map fun r => (UInt64.ofBitVec r.1, r.2)

def getVarint64 (input : Bytes) : Option (UInt64 × Bytes) :=
  getVarint64Ptr input

/-- The slice and the input left behind it. -/
def getLengthPrefixedSlice (input : Bytes) : Option (Bytes × Bytes) := do
  let (len, input) ← getVarint32 input
  if input.length < len.toNat then none
  else some (input.take len.toNat, input.drop len.toNat)

/-- The loop collects the number that is written in the `k` groups it may still read. -/
theorem getVarintLoop_eq {w maxShift : Nat} (k : Nat) {shift : Nat}
    (hmax : ∀ j, shift + 7 * j ≤ maxShift ↔ j < k) (result : BitVec w) (p : Bytes) :
    getVarintLoop maxShift shift result p =
      (Varint.decode k p).map fun r => (result ||| BitVec.ofNat w (r.1 <<< shift), r.2) := by
  induction k generalizing shift result p with
  | zero =>
    cases p with
    | nil => rfl
    | cons byte p =>
      have hstop : ¬ shift ≤ maxShift := by
        have := hmax 0
        omega
      simp [getVarintLoop, hstop, Varint.decode]
  | succ k ih =>
    cases p with
    | nil => rfl
    | cons byte p =>
      have hgo : shift ≤ maxShift := by
        have := hmax 0
        omega
      have hnext : ∀ j, shift + 7 + 7 * j ≤ maxShift ↔ j < k := by
        intro j
        have := hmax (j + 1)
        omega
      by_cases hlast : byte.toNat < 128
      · have hbit : byte &&& 128 = 0 := (Varint.and_128_eq_zero_iff byte).mpr hlast
        simp only [getVarintLoop, if_pos hgo, hbit, ne_eq, not_true_eq_false, if_false,
          Varint.decode, if_pos hlast, Option.map_some, Varint.setWidth_toBitVec,
          Varint.ofNat_shiftLeft]
      · have hbit : byte &&& 128 ≠ 0 := fun h =>
          hlast ((Varint.and_128_eq_zero_iff byte).mp h)
        have hgroup : byte.toNat - 128 = byte.toNat % 128 := by
          have := byte.toNat_lt
          omega
        simp only [getVarintLoop, if_pos hgo, if_pos hbit, Varint.decode, if_neg hlast,
          Option.map_map, ih hnext, Varint.setWidth_toBitVec, Varint.toNat_and_127]
        refine Option.map_congr fun r _ => ?_
        have hlow : byte.toNat % 128 < 128 := Nat.mod_lt _ (by decide)
        rw [Function.comp_apply, hgroup, Varint.group_add hlow, Nat.shiftLeft_or_distrib,
          ← Nat.shiftLeft_add, Nat.add_comm 7 shift, Varint.ofNat_or, ← BitVec.or_assoc,
          Varint.ofNat_shiftLeft w (byte.toNat % 128)]

theorem getVarint32PtrFallback_eq (p : Bytes) :
    getVarint32PtrFallback p =
      (Varint.decode 5 p).map fun r => (UInt32.ofNat r.1, r.2) := by
  rw [getVarint32PtrFallback, getVarintLoop_eq 5 (by omega), Option.map_map]
  congr 1
  funext r
  simp only [Function.comp_apply, Nat.shiftLeft_zero, BitVec.zero_or]
  rfl

/-- The path for one byte gives what the loop gives. -/
theorem getVarint32Ptr_eq (p : Bytes) :
    getVarint32Ptr p = (Varint.decode 5 p).map fun r => (UInt32.ofNat r.1, r.2) := by
  cases p with
  | nil => rfl
  | cons byte p =>
    show (if byte &&& 128 = 0 then some (byte.toUInt32, p)
      else getVarint32PtrFallback (byte :: p)) = _
    split
    next h =>
      have hlast := (Varint.and_128_eq_zero_iff byte).mp h
      rw [Varint.decode_cons_of_lt hlast, Option.map_some, UInt32.ofNat_uInt8ToNat]
    next => exact getVarint32PtrFallback_eq (byte :: p)

theorem getVarint64Ptr_eq (p : Bytes) :
    getVarint64Ptr p = (Varint.decode 10 p).map fun r => (UInt64.ofNat r.1, r.2) := by
  rw [getVarint64Ptr, getVarintLoop_eq 10 (by omega), Option.map_map]
  congr 1
  funext r
  simp only [Function.comp_apply, Nat.shiftLeft_zero, BitVec.zero_or]
  rfl

@[simp] theorem getVarint32_append (v : UInt32) (rest : Bytes) :
    getVarint32 (encodeVarint32 v ++ rest) = some (v, rest) := by
  have hfits : v.toNat < 128 ^ (4 + 1) := Nat.lt_of_lt_of_le v.toNat_lt (by decide)
  rw [getVarint32, getVarint32Ptr_eq, encodeVarint32_eq, Varint.decode_encode hfits]
  simp

@[simp] theorem getVarint64_append (v : UInt64) (rest : Bytes) :
    getVarint64 (encodeVarint64 v ++ rest) = some (v, rest) := by
  have hfits : v.toNat < 128 ^ (9 + 1) := Nat.lt_of_lt_of_le v.toNat_lt (by decide)
  rw [getVarint64, getVarint64Ptr_eq, encodeVarint64_eq, Varint.decode_encode hfits]
  simp

theorem length_lt_of_getVarint32Ptr {p rest : Bytes} {v : UInt32}
    (h : getVarint32Ptr p = some (v, rest)) : rest.length < p.length := by
  rw [getVarint32Ptr_eq] at h
  obtain ⟨⟨n, rest'⟩, hdecode, heq⟩ := Option.map_eq_some_iff.mp h
  obtain ⟨-, rfl⟩ : _ ∧ rest' = rest := by simpa using heq
  exact Varint.length_lt_of_decode hdecode

theorem length_lt_of_getLengthPrefixedSlice {input slice rest : Bytes}
    (h : getLengthPrefixedSlice input = some (slice, rest)) : rest.length < input.length := by
  obtain ⟨⟨len, behind⟩, hlen, hslice⟩ := Option.bind_eq_some_iff.mp h
  have hread := length_lt_of_getVarint32Ptr hlen
  dsimp only at hslice
  split at hslice
  next => cases hslice
  next =>
    cases hslice
    rw [List.length_drop]
    omega

theorem getLengthPrefixedSlice_put {value : Bytes} (hsize : value.length < 2 ^ 32)
    (rest : Bytes) :
    getLengthPrefixedSlice (putLengthPrefixedSlice [] value ++ rest) = some (value, rest) := by
  have hlen : (UInt32.ofNat value.length).toNat = value.length :=
    UInt32.toNat_ofNat_of_lt' hsize
  simp [getLengthPrefixedSlice, putLengthPrefixedSlice, putVarint32, hlen]

/-! ## Checksums -/

namespace Crc32c

def kMaskDelta : UInt32 := 0xa282ead8

def mask (crc : UInt32) : UInt32 :=
  (crc >>> 15 ||| crc <<< 17) + kMaskDelta

def unmask (maskedCrc : UInt32) : UInt32 :=
  let rot := maskedCrc - kMaskDelta
  rot >>> 17 ||| rot <<< 15

theorem unmask_mask (crc : UInt32) : unmask (mask crc) = crc := by
  simp only [unmask, mask, UInt32.add_sub_cancel]
  apply UInt32.toBitVec_inj.mp
  apply BitVec.eq_of_getLsbD_eq
  intro i hi
  simp only [UInt32.toBitVec_or, UInt32.toBitVec_shiftLeft, UInt32.toBitVec_shiftRight,
    UInt32.toBitVec_ofNat, BitVec.getLsbD_or]
  grind

end Crc32c

end BloomHierarchy
