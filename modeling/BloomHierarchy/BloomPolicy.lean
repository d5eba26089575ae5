import BloomHierarchy.Comparator
import BloomHierarchy.Lib.BitPacking
import BloomHierarchy.Lib.PositionFilter

/-!
# The filters of a table (`util/bloom`, `util/hash`, `db/dbformat`)

A filter policy summarises a list of keys; a key of the list must match the
summary. `FilterPolicy` carries that promise of the header, so that a table can
rely on any policy. Two policies are values of that type: the Bloom filter of the
store, whose filters hold exactly the probe bits of their keys
(`BloomFilterPolicy.keyMayMatch_iff`), and the policy for internal keys, which
looks at user keys only.
-/

namespace BloomHierarchy

open BitPacking PositionFilter

structure FilterPolicy where
  name : Bytes
  length_name : name.length < 2 ^ 31
  /-- The bytes that are appended. -/
  createFilter : List Bytes → Bytes
  keyMayMatch : (key filter : Bytes) → Bool
  mayMatch_of_mem : ∀ {keys key}, key ∈ keys → keyMayMatch key (createFilter keys) = true

/-! ## The hash function -/

/-- The bytes that do not fill a word. -/
def hashRest (m r : UInt32) (h : UInt32) (data : Bytes) : UInt32 :=
  let mix (h : UInt32) : UInt32 := h * m ^^^ (h * m) >>> r
  match data with
  | [d0, d1, d2] => mix (h + (d2.toUInt32 <<< 16) + (d1.toUInt32 <<< 8) + d0.toUInt32)
  | [d0, d1] => mix (h + (d1.toUInt32 <<< 8) + d0.toUInt32)
  | [d0] => mix (h + d0.toUInt32)
  | _ => h

/-- Four bytes at a time. -/
def hashWords (m r : UInt32) : UInt32 → Bytes → UInt32
  | h, b0 :: b1 :: b2 :: b3 :: data =>
    let h := (h + decodeFixed32 [b0, b1, b2, b3]) * m
    hashWords m r (h ^^^ h >>> 16) data
  | h, data => hashRest m r h data

def hash (data : Bytes) (seed : UInt32) : UInt32 :=
  let m : UInt32 := 0xc6a4a793
  hashWords m 24 (seed ^^^ UInt32.ofNat data.length * m) data

def bloomHash (key : Bytes) : UInt32 :=
  hash key 0xbc9f1d34

/-! ## The Bloom filter -/

structure BloomFilterPolicy where
  bitsPerKey : Nat
  k : Nat
  k_le : k ≤ 30

namespace BloomFilterPolicy

/-- The constructor. `bits_per_key * 0.69` is computed in floating point; up to the bound of
30 it is the quotient below. -/
def new (bitsPerKey : Nat) : BloomFilterPolicy where
  bitsPerKey := bitsPerKey
  k := min 30 (max 1 (bitsPerKey * 69 / 100))
  k_le := Nat.min_le_left _ _

/-- The bit positions of the double hashing, `j` of them from `h` on. -/
def bitPositions (bits : Nat) (delta : UInt32) : Nat → UInt32 → List Nat
  | 0, _ => []
  | j + 1, h => h.toNat % bits :: bitPositions bits delta j (h + delta)

/-- The bit positions of a key; the second hash is the first one rotated. -/
def probes (bits k : Nat) (key : Bytes) : List Nat :=
  let h := bloomHash key
  bitPositions bits (h >>> 17 ||| h <<< 15) k h

/-- The bytes of a filter for `n` keys. -/
def filterBytes (policy : BloomFilterPolicy) (n : Nat) : Nat :=
  (max 64 (n * policy.bitsPerKey) + 7) / 8

def setBits (array : Bytes) (positions : List Nat) : Bytes :=
  positions.foldl (fun array bitpos =>
    array.modify (bitpos / 8) fun c => orBit c true (bitpos % 8)) array

def createFilter (policy : BloomFilterPolicy) (keys : List Bytes) : Bytes :=
  let bytes := policy.filterBytes keys.length
  let array := List.replicate bytes 0
  let array := keys.foldl (fun array key => setBits array (probes (bytes * 8) policy.k key)) array
  -- the number of probes is remembered in the filter
  array ++ [UInt8.ofNat policy.k]

def keyMayMatch (key bloomFilter : Bytes) : Bool :=
  let len := bloomFilter.length
  if len < 2 then false
  else
    let bits := (len - 1) * 8
    -- the number of probes that was used for this filter
    let k := (bloomFilter.getD (len - 1) 0).toNat
    if k > 30 then true
    else
      (probes bits k key).all fun bitpos =>
        maskedBit (bloomFilter.getD (bitpos / 8) 0) (bitpos % 8)

/-! ## What a filter holds -/

theorem length_setBits (array : Bytes) (positions : List Nat) :
    (setBits array positions).length = array.length := by
  induction positions generalizing array with
  | nil => rfl
  | cons p positions ih => exact (ih _).trans (List.length_modify _ _ _)

theorem bitAt_setBits {array : Bytes} {positions : List Nat}
    (h : ∀ p ∈ positions, p < array.length * 8) (q : Nat) :
    bitAt (setBits array positions) q = (bitAt array q || decide (q ∈ positions)) := by
  induction positions generalizing array with
  | nil => simp [setBits]
  | cons p positions ih =>
    have hp : p / 8 < array.length := by
      have := h p List.mem_cons_self
      omega
    have hrest : ∀ p' ∈ positions,
        p' < (array.modify (p / 8) fun c => orBit c true (p % 8)).length * 8 := by
      intro p' hp'
      rw [List.length_modify]
      exact h p' (List.mem_cons_of_mem _ hp')
    rw [setBits, List.foldl_cons, ← setBits, ih hrest, bitAt_modify hp]
    simp [Bool.or_assoc]

theorem bitPositions_lt {bits : Nat} (hbits : 0 < bits) (delta : UInt32) (k : Nat) (h : UInt32) :
    ∀ p ∈ bitPositions bits delta k h, p < bits := by
  induction k generalizing h with
  | zero => simp [bitPositions]
  | succ k ih =>
    intro p hp
    rcases List.mem_cons.mp hp with rfl | hp
    · exact Nat.mod_lt _ hbits
    · exact ih (h + delta) p hp

/-- The probe positions of a key, as a set. -/
def probeSet (bits k : Nat) (key : Bytes) : Set Nat :=
  {p | p ∈ probes bits k key}

theorem length_fold (bits k : Nat) (keys : List Bytes) (array : Bytes) :
    (keys.foldl (fun array key => setBits array (probes bits k key)) array).length =
      array.length := by
  induction keys generalizing array with
  | nil => rfl
  | cons key keys ih => rw [List.foldl_cons, ih, length_setBits]

theorem bitAt_fold {array : Bytes} {bits : Nat} (hbits : 0 < bits)
    (hlen : bits = array.length * 8) (k : Nat) (keys : List Bytes) (q : Nat) :
    bitAt (keys.foldl (fun array key => setBits array (probes bits k key)) array) q = true ↔
      bitAt array q = true ∨ q ∈ built (probeSet bits k) keys := by
  induction keys generalizing array with
  | nil => simp [built_nil]
  | cons key keys ih =>
    have hinside : ∀ p ∈ probes bits k key, p < array.length * 8 := by
      rw [← hlen]
      exact bitPositions_lt hbits _ _ _
    rw [List.foldl_cons, ih (by rw [length_setBits]; exact hlen), bitAt_setBits hinside,
      built_cons, Set.mem_union, Bool.or_eq_true, decide_eq_true_iff, or_assoc]
    rfl

theorem filterBytes_pos (policy : BloomFilterPolicy) (n : Nat) : 0 < policy.filterBytes n := by
  unfold filterBytes
  omega

/-- A filter matches a key exactly if it holds all of the key's probes, and it holds the
probes of its keys and no others. -/
theorem keyMayMatch_iff (policy : BloomFilterPolicy) (keys : List Bytes) (key : Bytes) :
    keyMayMatch key (policy.createFilter keys) = true ↔
      Accepts (probeSet (policy.filterBytes keys.length * 8) policy.k)
        (built (probeSet (policy.filterBytes keys.length * 8) policy.k) keys) key := by
  have hpos := policy.filterBytes_pos keys.length
  unfold createFilter
  dsimp only
  generalize policy.filterBytes keys.length = bytes at hpos ⊢
  let array := keys.foldl (fun array key => setBits array (probes (bytes * 8) policy.k key))
    (List.replicate bytes 0)
  have hlen : array.length = bytes := (length_fold _ _ _ _).trans List.length_replicate
  have hk : ((array ++ [UInt8.ofNat policy.k]).getD bytes 0).toNat = policy.k := by
    rw [List.getD_append_right _ _ _ _ hlen.le, hlen, Nat.sub_self]
    have := policy.k_le
    exact UInt8.toNat_ofNat_of_lt' (show policy.k < 256 by omega)
  have hbits : 0 < bytes * 8 := by omega
  have hbit (p : Nat) (hp : p < bytes * 8) :
      maskedBit ((array ++ [UInt8.ofNat policy.k]).getD (p / 8) 0) (p % 8) = true ↔
        p ∈ built (probeSet (bytes * 8) policy.k) keys := by
    have hin : p / 8 < array.length := by omega
    have hfold := bitAt_fold hbits (show bytes * 8 = (List.replicate bytes (0 : UInt8)).length * 8
      by rw [List.length_replicate]) policy.k keys p
    rw [bitAt_replicate_zero] at hfold
    rw [maskedBit_eq _ (Nat.mod_lt _ (by decide)), List.getD_append _ _ _ _ hin, ← bitAt, hfold]
    simp
  show keyMayMatch key (array ++ [UInt8.ofNat policy.k]) = true ↔ _
  unfold keyMayMatch
  dsimp only
  rw [List.length_append, List.length_singleton, hlen, Nat.add_sub_cancel, if_neg (by omega), hk,
    if_neg (Nat.not_lt.mpr policy.k_le), List.all_eq_true]
  refine forall₂_congr fun p hp => ?_
  exact hbit p (bitPositions_lt hbits _ _ _ p hp)

end BloomFilterPolicy

/-- `leveldb.BuiltinBloomFilter2`. -/
def bloomFilterPolicy (policy : BloomFilterPolicy) : FilterPolicy where
  name := ascii "leveldb.BuiltinBloomFilter2".toList
  length_name := by decide +kernel
  createFilter := policy.createFilter
  keyMayMatch := BloomFilterPolicy.keyMayMatch
  mayMatch_of_mem := fun h =>
    (BloomFilterPolicy.keyMayMatch_iff _ _ _).mpr (accepts_built_of_mem h)

/-- The policy that the database gives to its tables. -/
def internalFilterPolicy (userPolicy : FilterPolicy) : FilterPolicy where
  name := userPolicy.name
  length_name := userPolicy.length_name
  createFilter keys := userPolicy.createFilter (keys.map extractUserKey)
  keyMayMatch key filter := userPolicy.keyMayMatch (extractUserKey key) filter
  mayMatch_of_mem := fun h => userPolicy.mayMatch_of_mem (List.mem_map_of_mem h)

end BloomHierarchy
